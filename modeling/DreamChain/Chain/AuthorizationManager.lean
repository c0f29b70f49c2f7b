import DreamChain.Chain.NativeActions
import DreamChain.Chain.AuthorityChecker

/-!
The authorization manager: which permission an action asks for at least, and whether the
authorizations an action declares are relevant and satisfied. All actions of a transaction are
checked against the database as it is before the first of them is executed.

Five native actions have checks of their own instead of a minimum permission, see
`IsSpecialCase`.
-/

namespace DreamChain
open Library

section Lookup

variable (db : ChainDb)

/-- First a link for the action, then the default for all actions of the contract. -/
def lookupLinkedPermission (authorizerAccount scope : AccountName) (actName : ActionName) :
    Option PermissionName :=
  match db.links.find? (linkKey authorizerAccount scope actName) with
  | some requiredPermission => some requiredPermission
  | none => db.links.find? (linkKey authorizerAccount scope 0)

/-- The native actions that cannot be linked to a minimum permission. -/
def IsSpecialCase (scope : AccountName) (actName : ActionName) : Prop :=
  scope = config.systemAccountName ∧
    actName ∈ [UpdateAuth.getName, DeleteAuth.getName, LinkAuth.getName, UnlinkAuth.getName,
      CancelDelay.getName]

instance (scope : AccountName) (actName : ActionName) : Decidable (IsSpecialCase scope actName) :=
  inferInstanceAs (Decidable (_ ∧ _))

/-- No permission is asked for when the action is linked to `eosio.any`. -/
def lookupMinimumPermission (authorizerAccount scope : AccountName) (actName : ActionName) :
    Fallible (Option PermissionName) := do
  eosAssert (¬ IsSpecialCase scope actName) .unlinkableMinPermissionAction
    "cannot call lookup_minimum_permission on native actions that are not allowed to be linked to minimum permissions"
  match lookupLinkedPermission db authorizerAccount scope actName with
  | none => return some config.activeName
  | some linkedPermission =>
    return if linkedPermission = config.eosioAnyName then none else some linkedPermission

end Lookup

section Checks

variable (E : Environment) (db : ChainDb)

def requireSatisfies (auth minimum : PermissionLevel) (message : String) : Fallible Unit := do
  let minPermission ← db.getPermission minimum
  let permission ← db.getPermission auth
  match satisfies db.permissions (auth, permission) (minimum, minPermission) with
  | some true => return
  | some false => .error ⟨.irrelevantAuthException, message⟩
  | none => .error ⟨.undefinedBehavior, "dereference of the end of the permission index"⟩

def singleAuthorization (auths : List PermissionLevel) (message : String) :
    Fallible PermissionLevel :=
  match auths with
  | [auth] => .ok auth
  | _ => .error ⟨.irrelevantAuthException, message⟩

def checkUpdateauthAuthorization (update : UpdateAuth) (auths : List PermissionLevel) :
    Fallible Unit := do
  let auth ← singleAuthorization auths
    "updateauth action should only have one declared authorization"
  eosAssert (auth.actor = update.account) .irrelevantAuthException
    "the owner of the affected permission needs to be the actor of the declared authorization"
  -- a new permission is created under the authority of its parent
  let permission ← db.findPermission ⟨update.account, update.permission⟩
  let minimum := if permission.isSome then update.permission else update.parent
  requireSatisfies db auth ⟨update.account, minimum⟩
    "updateauth action declares irrelevant authority '${auth}'; minimum authority is ${min}"

def checkDeleteauthAuthorization (del : DeleteAuth) (auths : List PermissionLevel) :
    Fallible Unit := do
  let auth ← singleAuthorization auths
    "deleteauth action should only have one declared authorization"
  eosAssert (auth.actor = del.account) .irrelevantAuthException
    "the owner of the permission to delete needs to be the actor of the declared authorization"
  requireSatisfies db auth ⟨del.account, del.permission⟩
    "updateauth action declares irrelevant authority '${auth}'; minimum authority is ${min}"

def checkLinkable (link : LinkAuth) : Fallible Unit := do
  eosAssert (link.type ≠ UpdateAuth.getName) .actionValidateException
    "Cannot link eosio::updateauth to a minimum permission"
  eosAssert (link.type ≠ DeleteAuth.getName) .actionValidateException
    "Cannot link eosio::deleteauth to a minimum permission"
  eosAssert (link.type ≠ LinkAuth.getName) .actionValidateException
    "Cannot link eosio::linkauth to a minimum permission"
  eosAssert (link.type ≠ UnlinkAuth.getName) .actionValidateException
    "Cannot link eosio::unlinkauth to a minimum permission"
  eosAssert (link.type ≠ CancelDelay.getName) .actionValidateException
    "Cannot link eosio::canceldelay to a minimum permission"

def checkLinkauthAuthorization (link : LinkAuth) (auths : List PermissionLevel) :
    Fallible Unit := do
  let auth ← singleAuthorization auths "link action should only have one declared authorization"
  eosAssert (auth.actor = link.account) .irrelevantAuthException
    "the owner of the linked permission needs to be the actor of the declared authorization"
  if link.code = config.systemAccountName ∨ E.fixLinkauthRestriction = false then
    checkLinkable link
  match ← lookupMinimumPermission db link.account link.code link.type with
  | none => return
  | some linkedPermissionName =>
    requireSatisfies db auth ⟨link.account, linkedPermissionName⟩
      "link action declares irrelevant authority '${auth}'; minimum authority is ${min}"

def checkUnlinkauthAuthorization (unlink : UnlinkAuth) (auths : List PermissionLevel) :
    Fallible Unit := do
  let auth ← singleAuthorization auths "unlink action should only have one declared authorization"
  eosAssert (auth.actor = unlink.account) .irrelevantAuthException
    "the owner of the linked permission needs to be the actor of the declared authorization"
  match lookupLinkedPermission db unlink.account unlink.code unlink.type with
  | none =>
    .error ⟨.transactionException,
      "cannot unlink non-existent permission link of account '${account}' for actions matching '${code}::${action}'"⟩
  | some unlinkedPermissionName =>
    if unlinkedPermissionName = config.eosioAnyName then return
    requireSatisfies db auth ⟨unlink.account, unlinkedPermissionName⟩
      "unlink action declares irrelevant authority '${auth}'; minimum authority is ${min}"

def checkCanceldelayAuthorization (cancel : CancelDelay) (auths : List PermissionLevel) :
    Fallible Int := do
  let auth ← singleAuthorization auths
    "canceldelay action should only have one declared authorization"
  requireSatisfies db auth cancel.cancelingAuth
    "canceldelay action declares irrelevant authority '${auth}'; specified authority to satisfy is ${min}"
  match db.generated.entries.find? fun e => e.2.trxId = cancel.trxId ∧ (ofLex e.1).1 = 0 with
  | none =>
    .error ⟨.txNotFound,
      "cannot cancel trx_id=${tid}, there is no deferred transaction with that transaction id"⟩
  | some (_, gto) => do
    eosAssert (∃ act ∈ gto.trx.actions, cancel.cancelingAuth ∈ act.authorization)
      .actionValidateException
      "canceling_auth in canceldelay action was not found as authorization in the original delayed transaction"
    return gto.delayUntil - gto.published

end Checks

section CheckAuthorization

variable (A : Arrangement) (E : Environment) (db : ChainDb)

def unpackException : ChainException := ⟨.other 0, "data of the action does not unpack"⟩

def checkSpecialCase (act : Action) (delay : Int) : Fallible Int :=
  if act.name = UpdateAuth.getName then
    match act.data with
    | .updateauth data => (checkUpdateauthAuthorization db data act.authorization).map fun _ => delay
    | _ => .error unpackException
  else if act.name = DeleteAuth.getName then
    match act.data with
    | .deleteauth data => (checkDeleteauthAuthorization db data act.authorization).map fun _ => delay
    | _ => .error unpackException
  else if act.name = LinkAuth.getName then
    match act.data with
    | .linkauth data => (checkLinkauthAuthorization E db data act.authorization).map fun _ => delay
    | _ => .error unpackException
  else if act.name = UnlinkAuth.getName then
    match act.data with
    | .unlinkauth data => (checkUnlinkauthAuthorization db data act.authorization).map fun _ => delay
    | _ => .error unpackException
  else
    match act.data with
    | .canceldelay data => (checkCanceldelayAuthorization db data act.authorization).map (max delay)
    | _ => .error unpackException

def checkDeclared (act : Action) (declaredAuth : PermissionLevel) : Fallible Unit := do
  match ← lookupMinimumPermission db declaredAuth.actor act.account act.name with
  | none => return
  | some minPermissionName =>
    requireSatisfies db declaredAuth ⟨declaredAuth.actor, minPermissionName⟩
      "action declares irrelevant authority '${auth}'; minimum authority is ${min}"

/-- An authorization is satisfied with the smallest of the delays it is declared with. -/
def addDelay (permissionsToSatisfy : FlatMap PermissionLevel Int) (declaredAuth : PermissionLevel)
    (delay : Int) : FlatMap PermissionLevel Int :=
  match permissionsToSatisfy.find? declaredAuth with
  | none => permissionsToSatisfy.insert declaredAuth delay
  | some d => if delay < d then permissionsToSatisfy.insert declaredAuth delay
      else permissionsToSatisfy

variable (satisfiedAuthorizations : List PermissionLevel)

def collectDeclared (act : Action) (delay : Int) :
    List PermissionLevel → FlatMap PermissionLevel Int → Fallible (FlatMap PermissionLevel Int)
  | [], permissionsToSatisfy => .ok permissionsToSatisfy
  | declaredAuth :: rest, permissionsToSatisfy => do
    if ¬ IsSpecialCase act.account act.name then checkDeclared db act declaredAuth
    collectDeclared act delay rest
      (if declaredAuth ∈ satisfiedAuthorizations then permissionsToSatisfy
        else addDelay permissionsToSatisfy declaredAuth delay)

def collectPermissions (effectiveProvidedDelay : Int) :
    List Action → FlatMap PermissionLevel Int → Fallible (FlatMap PermissionLevel Int)
  | [], permissionsToSatisfy => .ok permissionsToSatisfy
  | act :: rest, permissionsToSatisfy => do
    let delay ← if IsSpecialCase act.account act.name then
        checkSpecialCase E db act effectiveProvidedDelay
      else pure effectiveProvidedDelay
    let permissionsToSatisfy ← collectDeclared db satisfiedAuthorizations act delay
      act.authorization permissionsToSatisfy
    collectPermissions effectiveProvidedDelay rest permissionsToSatisfy

def satisfyAll : List (PermissionLevel × Int) → AuthorityChecker → Fallible AuthorityChecker
  | [], c => .ok c
  | (permission, delay) :: rest, c => do
    let (r, c) ← c.withDelay delay fun c => c.satisfied A permission
    eosAssert (r = true) .unsatisfiedAuthorization
      "transaction declares authority '${auth}', but does not have signatures for it under a provided delay of ${provided_delay} ms, provided permissions ${provided_permissions}, provided keys ${provided_keys}, and a delay max limit of ${delay_max_limit_ms} ms"
    satisfyAll rest c

def maximumMicroseconds : Int := 2 ^ 63 - 1

variable (providedKeys : List PublicKeyType) (providedPermissions : List PermissionLevel)
  (providedDelay : Int)

def effectiveProvidedDelay : Int :=
  if (E.maxTransactionDelay : Int) * 1000000 ≤ providedDelay then maximumMicroseconds
  else providedDelay

def authorizationChecker : AuthorityChecker :=
  makeAuthChecker (fun p => (db.getPermission p).map PermissionObject.auth) E.maxAuthorityDepth
    providedKeys providedPermissions (effectiveProvidedDelay E providedDelay)

def checkAuthorization (actions : List Action) (allowUnusedKeys : Bool) : Fallible Unit := do
  let permissionsToSatisfy ← collectPermissions E db satisfiedAuthorizations
    (effectiveProvidedDelay E providedDelay) actions .empty
  let c ← satisfyAll A permissionsToSatisfy.entries
    (authorizationChecker E db providedKeys providedPermissions providedDelay)
  eosAssert (allowUnusedKeys = true ∨ c.allKeysUsed = true) .txIrrelevantSig
    "transaction bears irrelevant signatures from these keys: ${keys}"

end CheckAuthorization

end DreamChain
