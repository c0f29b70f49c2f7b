import DreamChain.Chain.ChainDb

/-!
The native actions of the system account and the genesis state they start from. An action
checks what it is given, changes the objects it is about and charges or refunds the account
for the memory that they take.

`NativeEffect` says once what a successful action can do to the database. An action that fails
is rolled back with the transaction it is in.
-/

namespace DreamChain
open Library

section Preconditions

variable (E : Environment) (db : ChainDb)

def requireAuthorization (authorization : List PermissionLevel) (account : AccountName) :
    Applied Unit :=
  require (∃ auth ∈ authorization, auth.actor = account) .missingAuthException
    "missing authority of ${account}"

def validatePermissionPrecondition (a : PermissionLevel) : Applied Unit := do
  require (a.actor ∈ db.accounts.keys) .actionValidateException "account '${account}' does not exist"
  if a.permission = config.ownerName ∨ a.permission = config.activeName then return
  -- the virtual permission does not exist in the index
  if a.permission = config.eosioCodeName then return
  match db.getPermission a with
  | .ok _ => return
  | .error e =>
    if e.type = .permissionQueryException then
      .error ⟨⟨.actionValidateException, "permission '${perm}' does not exist"⟩, none⟩
    else .error ⟨e, none⟩

local instance : LawfulBEq PublicKeyType := List.instLawfulBEq

def checkKeyList (key : PublicKeyType) : Applied Unit :=
  require (key ∉ E.keyBlacklist) .keyBlacklistException "public key '${key}' is on the key blacklist"

def validateAuthorityPrecondition (auth : Authority) : Applied Unit := do
  auth.accounts.forM fun a => validatePermissionPrecondition db a.permission
  if E.enforceKeyList then auth.keys.forM fun k => checkKeyList E k.key

end Preconditions

namespace ChainDb

def createAccount (db : ChainDb) (name : AccountName) (account : AccountObject)
    (metadata : AccountMetadataObject) : Applied ChainDb :=
  if name ∈ db.accounts.keys ∨ name ∈ db.metadata.keys then .error ⟨uniquenessViolated, none⟩
  else
    .ok { db with accounts := db.accounts.insert name account
                  metadata := db.metadata.insert name metadata }

def initializeAccount (db : ChainDb) (name : AccountName) : Applied ChainDb :=
  if name ∈ db.ramUsage.keys then .error ⟨uniquenessViolated, none⟩
  else .ok { db with ramUsage := db.ramUsage.insert name 0 }

def getAccount (db : ChainDb) (name : AccountName) : Applied AccountObject :=
  match db.accounts.find? name with
  | some account => .ok account
  | none => .error ⟨unknownKey, none⟩

def getMetadata (db : ChainDb) (name : AccountName) : Applied AccountMetadataObject :=
  match db.metadata.find? name with
  | some metadata => .ok metadata
  | none => .error ⟨unknownKey, none⟩

def createOwnerAndActive (db : ChainDb) (name : AccountName) (owner active : Authority) :
    Applied ChainDb := do
  let (ownerPermission, db) ← db.createPermission ⟨name, config.ownerName⟩ 0 owner
  let (_, db) ← db.createPermission ⟨name, config.activeName⟩ ownerPermission.id active
  let db ← db.initializeAccount name
  db.addRamUsage name (config.overheadPerAccountRamBytes + 2 * config.billableSizePermissionObject +
    owner.getBillableSize + active.getBillableSize : Nat)

end ChainDb

section Genesis

structure Genesis where
  initialKey : PublicKeyType := []
  /-- The packed ABI of the system account. -/
  systemAbi : List UInt8 := []

def createNativeAccount (g : Genesis) (name : AccountName) (owner active : Authority)
    (isPrivileged : Bool) (db : ChainDb) : Applied ChainDb := do
  let abi := if name = config.systemAccountName then g.systemAbi else []
  let db ← db.createAccount name ⟨abi⟩ ⟨isPrivileged, {}⟩
  db.createOwnerAndActive name owner active

def Authority.ofKey (key : PublicKeyType) : Authority :=
  { threshold := 1, keys := [⟨key, 1⟩] }

def emptyAuthority : Authority := { threshold := 1 }

def activeProducersAuthority : Authority :=
  { threshold := 1, accounts := [⟨⟨config.systemAccountName, config.activeName⟩, 1⟩] }

/-- The permission that reserves the id 0. -/
def reservedPermission : PermissionObject := ⟨0, 0, {}⟩

def emptyDatabase : ChainDb :=
  { permissions := FlatMap.empty.insert ⟨0, 0⟩ reservedPermission, nextPermissionId := 1 }

def initializeDatabase (g : Genesis) : Applied ChainDb := do
  let systemAuth := Authority.ofKey g.initialKey
  let db ← createNativeAccount g config.systemAccountName systemAuth systemAuth true emptyDatabase
  let db ← createNativeAccount g config.nullAccountName emptyAuthority emptyAuthority false db
  let db ← createNativeAccount g config.producersAccountName emptyAuthority activeProducersAuthority
    false db
  let activePermission ← ActionFailure.lift
    (db.getPermission ⟨config.producersAccountName, config.activeName⟩)
  let (majorityPermission, db) ← db.createPermission
    ⟨config.producersAccountName, config.majorityProducersPermissionName⟩ activePermission.id
    activeProducersAuthority
  let (_, db) ← db.createPermission
    ⟨config.producersAccountName, config.minorityProducersPermissionName⟩ majorityPermission.id
    activeProducersAuthority
  return db

end Genesis

section ProducersAuthority

variable (producers : List AccountName)

def producersAuthority (numerator denominator : Nat) : Authority :=
  { threshold := UInt32.ofNat (u32 (producers.length * numerator) / denominator + 1)
    accounts := producers.map fun p => ⟨⟨p, config.activeName⟩, 1⟩ }

def updatePermission (level : PermissionLevel) (auth : Authority) (db : ChainDb) :
    Applied ChainDb := do
  let permission ← ActionFailure.lift (db.getPermission level)
  return db.modifyPermission level permission auth

/-- `update_producers_authority`, which charges nobody. -/
def updateProducersAuthority (db : ChainDb) : Applied ChainDb := do
  let db ← updatePermission ⟨config.producersAccountName, config.activeName⟩
    (producersAuthority producers 2 3) db
  let db ← updatePermission ⟨config.producersAccountName, config.majorityProducersPermissionName⟩
    (producersAuthority producers 1 2) db
  updatePermission ⟨config.producersAccountName, config.minorityProducersPermissionName⟩
    (producersAuthority producers 1 3) db

end ProducersAuthority

section Actions

variable (E : Environment) (authorization : List PermissionLevel)

def applyEosioNewaccount (create : NewAccount) (db : ChainDb) : Applied ChainDb := do
  requireAuthorization authorization create.creator
  require (create.owner.validate = true) .actionValidateException "Invalid owner authority"
  require (create.active.validate = true) .actionValidateException "Invalid active authority"
  require (create.name ≠ 0) .actionValidateException "account name cannot be empty"
  require ((nameToString create.name).length ≤ 12) .actionValidateException
    "account names can only be 12 chars long"
  let creator ← db.getMetadata create.creator
  require (creator.privileged = true ∨ ¬ StartsWithEosio create.name) .actionValidateException
    "only privileged accounts can have names that start with 'eosio.'"
  require (create.name ∉ db.accounts.keys) .accountNameExistsException
    "Cannot create account named ${name}, as that name is already taken"
  let db ← db.createAccount create.name {} {}
  validateAuthorityPrecondition E db create.owner
  validateAuthorityPrecondition E db create.active
  db.createOwnerAndActive create.name create.owner create.active

def releaseCode (db : ChainDb) (codeHash : DigestType) (entry : CodeObject) : ChainDb :=
  if entry.codeRefCount = 1 then { db with codes := db.codes.erase codeHash }
  else { db with codes := db.codes.insert codeHash
                            { entry with codeRefCount := u64 (entry.codeRefCount + (2 ^ 64 - 1)) } }

def acquireCode (db : ChainDb) (codeHash : DigestType) (code : List UInt8) : ChainDb :=
  match db.codes.find? codeHash with
  | some entry =>
    { db with codes := db.codes.insert codeHash
                         { entry with codeRefCount := u64 (entry.codeRefCount + 1) } }
  | none => { db with codes := db.codes.insert codeHash ⟨code, 1⟩ }

/-- The code an account runs until now is released; the result holds its size too. -/
def releaseExistingCode (db : ChainDb) (account : AccountMetadataObject) (codeHash : DigestType) :
    Applied (Nat × ChainDb) :=
  if account.codeHash = {} then .ok (0, db)
  else
    match db.codes.find? account.codeHash with
    | none => .error ⟨unknownKey, none⟩
    | some entry => do
      require (account.codeHash ≠ codeHash) .setExactCode
        "contract is already running this version of code"
      return (entry.code.length, releaseCode db account.codeHash entry)

/-- The default is the hash of all zeros. -/
def codeHash (code : List UInt8) : DigestType := if code = [] then {} else E.hash code

def installCode (db : ChainDb) (name : AccountName) (account : AccountMetadataObject)
    (code : List UInt8) : ChainDb :=
  let db := if code = [] then db else acquireCode db (codeHash E code) code
  { db with metadata := db.metadata.insert name { account with codeHash := codeHash E code } }

def applyEosioSetcode (act : SetCode) (db : ChainDb) : Applied ChainDb := do
  requireAuthorization authorization act.account
  require (act.vmtype = 0) .invalidContractVmType "code should be 0"
  require (act.vmversion = 0) .invalidContractVmVersion "version should be 0"
  ActionFailure.lift (if act.code = [] then .ok () else E.validateCode act.code)
  let account ← db.getMetadata act.account
  require (act.code ≠ [] ∨ account.codeHash ≠ {}) .setExactCode "contract is already cleared"
  let (oldSize, db) ← releaseExistingCode db account (codeHash E act.code)
  (installCode E db act.account account act.code).addRamUsage act.account
    (act.code.length * config.setcodeRamBytesMultiplier -
      oldSize * config.setcodeRamBytesMultiplier)

def applyEosioSetabi (act : SetAbi) (db : ChainDb) : Applied ChainDb := do
  requireAuthorization authorization act.account
  let account ← db.getAccount act.account
  let db := { db with accounts := db.accounts.insert act.account { account with abi := act.abi } }
  let _ ← db.getMetadata act.account
  db.addRamUsage act.account (act.abi.length - account.abi.length)

def validateUpdateauth (update : UpdateAuth) (db : ChainDb) : Applied Unit := do
  requireAuthorization authorization update.account
  require (update.permission ≠ 0) .actionValidateException "Cannot create authority with empty name"
  require (¬ StartsWithEosio update.permission) .actionValidateException
    "Permission names that start with 'eosio.' are reserved"
  require (update.permission ≠ update.parent) .actionValidateException
    "Cannot set an authority as its own parent"
  let _ ← db.getAccount update.account
  require (update.auth.validate = true) .actionValidateException "Invalid authority: ${auth}"
  require (update.permission = config.activeName → update.parent = config.ownerName)
    .actionValidateException "Cannot change active authority's parent from owner"
  if update.permission = config.ownerName then
    require (update.parent = 0) .actionValidateException "Cannot change owner authority's parent"
  else
    require (update.parent ≠ 0) .actionValidateException
      "Only owner permission can have empty parent"
  require (∀ w ∈ update.auth.waits.getLast?, w.waitSec.toNat ≤ E.maxTransactionDelay)
    .actionValidateException
    "Cannot set delay longer than max_transacton_delay, which is ${max_delay} seconds"
  validateAuthorityPrecondition E db update.auth

/-- An id of 0 stands for a missing parent. -/
def parentId (update : UpdateAuth) (db : ChainDb) : Applied Nat :=
  if update.permission = config.ownerName then .ok 0
  else do
    let parent ← ActionFailure.lift (db.getPermission ⟨update.account, update.parent⟩)
    return parent.id

def permissionSize (auth : Authority) : Nat :=
  config.billableSizePermissionObject + auth.getBillableSize

def applyEosioUpdateauth (update : UpdateAuth) (db : ChainDb) : Applied ChainDb := do
  validateUpdateauth E authorization update db
  let level := ⟨update.account, update.permission⟩
  let permission ← ActionFailure.lift (db.findPermission level)
  let parentId ← parentId update db
  match permission with
  | some permission => do
    require (parentId = permission.parent) .actionValidateException
      "Changing parent authority is not currently supported"
    (db.modifyPermission level permission update.auth).addRamUsage update.account
      (permissionSize update.auth - permissionSize permission.auth)
  | none => do
    let (p, db) ← db.createPermission level parentId update.auth
    db.addRamUsage update.account (permissionSize p.auth)

def applyEosioDeleteauth (remove : DeleteAuth) (db : ChainDb) : Applied ChainDb := do
  requireAuthorization authorization remove.account
  require (remove.permission ≠ config.activeName) .actionValidateException
    "Cannot delete active authority"
  require (remove.permission ≠ config.ownerName) .actionValidateException
    "Cannot delete owner authority"
  require (∀ e ∈ db.links.entries, (ofLex e.1).1 = remove.account → e.2 ≠ remove.permission)
    .actionValidateException
    "Cannot delete a linked authority. Unlink the authority first. This authority is linked to ${code}::${type}."
  let level := ⟨remove.account, remove.permission⟩
  let permission ← ActionFailure.lift (db.getPermission level)
  let db ← db.removePermission level permission
  db.addRamUsage remove.account (-(permissionSize permission.auth : Nat))

def LinkAuth.PermissionExists (requirement : LinkAuth) (db : ChainDb) : Prop :=
  ∃ level ∈ db.permissions.keys, level.permission = requirement.requirement ∧
    (E.onlyLinkToExistingPermission = true → level.actor = requirement.account)

instance (requirement : LinkAuth) (db : ChainDb) : Decidable (requirement.PermissionExists E db) :=
  inferInstanceAs (Decidable (∃ level ∈ _, _ ∧ (_ → _)))

def linkKey (account code : AccountName) (type : ActionName) : Nat ×ₗ Nat ×ₗ Nat :=
  toLex (account, toLex (code, type))

def applyEosioLinkauth (requirement : LinkAuth) (db : ChainDb) : Applied ChainDb := do
  require (requirement.requirement ≠ 0) .actionValidateException "Required permission cannot be empty"
  requireAuthorization authorization requirement.account
  require (requirement.account ∈ db.accounts.keys) .accountQueryException
    "Failed to retrieve account: ${account}"
  require (requirement.code ∈ db.accounts.keys) .accountQueryException
    "Failed to retrieve code for account: ${account}"
  require (requirement.requirement = config.eosioAnyName ∨ requirement.PermissionExists E db)
    .permissionQueryException "Failed to retrieve permission: ${permission}"
  let key := linkKey requirement.account requirement.code requirement.type
  let linked := { db with links := db.links.insert key requirement.requirement }
  match db.links.find? key with
  | some requiredPermission => do
    require (requiredPermission ≠ requirement.requirement) .actionValidateException
      "Attempting to update required authority, but new requirement is same as old"
    return linked
  | none => linked.addRamUsage requirement.account config.billableSizePermissionLinkObject

def applyEosioUnlinkauth (unlink : UnlinkAuth) (db : ChainDb) : Applied ChainDb := do
  requireAuthorization authorization unlink.account
  let key := linkKey unlink.account unlink.code unlink.type
  require (key ∈ db.links.keys) .actionValidateException
    "Attempting to unlink authority, but no link found"
  let db ← db.addRamUsage unlink.account (-(config.billableSizePermissionLinkObject : Nat))
  return { db with links := db.links.erase key }

def generatedTransactionSize (gto : GeneratedTransactionObject) : Nat :=
  config.billableSizeGeneratedTransactionObject + E.packSize gto.trx

/-- Whether there was such a transaction is not used by the native action. -/
def cancelDeferredTransaction (senderId : Nat) (sender : AccountName) (db : ChainDb) :
    Applied (Bool × ChainDb) :=
  match db.generated.find? (toLex (sender, senderId)) with
  | none => .ok (false, db)
  | some gto => do
    let db ← db.addRamUsage gto.payer (-(generatedTransactionSize E gto : Nat))
    return (true, { db with generated := db.generated.erase (toLex (sender, senderId)) })

/-- The last sixteen bytes of the id. -/
def transactionIdToSenderId (tid : TransactionIdType) : Nat := tid.hash3 * 2 ^ 64 + tid.hash2

def applyEosioCanceldelay (cancel : CancelDelay) (db : ChainDb) : Applied ChainDb := do
  requireAuthorization authorization cancel.cancelingAuth.actor
  let (_, db) ← cancelDeferredTransaction E (transactionIdToSenderId cancel.trxId) 0 db
  return db

end Actions

section Dispatch

variable (E : Environment)

def unpackFailure : ActionFailure := ⟨⟨.other 0, "data of the action does not unpack"⟩, none⟩

def applyNative (act : Action) (db : ChainDb) : Applied ChainDb :=
  if act.account ≠ config.systemAccountName then .ok db
  else if act.name = NewAccount.getName then
    match act.data with
    | .newaccount data => applyEosioNewaccount E act.authorization data db
    | _ => .error unpackFailure
  else if act.name = SetCode.getName then
    match act.data with
    | .setcode data => applyEosioSetcode E act.authorization data db
    | _ => .error unpackFailure
  else if act.name = SetAbi.getName then
    match act.data with
    | .setabi data => applyEosioSetabi act.authorization data db
    | _ => .error unpackFailure
  else if act.name = UpdateAuth.getName then
    match act.data with
    | .updateauth data => applyEosioUpdateauth E act.authorization data db
    | _ => .error unpackFailure
  else if act.name = DeleteAuth.getName then
    match act.data with
    | .deleteauth data => applyEosioDeleteauth act.authorization data db
    | _ => .error unpackFailure
  else if act.name = LinkAuth.getName then
    match act.data with
    | .linkauth data => applyEosioLinkauth E act.authorization data db
    | _ => .error unpackFailure
  else if act.name = UnlinkAuth.getName then
    match act.data with
    | .unlinkauth data => applyEosioUnlinkauth act.authorization data db
    | _ => .error unpackFailure
  else if act.name = CancelDelay.getName then
    match act.data with
    | .canceldelay data => applyEosioCanceldelay E act.authorization data db
    | _ => .error unpackFailure
  else .ok db

end Dispatch

namespace ChainDb

variable {db db' : ChainDb}

variable {level : PermissionLevel} {name : AccountName} {account : AccountObject}
  {metadata : AccountMetadataObject}

theorem createPermission_ok {parent auth r} (h : db.createPermission level parent auth = .ok r) :
    level ∉ db.permissions.keys ∧ r.1 = ⟨db.nextPermissionId, parent, auth⟩ ∧
      r.2 = { db with permissions := db.permissions.insert level ⟨db.nextPermissionId, parent, auth⟩
                      nextPermissionId := db.nextPermissionId + 1 } := by
  rw [createPermission] at h
  split at h
  · cases h
  · rename_i hnone
    cases h
    exact ⟨(db.permissions.find?_eq_none_iff level).mp hnone, rfl, rfl⟩

theorem removePermission_ok {p : PermissionObject} (h : db.removePermission level p = .ok db') :
    (∀ q ∈ db.permissions.values, q.parent ≠ p.id) ∧
      db' = { db with permissions := db.permissions.erase level } := by
  simp only [removePermission, bind_eq_ok, require_eq_ok] at h
  obtain ⟨_, hleaf, h⟩ := h
  cases h
  exact ⟨hleaf, rfl⟩

theorem getAccount_ok :
    db.getAccount name = .ok account ↔ db.accounts.find? name = some account := by
  rw [getAccount]
  cases db.accounts.find? name <;> simp

theorem getMetadata_ok :
    db.getMetadata name = .ok metadata ↔ db.metadata.find? name = some metadata := by
  rw [getMetadata]
  cases db.metadata.find? name <;> simp

def withAccount (db : ChainDb) (name : AccountName) (account : AccountObject)
    (metadata : AccountMetadataObject) (owner active : Authority) : ChainDb :=
  { db with
    accounts := db.accounts.insert name account
    metadata := db.metadata.insert name metadata
    permissions := (db.permissions.insert ⟨name, config.ownerName⟩
      ⟨db.nextPermissionId, 0, owner⟩).insert ⟨name, config.activeName⟩
        ⟨db.nextPermissionId + 1, db.nextPermissionId, active⟩
    nextPermissionId := db.nextPermissionId + 2
    ramUsage := db.ramUsage.insert name 0 }

structure AccountCreated (db : ChainDb) (name : AccountName) (account : AccountObject)
    (metadata : AccountMetadataObject) (owner active : Authority) (db' : ChainDb) : Prop where
  account_absent : name ∉ db.accounts.keys
  metadata_absent : name ∉ db.metadata.keys
  owner_absent : ⟨name, config.ownerName⟩ ∉ db.permissions.keys
  active_absent : ⟨name, config.activeName⟩ ∉ db.permissions.keys
  usage_absent : name ∉ db.ramUsage.keys
  charged : (db.withAccount name account metadata owner active).addRamUsage name
    (config.overheadPerAccountRamBytes + 2 * config.billableSizePermissionObject +
      owner.getBillableSize + active.getBillableSize : Nat) = .ok db'

theorem accountCreated {owner active db₁} (h : db.createAccount name account metadata = .ok db₁)
    (h₁ : db₁.createOwnerAndActive name owner active = .ok db') :
    AccountCreated db name account metadata owner active db' := by
  rw [createAccount] at h
  split at h
  · cases h
  rename_i habsent
  cases h
  simp only [createOwnerAndActive, bind_eq_ok] at h₁
  obtain ⟨⟨o, _⟩, howner, ⟨a, _⟩, hactive, _, hinit, hcharge⟩ := h₁
  obtain ⟨hoAbsent, rfl, rfl⟩ := createPermission_ok howner
  obtain ⟨haAbsent, rfl, rfl⟩ := createPermission_ok hactive
  rw [initializeAccount] at hinit
  split at hinit
  · cases hinit
  rename_i husage
  cases hinit
  refine ⟨fun h => habsent (.inl h), fun h => habsent (.inr h), hoAbsent, ?_, husage, hcharge⟩
  intro hmem
  exact haAbsent ((FlatMap.mem_keys_insert _ _ _ _).mpr (.inr hmem))

end ChainDb

section Effect

inductive UpdateauthEffect (db : ChainDb) (update : UpdateAuth) (db' : ChainDb) : Prop
  | modify {p} :
      db.permissions.find? ⟨update.account, update.permission⟩ = some p →
      parentId update db = .ok p.parent →
      (db.modifyPermission ⟨update.account, update.permission⟩ p update.auth).addRamUsage
        update.account (permissionSize update.auth - permissionSize p.auth) = .ok db' →
        UpdateauthEffect db update db'
  | create {parent} : update.account ∈ db.accounts.keys → update.permission ≠ 0 →
      ⟨update.account, update.permission⟩ ∉ db.permissions.keys →
      parentId update db = .ok parent →
      { db with permissions := db.permissions.insert ⟨update.account, update.permission⟩
                  ⟨db.nextPermissionId, parent, update.auth⟩
                nextPermissionId := db.nextPermissionId + 1
        }.addRamUsage update.account (permissionSize update.auth) = .ok db' →
        UpdateauthEffect db update db'

inductive DeleteauthEffect (db : ChainDb) (remove : DeleteAuth) (db' : ChainDb) : Prop
  | intro {p} :
      remove.permission ≠ config.activeName → remove.permission ≠ config.ownerName →
      (∀ e ∈ db.links.entries, (ofLex e.1).1 = remove.account → e.2 ≠ remove.permission) →
      PermissionLevel.Named ⟨remove.account, remove.permission⟩ →
      db.permissions.find? ⟨remove.account, remove.permission⟩ = some p →
      (∀ q ∈ db.permissions.values, q.parent ≠ p.id) →
      { db with permissions := db.permissions.erase ⟨remove.account, remove.permission⟩
        }.addRamUsage remove.account (-(permissionSize p.auth : Nat)) = .ok db' →
        DeleteauthEffect db remove db'

inductive LinkauthEffect (E : Environment) (db : ChainDb) (requirement : LinkAuth) : ChainDb → Prop
  | relink {old} :
      requirement.requirement = config.eosioAnyName ∨ requirement.PermissionExists E db →
      db.links.find? (linkKey requirement.account requirement.code requirement.type) = some old →
        LinkauthEffect E db requirement { db with
          links := db.links.insert (linkKey requirement.account requirement.code requirement.type)
            requirement.requirement }
  | link {db'} : requirement.account ∈ db.accounts.keys →
      requirement.requirement = config.eosioAnyName ∨ requirement.PermissionExists E db →
      linkKey requirement.account requirement.code requirement.type ∉ db.links.keys →
      { db with
        links := db.links.insert (linkKey requirement.account requirement.code requirement.type)
          requirement.requirement }.addRamUsage requirement.account
            config.billableSizePermissionLinkObject = .ok db' →
        LinkauthEffect E db requirement db'

inductive UnlinkauthEffect (db : ChainDb) (unlink : UnlinkAuth) : ChainDb → Prop
  | intro {db₁} : linkKey unlink.account unlink.code unlink.type ∈ db.links.keys →
      db.addRamUsage unlink.account (-(config.billableSizePermissionLinkObject : Nat)) = .ok db₁ →
        UnlinkauthEffect db unlink { db₁ with
          links := db₁.links.erase (linkKey unlink.account unlink.code unlink.type) }

inductive NativeEffect (E : Environment) (db : ChainDb) : ActionData → ChainDb → Prop
  | newaccount {create db'} : create.name ≠ 0 →
      db.AccountCreated create.name {} {} create.owner create.active db' →
        NativeEffect E db (.newaccount create) db'
  | setcode {act account oldSize db₁ db'} :
      db.metadata.find? act.account = some account →
      releaseExistingCode db account (codeHash E act.code) = .ok (oldSize, db₁) →
      (installCode E db₁ act.account account act.code).addRamUsage act.account
        (act.code.length * config.setcodeRamBytesMultiplier -
          oldSize * config.setcodeRamBytesMultiplier) = .ok db' →
        NativeEffect E db (.setcode act) db'
  | setabi {act account db'} :
      db.accounts.find? act.account = some account →
      { db with accounts := db.accounts.insert act.account { account with abi := act.abi }
        }.addRamUsage act.account (act.abi.length - account.abi.length) = .ok db' →
        NativeEffect E db (.setabi act) db'
  | updateauth {update db'} : UpdateauthEffect db update db' →
      NativeEffect E db (.updateauth update) db'
  | deleteauth {remove db'} : DeleteauthEffect db remove db' →
      NativeEffect E db (.deleteauth remove) db'
  | linkauth {requirement db'} : LinkauthEffect E db requirement db' →
      NativeEffect E db (.linkauth requirement) db'
  | unlinkauth {unlink db'} : UnlinkauthEffect db unlink db' →
      NativeEffect E db (.unlinkauth unlink) db'
  | canceldelay {cancel found db'} :
      cancelDeferredTransaction E (transactionIdToSenderId cancel.trxId) 0 db = .ok (found, db') →
        NativeEffect E db (.canceldelay cancel) db'
  | other {data} : NativeEffect E db data db

variable {E : Environment} {authorization : List PermissionLevel} {db db' : ChainDb}

theorem newaccount_effect {create : NewAccount}
    (h : applyEosioNewaccount E authorization create db = .ok db') :
    NativeEffect E db (.newaccount create) db' := by
  simp only [applyEosioNewaccount, bind_eq_ok, require_eq_ok] at h
  obtain ⟨_, _, _, _, _, _, _, hname, _, _, _, _, _, _, _, _, _, haccount, _, _, _, _, h⟩ := h
  exact .newaccount hname (ChainDb.accountCreated haccount h)

theorem setcode_effect {act : SetCode} (h : applyEosioSetcode E authorization act db = .ok db') :
    NativeEffect E db (.setcode act) db' := by
  simp only [applyEosioSetcode, bind_eq_ok, ChainDb.getMetadata_ok] at h
  obtain ⟨_, _, _, _, _, _, _, _, _, haccount, _, _, ⟨_, _⟩, hrelease, h⟩ := h
  exact .setcode haccount hrelease h

theorem setabi_effect {act : SetAbi} (h : applyEosioSetabi authorization act db = .ok db') :
    NativeEffect E db (.setabi act) db' := by
  simp only [applyEosioSetabi, bind_eq_ok, ChainDb.getAccount_ok] at h
  obtain ⟨_, _, _, haccount, _, _, h⟩ := h
  exact .setabi haccount h

variable {update : UpdateAuth}

theorem validateUpdateauth_ok {u : Unit} (h : validateUpdateauth E authorization update db = .ok u) :
    update.permission ≠ 0 ∧ update.account ∈ db.accounts.keys := by
  simp only [validateUpdateauth, bind_eq_ok, require_eq_ok, ChainDb.getAccount_ok] at h
  obtain ⟨_, _, _, hname, _, _, _, _, _, haccount, _⟩ := h
  exact ⟨hname, FlatMap.mem_keys_of_find? haccount⟩

theorem updateauth_effect (h : applyEosioUpdateauth E authorization update db = .ok db') :
    UpdateauthEffect db update db' := by
  simp only [applyEosioUpdateauth, bind_eq_ok, lift_eq_ok, ChainDb.findPermission_ok] at h
  obtain ⟨_, hvalid, permission, ⟨_, hfind⟩, _, hparent, h⟩ := h
  obtain ⟨hname, haccount⟩ := validateUpdateauth_ok hvalid
  cases permission with
  | some p =>
    simp only [bind_eq_ok, require_eq_ok] at h
    obtain ⟨_, rfl, h⟩ := h
    exact .modify hfind hparent h
  | none =>
    simp only [bind_eq_ok] at h
    obtain ⟨⟨p, _⟩, hcreate, h⟩ := h
    obtain ⟨habsent, rfl, rfl⟩ := ChainDb.createPermission_ok hcreate
    exact .create haccount hname habsent hparent h

theorem deleteauth_effect {remove : DeleteAuth}
    (h : applyEosioDeleteauth authorization remove db = .ok db') :
    DeleteauthEffect db remove db' := by
  simp only [applyEosioDeleteauth, bind_eq_ok, require_eq_ok, lift_eq_ok,
    ChainDb.getPermission_ok] at h
  obtain ⟨_, _, _, hactive, _, howner, _, hlinks, p, ⟨hnamed, hp⟩, _, hremove, h⟩ := h
  obtain ⟨hleaf, rfl⟩ := ChainDb.removePermission_ok hremove
  exact .intro hactive howner hlinks hnamed hp hleaf h

theorem linkauth_effect {requirement : LinkAuth}
    (h : applyEosioLinkauth E authorization requirement db = .ok db') :
    LinkauthEffect E db requirement db' := by
  simp only [applyEosioLinkauth, bind_eq_ok, require_eq_ok] at h
  obtain ⟨_, _, _, _, _, haccount, _, _, _, hexists, h⟩ := h
  split at h
  · rename_i hold
    simp only [bind_eq_ok] at h
    obtain ⟨_, _, h⟩ := h
    cases h
    exact .relink hexists hold
  · rename_i hnone
    exact .link haccount hexists ((db.links.find?_eq_none_iff _).mp hnone) h

theorem unlinkauth_effect {unlink : UnlinkAuth}
    (h : applyEosioUnlinkauth authorization unlink db = .ok db') :
    UnlinkauthEffect db unlink db' := by
  simp only [applyEosioUnlinkauth, bind_eq_ok, require_eq_ok] at h
  obtain ⟨_, _, _, hlink, _, hrefund, h⟩ := h
  cases h
  exact .intro hlink hrefund

theorem canceldelay_effect {cancel : CancelDelay}
    (h : applyEosioCanceldelay E authorization cancel db = .ok db') :
    NativeEffect E db (.canceldelay cancel) db' := by
  simp only [applyEosioCanceldelay, bind_eq_ok] at h
  obtain ⟨_, _, ⟨_, _⟩, hcancel, h⟩ := h
  cases h
  exact .canceldelay hcancel

theorem applyNative_effect {act : Action} (h : applyNative E act db = .ok db') :
    NativeEffect E db act.data db' := by
  obtain ⟨_, _, _, data⟩ := act
  simp only [applyNative] at h
  split at h
  · cases h
    exact .other
  split at h
  · cases data <;> first | exact newaccount_effect h | cases h
  split at h
  · cases data <;> first | exact setcode_effect h | cases h
  split at h
  · cases data <;> first | exact setabi_effect h | cases h
  split at h
  · cases data <;> first | exact .updateauth (updateauth_effect h) | cases h
  split at h
  · cases data <;> first | exact .deleteauth (deleteauth_effect h) | cases h
  split at h
  · cases data <;> first | exact .linkauth (linkauth_effect h) | cases h
  split at h
  · cases data <;> first | exact .unlinkauth (unlinkauth_effect h) | cases h
  split at h
  · cases data <;> first | exact canceldelay_effect h | cases h
  · cases h
    exact .other

end Effect

section Runs

/-- An action that fails is rolled back. -/
def executeNative (E : Environment) (act : Action) (db : ChainDb) : ChainDb :=
  match applyNative E act db with
  | .ok db' => db'
  | .error _ => db

/-- The states of a chain that starts from a genesis state and executes native actions, in
environments of some kind. -/
inductive Reachable (allowed : Environment → Prop) : ChainDb → Prop
  | genesis {g db} : initializeDatabase g = .ok db → Reachable allowed db
  | native {db} (E : Environment) (act : Action) : allowed E → Reachable allowed db →
      Reachable allowed (executeNative E act db)
  | producers {db db' producers} :
      updateProducersAuthority producers db = .ok db' → Reachable allowed db → Reachable allowed db'

def applyActions (E : Environment) : List Action → ChainDb → Applied ChainDb
  | [], db => .ok db
  | act :: rest, db => do
    let db ← applyNative E act db
    applyActions E rest db

theorem applyActions_append (E : Environment) (pre rest : List Action) (db : ChainDb) :
    applyActions E (pre ++ rest) db = applyActions E pre db >>= applyActions E rest := by
  induction pre generalizing db with
  | nil => rfl
  | cons _ _ ih =>
    simp only [applyActions, bind_assoc]
    exact congrArg _ (funext ih)

theorem Reachable.applyActions {allowed : Environment → Prop} {E : Environment} (hE : allowed E)
    {actions : List Action} {db db' : ChainDb} (h : Reachable allowed db)
    (hok : applyActions E actions db = .ok db') : Reachable allowed db' := by
  induction actions generalizing db with
  | nil =>
    cases hok
    exact h
  | cons act _ ih =>
    simp only [DreamChain.applyActions, bind_eq_ok] at hok
    obtain ⟨_, hact, hrest⟩ := hok
    have hstep := h.native E act hE
    rw [executeNative, hact] at hstep
    exact ih hstep hrest

end Runs

end DreamChain
