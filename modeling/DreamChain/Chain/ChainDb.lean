import DreamChain.Chain.Action

/-!
The part of the chain database that native actions and contracts change: accounts, code,
permissions and their links, contract tables, generated transactions and the recorded memory
use. Each index is a map from its unique key; the other indices of the source are lookups in
the same map.

Ids are handed out in increasing order. The permission with the id 0 is reserved, so that 0
can stand for a missing parent.
-/

namespace DreamChain
open Library

namespace config

/-- `billable_size_v`: sizes are rounded up to the alignment. -/
def billableSizeV (value : Nat) : Nat := (value + 16 - 1) / 16 * 16

def fixedOverheadSharedVectorRamBytes : Nat := 16

def overheadPerRowPerIndexRamBytes : Nat := 32

def overheadPerAccountRamBytes : Nat := 2 * 1024

def setcodeRamBytesMultiplier : Nat := 10

def billableSizePermissionLevelWeight : Nat := billableSizeV 24

def billableSizeKeyWeight : Nat := billableSizeV 8

def billableSizeWaitWeight : Nat := billableSizeV 16

def billableSizeSharedAuthority : Nat := billableSizeV (3 * fixedOverheadSharedVectorRamBytes + 4)

def billableSizePermissionObject : Nat :=
  billableSizeV (billableSizeSharedAuthority + 64 + 5 * overheadPerRowPerIndexRamBytes)

def billableSizePermissionLinkObject : Nat := billableSizeV (40 + overheadPerRowPerIndexRamBytes * 3)

def billableSizeTableIdObject : Nat := billableSizeV (44 + overheadPerRowPerIndexRamBytes * 2)

def billableSizeKeyValueObject : Nat :=
  billableSizeV (32 + 8 + 4 + overheadPerRowPerIndexRamBytes * 2)

def billableSizeGeneratedTransactionObject : Nat :=
  billableSizeV (96 + 4 + overheadPerRowPerIndexRamBytes * 5)

end config

/-- A key is its packed form. -/
def Authority.getBillableSize (a : Authority) : Nat :=
  a.accounts.length * config.billableSizePermissionLevelWeight +
    a.waits.length * config.billableSizeWaitWeight +
      (a.keys.map fun k => config.billableSizeKeyWeight + k.key.length).sum

structure AccountObject where
  abi : List UInt8 := []
deriving DecidableEq, Repr

structure AccountMetadataObject where
  privileged : Bool := false
  codeHash : DigestType := {}
deriving DecidableEq, Repr

structure CodeObject where
  code : List UInt8
  codeRefCount : Nat
deriving DecidableEq, Repr

/-- The owner and the name of a permission are its key in the index. -/
structure PermissionObject where
  id : Nat
  parent : Nat
  auth : Authority
deriving DecidableEq, Repr

abbrev PermissionIndex := FlatMap PermissionLevel PermissionObject

structure GeneratedTransactionObject where
  trxId : TransactionIdType
  payer : AccountName
  delayUntil : Int
  expiration : Int
  published : Int
  trx : Transaction
deriving DecidableEq, Repr

structure TableIdObject where
  id : Nat
  payer : AccountName
  count : Nat
deriving DecidableEq, Repr

structure KeyValueObject where
  payer : AccountName
  value : List UInt8
deriving DecidableEq, Repr

inductive SecondaryIndex where
  | idx64
  | idx128
  | idx256
  | idxDouble
  | idxLongDouble
deriving DecidableEq, Repr

namespace SecondaryIndex

def number : SecondaryIndex → Nat
  | idx64 => 0
  | idx128 => 1
  | idx256 => 2
  | idxDouble => 3
  | idxLongDouble => 4

def keySize : SecondaryIndex → Nat
  | idx64 => 8
  | idx128 => 16
  | idx256 => 32
  | idxDouble => 8
  | idxLongDouble => 16

def billableSize (index : SecondaryIndex) : Nat :=
  config.billableSizeV (24 + index.keySize + config.overheadPerRowPerIndexRamBytes * 3)

end SecondaryIndex

structure SecondaryObject where
  index : SecondaryIndex
  payer : AccountName
  secondaryKey : List UInt8
deriving DecidableEq, Repr

structure ChainDb where
  accounts : FlatMap AccountName AccountObject := .empty
  metadata : FlatMap AccountName AccountMetadataObject := .empty
  codes : FlatMap DigestType CodeObject := .empty
  permissions : PermissionIndex := .empty
  nextPermissionId : Nat := 0
  /-- By account, code and message type. -/
  links : FlatMap (Nat ×ₗ Nat ×ₗ Nat) PermissionName := .empty
  /-- By code, scope and table. -/
  tables : FlatMap (Nat ×ₗ Nat ×ₗ Nat) TableIdObject := .empty
  nextTableId : Nat := 0
  /-- By table id and primary key. -/
  rows : FlatMap (Nat ×ₗ Nat) KeyValueObject := .empty
  /-- By number of the index, table id and primary key. -/
  secondaryRows : FlatMap (Nat ×ₗ Nat ×ₗ Nat) SecondaryObject := .empty
  /-- By sender and sender id. -/
  generated : FlatMap (Nat ×ₗ Nat) GeneratedTransactionObject := .empty
  /-- `ram_usage` of the usage objects. -/
  ramUsage : FlatMap AccountName Nat := .empty

/-- What is fixed while an action runs: configuration, activated features and code outside the
model. -/
structure Environment where
  maxTransactionDelay : Nat := 45 * 24 * 3600
  maxAuthorityDepth : Nat := 6
  deferredTrxExpirationWindow : Nat := 10 * 60
  pendingBlockTime : Int := 0
  onlyLinkToExistingPermission : Bool := true
  fixLinkauthRestriction : Bool := true
  replaceDeferred : Bool := true
  ramRestrictions : Bool := true
  ramBillingInNotifyAllowed : Bool := true
  /-- The key list is enforced for transactions of a block that is being produced. -/
  enforceKeyList : Bool := false
  keyBlacklist : List PublicKeyType := []
  hash : List UInt8 → DigestType
  validateCode : List UInt8 → Fallible Unit
  packSize : Transaction → Nat

/-- Why an action failed. The account is the one whose memory use was to be changed, which the
exception itself does not say. -/
structure ActionFailure where
  exception : ChainException
  ramAccount : Option AccountName := none
deriving DecidableEq, Repr

abbrev Applied := Except ActionFailure

def ActionFailure.lift {α : Type} (x : Fallible α) : Applied α :=
  x.mapError fun e => ⟨e, none⟩

def require (c : Prop) [Decidable c] (type : ExceptionType) (message : String) : Applied Unit :=
  ActionFailure.lift (eosAssert c type message)

def unknownKey : ChainException := ⟨.other 0, "unknown key"⟩

def uniquenessViolated : ChainException :=
  ⟨.other 0, "could not insert object, most likely a uniqueness constraint was violated"⟩

theorem lift_eq_ok {α : Type} {x : Fallible α} {a : α} :
    ActionFailure.lift x = .ok a ↔ x = .ok a := by
  cases x with
  | error e => exact iff_of_false nofun nofun
  | ok b => exact ⟨fun h => congrArg _ (Except.ok.inj h), fun h => congrArg _ (Except.ok.inj h)⟩

theorem require_eq_ok {c : Prop} [Decidable c] {type : ExceptionType} {message : String} {u : Unit} :
    require c type message = .ok u ↔ c := by
  rw [require, lift_eq_ok, eosAssert_eq_ok]

namespace ChainDb

def findPermission (db : ChainDb) (level : PermissionLevel) :
    Fallible (Option PermissionObject) := do
  eosAssert level.Named .invalidPermission "Invalid permission"
  return db.permissions.find? level

def getPermission (db : ChainDb) (level : PermissionLevel) : Fallible PermissionObject := do
  eosAssert level.Named .invalidPermission "Invalid permission"
  match db.permissions.find? level with
  | some p => .ok p
  | none => .error ⟨.permissionQueryException, "Failed to retrieve permission: ${level}"⟩

variable {level : PermissionLevel} {db : ChainDb}

theorem findPermission_ok {p : Option PermissionObject} :
    db.findPermission level = .ok p ↔ level.Named ∧ db.permissions.find? level = p := by
  simp [findPermission, bind_eq_ok, eosAssert_eq_ok, pure, Except.pure]

theorem getPermission_ok {p : PermissionObject} :
    db.getPermission level = .ok p ↔ level.Named ∧ db.permissions.find? level = some p := by
  simp only [getPermission, bind_eq_ok, eosAssert_eq_ok]
  cases h : db.permissions.find? level <;> simp

def createPermission (db : ChainDb) (level : PermissionLevel) (parent : Nat) (auth : Authority) :
    Applied (PermissionObject × ChainDb) :=
  match db.permissions.find? level with
  | some _ => .error ⟨uniquenessViolated, none⟩
  | none =>
    let p : PermissionObject := ⟨db.nextPermissionId, parent, auth⟩
    .ok (p, { db with permissions := db.permissions.insert level p
                      nextPermissionId := db.nextPermissionId + 1 })

def modifyPermission (db : ChainDb) (level : PermissionLevel) (p : PermissionObject)
    (auth : Authority) : ChainDb :=
  { db with permissions := db.permissions.insert level { p with auth } }

def removePermission (db : ChainDb) (level : PermissionLevel) (p : PermissionObject) :
    Applied ChainDb := do
  require (∀ q ∈ db.permissions.values, q.parent ≠ p.id) .actionValidateException
    "Cannot remove a permission which has children. Remove the children first."
  return { db with permissions := db.permissions.erase level }

def addRamUsage (db : ChainDb) (account : AccountName) (ramDelta : Int) : Applied ChainDb :=
  if ramDelta = 0 then .ok db
  else
    match db.ramUsage.find? account with
    | none => .error ⟨unknownKey, some account⟩
    | some usage =>
      if 0 < ramDelta ∧ 2 ^ 64 - 1 - (usage : Int) < ramDelta then
        .error ⟨⟨.transactionException, "Ram usage delta would overflow UINT64_MAX"⟩, some account⟩
      else if ramDelta < 0 ∧ (usage : Int) < -ramDelta then
        .error ⟨⟨.transactionException, "Ram usage delta would underflow UINT64_MAX"⟩, some account⟩
      else .ok { db with ramUsage := db.ramUsage.insert account (usage + ramDelta).toNat }

theorem addRamUsage_frame {db' account ramDelta}
    (h : db.addRamUsage account ramDelta = .ok db') : db' = { db with ramUsage := db'.ramUsage } := by
  rw [addRamUsage] at h
  split at h
  · cases h
    rfl
  · split at h
    · cases h
    · split at h
      · cases h
      · split at h
        · cases h
        · cases h
          rfl

end ChainDb

section Satisfies

variable (permissions : PermissionIndex)

def PermissionIndex.findById (id : Nat) : Option PermissionObject :=
  permissions.values.find? fun p => p.id = id

/-- The loop of `satisfies`, which starts at the parent of the other permission. There is no
result when the fuel runs out or when an id is not in the index. -/
def satisfiesWalk (permissions : PermissionIndex) (id : Nat) : Nat → PermissionObject → Option Bool
  | 0, _ => none
  | fuel + 1, parent =>
    if id = parent.parent then some true
    else if parent.parent = 0 then some false
    else (permissions.findById parent.parent).bind (satisfiesWalk permissions id fuel)

def satisfiesWithin (fuel : Nat)
    (self other : PermissionLevel × PermissionObject) : Option Bool :=
  if self.1.actor ≠ other.1.actor then some false
  else if self.2.id = other.2.id ∨ self.2.id = other.2.parent then some true
  else (permissions.findById other.2.parent).bind (satisfiesWalk permissions self.2.id fuel)

/-- `permission_object::satisfies`. Ids get smaller towards the root, so there are no more
steps than the id of the parent says. -/
def satisfies (self other : PermissionLevel × PermissionObject) : Option Bool :=
  satisfiesWithin permissions (other.2.parent + 1) self other

end Satisfies

end DreamChain
