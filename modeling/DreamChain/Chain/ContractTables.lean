import DreamChain.Chain.IteratorCache
import DreamChain.Library.FlatMapSum

/-!
The tables of contracts and the intrinsics that read and change them. A table object appears with
the first row of a table and disappears with its last one; it counts the rows that refer to it,
those of the secondary indices included. The account that pays for a row is charged and refunded
as rows come and go.

An action context keeps one iterator cache for all receivers that are notified of the action.
Reading through a pointer to an object that is no longer in the database is undefined.
-/

namespace DreamChain
open Library FlatMap

/-- A row of the primary index: table id and primary key. -/
abbrev RowPointer := Nat ×ₗ Nat

namespace RowPointer

def tableId (row : RowPointer) : Nat := (ofLex row).1

def primaryKey (row : RowPointer) : Nat := (ofLex row).2

end RowPointer

def danglingPointer : ActionFailure := ⟨⟨.undefinedBehavior, "use of a removed object"⟩, none⟩

namespace ChainDb

def readTable (db : ChainDb) (p : TablePointer) : Applied TableIdObject :=
  match db.tables.find? p.name with
  | some t => if t.id = p.id then .ok t else .error danglingPointer
  | none => .error danglingPointer

def readRow (db : ChainDb) (row : RowPointer) : Applied KeyValueObject :=
  match db.rows.find? row with
  | some o => .ok o
  | none => .error danglingPointer

def setCount (db : ChainDb) (name : TableName) (t : TableIdObject) (count : Nat) : ChainDb :=
  { db with tables := db.tables.insert name { t with count } }

end ChainDb

structure TableContext where
  db : ChainDb
  keyvalCache : IteratorCache RowPointer := {}
  receiver : AccountName
  privileged : Bool := false
  account : AccountName
  authorization : List PermissionLevel := []

inductive CallResult where
  | done
  /-- The size that is returned and the bytes that are copied. -/
  | data (size : Nat) (copied : List UInt8)
  /-- The iterator that is returned, and the primary key when it is set. -/
  | iterator (iterator : Int) (primary : Option Nat)
deriving DecidableEq, Repr

inductive TableCall where
  | dbStoreI64 (scope table : Nat) (payer : AccountName) (id : Nat) (buffer : List UInt8)
  | dbUpdateI64 (iterator : Int) (payer : AccountName) (buffer : List UInt8)
  | dbRemoveI64 (iterator : Int)
  | dbGetI64 (iterator : Int) (bufferSize : Nat)
  | dbNextI64 (iterator : Int)
  | dbPreviousI64 (iterator : Int)
  | dbFindI64 (code scope table id : Nat)
  | dbLowerboundI64 (code scope table id : Nat)
  | dbUpperboundI64 (code scope table id : Nat)
  | dbEndI64 (code scope table : Nat)
deriving DecidableEq, Repr

def TableCall.iterator? : TableCall → Option Int
  | dbUpdateI64 iterator _ _ | dbRemoveI64 iterator | dbGetI64 iterator _ | dbNextI64 iterator
  | dbPreviousI64 iterator => some iterator
  | dbStoreI64 _ _ _ _ _ | dbFindI64 _ _ _ _ | dbLowerboundI64 _ _ _ _ | dbUpperboundI64 _ _ _ _
  | dbEndI64 _ _ _ => none

namespace TableContext

section Billing

variable (E : Environment) (ctx : TableContext)

/-- The checks of `update_db_usage` before the usage changes. -/
def checkCharge (payer : AccountName) (delta : Int) : Applied Unit :=
  if 0 < delta ∧ ¬(ctx.privileged = true ∨ payer = ctx.receiver ∨ E.ramRestrictions = true) then do
    require (E.ramBillingInNotifyAllowed = true ∨ ctx.receiver = ctx.account)
      .subjectiveBlockProductionException "Cannot charge RAM to other accounts during notify."
    requireAuthorization ctx.authorization payer
  else .ok ()

def updateDbUsage (payer : AccountName) (delta : Int) : Applied TableContext := do
  ctx.checkCharge E payer delta
  let db ← ctx.db.addRamUsage payer delta
  return { ctx with db }

def findOrCreateTable (name : TableName) (payer : AccountName) :
    Applied (TablePointer × TableContext) :=
  match ctx.db.tables.find? name with
  | some t => .ok (⟨t.id, name⟩, ctx)
  | none => do
    let ctx ← ctx.updateDbUsage E payer config.billableSizeTableIdObject
    let id := ctx.db.nextTableId
    return (⟨id, name⟩, { ctx with db := { ctx.db with
      tables := ctx.db.tables.insert name ⟨id, payer, 0⟩, nextTableId := id + 1 } })

def removeTable (name : TableName) (t : TableIdObject) : Applied TableContext := do
  let ctx ← ctx.updateDbUsage E t.payer (-(config.billableSizeTableIdObject : Int))
  return { ctx with db := { ctx.db with tables := ctx.db.tables.erase name } }

/-- The end of both kinds of removals: a table that no row refers to is removed. -/
def closeTable (p : TablePointer) : Applied TableContext := do
  let t ← ctx.db.readTable p
  if t.count = 0 then ctx.removeTable E p.name t else return ctx

end Billing

section Primary

variable (E : Environment) (ctx : TableContext)

def createRow (row : RowPointer) (o : KeyValueObject) : Applied TableContext :=
  if row ∈ ctx.db.rows.keys then .error ⟨uniquenessViolated, none⟩
  else .ok { ctx with db := { ctx.db with rows := ctx.db.rows.insert row o } }

/-- `++t.count` and `--t.count` through a pointer to the table. -/
def modifyCount (p : TablePointer) (f : Nat → Nat) : Applied TableContext := do
  let t ← ctx.db.readTable p
  return { ctx with db := ctx.db.setCount p.name t (f t.count) }

def addRow (p : TablePointer) (row : RowPointer) : Int × TableContext :=
  let cached := (ctx.keyvalCache.cacheTable p).2.add row
  (cached.1, { ctx with keyvalCache := cached.2 })

def dbStoreI64 (scope table : Nat) (payer : AccountName) (id : Nat) (buffer : List UInt8) :
    Applied (CallResult × TableContext) := do
  let (p, ctx) ← ctx.findOrCreateTable E (tableName ctx.receiver scope table) payer
  require (payer ≠ 0) .invalidTablePayer "must specify a valid account to pay for new record"
  let row : RowPointer := toLex (p.id, id)
  let ctx ← ctx.createRow row ⟨payer, buffer⟩
  let ctx ← ctx.modifyCount p fun count => u32 (count + 1)
  let ctx ← ctx.updateDbUsage E payer (buffer.length + config.billableSizeKeyValueObject)
  let (it, ctx) := ctx.addRow p row
  return (.iterator it none, ctx)

variable (iterator : Int)

def writableRow : Applied (RowPointer × KeyValueObject × TablePointer) := do
  let row ← ctx.keyvalCache.get iterator
  let o ← ctx.db.readRow row
  let p ← ctx.keyvalCache.getTable row.tableId
  let _ ← ctx.db.readTable p
  require (p.name.code = ctx.receiver) .tableAccessViolation "db access violation"
  return (row, o, p)

def rebill (old : KeyValueObject) (payer : AccountName) (size : Nat) : Applied TableContext :=
  let oldSize : Int := old.value.length + config.billableSizeKeyValueObject
  let newSize : Int := size + config.billableSizeKeyValueObject
  if old.payer ≠ payer then do
    let ctx ← ctx.updateDbUsage E old.payer (-oldSize)
    ctx.updateDbUsage E payer newSize
  else if oldSize ≠ newSize then ctx.updateDbUsage E old.payer (newSize - oldSize)
  else .ok ctx

def dbUpdateI64 (payer : AccountName) (buffer : List UInt8) :
    Applied (CallResult × TableContext) := do
  let (row, o, _) ← ctx.writableRow iterator
  let payer := if payer = 0 then o.payer else payer
  let ctx ← ctx.rebill E o payer buffer.length
  return (.done, { ctx with db := { ctx.db with rows := ctx.db.rows.insert row ⟨payer, buffer⟩ } })

def dbRemoveI64 : Applied (CallResult × TableContext) := do
  let (row, o, p) ← ctx.writableRow iterator
  let ctx ← ctx.updateDbUsage E o.payer (-(o.value.length + config.billableSizeKeyValueObject : Int))
  let ctx ← ctx.modifyCount p fun count => subU32 count 1
  let ctx := { ctx with db := { ctx.db with rows := ctx.db.rows.erase row } }
  let ctx ← ctx.closeTable E p
  let cache ← ctx.keyvalCache.remove iterator
  return (.done, { ctx with keyvalCache := cache })

def dbGetI64 (bufferSize : Nat) : Applied (CallResult × TableContext) := do
  let row ← ctx.keyvalCache.get iterator
  let o ← ctx.db.readRow row
  if bufferSize = 0 then return (.data o.value.length [], ctx)
  else return (.data (min bufferSize o.value.length) (o.value.take bufferSize), ctx)

/-- A neighbour counts when it is a row of the same table. -/
def sameTable (id : Nat) (e : Option (RowPointer × KeyValueObject)) : Option RowPointer :=
  e.bind fun e => if e.1.tableId = id then some e.1 else none

def visit (row : RowPointer) : CallResult × TableContext :=
  let cached := ctx.keyvalCache.add row
  (.iterator cached.1 (some row.primaryKey), { ctx with keyvalCache := cached.2 })

def dbNextI64 : Applied (CallResult × TableContext) :=
  if iterator < -1 then .ok (.iterator (-1) none, ctx)
  else do
    let row ← ctx.keyvalCache.get iterator
    let _ ← ctx.db.readRow row
    match sameTable row.tableId (ctx.db.rows.firstWhere fun k => row < k) with
    | none =>
      let ei ← ctx.keyvalCache.getEndIteratorByTableId row.tableId
      return (.iterator ei none, ctx)
    | some next => return ctx.visit next

def previousOfEnd : Applied (CallResult × TableContext) := do
  match ← ctx.keyvalCache.findTableByEndIterator iterator with
  | none => .error ⟨⟨.invalidTableIterator, "not a valid end iterator"⟩, none⟩
  | some p =>
    let t ← ctx.db.readTable p
    match sameTable t.id (ctx.db.rows.lastWhere fun k => RowPointer.tableId k ≤ t.id) with
    | none => return (.iterator (-1) none, ctx)
    | some last => return ctx.visit last

def dbPreviousI64 : Applied (CallResult × TableContext) :=
  if iterator < -1 then ctx.previousOfEnd iterator
  else do
    let row ← ctx.keyvalCache.get iterator
    let _ ← ctx.db.readRow row
    match sameTable row.tableId (ctx.db.rows.lastWhere fun k => k < row) with
    | none => return (.iterator (-1) none, ctx)
    | some previous => return ctx.visit previous

/-- The lookups differ in the row they search among those of the table with the given id. -/
def lookup (name : TableName) (search : Nat → Option RowPointer) : CallResult × TableContext :=
  match ctx.db.tables.find? name with
  | none => (.iterator (-1) none, ctx)
  | some t =>
    let p : TablePointer := ⟨t.id, name⟩
    match search t.id with
    | none =>
      let cached := ctx.keyvalCache.cacheTable p
      (.iterator cached.1 none, { ctx with keyvalCache := cached.2 })
    | some row =>
      let added := ctx.addRow p row
      (.iterator added.1 none, added.2)

def dbFindI64 (code scope table id : Nat) : CallResult × TableContext :=
  ctx.lookup (tableName code scope table) fun tableId =>
    let row : RowPointer := toLex (tableId, id)
    (ctx.db.rows.find? row).map fun _ => row

def dbLowerboundI64 (code scope table id : Nat) : CallResult × TableContext :=
  ctx.lookup (tableName code scope table) fun tableId =>
    sameTable tableId (ctx.db.rows.firstWhere fun k => toLex (tableId, id) ≤ k)

def dbUpperboundI64 (code scope table id : Nat) : CallResult × TableContext :=
  ctx.lookup (tableName code scope table) fun tableId =>
    sameTable tableId (ctx.db.rows.firstWhere fun k => toLex (tableId, id) < k)

def dbEndI64 (code scope table : Nat) : CallResult × TableContext :=
  ctx.lookup (tableName code scope table) fun _ => none

def call : TableCall → Applied (CallResult × TableContext)
  | .dbStoreI64 scope table payer id buffer => ctx.dbStoreI64 E scope table payer id buffer
  | .dbUpdateI64 iterator payer buffer => ctx.dbUpdateI64 E iterator payer buffer
  | .dbRemoveI64 iterator => ctx.dbRemoveI64 E iterator
  | .dbGetI64 iterator bufferSize => ctx.dbGetI64 iterator bufferSize
  | .dbNextI64 iterator => ctx.dbNextI64 iterator
  | .dbPreviousI64 iterator => ctx.dbPreviousI64 iterator
  | .dbFindI64 code scope table id => .ok (ctx.dbFindI64 code scope table id)
  | .dbLowerboundI64 code scope table id => .ok (ctx.dbLowerboundI64 code scope table id)
  | .dbUpperboundI64 code scope table id => .ok (ctx.dbUpperboundI64 code scope table id)
  | .dbEndI64 code scope table => .ok (ctx.dbEndI64 code scope table)

end Primary

section Secondary

variable (E : Environment) (ctx : TableContext) (index : SecondaryIndex)

def secondaryRow (p : TablePointer) (id : Nat) : Nat ×ₗ Nat ×ₗ Nat :=
  toLex (index.number, toLex (p.id, id))

local instance : LawfulBEq (Nat ×ₗ Nat ×ₗ Nat) := inferInstance

def createSecondary (row : Nat ×ₗ Nat ×ₗ Nat) (o : SecondaryObject) : Applied TableContext :=
  if row ∈ ctx.db.secondaryRows.keys then .error ⟨uniquenessViolated, none⟩
  else .ok { ctx with db := { ctx.db with secondaryRows := ctx.db.secondaryRows.insert row o } }

def readSecondary (row : Nat ×ₗ Nat ×ₗ Nat) : Applied SecondaryObject :=
  match ctx.db.secondaryRows.find? row with
  | some o => .ok o
  | none => .error danglingPointer

/-- `store` of an index. The iterators of the secondary indices have caches of their own, which
are left out: the other calls are given the table and the key of the row that they refer to. -/
def idxStore (scope table : Nat) (payer : AccountName) (id : Nat) (secondary : List UInt8) :
    Applied TableContext := do
  require (payer ≠ 0) .invalidTablePayer "must specify a valid account to pay for new record"
  let (p, ctx) ← ctx.findOrCreateTable E (tableName ctx.receiver scope table) payer
  let ctx ← ctx.createSecondary (secondaryRow index p id) ⟨index, payer, secondary⟩
  let ctx ← ctx.modifyCount p fun count => u32 (count + 1)
  ctx.updateDbUsage E payer index.billableSize

/-- Here the refund comes before the check of the table. -/
def idxRemove (p : TablePointer) (id : Nat) : Applied TableContext := do
  let o ← ctx.readSecondary (secondaryRow index p id)
  let ctx ← ctx.updateDbUsage E o.payer (-(index.billableSize : Int))
  let _ ← ctx.db.readTable p
  require (p.name.code = ctx.receiver) .tableAccessViolation "db access violation"
  let ctx ← ctx.modifyCount p fun count => subU32 count 1
  let ctx := { ctx with db := { ctx.db with
    secondaryRows := ctx.db.secondaryRows.erase (secondaryRow index p id) } }
  ctx.closeTable E p

def rebillSecondary (old payer : AccountName) : Applied TableContext :=
  if old ≠ payer then do
    let ctx ← ctx.updateDbUsage E old (-(index.billableSize : Int))
    ctx.updateDbUsage E payer index.billableSize
  else .ok ctx

def idxUpdate (p : TablePointer) (id : Nat) (payer : AccountName) (secondary : List UInt8) :
    Applied TableContext := do
  let o ← ctx.readSecondary (secondaryRow index p id)
  let _ ← ctx.db.readTable p
  require (p.name.code = ctx.receiver) .tableAccessViolation "db access violation"
  let payer := if payer = 0 then o.payer else payer
  let ctx ← ctx.rebillSecondary E index o.payer payer
  return { ctx with db := { ctx.db with
    secondaryRows := ctx.db.secondaryRows.insert (secondaryRow index p id)
      ⟨o.index, payer, secondary⟩ } }

end Secondary

end TableContext

section Consistency

/-- Each table has an id of its own and counts the rows that refer to it, and every row refers to
a table. `n` is the number of rows that refer to an id. -/
structure TablesConsistent (tables : FlatMap TableName TableIdObject) (nextId : Nat)
    (n : Nat → Nat) : Prop where
  unique : ∀ {name name' t t'}, tables.find? name = some t → tables.find? name' = some t' →
    t.id = t'.id → name = name'
  fresh : ∀ {name t}, tables.find? name = some t → t.id < nextId
  owned : ∀ {id}, 0 < n id → ∃ name t, tables.find? name = some t ∧ t.id = id
  counted : ∀ {name t}, tables.find? name = some t → t.count = n t.id

variable {tables : FlatMap TableName TableIdObject} {nextId : Nat} {n n' : Nat → Nat}
  {name : TableName} {t : TableIdObject}

namespace TablesConsistent

section

variable (h : TablesConsistent tables nextId n)
include h

theorem open_table (hnone : tables.find? name = none) (payer : AccountName) :
    TablesConsistent (tables.insert name ⟨nextId, payer, 0⟩) (nextId + 1) n := by
  have habsent := (tables.find?_eq_none_iff name).mp hnone
  constructor
  · intro name₁ name₂ t₁ t₂ h₁ h₂ hid
    rw [find?_insert_absent _ habsent] at h₁ h₂
    obtain ⟨rfl, rfl⟩ | h₁ := h₁
    · obtain ⟨rfl, rfl⟩ | h₂ := h₂
      · rfl
      · exact absurd hid (h.fresh h₂).ne'
    · obtain ⟨rfl, rfl⟩ | h₂ := h₂
      · exact absurd hid (h.fresh h₁).ne
      · exact h.unique h₁ h₂ hid
  · intro name₁ t₁ h₁
    rw [find?_insert_absent _ habsent] at h₁
    obtain ⟨-, rfl⟩ | h₁ := h₁
    · exact Nat.lt_succ_self nextId
    · exact Nat.lt_succ_of_lt (h.fresh h₁)
  · intro id hid
    obtain ⟨name₁, t₁, h₁, hid₁⟩ := h.owned hid
    exact ⟨name₁, t₁, (find?_insert_absent _ habsent).mpr (.inr h₁), hid₁⟩
  · intro name₁ t₁ h₁
    rw [find?_insert_absent _ habsent] at h₁
    obtain ⟨-, rfl⟩ | h₁ := h₁
    · by_contra hne
      obtain ⟨name₂, t₂, h₂, hid₂⟩ := h.owned (Nat.pos_of_ne_zero (Ne.symm hne))
      exact (h.fresh h₂).ne hid₂
    · exact h.counted h₁

theorem recount (ht : tables.find? name = some t) (hn : ∀ id, id ≠ t.id → n' id = n id) :
    TablesConsistent (tables.insert name { t with count := n' t.id }) nextId n' := by
  have hids : ∀ {name₁ t₁},
      (tables.insert name { t with count := n' t.id }).find? name₁ = some t₁ →
        ∃ t₂, tables.find? name₁ = some t₂ ∧ t₂.id = t₁.id := by
    intro name₁ t₁ h₁
    rw [find?_insert] at h₁
    split at h₁
    · rename_i heq
      cases h₁
      exact ⟨t, heq ▸ ht, rfl⟩
    · exact ⟨t₁, h₁, rfl⟩
  constructor
  · intro name₁ name₂ t₁ t₂ h₁ h₂ hid
    obtain ⟨t₁', h₁', hid₁⟩ := hids h₁
    obtain ⟨t₂', h₂', hid₂⟩ := hids h₂
    exact h.unique h₁' h₂' (by rw [hid₁, hid₂, hid])
  · intro name₁ t₁ h₁
    obtain ⟨t₁', h₁', hid₁⟩ := hids h₁
    exact hid₁ ▸ h.fresh h₁'
  · intro id hid
    by_cases heq : id = t.id
    · exact ⟨name, _, find?_insert_self _ _ _, heq.symm⟩
    · rw [hn id heq] at hid
      obtain ⟨name₁, t₁, h₁, hid₁⟩ := h.owned hid
      refine ⟨name₁, t₁, ?_, hid₁⟩
      rw [find?_insert_of_ne]
      · exact h₁
      · rintro rfl
        rw [ht] at h₁
        exact heq (Option.some.inj h₁ ▸ hid₁.symm)
  · intro name₁ t₁ h₁
    rw [find?_insert] at h₁
    split at h₁
    · cases h₁
      rfl
    · rename_i hne
      rw [hn, h.counted h₁]
      intro hid
      exact hne (h.unique ht h₁ hid.symm)

theorem close_table (ht : tables.find? name = some t) (hzero : t.count = 0) :
    TablesConsistent (tables.erase name) nextId n := by
  have hold : ∀ {name₁ t₁}, (tables.erase name).find? name₁ = some t₁ →
      tables.find? name₁ = some t₁ := fun h₁ => (tables.find?_erase_eq_some_iff.mp h₁).2
  constructor
  · intro name₁ name₂ t₁ t₂ h₁ h₂
    exact h.unique (hold h₁) (hold h₂)
  · intro name₁ t₁ h₁
    exact h.fresh (hold h₁)
  · intro id hid
    obtain ⟨name₁, t₁, h₁, rfl⟩ := h.owned hid
    refine ⟨name₁, t₁, tables.find?_erase_eq_some_iff.mpr ⟨?_, h₁⟩, rfl⟩
    rintro rfl
    rw [ht] at h₁
    cases h₁
    rw [← h.counted ht, hzero] at hid
    exact Nat.lt_irrefl 0 hid
  · intro name₁ t₁ h₁
    exact h.counted (hold h₁)

end

end TablesConsistent

def RowPointer.refersTo (id : Nat) (row : RowPointer) : Nat := if row.tableId = id then 1 else 0

def secondaryRefersTo (id : Nat) (key : Nat ×ₗ Nat ×ₗ Nat) : Nat :=
  if (ofLex (ofLex key).2).1 = id then 1 else 0

variable {row : RowPointer}

theorem RowPointer.refersTo_of_eq {id : Nat} (h : row.tableId = id) :
    RowPointer.refersTo id row = 1 :=
  if_pos h

theorem RowPointer.refersTo_of_ne {id : Nat} (h : row.tableId ≠ id) :
    RowPointer.refersTo id row = 0 :=
  if_neg h

theorem RowPointer.refersTo_le (id : Nat) (row : RowPointer) : RowPointer.refersTo id row ≤ 1 := by
  rw [refersTo]
  split <;> omega

theorem secondaryRefersTo_le (id : Nat) (key : Nat ×ₗ Nat ×ₗ Nat) :
    secondaryRefersTo id key ≤ 1 := by
  rw [secondaryRefersTo]
  split <;> omega

section

variable {index : SecondaryIndex} {p : TablePointer} {id tableId : Nat}

theorem secondaryRefersTo_of_eq (h : p.id = tableId) :
    secondaryRefersTo tableId (TableContext.secondaryRow index p id) = 1 :=
  if_pos h

theorem secondaryRefersTo_of_ne (h : p.id ≠ tableId) :
    secondaryRefersTo tableId (TableContext.secondaryRow index p id) = 0 :=
  if_neg h

end

def rowsOf (rows : FlatMap RowPointer KeyValueObject)
    (secondaryRows : FlatMap (Nat ×ₗ Nat ×ₗ Nat) SecondaryObject) (id : Nat) : Nat :=
  rows.sum (fun k _ => RowPointer.refersTo id k) +
    secondaryRows.sum (fun k _ => secondaryRefersTo id k)

namespace ChainDb

def Consistent (db : ChainDb) : Prop :=
  TablesConsistent db.tables db.nextTableId (rowsOf db.rows db.secondaryRows)

/-- The counts of the tables are 32 bits wide. -/
def Fits (db : ChainDb) : Prop := db.rows.size + db.secondaryRows.size < 2 ^ 32

def openTable (db : ChainDb) (name : TableName) (payer : AccountName) : ChainDb :=
  match db.tables.find? name with
  | some _ => db
  | none =>
    { db with tables := db.tables.insert name ⟨db.nextTableId, payer, 0⟩
              nextTableId := db.nextTableId + 1 }

/-- The database after `closeTable`, up to what the payer is refunded. -/
def closeIfEmpty (db : ChainDb) (name : TableName) (t : TableIdObject) : ChainDb :=
  { db with tables := if t.count = 0 then db.tables.erase name else db.tables }

/-- Rows of one table have changed, and its count with them. -/
def withRows (db : ChainDb) (name : TableName) (t : TableIdObject)
    (rows : FlatMap RowPointer KeyValueObject)
    (secondaryRows : FlatMap (Nat ×ₗ Nat ×ₗ Nat) SecondaryObject) : ChainDb :=
  { db with tables := db.tables.insert name t, rows, secondaryRows }

end ChainDb

variable {db : ChainDb}

theorem rowsOf_le (h : db.Fits) (id : Nat) : rowsOf db.rows db.secondaryRows id < 2 ^ 32 := by
  have hrows := db.rows.sum_le_size fun k (_ : KeyValueObject) => RowPointer.refersTo_le id k
  have hsecondary :=
    db.secondaryRows.sum_le_size fun k (_ : SecondaryObject) => secondaryRefersTo_le id k
  exact Nat.lt_of_le_of_lt (Nat.add_le_add hrows hsecondary) h

section Rows

variable {rows : FlatMap RowPointer KeyValueObject}
  {secondaryRows : FlatMap (Nat ×ₗ Nat ×ₗ Nat) SecondaryObject} {row : RowPointer}
  {o o' : KeyValueObject} {key : Nat ×ₗ Nat ×ₗ Nat} {s s' : SecondaryObject}

theorem rowsOf_insert (h : row ∉ rows.keys) (o : KeyValueObject)
    (secondaryRows : FlatMap (Nat ×ₗ Nat ×ₗ Nat) SecondaryObject) (id : Nat) :
    rowsOf (rows.insert row o) secondaryRows id =
      rowsOf rows secondaryRows id + RowPointer.refersTo id row := by
  rw [rowsOf, rowsOf, sum_insert_absent _ _ _ h]
  omega

theorem rowsOf_modify (h : rows.find? row = some o) (o' : KeyValueObject) :
    rowsOf (rows.insert row o') secondaryRows = rowsOf rows secondaryRows := by
  funext id
  have hsum := rows.sum_insert_present (fun k _ => RowPointer.refersTo id k) o' h
  rw [rowsOf, rowsOf]
  omega

theorem rowsOf_erase (h : rows.find? row = some o)
    (secondaryRows : FlatMap (Nat ×ₗ Nat ×ₗ Nat) SecondaryObject) (id : Nat) :
    rowsOf (rows.erase row) secondaryRows id + RowPointer.refersTo id row =
      rowsOf rows secondaryRows id := by
  have hsum := rows.sum_erase (fun k _ => RowPointer.refersTo id k) h
  rw [rowsOf, rowsOf]
  omega

theorem rowsOf_insert_secondary (h : key ∉ secondaryRows.keys) (s : SecondaryObject)
    (rows : FlatMap RowPointer KeyValueObject) (id : Nat) :
    rowsOf rows (secondaryRows.insert key s) id =
      rowsOf rows secondaryRows id + secondaryRefersTo id key := by
  rw [rowsOf, rowsOf, sum_insert_absent _ _ _ h]
  omega

theorem rowsOf_modify_secondary (h : secondaryRows.find? key = some s) (s' : SecondaryObject) :
    rowsOf rows (secondaryRows.insert key s') = rowsOf rows secondaryRows := by
  funext id
  have hsum := secondaryRows.sum_insert_present (fun k _ => secondaryRefersTo id k) s' h
  rw [rowsOf, rowsOf]
  omega

theorem rowsOf_erase_secondary (h : secondaryRows.find? key = some s)
    (rows : FlatMap RowPointer KeyValueObject) (id : Nat) :
    rowsOf rows (secondaryRows.erase key) id + secondaryRefersTo id key =
      rowsOf rows secondaryRows id := by
  have hsum := secondaryRows.sum_erase (fun k _ => secondaryRefersTo id k) h
  rw [rowsOf, rowsOf]
  omega

theorem rowsOf_pos (secondaryRows : FlatMap (Nat ×ₗ Nat ×ₗ Nat) SecondaryObject)
    (h : row ∈ rows.keys) : 0 < rowsOf rows secondaryRows row.tableId := by
  obtain ⟨o, ho⟩ := (rows.mem_keys_iff row).mp h
  have hsum := rowsOf_erase ho secondaryRows row.tableId
  rw [RowPointer.refersTo_of_eq rfl] at hsum
  omega

end Rows

namespace ChainDb

theorem openTable_rows (db : ChainDb) (name : TableName) (payer : AccountName) :
    (db.openTable name payer).rows = db.rows ∧
      (db.openTable name payer).secondaryRows = db.secondaryRows := by
  rw [openTable]
  split <;> exact ⟨rfl, rfl⟩

variable (h : db.Consistent)
include h

theorem Consistent.openTable (name : TableName) (payer : AccountName) :
    (db.openTable name payer).Consistent := by
  rw [ChainDb.openTable]
  split
  · exact h
  · rename_i hnone
    exact TablesConsistent.open_table h hnone payer

theorem Consistent.closeIfEmpty (ht : db.tables.find? name = some t) :
    (db.closeIfEmpty name t).Consistent := by
  simp only [ChainDb.closeIfEmpty]
  split
  · rename_i hzero
    exact TablesConsistent.close_table h ht hzero
  · exact h

theorem Consistent.withRows {rows secondaryRows count} (ht : db.tables.find? name = some t)
    (hn : ∀ id, id ≠ t.id → rowsOf rows secondaryRows id = rowsOf db.rows db.secondaryRows id)
    (hcount : count = rowsOf rows secondaryRows t.id) :
    (db.withRows name { t with count } rows secondaryRows).Consistent := by
  rw [hcount]
  exact TablesConsistent.recount h ht hn

theorem Consistent.table_of_row (hrow : row ∈ db.rows.keys) :
    ∃ name t, db.tables.find? name = some t ∧ t.id = row.tableId :=
  h.owned (rowsOf_pos _ hrow)

end ChainDb

end Consistency

end DreamChain
