import DreamChain.Chain.TableContexts

/-!
The table intrinsics against what contracts are told they are: a map from table names to ordered
maps from primary keys to rows, with an iterator for each row that was returned. A context is read
as such a map through the ids of its tables and the pointers of its cache, and every call of a
reachable context is a step of the map.
-/

namespace DreamChain
open Library FlatMap List Option

/-- Tables by name, and the row that each iterator refers to; the iterator of a removed row refers
to none. -/
structure OrderedTables where
  tables : TableName → FlatMap Nat KeyValueObject
  iterators : List (Option (TableName × Nat))

namespace OrderedTables

def rowAt (a : OrderedTables) (iterator : Int) : Option (TableName × Nat) :=
  if 0 ≤ iterator then a.iterators[iterator.toNat]?.join else none

def setTable (a : OrderedTables) (name : TableName) (m : FlatMap Nat KeyValueObject) :
    OrderedTables :=
  { a with tables := Function.update a.tables name m }

/-- A row that has an iterator keeps it, and any other row gets the next one. -/
inductive Issues (a : OrderedTables) (row : TableName × Nat) : Nat → OrderedTables → Prop where
  | known {i} : a.iterators[i]? = some (some row) → Issues a row i a
  | fresh : some row ∉ a.iterators →
      Issues a row a.iterators.length { a with iterators := a.iterators ++ [some row] }

inductive Returns (a : OrderedTables) (name : TableName) (report : Bool) :
    Option (Nat × KeyValueObject) → CallResult → OrderedTables → Prop where
  | row {id i o a'} : Issues a (name, id) i a' →
      Returns a name report (some (id, o)) (.iterator i (if report then some id else none)) a'
  | none {i} : i < 0 → Returns a name report none (.iterator i none) a

inductive Step (receiver : AccountName) (a : OrderedTables) :
    TableCall → CallResult → OrderedTables → Prop where
  | store {scope table id i payer buffer a'}
      : payer ≠ 0 → id ∉ (a.tables (tableName receiver scope table)).keys →
      Issues (a.setTable (tableName receiver scope table)
        ((a.tables (tableName receiver scope table)).insert id ⟨payer, buffer⟩))
          (tableName receiver scope table, id) i a' →
      Step receiver a (.dbStoreI64 scope table payer id buffer) (.iterator i none) a'
  | update {iterator payer buffer name id o} : a.rowAt iterator = some (name, id) →
      (a.tables name).find? id = some o → name.code = receiver →
      Step receiver a (.dbUpdateI64 iterator payer buffer) .done
        (a.setTable name
          ((a.tables name).insert id ⟨if payer = 0 then o.payer else payer, buffer⟩))
  | remove {iterator name id} :
      a.rowAt iterator = some (name, id) → name.code = receiver →
      Step receiver a (.dbRemoveI64 iterator) .done
        { a.setTable name ((a.tables name).erase id) with
          iterators := a.iterators.set iterator.toNat none }
  | get {iterator bufferSize name id o} :
      a.rowAt iterator = some (name, id) → (a.tables name).find? id = some o →
      Step receiver a (.dbGetI64 iterator bufferSize)
        (if bufferSize = 0 then .data o.value.length []
          else .data (min bufferSize o.value.length) (o.value.take bufferSize)) a
  | next {iterator name id r a'} :
      a.rowAt iterator = some (name, id) →
      a.Returns name true ((a.tables name).firstWhere fun k => id < k) r a' →
      Step receiver a (.dbNextI64 iterator) r a'
  | previous {iterator name id r a'} : a.rowAt iterator = some (name, id) →
      a.Returns name true ((a.tables name).lastWhere fun k => k < id) r a' →
      Step receiver a (.dbPreviousI64 iterator) r a'
  | find {code scope table id r a'} :
      a.Returns (tableName code scope table) false
        (((a.tables (tableName code scope table)).find? id).map fun o => (id, o)) r a' →
      Step receiver a (.dbFindI64 code scope table id) r a'
  | lowerbound {code scope table id r a'} :
      a.Returns (tableName code scope table) false
        ((a.tables (tableName code scope table)).firstWhere fun k => id ≤ k) r a' →
      Step receiver a (.dbLowerboundI64 code scope table id) r a'
  | upperbound {code scope table id r a'} :
      a.Returns (tableName code scope table) false
        ((a.tables (tableName code scope table)).firstWhere fun k => id < k) r a' →
      Step receiver a (.dbUpperboundI64 code scope table id) r a'
  | endOf {code scope table i} : i < 0 →
      Step receiver a (.dbEndI64 code scope table) (.iterator i none) a

end OrderedTables

variable {id : Nat}

namespace ChainDb

variable {db db' : ChainDb} {name : TableName} {row : RowPointer} {o : KeyValueObject}

def tableId? (db : ChainDb) (name : TableName) : Option Nat :=
  (db.tables.find? name).map fun t => t.id

def table (db : ChainDb) (name : TableName) : FlatMap Nat KeyValueObject :=
  match db.tableId? name with
  | some id => db.rows.fiber id
  | none => .empty

theorem tableId?_eq_some_iff :
    db.tableId? name = some id ↔ ∃ t, db.tables.find? name = some t ∧ t.id = id := by
  simp [tableId?]

theorem table_of_tableId? (h : db.tableId? name = some id) : db.table name = db.rows.fiber id := by
  rw [table, h]

theorem Consistent.name_unique (h : db.Consistent) {name' : TableName}
    (hname : db.tableId? name = some id) (hname' : db.tableId? name' = some id) : name = name' := by
  obtain ⟨t, ht, hid⟩ := tableId?_eq_some_iff.mp hname
  obtain ⟨_, ht', hid'⟩ := tableId?_eq_some_iff.mp hname'
  exact h.unique ht ht' (hid.trans hid'.symm)

section

variable (h : db.Consistent) (hids : ∀ name, db'.tableId? name = db.tableId? name)
include h hids

/-- One row changes, and with it one table. -/
theorem Consistent.table_update (hname : db.tableId? name = some row.tableId)
    {m : FlatMap Nat KeyValueObject} (hself : db'.rows.fiber row.tableId = m)
    (hother : ∀ id, row.tableId ≠ id → db'.rows.fiber id = db.rows.fiber id) :
    db'.table = Function.update db.table name m := by
  funext name'
  by_cases heq : name' = name
  · subst heq
    rw [Function.update_self, table, hids, hname]
    exact hself
  · rw [Function.update_of_ne heq, table, table, hids]
    cases hid : db.tableId? name' with
    | none => rfl
    | some =>
      apply hother
      rintro rfl
      exact heq (h.name_unique hid hname)

theorem Consistent.table_insert (hrows : db'.rows = db.rows.insert row o)
    (hname : db.tableId? name = some row.tableId) :
    db'.table = Function.update db.table name ((db.table name).insert row.primaryKey o) := by
  apply h.table_update hids hname
  · rw [hrows, table_of_tableId? hname]
    exact fiber_insert_self _ _ _
  · intro _ hne
    rw [hrows]
    exact fiber_insert_of_ne _ _ hne

theorem Consistent.table_erase (hrows : db'.rows = db.rows.erase row)
    (hname : db.tableId? name = some row.tableId) :
    db'.table = Function.update db.table name ((db.table name).erase row.primaryKey) := by
  apply h.table_update hids hname
  · rw [hrows, table_of_tableId? hname]
    exact fiber_erase_self _ _
  · intro _ hne
    rw [hrows]
    exact fiber_erase_of_ne _ hne

end

theorem fiber_eq_empty (h : rowsOf db.rows db.secondaryRows id = 0) :
    db.rows.fiber id = .empty := by
  apply eq_empty_of_keys
  intro k hk
  have hpos := rowsOf_pos db.secondaryRows ((mem_keys_fiber k).mp hk)
  have hid : RowPointer.tableId (toLex (id, k)) = id := rfl
  rw [hid, h] at hpos
  exact Nat.lt_irrefl 0 hpos

theorem Consistent.table_openTable (h : db.Consistent) (name : TableName) (payer : AccountName) :
    (db.openTable name payer).table = db.table := by
  rw [ChainDb.openTable]
  split
  · rfl
  · rename_i hnone
    funext name'
    have hzero : rowsOf db.rows db.secondaryRows db.nextTableId = 0 := by
      by_contra hne
      obtain ⟨_, t, ht, hid⟩ := h.owned (Nat.pos_of_ne_zero hne)
      exact (h.fresh ht).ne hid
    simp only [table, tableId?, find?_insert]
    by_cases heq : name = name'
    · subst heq
      rw [if_pos rfl, hnone]
      exact fiber_eq_empty hzero
    · rw [if_neg heq]

theorem Consistent.table_closeIfEmpty {t : TableIdObject} (h : db.Consistent)
    (ht : db.tables.find? name = some t) : (db.closeIfEmpty name t).table = db.table := by
  funext name'
  simp only [table, tableId?, ChainDb.closeIfEmpty]
  by_cases hzero : t.count = 0
  · rw [if_pos hzero, find?_erase]
    by_cases heq : name = name'
    · subst heq
      rw [if_pos rfl, ht]
      exact (fiber_eq_empty ((h.counted ht).symm.trans hzero)).symm
    · rw [if_neg heq]
  · rw [if_neg hzero]

theorem tableId?_withRows {t : TableIdObject} (ht : db.tables.find? name = some t) (count : Nat)
    (rows : FlatMap RowPointer KeyValueObject)
    (secondaryRows : FlatMap (Nat ×ₗ Nat ×ₗ Nat) SecondaryObject) (name' : TableName) :
    (db.withRows name { t with count } rows secondaryRows).tableId? name' =
      db.tableId? name' := by
  simp only [tableId?, withRows, find?_insert]
  split
  · rename_i heq
    subst heq
    rw [ht]
    rfl
  · rfl

end ChainDb

namespace TableContext

variable {E : Environment} {ctx ctx' : TableContext} {name : TableName} {row : RowPointer}
  {p : TablePointer} {t : TableIdObject} {o : KeyValueObject}

def nameOf (c : IteratorCache RowPointer) (row : RowPointer) : Option (TableName × Nat) :=
  (c.tableCache.find? row.tableId).map fun e => (e.1.name, row.primaryKey)

def view (ctx : TableContext) : OrderedTables :=
  ⟨ctx.db.table, ctx.keyvalCache.iteratorToObject.map fun o => o.bind (nameOf ctx.keyvalCache)⟩

variable {i : Nat}

theorem getElem?_view (h : ctx.keyvalCache.iteratorToObject[i]? = some (some row)) :
    ctx.view.iterators[i]? = some (nameOf ctx.keyvalCache row) := by
  rw [view, getElem?_map, h]
  rfl

theorem Sound.nameOf_eq (h : ctx.Sound) (hrow : ctx.keyvalCache.objectToIterator.find? row = some i) :
    ∃ name, nameOf ctx.keyvalCache row = some (name, row.primaryKey) ∧
      ctx.db.tableId? name = some row.tableId ∧ row ∈ ctx.db.rows.keys := by
  obtain ⟨p, _, t, o, hp, hpid, ht, hid, ho⟩ := h.resolve hrow
  refine ⟨p.name, ?_, ?_, mem_keys_of_find? ho⟩
  · rw [nameOf, hp]
    rfl
  · exact ChainDb.tableId?_eq_some_iff.mpr ⟨t, ht, hid.trans hpid⟩

theorem getElem?_view_iff {named : TableName × Nat} : ctx.view.iterators[i]? = some (some named) ↔
      ∃ row, ctx.keyvalCache.iteratorToObject[i]? = some (some row) ∧
        nameOf ctx.keyvalCache row = some named := by
  rw [view, getElem?_map, map_eq_some_iff]
  constructor
  · rintro ⟨o, ho, hbind⟩
    obtain ⟨row, rfl, hname⟩ := bind_eq_some_iff.mp hbind
    exact ⟨row, ho, hname⟩
  · rintro ⟨row, ho, hname⟩
    exact ⟨some row, ho, hname⟩

theorem Sound.nameOf_injective {row' j} (h : ctx.Sound)
    (hrow : ctx.keyvalCache.objectToIterator.find? row = some i)
    (hrow' : ctx.keyvalCache.objectToIterator.find? row' = some j)
    (heq : nameOf ctx.keyvalCache row = nameOf ctx.keyvalCache row') : row = row' := by
  obtain ⟨_, hname, hid, _⟩ := h.nameOf_eq hrow
  obtain ⟨_, hname', hid', _⟩ := h.nameOf_eq hrow'
  rw [hname, hname', Option.some.injEq, Prod.mk.injEq] at heq
  obtain ⟨rfl, hkey⟩ := heq
  exact Prod.ext (Option.some.inj (hid.symm.trans hid')) hkey

theorem Sound.getElem?_of_removed (h : ctx.Sound) (hi : ctx.view.iterators[i]? = some none) :
    ctx.keyvalCache.iteratorToObject[i]? = some none := by
  rw [view, getElem?_map, map_eq_some_iff] at hi
  obtain ⟨o, ho, hbind⟩ := hi
  cases o with
  | none => exact ho
  | some row =>
    obtain ⟨_, hname, _⟩ := h.nameOf_eq ((ctx.keyvalCache.object_iff row i).mpr ho)
    rw [bind_some, hname] at hbind
    cases hbind

theorem rowAt_iff {iterator : Int} : ctx.view.rowAt iterator = some (name, id) ↔
      ∃ row, ctx.keyvalCache.get iterator = .ok row ∧
        nameOf ctx.keyvalCache row = some (name, id) := by
  simp only [IteratorCache.get_eq_ok_iff, OrderedTables.rowAt, view]
  by_cases hpos : 0 ≤ iterator
  · rw [getElem?_map]
    cases hobject : ctx.keyvalCache.iteratorToObject[iterator.toNat]? with
    | none => simp
    | some o =>
      cases o with
      | none => simp
      | some => simp [hpos]
  · simp [hpos]

theorem Sound.view_cacheTable (h : ctx.Sound) (p : TablePointer) :
    ({ ctx with keyvalCache := (ctx.keyvalCache.cacheTable p).2 } : TableContext).view =
      ctx.view := by
  obtain ⟨_, _, heq⟩ | ⟨habsent, _, heq⟩ := ctx.keyvalCache.cacheTable_cases p
  · rw [heq]
  · rw [heq]
    apply congrArg (OrderedTables.mk ctx.db.table)
    apply map_congr_left
    intro o ho
    cases o with
    | none => rfl
    | some row =>
      obtain ⟨i, hi⟩ := mem_iff_getElem?.mp ho
      have hcached := h.cached ((ctx.keyvalCache.object_iff row i).mpr hi)
      change nameOf _ row = nameOf _ row
      rw [nameOf, nameOf, IteratorCache.withTable, find?_insert_of_ne]
      rintro heq
      exact habsent (heq ▸ hcached)

theorem Sound.issues_add (h : ctx.Sound) (hname : nameOf ctx.keyvalCache row = some (name, row.primaryKey))
    (hid : ctx.db.tableId? name = some row.tableId) : ∃ i : Nat, (ctx.keyvalCache.add row).1 = i ∧
      ctx.view.Issues (name, row.primaryKey) i
        ({ ctx with keyvalCache := (ctx.keyvalCache.add row).2 } : TableContext).view := by
  obtain ⟨i, hi, heq⟩ | ⟨habsent, heq⟩ := ctx.keyvalCache.add_cases row
  · rw [heq]
    refine ⟨i, rfl, .known ?_⟩
    rw [getElem?_view ((ctx.keyvalCache.object_iff row i).mp hi), hname]
  · rw [heq]
    refine ⟨ctx.keyvalCache.iteratorToObject.length, rfl, ?_⟩
    have hview : ({ ctx with keyvalCache := ctx.keyvalCache.withObject row habsent } :
        TableContext).view =
        { ctx.view with iterators := ctx.view.iterators ++ [some (name, row.primaryKey)] } := by
      rw [← hname]
      exact congrArg (OrderedTables.mk ctx.db.table) map_append
    have hlength : ctx.keyvalCache.iteratorToObject.length = ctx.view.iterators.length :=
      (length_map _).symm
    rw [hview, hlength]
    refine .fresh ?_
    intro hmem
    obtain ⟨o, ho, hbind⟩ := mem_map.mp hmem
    obtain ⟨row', rfl, hrow'⟩ := bind_eq_some_iff.mp hbind
    obtain ⟨i, hi⟩ := mem_iff_getElem?.mp ho
    have hfind := (ctx.keyvalCache.object_iff row' i).mpr hi
    obtain ⟨_, hname', hid', _⟩ := h.nameOf_eq hfind
    rw [hrow', Option.some.injEq, Prod.mk.injEq] at hname'
    obtain ⟨rfl, hkey⟩ := hname'
    have htable : row.tableId = row'.tableId := Option.some.inj (hid.symm.trans hid')
    have heq : row = row' := by
      exact Prod.ext htable hkey
    exact habsent (mem_keys_of_find? (heq ▸ hfind))

theorem Sound.issues_addRow (h : ctx.Sound) (row : RowPointer) (ht : ctx.db.tables.find? p.name = some t)
    (hid : t.id = p.id) (hrowid : row.tableId = p.id) : ∃ i : Nat, (ctx.addRow p row).1 = i ∧
      ctx.view.Issues (p.name, row.primaryKey) i (ctx.addRow p row).2.view := by
  have hcached := h.cacheTable ht hid
  obtain ⟨⟨q, _⟩, hq⟩ :=
    (mem_keys_iff _ _).mp (Sound.mem_tableCache_cacheTable ctx.keyvalCache p)
  have hqname : p.name = q.name := hcached.named hq ht hid
  have hname : nameOf (ctx.keyvalCache.cacheTable p).2 row = some (p.name, row.primaryKey) := by
    rw [nameOf, hrowid, hq, hqname]
    rfl
  have hissues := hcached.issues_add hname
    (ChainDb.tableId?_eq_some_iff.mpr ⟨t, ht, hid.trans hrowid.symm⟩)
  rw [h.view_cacheTable p] at hissues
  exact hissues

theorem Sound.issues_visit (row' : RowPointer) (h : ctx.Sound)
    (hrow : ctx.keyvalCache.objectToIterator.find? row = some i)
    (hname : nameOf ctx.keyvalCache row = some (name, row.primaryKey))
    (hrowid : row'.tableId = row.tableId) :
    ∃ j : Nat, (ctx.visit row').1 = .iterator j (some row'.primaryKey) ∧
      ctx.view.Issues (name, row'.primaryKey) j (ctx.visit row').2.view := by
  obtain ⟨_, hname', hid, _⟩ := h.nameOf_eq hrow
  obtain ⟨rfl, -⟩ := Prod.mk.inj (Option.some.inj (hname.symm.trans hname'))
  have hother : nameOf ctx.keyvalCache row' = some (name, row'.primaryKey) := by
    rw [nameOf, map_eq_some_iff] at hname
    obtain ⟨e, he, hpair⟩ := hname
    rw [nameOf, hrowid, he, ← (Prod.mk.inj hpair).1]
    rfl
  obtain ⟨j, hj, hissues⟩ := h.issues_add hother (hrowid ▸ hid)
  refine ⟨j, ?_, hissues⟩
  rw [← hj]
  rfl

section Order

variable {a b : RowPointer}

theorem tableId_le_of_le (h : a ≤ b) : a.tableId ≤ b.tableId := by
  obtain hlt | ⟨heq, _⟩ := Prod.Lex.le_iff.mp h
  · exact hlt.le
  · exact heq.le

theorem lt_iff_primaryKey (h : a.tableId = b.tableId) : a < b ↔ a.primaryKey < b.primaryKey := by
  rw [Prod.Lex.lt_iff]
  constructor
  · rintro (hlt | ⟨_, hlt⟩)
    · exact absurd h hlt.ne
    · exact hlt
  · exact fun hlt => .inr ⟨h, hlt⟩

theorem le_iff_primaryKey (h : a.tableId = b.tableId) : a ≤ b ↔ a.primaryKey ≤ b.primaryKey := by
  rw [← not_lt, ← not_lt, lt_iff_primaryKey h.symm]

end Order

section Neighbours

variable {id : Nat} {P : RowPointer → Bool} {f : Nat → Bool} {rows : FlatMap RowPointer KeyValueObject}

theorem sameTable_fiberEntry (e : Option (RowPointer × KeyValueObject)) : sameTable id e =
      (e.bind (fiberEntry id)).map fun e => (toLex (id, e.1) : RowPointer) := by
  cases e with
  | none => rfl
  | some e =>
    simp only [bind_some, fiberEntry]
    by_cases hid : (ofLex e.1).1 = id
    · rw [if_pos hid]
      subst hid
      exact if_pos rfl
    · rw [if_neg hid]
      exact if_neg hid

theorem sameTable_firstWhere_eq (hP : ∀ k, P (toLex (id, k)) = f k)
    (hlow : ∀ k, P k = true → id ≤ RowPointer.tableId k) : sameTable id (rows.firstWhere P) =
      ((fiber rows id).firstWhere f).map fun e => (toLex (id, e.1) : RowPointer) := by
  rw [sameTable_fiberEntry, firstWhere_fiber hP hlow]

theorem sameTable_lastWhere_eq (hP : ∀ k, P (toLex (id, k)) = f k)
    (hhigh : ∀ k, P k = true → RowPointer.tableId k ≤ id) : sameTable id (rows.lastWhere P) =
      ((fiber rows id).lastWhere f).map fun e => (toLex (id, e.1) : RowPointer) := by
  rw [sameTable_fiberEntry, lastWhere_fiber hP hhigh]

end Neighbours

theorem Sound.lookup_returns {search r}
    (found : FlatMap Nat KeyValueObject → Option (Nat × KeyValueObject)) (h : ctx.Sound)
    (hok : ctx.lookup name search = (r, ctx')) (hempty : found .empty = none)
    (hsearch : ∀ id, search id =
      (found (ctx.db.rows.fiber id)).map fun e => (toLex (id, e.1) : RowPointer)) :
    ctx.view.Returns name false (found (ctx.db.table name)) r ctx'.view := by
  rw [TableContext.lookup] at hok
  split at hok
  · rename_i hnone
    cases hok
    rw [ChainDb.table, ChainDb.tableId?, hnone]
    dsimp only [map_none]
    rw [hempty]
    exact .none (by decide)
  · rename_i t ht
    rw [ChainDb.table_of_tableId? (ChainDb.tableId?_eq_some_iff.mpr ⟨t, ht, rfl⟩)]
    rw [hsearch] at hok
    cases hfound : found (ctx.db.rows.fiber t.id) with
    | none =>
      rw [hfound] at hok
      cases hok
      rw [h.view_cacheTable]
      exact .none (lt_trans (IteratorCache.cacheTable_lt _) (by decide))
    | some e =>
      rw [hfound] at hok
      cases hok
      obtain ⟨i, hi, hissues⟩ := h.issues_addRow (p := ⟨t.id, name⟩) (toLex (t.id, e.1)) ht rfl rfl
      rw [hi]
      exact .row hissues

section Reads

variable {iterator : Int} {id : Nat}

section

variable {row : RowPointer} {o : KeyValueObject} (hpos : 0 ≤ iterator)
  (hget : ctx.keyvalCache.get iterator = .ok row) (hread : ctx.db.readRow row = .ok o)
include hpos hget hread

theorem dbNextI64_of_row : ctx.dbNextI64 iterator =
    (match sameTable row.tableId (ctx.db.rows.firstWhere fun k => row < k) with
      | none => do
        let ei ← ctx.keyvalCache.getEndIteratorByTableId row.tableId
        return (.iterator ei none, ctx)
      | some next => .ok (ctx.visit next)) := by
  rw [dbNextI64, if_neg (by omega), hget]
  change (ctx.db.readRow row >>= _) = _
  rw [hread]
  rfl

theorem dbPreviousI64_of_row : ctx.dbPreviousI64 iterator =
    (match sameTable row.tableId (ctx.db.rows.lastWhere fun k => k < row) with
      | none => .ok (.iterator (-1) none, ctx)
      | some previous => .ok (ctx.visit previous)) := by
  rw [dbPreviousI64, if_neg (by omega), hget]
  change (ctx.db.readRow row >>= _) = _
  rw [hread]
  rfl

end

section

variable (h : ctx.Sound) (hrow : ctx.view.rowAt iterator = some (name, id))
include h hrow

theorem Sound.row_of_rowAt : ∃ (row : RowPointer) (o : KeyValueObject), 0 ≤ iterator ∧
      ctx.keyvalCache.get iterator = .ok row ∧ ctx.db.readRow row = .ok o ∧
        nameOf ctx.keyvalCache row = some (name, row.primaryKey) ∧ row.primaryKey = id ∧
          ctx.db.tableId? name = some row.tableId ∧ (ctx.db.table name).find? id = some o := by
  obtain ⟨row, hget, hname⟩ := rowAt_iff.mp hrow
  obtain ⟨_, hname', hid, hmem⟩ := h.nameOf_eq (find_of_get hget)
  obtain ⟨rfl, rfl⟩ := Prod.mk.inj (Option.some.inj (hname.symm.trans hname'))
  obtain ⟨o, ho⟩ := (mem_keys_iff _ _).mp hmem
  refine ⟨row, o, (IteratorCache.get_eq_ok_iff.mp hget).1, hget,
    ChainDb.readRow_eq_ok_iff.mpr ho, hname, rfl, hid, ?_⟩
  rw [ChainDb.table_of_tableId? hid, find?_fiber]
  exact ho

theorem get_refines (receiver : AccountName) (bufferSize : Nat) :
    ∃ r, ctx.dbGetI64 iterator bufferSize = .ok (r, ctx) ∧
      ctx.view.Step receiver (.dbGetI64 iterator bufferSize) r ctx.view := by
  obtain ⟨row, o, _, hget, hread, _, _, _, hfind⟩ := h.row_of_rowAt hrow
  refine ⟨_, ?_, .get hrow hfind⟩
  rw [dbGetI64, hget]
  change (ctx.db.readRow row >>= _) = _
  rw [hread]
  by_cases hzero : bufferSize = 0
  · simp [hzero, bind, Except.bind, pure, Except.pure]
  · simp [hzero, bind, Except.bind, pure, Except.pure]

theorem next_refines : ∃ r ctx', ctx.dbNextI64 iterator = .ok (r, ctx') ∧ ctx'.db = ctx.db ∧
      ctx.view.Returns name true ((ctx.db.table name).firstWhere fun k => id < k) r ctx'.view := by
  obtain ⟨row, o, hpos, hget, hread, hname, rfl, hid, -⟩ := h.row_of_rowAt hrow
  have hneighbour : sameTable row.tableId (ctx.db.rows.firstWhere fun k => row < k) =
      ((ctx.db.table name).firstWhere fun k => row.primaryKey < k).map
        fun e => (toLex (row.tableId, e.1) : RowPointer) := by
    rw [ChainDb.table_of_tableId? hid]
    apply sameTable_firstWhere_eq
    · intro k
      exact decide_eq_decide.mpr (lt_iff_primaryKey rfl)
    · intro k hk
      exact tableId_le_of_le (of_decide_eq_true hk).le
  rw [dbNextI64_of_row hpos hget hread, hneighbour]
  cases hfirst : (ctx.db.table name).firstWhere fun k => row.primaryKey < k with
  | none =>
    obtain ⟨⟨q, ei⟩, hq⟩ := (mem_keys_iff _ _).mp (h.cached (find_of_get hget))
    have hend := IteratorCache.getEndIteratorByTableId_eq_ok_iff.mpr ⟨q, hq⟩
    refine ⟨.iterator ei none, ctx, ?_, rfl, .none ?_⟩
    · simp only [hend]
      rfl
    · exact lt_trans (IteratorCache.endIterator_lt hq) (by decide)
  | some e =>
    obtain ⟨j, hj, hissues⟩ := Sound.issues_visit (toLex (row.tableId, e.1)) h
      (find_of_get hget) hname rfl
    refine ⟨_, (ctx.visit (toLex (row.tableId, e.1))).2, congrArg Except.ok (Prod.ext hj rfl),
      rfl, .row hissues⟩

theorem previous_refines : ∃ r ctx', ctx.dbPreviousI64 iterator = .ok (r, ctx') ∧ ctx'.db = ctx.db ∧
      ctx.view.Returns name true ((ctx.db.table name).lastWhere fun k => k < id) r ctx'.view := by
  obtain ⟨row, o, hpos, hget, hread, hname, rfl, hid, -⟩ := h.row_of_rowAt hrow
  have hneighbour : sameTable row.tableId (ctx.db.rows.lastWhere fun k => k < row) =
      ((ctx.db.table name).lastWhere fun k => k < row.primaryKey).map
        fun e => (toLex (row.tableId, e.1) : RowPointer) := by
    rw [ChainDb.table_of_tableId? hid]
    apply sameTable_lastWhere_eq
    · intro k
      exact decide_eq_decide.mpr (lt_iff_primaryKey rfl)
    · intro k hk
      exact tableId_le_of_le (of_decide_eq_true hk).le
  rw [dbPreviousI64_of_row hpos hget hread, hneighbour]
  cases hlast : (ctx.db.table name).lastWhere fun k => k < row.primaryKey with
  | none => exact ⟨.iterator (-1) none, ctx, rfl, rfl, .none (by decide)⟩
  | some e =>
    obtain ⟨j, hj, hissues⟩ := Sound.issues_visit (toLex (row.tableId, e.1)) h
      (find_of_get hget) hname rfl
    exact ⟨_, (ctx.visit (toLex (row.tableId, e.1))).2, congrArg Except.ok (Prod.ext hj rfl),
      rfl, .row hissues⟩

end

end Reads

section Calls

variable {r : CallResult} {iterator : Int} {payer : AccountName} {buffer : List UInt8}

theorem Sound.rowAt_of_get (h : ctx.Sound) (hget : ctx.keyvalCache.get iterator = .ok row) :
    ∃ name, ctx.view.rowAt iterator = some (name, row.primaryKey) ∧
      ctx.db.tableId? name = some row.tableId := by
  obtain ⟨name, hname, hid, _⟩ := h.nameOf_eq (find_of_get hget)
  exact ⟨name, rowAt_iff.mpr ⟨row, hget, hname⟩, hid⟩

theorem Sound.rowAt_of_writableRow (h : ctx.Sound)
    (hrow : ctx.writableRow iterator = .ok (row, o, p)) :
    ctx.view.rowAt iterator = some (p.name, row.primaryKey) ∧
      ctx.db.tableId? p.name = some row.tableId ∧ p.name.code = ctx.receiver ∧
        (ctx.db.table p.name).find? row.primaryKey = some o := by
  obtain ⟨hget, ho, ⟨_, hp⟩, _, hcode⟩ := writableRow_eq_ok_iff.mp hrow
  obtain ⟨name, hat, hid⟩ := h.rowAt_of_get hget
  have hname : nameOf ctx.keyvalCache row = some (p.name, row.primaryKey) := by
    rw [nameOf, hp]
    rfl
  have hat' := rowAt_iff.mpr ⟨row, hget, hname⟩
  obtain ⟨rfl, -⟩ := Prod.mk.inj (Option.some.inj (hat.symm.trans hat'))
  refine ⟨hat, hid, hcode, ?_⟩
  rw [ChainDb.table_of_tableId? hid, find?_fiber]
  exact ho

@[simp] theorem withRam_view (ctx : TableContext) (ram : FlatMap AccountName Nat) :
    (ctx.withRam ram).view = ctx.view := rfl

theorem view_withoutObject (ctx : TableContext) {i : Nat}
    (h : ctx.keyvalCache.objectToIterator.find? row = some i) :
    ({ ctx with keyvalCache := ctx.keyvalCache.withoutObject i row h } : TableContext).view =
      { ctx.view with iterators := ctx.view.iterators.set i none } :=
  congrArg (OrderedTables.mk ctx.db.table) map_set

theorem view_withDb {db m} (h : db.table = Function.update ctx.db.table name m) :
    (ctx.withDb db).view = ctx.view.setTable name m := by
  simp only [view, OrderedTables.setTable, withDb, h]

theorem storedDb_table {db : ChainDb} (row : RowPointer) (o : KeyValueObject) (h : db.Consistent) (ht : db.tables.find? name = some t)
    (hid : row.tableId = t.id) (count : Nat) : (storedDb db name { t with count } row o).table =
      Function.update db.table name ((db.table name).insert row.primaryKey o) :=
  h.table_insert (ChainDb.tableId?_withRows ht count _ _) rfl
    (ChainDb.tableId?_eq_some_iff.mpr ⟨t, ht, hid.symm⟩)

variable {scope table code : Nat}

section

variable (h : ctx.Sound)
include h

theorem store_refines
    (hok : ctx.dbStoreI64 E scope table payer id buffer = .ok (r, ctx')) (hfits : ctx'.db.Fits) :
    ctx.view.Step ctx.receiver (.dbStoreI64 scope table payer id buffer) r ctx'.view := by
  obtain ⟨t, ram, count, hpayer, hcount, ht, habsent, rfl, rfl⟩ := dbStoreI64_ok hok
  have hopen := h.openTable (tableName ctx.receiver scope table) payer
  have htables := h.consistent.table_openTable (tableName ctx.receiver scope table) payer
  have hid := ChainDb.tableId?_eq_some_iff.mpr ⟨t, ht, rfl⟩
  have hstored := hopen.store ht rfl habsent hcount hfits
  rw [withDb_withDb, withDb_db] at hstored
  obtain ⟨i, hi, hissues⟩ := (hstored.withRam ram).issues_addRow
    (p := ⟨t.id, tableName ctx.receiver scope table⟩) (toLex (t.id, id)) (find?_insert_self _ _ _) rfl rfl
  have htable := storedDb_table (toLex (t.id, id)) ⟨payer, buffer⟩ hopen.consistent ht rfl count
  rw [withDb_db, htables] at htable
  rw [hi]
  refine .store hpayer ?_ ?_
  · change id ∉ (ctx.db.table _).keys
    rw [← htables, ChainDb.table_of_tableId? hid, mem_keys_fiber]
    exact habsent
  · rw [withRam_view, view_withDb htable] at hissues
    exact hissues

theorem update_refines (hok : ctx.dbUpdateI64 E iterator payer buffer = .ok (r, ctx')) :
    ctx.view.Step ctx.receiver (.dbUpdateI64 iterator payer buffer) r ctx'.view := by
  obtain ⟨row, o, p, -, hrow, rfl, rfl⟩ := dbUpdateI64_ok hok
  obtain ⟨hat, hid, hcode, hfind⟩ := h.rowAt_of_writableRow hrow
  have htable : ({ ctx.db with
      rows := ctx.db.rows.insert row ⟨if payer = 0 then o.payer else payer, buffer⟩
    } : ChainDb).table = _ :=
    h.consistent.table_insert (fun _ => rfl) rfl hid
  have hview := view_withDb htable
  exact hview ▸ .update hat hfind hcode

theorem removedDb_table {count : Nat} (hrow : row ∈ ctx.db.rows.keys)
    (ht : ctx.db.tables.find? name = some t) (hid : row.tableId = t.id)
    (hcount : count = subU32 t.count 1) :
    (removedDb ctx.db name { t with count } (ctx.db.rows.erase row)
        ctx.db.secondaryRows).table =
      Function.update ctx.db.table name ((ctx.db.table name).erase row.primaryKey) := by
  obtain ⟨hn, hpred⟩ := h.count_erase hrow ht hid hcount
  have hconsistent := h.consistent.withRows ht hn hpred
  rw [removedDb, hconsistent.table_closeIfEmpty (find?_insert_self _ _ _)]
  exact h.consistent.table_erase (ChainDb.tableId?_withRows ht count _ _) rfl
    (ChainDb.tableId?_eq_some_iff.mpr ⟨t, ht, hid.symm⟩)

theorem remove_refines (hok : ctx.dbRemoveI64 E iterator = .ok (r, ctx')) :
    ctx.view.Step ctx.receiver (.dbRemoveI64 iterator) r ctx'.view := by
  obtain ⟨row, o, p, t, ram, count, hget, hrow, rfl, ht, -, hcount, rfl⟩ := dbRemoveI64_ok hok
  obtain ⟨hat, htableId, hcode, _⟩ := h.rowAt_of_writableRow hrow
  obtain ⟨t', ht', hid'⟩ := ChainDb.tableId?_eq_some_iff.mp htableId
  obtain rfl : t = t' := Option.some.inj (ht.symm.trans ht')
  have htable := removedDb_table h (h.live (find_of_get hget)) ht hid'.symm hcount
  have hview := view_withDb htable
  have hforget := view_withoutObject ((ctx.withDb (removedDb ctx.db p.name
    { t with count } (ctx.db.rows.erase row) ctx.db.secondaryRows)).withRam ram)
    (find_of_get hget)
  rw [withRam_view, hview] at hforget
  exact hforget ▸ .remove hat hcode

theorem find_refines (hok : ctx.dbFindI64 code scope table id = (r, ctx')) (receiver : AccountName)
    : ctx.view.Step receiver (.dbFindI64 code scope table id) r ctx'.view := by
  refine .find (Sound.lookup_returns (fun m => (m.find? id).map fun o => (id, o)) h hok rfl ?_)
  intro _
  rw [find?_fiber, Option.map_map]
  rfl

theorem lowerbound_refines (hok : ctx.dbLowerboundI64 code scope table id = (r, ctx'))
    (receiver : AccountName) :
    ctx.view.Step receiver (.dbLowerboundI64 code scope table id) r ctx'.view := by
  refine .lowerbound (Sound.lookup_returns (fun m => m.firstWhere fun k => id ≤ k) h hok rfl ?_)
  intro _
  apply sameTable_firstWhere_eq
  · intro k
    exact decide_eq_decide.mpr (le_iff_primaryKey rfl)
  · intro k hk
    exact tableId_le_of_le (of_decide_eq_true hk)

theorem upperbound_refines (hok : ctx.dbUpperboundI64 code scope table id = (r, ctx'))
    (receiver : AccountName) :
    ctx.view.Step receiver (.dbUpperboundI64 code scope table id) r ctx'.view := by
  refine .upperbound (Sound.lookup_returns (fun m => m.firstWhere fun k => id < k) h hok rfl ?_)
  intro _
  apply sameTable_firstWhere_eq
  · intro k
    exact decide_eq_decide.mpr (lt_iff_primaryKey rfl)
  · intro k hk
    exact tableId_le_of_le (of_decide_eq_true hk).le

theorem end_refines (hok : ctx.dbEndI64 code scope table = (r, ctx')) (receiver : AccountName) :
    ctx.view.Step receiver (.dbEndI64 code scope table) r ctx'.view := by
  have hreturns := Sound.lookup_returns (fun _ => none) h hok rfl fun _ => rfl
  generalize hview : ctx'.view = a' at hreturns ⊢
  cases hreturns with
  | none hneg => exact .endOf hneg

/-- Every call that succeeds is a step of the ordered tables, when the iterator it is given is
none of the negative ones. -/
theorem call_refines {c : TableCall} (hpos : ∀ i, c.iterator? = some i → 0 ≤ i)
    (hok : ctx.call E c = .ok (r, ctx')) (hfits : ctx'.db.Fits) :
    ctx.view.Step ctx.receiver c r ctx'.view := by
  cases c with
  | dbStoreI64 scope table payer id buffer => exact store_refines h hok hfits
  | dbUpdateI64 iterator => exact update_refines h hok
  | dbRemoveI64 iterator => exact remove_refines h hok
  | dbGetI64 iterator bufferSize =>
    have hok' : ctx.dbGetI64 iterator bufferSize = .ok (r, ctx') := hok
    simp only [dbGetI64, bind_eq_ok] at hok'
    obtain ⟨row, hget, _⟩ := hok'
    obtain ⟨name, hat, _⟩ := h.rowAt_of_get hget
    obtain ⟨r', hcall, hstep⟩ := get_refines h hat ctx.receiver bufferSize
    obtain ⟨rfl, rfl⟩ := Prod.mk.inj (Except.ok.inj (hcall.symm.trans hok))
    exact hstep
  | dbNextI64 iterator =>
    have hok' : ctx.dbNextI64 iterator = .ok (r, ctx') := hok
    have hge := hpos iterator rfl
    rw [dbNextI64, if_neg (by omega), bind_eq_ok] at hok'
    obtain ⟨row, hget, _⟩ := hok'
    obtain ⟨name, hat, _⟩ := h.rowAt_of_get hget
    obtain ⟨r', ctx'', hcall, _, hreturns⟩ := next_refines h hat
    obtain ⟨rfl, rfl⟩ := Prod.mk.inj (Except.ok.inj (hcall.symm.trans hok))
    exact .next hat hreturns
  | dbPreviousI64 iterator =>
    have hok' : ctx.dbPreviousI64 iterator = .ok (r, ctx') := hok
    have hge := hpos iterator rfl
    rw [dbPreviousI64, if_neg (by omega), bind_eq_ok] at hok'
    obtain ⟨_, hget, _⟩ := hok'
    obtain ⟨_, hat, _⟩ := h.rowAt_of_get hget
    obtain ⟨_, _, hcall, _, hreturns⟩ := previous_refines h hat
    obtain ⟨rfl, rfl⟩ := Prod.mk.inj (Except.ok.inj (hcall.symm.trans hok))
    exact .previous hat hreturns
  | dbFindI64 code scope table id => exact find_refines h (Except.ok.inj hok) ctx.receiver
  | dbLowerboundI64 code scope table id =>
    exact lowerbound_refines h (Except.ok.inj hok) ctx.receiver
  | dbUpperboundI64 code scope table =>
    exact upperbound_refines h (Except.ok.inj hok) ctx.receiver
  | dbEndI64 => exact end_refines h (Except.ok.inj hok) ctx.receiver

end

end Calls

end TableContext

end DreamChain
