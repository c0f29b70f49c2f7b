import DreamChain.Chain.ContractTables

/-!
What a successful table intrinsic does, and the invariant of action contexts that follows. Every
row that the iterator cache refers to is in the database and belongs to a cached table, and a
cached pointer to a table names the table with its id for as long as there is one. The contexts
of all actions since the start of the chain are reachable by calls of the primary and of the
secondary indices.
-/

namespace DreamChain
open Library FlatMap Option RowPointer

variable {E : Environment} {db : ChainDb} {name : TableName} {t : TableIdObject}
  {row : RowPointer} {o : KeyValueObject} {p : TablePointer}

namespace ChainDb

theorem readTable_eq_ok_iff : db.readTable p = .ok t ↔ db.tables.find? p.name = some t ∧ t.id = p.id := by
  rw [readTable]
  split
  · rename_i heq
    rw [heq, Option.some.injEq]
    split
    · rename_i hid
      rw [Except.ok.injEq]
      exact ⟨fun h => ⟨h, h ▸ hid⟩, And.left⟩
    · rename_i hid
      exact iff_of_false nofun fun h => hid (h.1 ▸ h.2)
  · rename_i heq
    simp [heq]

theorem readRow_eq_ok_iff : db.readRow row = .ok o ↔ db.rows.find? row = some o := by
  rw [readRow]
  split
  · rename_i heq
    simp [heq]
  · rename_i heq
    simp [heq]

end ChainDb

variable {iterator : Int}

namespace TableContext

variable {ctx ctx' : TableContext} {payer : AccountName} {delta : Int} {r : CallResult}

def withDb (ctx : TableContext) (db : ChainDb) : TableContext := { ctx with db }

def withRam (ctx : TableContext) (ramUsage : FlatMap AccountName Nat) : TableContext :=
  { ctx with db := { ctx.db with ramUsage } }

@[simp] theorem withDb_keyvalCache (ctx : TableContext) (db : ChainDb) :
    (ctx.withDb db).keyvalCache = ctx.keyvalCache := rfl

@[simp] theorem withRam_keyvalCache (ctx : TableContext) (ram : FlatMap AccountName Nat) :
    (ctx.withRam ram).keyvalCache = ctx.keyvalCache := rfl

@[simp] theorem withDb_db (ctx : TableContext) (db : ChainDb) : (ctx.withDb db).db = db := rfl

@[simp] theorem withDb_withDb (ctx : TableContext) (db db' : ChainDb) :
    (ctx.withDb db).withDb db' = ctx.withDb db' := rfl

@[simp] theorem withRam_rows (ctx : TableContext) (ram : FlatMap AccountName Nat) :
    (ctx.withRam ram).db.rows = ctx.db.rows := rfl

@[simp] theorem withRam_secondaryRows (ctx : TableContext) (ram : FlatMap AccountName Nat) :
    (ctx.withRam ram).db.secondaryRows = ctx.db.secondaryRows := rfl

theorem updateDbUsage_frame (h : ctx.updateDbUsage E payer delta = .ok ctx') :
    ∃ ram, ctx' = ctx.withRam ram := by
  simp only [updateDbUsage, bind_eq_ok, pure, Except.pure, Except.ok.injEq] at h
  obtain ⟨_, _, db, hdb, rfl⟩ := h
  refine ⟨db.ramUsage, ?_⟩
  rw [ChainDb.addRamUsage_frame hdb]
  rfl

theorem findOrCreateTable_ok (h : ctx.findOrCreateTable E name payer = .ok (p, ctx')) :
    ∃ t ram, p = ⟨t.id, name⟩ ∧ (ctx.db.openTable name payer).tables.find? name = some t ∧
      ctx' = (ctx.withDb (ctx.db.openTable name payer)).withRam ram := by
  rw [findOrCreateTable] at h
  rw [ChainDb.openTable]
  split at h
  · rename_i t ht
    cases h
    exact ⟨t, ctx.db.ramUsage, rfl, ht, rfl⟩
  · simp only [bind_eq_ok] at h
    obtain ⟨_, husage, rfl, rfl⟩ := h
    obtain ⟨ram, rfl⟩ := updateDbUsage_frame husage
    exact ⟨_, ram, rfl, find?_insert_self _ _ _, rfl⟩

theorem closeTable_ok (h : ctx.closeTable E p = .ok ctx') :
    ∃ t ram, ctx.db.tables.find? p.name = some t ∧ t.id = p.id ∧
      ctx' = (ctx.withDb (ctx.db.closeIfEmpty p.name t)).withRam ram := by
  simp only [closeTable, bind_eq_ok, ChainDb.readTable_eq_ok_iff] at h
  obtain ⟨t, ⟨ht, hid⟩, h⟩ := h
  refine ⟨t, ctx'.db.ramUsage, ht, hid, ?_⟩
  rw [ChainDb.closeIfEmpty]
  split at h
  · rename_i hzero
    simp only [removeTable, bind_eq_ok, pure, Except.pure, Except.ok.injEq] at h
    obtain ⟨_, husage, rfl⟩ := h
    obtain ⟨-, rfl⟩ := updateDbUsage_frame husage
    rw [if_pos hzero]
    rfl
  · rename_i hzero
    cases h
    rw [if_neg hzero]
    rfl

variable {f : Nat → Nat} {buffer : List UInt8}

theorem modifyCount_ok (h : ctx.modifyCount p f = .ok ctx') :
    ∃ t, ctx.db.tables.find? p.name = some t ∧ t.id = p.id ∧
      ctx' = ctx.withDb (ctx.db.setCount p.name t (f t.count)) := by
  simp only [modifyCount, bind_eq_ok, ChainDb.readTable_eq_ok_iff, pure, Except.pure,
    Except.ok.injEq] at h
  obtain ⟨t, ⟨ht, hid⟩, rfl⟩ := h
  exact ⟨t, ht, hid, rfl⟩

theorem modifyCount_rows (h : ctx.modifyCount p f = .ok ctx') :
    ctx'.db.rows = ctx.db.rows ∧ ctx'.db.secondaryRows = ctx.db.secondaryRows := by
  obtain ⟨-, _, _, rfl⟩ := modifyCount_ok h
  exact ⟨rfl, rfl⟩

theorem createRow_ok (h : ctx.createRow row o = .ok ctx') : row ∉ ctx.db.rows.keys ∧
      ctx' = ctx.withDb { ctx.db with rows := ctx.db.rows.insert row o } := by
  rw [createRow] at h
  split at h
  · cases h
  · rename_i habsent
    exact ⟨habsent, (Except.ok.inj h).symm⟩

theorem rebill_frame {size : Nat} (h : ctx.rebill E o payer size = .ok ctx') :
    ∃ ram, ctx' = ctx.withRam ram := by
  simp only [rebill] at h
  split at h
  · simp only [bind_eq_ok] at h
    obtain ⟨_, hrefund, hcharge⟩ := h
    obtain ⟨_, rfl⟩ := updateDbUsage_frame hrefund
    obtain ⟨ram, rfl⟩ := updateDbUsage_frame hcharge
    exact ⟨ram, rfl⟩
  · split at h
    · exact updateDbUsage_frame h
    · cases h
      exact ⟨ctx.db.ramUsage, rfl⟩

theorem writableRow_eq_ok_iff : ctx.writableRow iterator = .ok (row, o, p) ↔
      ctx.keyvalCache.get iterator = .ok row ∧ ctx.db.rows.find? row = some o ∧
        (∃ ei, ctx.keyvalCache.tableCache.find? row.tableId = some (p, ei)) ∧
          (∃ t, ctx.db.tables.find? p.name = some t ∧ t.id = p.id) ∧
            p.name.code = ctx.receiver := by
  simp only [writableRow, bind_eq_ok, ChainDb.readRow_eq_ok_iff, ChainDb.readTable_eq_ok_iff,
    IteratorCache.getTable_eq_ok_iff, require_eq_ok, pure, Except.pure, Except.ok.injEq,
    Prod.mk.injEq, exists_const]
  constructor
  · rintro ⟨row, hget, o, ho, p, hp, t, ht, hcode, rfl, rfl, rfl⟩
    exact ⟨hget, ho, hp, ⟨t, ht⟩, hcode⟩
  · rintro ⟨hget, ho, hp, ⟨t, ht⟩, hcode⟩
    exact ⟨row, hget, o, ho, p, hp, t, ht, hcode, rfl, rfl, rfl⟩

def storedDb (db : ChainDb) (name : TableName) (t : TableIdObject) (row : RowPointer)
    (o : KeyValueObject) : ChainDb :=
  db.withRows name t (db.rows.insert row o) db.secondaryRows

def removedDb (db : ChainDb) (name : TableName) (t : TableIdObject)
    (rows : FlatMap RowPointer KeyValueObject)
    (secondaryRows : FlatMap (Nat ×ₗ Nat ×ₗ Nat) SecondaryObject) : ChainDb :=
  (db.withRows name t rows secondaryRows).closeIfEmpty name t

theorem removal_ok {ctx₁ rows secondaryRows} (hcount : ctx.modifyCount p f = .ok ctx₁)
    (hclose : (ctx₁.withDb { ctx₁.db with rows, secondaryRows }).closeTable E p
      = .ok ctx') : ∃ t ram, ctx.db.tables.find? p.name = some t ∧ t.id = p.id ∧
      ctx' = (ctx.withDb (removedDb ctx.db p.name { t with count := f t.count } rows
        secondaryRows)).withRam ram := by
  obtain ⟨t, ht, hid, rfl⟩ := modifyCount_ok hcount
  obtain ⟨t', ram, ht', _, rfl⟩ := closeTable_ok hclose
  have hfind : (ctx.db.tables.insert p.name { t with count := f t.count }).find? p.name =
      some t' := ht'
  rw [find?_insert_self] at hfind
  obtain rfl := Option.some.inj hfind
  exact ⟨t, ram, ht, hid, rfl⟩

theorem dbStoreI64_ok {scope table id : Nat}
    (h : ctx.dbStoreI64 E scope table payer id buffer = .ok (r, ctx')) :
    ∃ t ram count, payer ≠ 0 ∧ count = u32 (t.count + 1) ∧
      let name := tableName ctx.receiver scope table
      let db := ctx.db.openTable name payer
      let row : RowPointer := toLex (t.id, id)
      let added := ((ctx.withDb (storedDb db name { t with count } row
        ⟨payer, buffer⟩)).withRam ram).addRow ⟨t.id, name⟩ row
      db.tables.find? name = some t ∧ row ∉ db.rows.keys ∧
        r = .iterator added.1 none ∧ ctx' = added.2 := by
  simp only [dbStoreI64, bind_eq_ok, require_eq_ok, exists_const, Prod.exists] at h
  generalize hf : (fun count => u32 (count + 1)) = f at h
  obtain ⟨p, _, hopen, hpayer, _, hcreate, _, hcount, _, husage, rfl, rfl⟩ := h
  obtain ⟨t, _, rfl, ht, rfl⟩ := findOrCreateTable_ok hopen
  obtain ⟨habsent, rfl⟩ := createRow_ok hcreate
  obtain ⟨t', ht', _, rfl⟩ := modifyCount_ok hcount
  obtain ⟨ram', rfl⟩ := updateDbUsage_frame husage
  obtain rfl : t = t' := Option.some.inj (ht.symm.trans ht')
  dsimp only
  generalize ctx.db.openTable (tableName ctx.receiver scope table) payer = opened at *
  exact ⟨t, ram', f t.count, hpayer, by rw [← hf], ht, habsent, rfl, rfl⟩

theorem dbUpdateI64_ok (h : ctx.dbUpdateI64 E iterator payer buffer = .ok (r, ctx')) :
    ∃ row o p ram, ctx.writableRow iterator = .ok (row, o, p) ∧ r = .done ∧
      ctx' = (ctx.withDb { ctx.db with
        rows := ctx.db.rows.insert row ⟨if payer = 0 then o.payer else payer, buffer⟩
      }).withRam ram := by
  simp only [dbUpdateI64, bind_eq_ok,
    Prod.exists] at h
  obtain ⟨row, o, p, hrow, _, hbill, rfl, rfl⟩ := h
  obtain ⟨ram, rfl⟩ := rebill_frame hbill
  exact ⟨row, o, p, ram, hrow, rfl, rfl⟩

theorem dbRemoveI64_ok (h : ctx.dbRemoveI64 E iterator = .ok (r, ctx')) :
    ∃ row o p t ram count, ∃ hget,
      ctx.writableRow iterator = .ok (row, o, p) ∧ r = .done ∧
        ctx.db.tables.find? p.name = some t ∧ t.id = p.id ∧ count = subU32 t.count 1 ∧
          ctx' = { (ctx.withDb (removedDb ctx.db p.name { t with count }
              (ctx.db.rows.erase row) ctx.db.secondaryRows)).withRam ram with
            keyvalCache := ctx.keyvalCache.withoutObject iterator.toNat row
              ((ctx.keyvalCache.object_iff row _).mpr (IteratorCache.get_eq_ok_iff.mp hget).2) } := by
  simp only [dbRemoveI64, bind_eq_ok,
    Prod.exists] at h
  -- the decrement is not to be evaluated when states are compared
  generalize hf : (fun count => subU32 count 1) = f at h
  obtain ⟨row, o, p, hrow, _, hrefund, _, hcount, _, hclose, _, hcache, rfl, rfl⟩ := h
  have hget := (writableRow_eq_ok_iff.mp hrow).1
  obtain ⟨_, rfl⟩ := updateDbUsage_frame hrefund
  obtain ⟨hrows, hsecondary⟩ := modifyCount_rows hcount
  rw [hrows, hsecondary] at hclose
  obtain ⟨t, ram, ht, hid, rfl⟩ := removal_ok hcount hclose
  rw [withRam_keyvalCache, withDb_keyvalCache, withRam_keyvalCache,
    IteratorCache.remove_of_get hget] at hcache
  obtain rfl := Except.ok.inj hcache
  exact ⟨row, o, p, t, ram, f t.count, hget, hrow, rfl, ht, hid, by rw [← hf], rfl⟩

end TableContext

/-- A table that has the id of an earlier table is that table. -/
structure KeepsNames (db db' : ChainDb) : Prop where
  next_le : db.nextTableId ≤ db'.nextTableId
  named : ∀ {name t'}, db'.tables.find? name = some t' → t'.id < db.nextTableId →
    ∃ t, db.tables.find? name = some t ∧ t.id = t'.id

namespace KeepsNames

variable {db db' db'' : ChainDb}

theorem of_tables (hnext : db'.nextTableId = db.nextTableId) (htables : db'.tables = db.tables) :
    KeepsNames db db' := by
  refine ⟨hnext.ge, ?_⟩
  intro _ t' ht' _
  exact ⟨t', htables ▸ ht', rfl⟩

theorem openTable (db : ChainDb) (name : TableName) (payer : AccountName) :
    KeepsNames db (db.openTable name payer) := by
  rw [ChainDb.openTable]
  split
  · exact of_tables rfl rfl
  · refine ⟨Nat.le_succ _, ?_⟩
    intro _ t' ht' hlt
    rw [find?_insert] at ht'
    split at ht'
    · cases ht'
      exact absurd hlt (Nat.lt_irrefl _)
    · exact ⟨t', ht', rfl⟩

theorem withRows (ht : db.tables.find? name = some t) (count : Nat)
    (rows : FlatMap RowPointer KeyValueObject)
    (secondaryRows : FlatMap (Nat ×ₗ Nat ×ₗ Nat) SecondaryObject) :
    KeepsNames db (db.withRows name { t with count } rows secondaryRows) := by
  refine ⟨Nat.le_refl _, ?_⟩
  intro name' t' ht' _
  have hfind : (db.tables.insert name { t with count }).find? name' = some t' := ht'
  rw [find?_insert] at hfind
  split at hfind
  · rename_i heq
    cases hfind
    exact ⟨t, heq ▸ ht, rfl⟩
  · exact ⟨t', hfind, rfl⟩

theorem closeIfEmpty (db : ChainDb) (name : TableName) (t : TableIdObject) :
    KeepsNames db (db.closeIfEmpty name t) := by
  refine ⟨Nat.le_refl _, ?_⟩
  intro _ t' ht' _
  simp only [ChainDb.closeIfEmpty] at ht'
  split at ht'
  · exact ⟨t', (db.tables.find?_erase_eq_some_iff.mp ht').2, rfl⟩
  · exact ⟨t', ht', rfl⟩

end KeepsNames

namespace TableContext

/-- Rows and tables of the iterator cache against those of the database. -/
structure Sound (ctx : TableContext) : Prop where
  consistent : ctx.db.Consistent
  fits : ctx.db.Fits
  live : ∀ {row i}, ctx.keyvalCache.objectToIterator.find? row = some i → row ∈ ctx.db.rows.keys
  cached : ∀ {row i}, ctx.keyvalCache.objectToIterator.find? row = some i →
    tableId row ∈ ctx.keyvalCache.tableCache.keys
  known : ∀ {id p ei}, ctx.keyvalCache.tableCache.find? id = some (p, ei) → id < ctx.db.nextTableId
  named : ∀ {id p ei}, ctx.keyvalCache.tableCache.find? id = some (p, ei) →
    ∀ {name t}, ctx.db.tables.find? name = some t → t.id = id → name = p.name

namespace Sound

variable {ctx ctx' : TableContext} {db : ChainDb} {i : Nat}

section

variable (h : ctx.Sound)
include h

theorem withDb (hconsistent : db.Consistent) (hfits : db.Fits) (hnames : KeepsNames ctx.db db)
    (hlive : ∀ row ∈ ctx.keyvalCache.objectToIterator.keys, row ∈ ctx.db.rows.keys →
      row ∈ db.rows.keys) : (ctx.withDb db).Sound where
  consistent := hconsistent
  fits := hfits
  live hrow := hlive _ (mem_keys_of_find? hrow) (h.live hrow)
  cached hrow := h.cached hrow
  known hp := Nat.lt_of_lt_of_le (h.known hp) hnames.next_le
  named := by
    intro _ p _ hp _ t ht hid
    obtain ⟨_, ht₀, hid₀⟩ := hnames.named ht (hid ▸ h.known hp)
    exact h.named hp ht₀ (hid₀.trans hid)

theorem withRam (ram : FlatMap AccountName Nat) : (ctx.withRam ram).Sound :=
  h.withDb h.consistent h.fits (.of_tables rfl rfl) fun _ _ hrow => hrow

theorem resolve (hrow : ctx.keyvalCache.objectToIterator.find? row = some i) :
    ∃ p ei t o, ctx.keyvalCache.tableCache.find? row.tableId = some (p, ei) ∧
      p.id = row.tableId ∧ ctx.db.tables.find? p.name = some t ∧ t.id = p.id ∧
        ctx.db.rows.find? row = some o := by
  obtain ⟨⟨p, ei⟩, hp⟩ := (mem_keys_iff _ _).mp (h.cached hrow)
  obtain ⟨o, ho⟩ := (mem_keys_iff _ _).mp (h.live hrow)
  obtain ⟨_, t, ht, hid⟩ := h.consistent.table_of_row (h.live hrow)
  have hpid := ((ctx.keyvalCache.tableCache_iff _ _ _).mp hp).1
  obtain rfl := h.named hp ht hid
  exact ⟨p, ei, t, o, hp, hpid, ht, hid.trans hpid.symm, ho⟩

theorem cacheTable (ht : ctx.db.tables.find? p.name = some t) (hid : t.id = p.id) :
    ({ ctx with keyvalCache := (ctx.keyvalCache.cacheTable p).2 } : TableContext).Sound := by
  obtain ⟨_, _, heq⟩ | ⟨habsent, _, heq⟩ := ctx.keyvalCache.cacheTable_cases p
  · rw [heq]
    exact h
  · rw [heq]
    have hcases : ∀ {id q ei},
        (ctx.keyvalCache.withTable p habsent).tableCache.find? id = some (q, ei) →
          (id = p.id ∧ q = p) ∨ ctx.keyvalCache.tableCache.find? id = some (q, ei) := by
      intro id q ei hq
      obtain ⟨rfl, hpair⟩ | hq := (find?_insert_absent _ habsent).mp hq
      · exact .inl ⟨rfl, (Prod.mk.inj hpair).1⟩
      · exact .inr hq
    exact {
      consistent := h.consistent
      fits := h.fits
      live := h.live
      cached := fun hrow => (mem_keys_insert _ _ _ _).mpr (.inr (h.cached hrow))
      known := by
        intro id q ei hq
        obtain ⟨rfl, rfl⟩ | hq := hcases hq
        · exact hid ▸ h.consistent.fresh ht
        · exact h.known hq
      named := by
        intro _ q _ hq _ _ ht' hid'
        obtain ⟨rfl, rfl⟩ | hq := hcases hq
        · exact h.consistent.unique ht' ht (hid'.trans hid.symm)
        · exact h.named hq ht' hid' }

theorem add (hrow : row ∈ ctx.db.rows.keys) (htable : row.tableId ∈ ctx.keyvalCache.tableCache.keys)
    : ({ ctx with keyvalCache := (ctx.keyvalCache.add row).2 } : TableContext).Sound := by
  obtain ⟨_, _, heq⟩ | ⟨habsent, heq⟩ := ctx.keyvalCache.add_cases row
  · rw [heq]
    exact h
  · rw [heq]
    exact {
      consistent := h.consistent
      fits := h.fits
      live := by
        intro row' i hrow'
        obtain ⟨rfl, _⟩ | hrow' := (find?_insert_absent _ habsent).mp hrow'
        · exact hrow
        · exact h.live hrow'
      cached := by
        intro _ i hrow'
        obtain ⟨rfl, _⟩ | hrow' := (find?_insert_absent _ habsent).mp hrow'
        · exact htable
        · exact h.cached hrow'
      known := h.known
      named := h.named }

end

theorem mem_tableCache_cacheTable (c : IteratorCache RowPointer) (p : TablePointer) :
    p.id ∈ (c.cacheTable p).2.tableCache.keys := by
  obtain ⟨_, hp, heq⟩ | ⟨habsent, _, heq⟩ := c.cacheTable_cases p
  · rw [heq]
    exact mem_keys_of_find? hp
  · rw [heq]
    exact (mem_keys_insert _ _ _ _).mpr (.inl rfl)

theorem addRow (h : ctx.Sound) (ht : ctx.db.tables.find? p.name = some t) (hid : t.id = p.id)
    (hrow : row ∈ ctx.db.rows.keys) (hrowid : row.tableId = p.id) : (ctx.addRow p row).2.Sound :=
  (h.cacheTable ht hid).add hrow (hrowid ▸ mem_tableCache_cacheTable ctx.keyvalCache p)

/-- The row next to one that has an iterator is in the same cached table. -/
theorem visit {row' : RowPointer} (h : ctx.Sound)
    (hrow : ctx.keyvalCache.objectToIterator.find? row = some i) (hrow' : row' ∈ ctx.db.rows.keys)
    (htable : row'.tableId = row.tableId) : (ctx.visit row').2.Sound :=
  h.add hrow' (htable ▸ h.cached hrow)

variable {count n : Nat}

section

variable (h : ctx.Sound)
include h

section

variable (ht : ctx.db.tables.find? name = some t)
include ht

theorem withRows {rows secondaryRows} (hn : ∀ id, id ≠ t.id →
      rowsOf rows secondaryRows id = rowsOf ctx.db.rows ctx.db.secondaryRows id)
    (hcount : count = rowsOf rows secondaryRows t.id)
    (hfits : rows.size + secondaryRows.size < 2 ^ 32)
    (hlive : ∀ row ∈ ctx.keyvalCache.objectToIterator.keys, row ∈ ctx.db.rows.keys →
      row ∈ rows.keys) :
    (ctx.withDb (ctx.db.withRows name { t with count } rows secondaryRows)).Sound :=
  h.withDb (h.consistent.withRows ht hn hcount) hfits (.withRows ht count rows secondaryRows) hlive

theorem count_succ (hn : n = rowsOf ctx.db.rows ctx.db.secondaryRows t.id + 1) (hlt : n < 2 ^ 32) :
    u32 (t.count + 1) = n := by
  rw [h.consistent.counted ht, ← hn, u32, Nat.mod_eq_of_lt hlt]

theorem count_pred (hn : n + 1 = rowsOf ctx.db.rows ctx.db.secondaryRows t.id)
    : subU32 t.count 1 = n := by
  have hlt := rowsOf_le h.fits t.id
  rw [h.consistent.counted ht, subU32, u32, u32]
  omega

end

theorem forget (hrow : ctx.keyvalCache.objectToIterator.find? row = some i) :
    ({ ctx with keyvalCache := ctx.keyvalCache.withoutObject i row hrow } : TableContext).Sound where
  consistent := h.consistent
  fits := h.fits
  live hrow' := h.live ((find?_erase_eq_some_iff _).mp hrow').2
  cached hrow' := h.cached ((find?_erase_eq_some_iff _).mp hrow').2
  known := h.known
  named := h.named

theorem closeIfEmpty (ht : ctx.db.tables.find? name = some t) :
    (ctx.withDb (ctx.db.closeIfEmpty name t)).Sound :=
  h.withDb (h.consistent.closeIfEmpty ht) h.fits (.closeIfEmpty _ _ _) fun _ _ hrow => hrow

theorem openTable (name : TableName) (payer : AccountName) :
    (ctx.withDb (ctx.db.openTable name payer)).Sound := by
  have hrows := ctx.db.openTable_rows name payer
  refine h.withDb (h.consistent.openTable name payer) ?_ (.openTable _ _ _) ?_
  · rw [ChainDb.Fits, hrows.1, hrows.2]
    exact h.fits
  · intro _ _ hrow
    rw [hrows.1]
    exact hrow

theorem store (ht : ctx.db.tables.find? name = some t) (hid : row.tableId = t.id)
    (habsent : row ∉ ctx.db.rows.keys) (hcount : count = u32 (t.count + 1))
    (hfits : (storedDb ctx.db name { t with count } row o).Fits) :
    (ctx.withDb (storedDb ctx.db name { t with count } row o)).Sound := by
  have hrows := rowsOf_insert habsent o ctx.db.secondaryRows
  refine h.withRows ht ?_ ?_ hfits ?_
  · intro _ hne
    rw [hrows, refersTo_of_ne (hid ▸ hne.symm)]
    rfl
  · rw [hcount]
    refine h.count_succ ht ?_ (rowsOf_le hfits t.id)
    rw [hrows, refersTo_of_eq hid]
  · intro _ _ hrow'
    exact (mem_keys_insert _ _ _ _).mpr (.inr hrow')

theorem update {o' : KeyValueObject} (ho : ctx.db.rows.find? row = some o)
    (hfits : ({ ctx.db with rows := ctx.db.rows.insert row o' } : ChainDb).Fits) :
    (ctx.withDb { ctx.db with rows := ctx.db.rows.insert row o' }).Sound := by
  have hconsistent : TablesConsistent ctx.db.tables ctx.db.nextTableId
      (rowsOf (ctx.db.rows.insert row o') ctx.db.secondaryRows) := by
    rw [rowsOf_modify ho]
    exact h.consistent
  refine h.withDb hconsistent hfits (.of_tables rfl rfl) ?_
  intro _ _ hrow'
  exact (mem_keys_insert _ _ _ _).mpr (.inr hrow')

theorem count_erase (hrow : row ∈ ctx.db.rows.keys) (ht : ctx.db.tables.find? name = some t)
    (hid : row.tableId = t.id) (hcount : count = subU32 t.count 1) :
    (∀ id, id ≠ t.id → rowsOf (ctx.db.rows.erase row) ctx.db.secondaryRows id =
      rowsOf ctx.db.rows ctx.db.secondaryRows id) ∧
      count = rowsOf (ctx.db.rows.erase row) ctx.db.secondaryRows t.id := by
  obtain ⟨o, ho⟩ := (mem_keys_iff _ _).mp hrow
  have hrows := rowsOf_erase ho ctx.db.secondaryRows
  constructor
  · intro _ hne
    rw [← hrows, refersTo_of_ne (hid ▸ hne.symm)]
    rfl
  · rw [hcount]
    apply h.count_pred ht
    rw [← hrows, refersTo_of_eq hid]

/-- The table stays or goes with its last row, and the cache forgets the row. -/
theorem remove (hrow : ctx.keyvalCache.objectToIterator.find? row = some i)
    (ht : ctx.db.tables.find? name = some t) (hid : row.tableId = t.id)
    (hcount : count = subU32 t.count 1)
    (hfits : (ctx.db.rows.erase row).size + ctx.db.secondaryRows.size < 2 ^ 32) :
    ({ ctx.withDb (removedDb ctx.db name { t with count } (ctx.db.rows.erase row)
        ctx.db.secondaryRows) with
      keyvalCache := ctx.keyvalCache.withoutObject i row hrow } : TableContext).Sound := by
  obtain ⟨hn, hpred⟩ := h.count_erase (h.live hrow) ht hid hcount
  have hlive : ∀ row' ∈ (ctx.keyvalCache.objectToIterator.erase row).keys,
      row' ∈ ctx.db.rows.keys → row' ∈ (ctx.db.rows.erase row).keys := by
    intro _ hmem hrow'
    exact (mem_keys_erase _ _ _).mpr ⟨((mem_keys_erase _ _ _).mp hmem).1, hrow'⟩
  exact ((h.forget hrow).withRows ht hn hpred hfits hlive).closeIfEmpty (find?_insert_self _ _ _)

theorem lookup {search : Nat → Option RowPointer} {r : CallResult}
    (hok : ctx.lookup name search = (r, ctx'))
    (hsearch : ∀ id row, search id = some row → row.tableId = id ∧ row ∈ ctx.db.rows.keys) :
    ctx'.Sound := by
  rw [TableContext.lookup] at hok
  split at hok
  · cases hok
    exact h
  · rename_i t ht
    split at hok
    · cases hok
      exact h.cacheTable ht rfl
    · rename_i row hrow
      cases hok
      obtain ⟨hid, hmem⟩ := hsearch t.id row hrow
      exact h.addRow ht rfl hmem hid

end

end Sound

variable {P : RowPointer → Bool} {ctx : TableContext}

theorem sameTable_firstWhere {id : Nat} (h : sameTable id (ctx.db.rows.firstWhere P) = some row) :
    row.tableId = id ∧ row ∈ ctx.db.rows.keys := by
  obtain ⟨⟨k, o⟩, hfirst, hk⟩ := bind_eq_some_iff.mp h
  obtain ⟨hid, hrow⟩ := ite_none_right_eq_some.mp hk
  obtain rfl := Option.some.inj hrow
  exact ⟨hid, mem_keys_of_find? ((firstWhere_eq_some_iff.mp hfirst).1)⟩

theorem sameTable_lastWhere {id : Nat} (h : sameTable id (ctx.db.rows.lastWhere P) = some row) :
    row.tableId = id ∧ row ∈ ctx.db.rows.keys := by
  obtain ⟨⟨k, o⟩, hlast, hk⟩ := bind_eq_some_iff.mp h
  obtain ⟨hid, hrow⟩ := ite_none_right_eq_some.mp hk
  obtain rfl := Option.some.inj hrow
  exact ⟨hid, mem_keys_of_find? ((lastWhere_eq_some_iff.mp hlast).1)⟩

theorem find_of_get (h : ctx.keyvalCache.get iterator = .ok row) :
    ctx.keyvalCache.objectToIterator.find? row = some iterator.toNat :=
  (ctx.keyvalCache.object_iff row _).mpr (IteratorCache.get_eq_ok_iff.mp h).2

namespace Sound

variable {ctx ctx' : TableContext} {r : CallResult} {iterator : Int}

variable {buffer : List UInt8}

section

variable (h : ctx.Sound)
include h

theorem dbStoreI64 {scope table id payer}
    (hok : ctx.dbStoreI64 E scope table payer id buffer = .ok (r, ctx')) (hfits : ctx'.db.Fits) :
    ctx'.Sound := by
  obtain ⟨t, ram, _, _, hcount, ht, habsent, _, rfl⟩ := dbStoreI64_ok hok
  have hopen := h.openTable (tableName ctx.receiver scope table) payer
  exact ((hopen.store ht rfl habsent hcount hfits).withRam ram).addRow
    (find?_insert_self _ _ _) rfl (mem_keys_insert _ _ _ _ |>.mpr (.inl rfl)) rfl

theorem dbUpdateI64 {payer : AccountName}
    (hok : ctx.dbUpdateI64 E iterator payer buffer = .ok (r, ctx')) (hfits : ctx'.db.Fits) :
    ctx'.Sound := by
  obtain ⟨_, o, p, ram, hrow, _, rfl⟩ := dbUpdateI64_ok hok
  obtain ⟨_, ho, _⟩ := writableRow_eq_ok_iff.mp hrow
  exact (h.update ho hfits).withRam ram

theorem dbRemoveI64 (hok : ctx.dbRemoveI64 E iterator = .ok (r, ctx')) (hfits : ctx'.db.Fits) :
    ctx'.Sound := by
  obtain ⟨_, o, p, t, ram, _, hget, hrow, _, ht, hid, hcount, rfl⟩ := dbRemoveI64_ok hok
  obtain ⟨_, _, ⟨_, hp⟩, _⟩ := writableRow_eq_ok_iff.mp hrow
  have hpid := ((ctx.keyvalCache.tableCache_iff _ _ _).mp hp).1
  exact (h.remove (find_of_get hget) ht (hpid.symm.trans hid.symm) hcount hfits).withRam ram

theorem dbGetI64 {bufferSize : Nat} (hok : ctx.dbGetI64 iterator bufferSize = .ok (r, ctx')) :
    ctx'.Sound := by
  simp only [TableContext.dbGetI64, bind_eq_ok] at hok
  obtain ⟨-, _, o, _, hok⟩ := hok
  split at hok
  · cases hok
    exact h
  · cases hok
    exact h

theorem dbNextI64 (hok : ctx.dbNextI64 iterator = .ok (r, ctx')) : ctx'.Sound := by
  rw [TableContext.dbNextI64] at hok
  split at hok
  · cases hok
    exact h
  · simp only [bind_eq_ok] at hok
    obtain ⟨_, hget, -, _, hok⟩ := hok
    split at hok
    · simp only [bind_eq_ok] at hok
      obtain ⟨_, _, hok⟩ := hok
      cases hok
      exact h
    · rename_i hnext
      cases hok
      obtain ⟨hid, hmem⟩ := sameTable_firstWhere hnext
      exact h.visit (find_of_get hget) hmem hid

theorem previousOfEnd (hok : ctx.previousOfEnd iterator = .ok (r, ctx')) : ctx'.Sound := by
  simp only [TableContext.previousOfEnd, bind_eq_ok,
    IteratorCache.findTableByEndIterator_eq_ok_iff] at hok
  obtain ⟨x, ⟨_, hx⟩, hok⟩ := hok
  cases x with
  | none => cases hok
  | some =>
    simp only [bind_eq_ok, ChainDb.readTable_eq_ok_iff] at hok
    obtain ⟨t, ⟨_, hid⟩, hok⟩ := hok
    split at hok
    · cases hok
      exact h
    · rename_i hlast
      cases hok
      obtain ⟨hlastid, hmem⟩ := sameTable_lastWhere hlast
      apply h.add hmem
      rw [hlastid, hid]
      exact mem_keys_of_find? (IteratorCache.tableCache_of_endIterator hx)

theorem dbPreviousI64 (hok : ctx.dbPreviousI64 iterator = .ok (r, ctx')) : ctx'.Sound := by
  rw [TableContext.dbPreviousI64] at hok
  split at hok
  · exact h.previousOfEnd hok
  · simp only [bind_eq_ok] at hok
    obtain ⟨_, hget, -, _, hok⟩ := hok
    split at hok
    · cases hok
      exact h
    · rename_i hprevious
      cases hok
      obtain ⟨hid, hmem⟩ := sameTable_lastWhere hprevious
      exact h.visit (find_of_get hget) hmem hid

theorem call {c : TableCall} (hok : ctx.call E c = .ok (r, ctx')) (hfits : ctx'.db.Fits) :
    ctx'.Sound := by
  cases c with
  | dbStoreI64 scope table payer id buffer => exact h.dbStoreI64 hok hfits
  | dbUpdateI64 iterator => exact h.dbUpdateI64 hok hfits
  | dbRemoveI64 iterator => exact h.dbRemoveI64 hok hfits
  | dbGetI64 iterator => exact h.dbGetI64 hok
  | dbNextI64 iterator => exact h.dbNextI64 hok
  | dbPreviousI64 => exact h.dbPreviousI64 hok
  | dbFindI64 code scope table id =>
    apply h.lookup (Except.ok.inj hok)
    intro tableId row hrow
    obtain ⟨o, ho, rfl⟩ := map_eq_some_iff.mp hrow
    exact ⟨rfl, mem_keys_of_find? ho⟩
  | dbLowerboundI64 code scope table id | dbUpperboundI64 code scope table id =>
    exact h.lookup (Except.ok.inj hok) fun tableId row => sameTable_firstWhere
  | dbEndI64 =>
    exact h.lookup (Except.ok.inj hok) fun _ _ hrow => nomatch hrow

end

section Secondary

variable {index : SecondaryIndex} {id : Nat} {payer : AccountName} {secondary : List UInt8}

variable {key : Nat ×ₗ Nat ×ₗ Nat} {s : SecondaryObject}

theorem createSecondary_ok (h : ctx.createSecondary key s = .ok ctx') :
    key ∉ ctx.db.secondaryRows.keys ∧
      ctx' = ctx.withDb { ctx.db with secondaryRows := ctx.db.secondaryRows.insert key s } := by
  rw [createSecondary] at h
  split at h
  · cases h
  · rename_i habsent
    exact ⟨habsent, (Except.ok.inj h).symm⟩

theorem readSecondary_eq_ok_iff :
    ctx.readSecondary key = .ok s ↔ ctx.db.secondaryRows.find? key = some s := by
  rw [readSecondary]
  split
  · rename_i heq
    simp [heq]
  · rename_i heq
    simp [heq]

theorem idxStore {scope table : Nat} (h : ctx.Sound)
    (hok : ctx.idxStore E index scope table payer id secondary = .ok ctx') (hfits : ctx'.db.Fits) :
    ctx'.Sound := by
  simp only [TableContext.idxStore, bind_eq_ok, Prod.exists] at hok
  generalize hf : (fun count => u32 (count + 1)) = f at hok
  obtain ⟨_, _, p, _, hopen, _, hcreate, _, hcount, husage⟩ := hok
  obtain ⟨t, ram, rfl, ht, rfl⟩ := findOrCreateTable_ok hopen
  have hsound := (h.openTable (tableName ctx.receiver scope table) payer).withRam ram
  have htable : ((ctx.withDb (ctx.db.openTable (tableName ctx.receiver scope table) payer)).withRam
    ram).db.tables.find? (tableName ctx.receiver scope table) = some t := ht
  generalize (ctx.withDb (ctx.db.openTable (tableName ctx.receiver scope table) payer)).withRam ram
    = opened at hcreate hsound htable
  obtain ⟨habsent, rfl⟩ := createSecondary_ok hcreate
  obtain ⟨t', ht', _, rfl⟩ := modifyCount_ok hcount
  obtain ⟨ram', rfl⟩ := updateDbUsage_frame husage
  obtain rfl : t = t' := Option.some.inj (htable.symm.trans ht')
  have hrows := rowsOf_insert_secondary habsent ⟨index, payer, secondary⟩ opened.db.rows
  have hsucc : f t.count = rowsOf opened.db.rows (opened.db.secondaryRows.insert
      (secondaryRow index ⟨t.id, tableName ctx.receiver scope table⟩ id)
        ⟨index, payer, secondary⟩) t.id := by
    rw [← hf]
    refine hsound.count_succ htable ?_ (rowsOf_le hfits t.id)
    rw [hrows, secondaryRefersTo_of_eq (p := ⟨t.id, _⟩) rfl]
  refine (hsound.withRows htable ?_ hsucc hfits fun _ _ hrow => hrow).withRam ram'
  intro _ hne
  rw [hrows, secondaryRefersTo_of_ne hne.symm]
  rfl

theorem idxRemove (h : ctx.Sound) (hok : ctx.idxRemove E index p id = .ok ctx')
    (hfits : ctx'.db.Fits) : ctx'.Sound := by
  simp only [TableContext.idxRemove, bind_eq_ok, readSecondary_eq_ok_iff] at hok
  generalize hf : (fun count => subU32 count 1) = f at hok
  obtain ⟨o, ho, _, hrefund, _, _, _, _, _, hcount, hclose⟩ := hok
  obtain ⟨ram, rfl⟩ := updateDbUsage_frame hrefund
  have hsound := h.withRam ram
  have hfind : (ctx.withRam ram).db.secondaryRows.find? (secondaryRow index p id) = some o := ho
  generalize ctx.withRam ram = refunded at hcount hsound hfind
  obtain ⟨hrows₂, hsecondary₂⟩ := modifyCount_rows hcount
  rw [hrows₂, hsecondary₂] at hclose
  obtain ⟨t, ram', ht, hid, rfl⟩ := removal_ok hcount hclose
  have hrows := rowsOf_erase_secondary hfind refunded.db.rows
  have hpred : f t.count =
      rowsOf refunded.db.rows (refunded.db.secondaryRows.erase (secondaryRow index p id)) t.id := by
    rw [← hf]
    apply hsound.count_pred ht
    rw [← hrows, secondaryRefersTo_of_eq hid.symm]
  have hn : ∀ id', id' ≠ t.id →
      rowsOf refunded.db.rows (refunded.db.secondaryRows.erase (secondaryRow index p id)) id' =
        rowsOf refunded.db.rows refunded.db.secondaryRows id' := by
    intro _ hne
    rw [← hrows, secondaryRefersTo_of_ne (hid ▸ hne.symm)]
    rfl
  rw [ChainDb.Fits, withRam_rows, withRam_secondaryRows, withDb_db] at hfits
  have hrest := hsound.withRows ht hn hpred hfits fun _ _ hrow => hrow
  have hclosed := hrest.closeIfEmpty (find?_insert_self _ p.name _)
  exact hclosed.withRam ram'

theorem rebillSecondary_frame {old : AccountName}
    (h : ctx.rebillSecondary E index old payer = .ok ctx') : ∃ ram, ctx' = ctx.withRam ram := by
  rw [rebillSecondary] at h
  split at h
  · simp only [bind_eq_ok] at h
    obtain ⟨_, hrefund, hcharge⟩ := h
    obtain ⟨_, rfl⟩ := updateDbUsage_frame hrefund
    obtain ⟨ram, rfl⟩ := updateDbUsage_frame hcharge
    exact ⟨ram, rfl⟩
  · cases h
    exact ⟨ctx.db.ramUsage, rfl⟩

theorem idxUpdate (h : ctx.Sound) (hok : ctx.idxUpdate E index p id payer secondary = .ok ctx')
    (hfits : ctx'.db.Fits) : ctx'.Sound := by
  simp only [TableContext.idxUpdate, bind_eq_ok, readSecondary_eq_ok_iff, pure, Except.pure,
    Except.ok.injEq] at hok
  obtain ⟨o, ho, _, _, _, _, _, hbill, rfl⟩ := hok
  obtain ⟨ram, rfl⟩ := rebillSecondary_frame hbill
  have hconsistent : TablesConsistent ctx.db.tables ctx.db.nextTableId (rowsOf ctx.db.rows
      (ctx.db.secondaryRows.insert (secondaryRow index p id)
        ⟨o.index, if payer = 0 then o.payer else payer, secondary⟩)) := by
    rw [rowsOf_modify_secondary ho]
    exact h.consistent
  exact (h.withRam ram).withDb hconsistent hfits (.of_tables rfl rfl) fun _ _ hrow => hrow

end Secondary

end Sound

/-- The contexts of all actions since the tables were empty. A context starts with an empty
cache, and whatever is not a table may change between two of them. -/
inductive Reachable : TableContext → Prop where
  | start {ctx : TableContext} : ctx.db.tables = .empty → ctx.db.rows = .empty →
      ctx.db.secondaryRows = .empty → ctx.keyvalCache = {} → Reachable ctx
  | context {ctx ctx'} : Reachable ctx → ctx'.db.tables = ctx.db.tables →
      ctx'.db.nextTableId = ctx.db.nextTableId → ctx'.db.rows = ctx.db.rows →
        ctx'.db.secondaryRows = ctx.db.secondaryRows → ctx'.keyvalCache = {} → Reachable ctx'
  | notify {ctx : TableContext} (receiver : AccountName) (privileged : Bool) :
      Reachable ctx → Reachable { ctx with receiver, privileged }
  | call {E ctx ctx' c r} :
      Reachable ctx → ctx.call E c = .ok (r, ctx') → ctx'.db.Fits → Reachable ctx'
  | idxStore {E ctx ctx' index scope table id payer secondary} :
      Reachable ctx → ctx.idxStore E index scope table payer id secondary = .ok ctx' →
        ctx'.db.Fits → Reachable ctx'
  | idxRemove {E ctx ctx' index p id} :
      Reachable ctx → ctx.idxRemove E index p id = .ok ctx' → ctx'.db.Fits → Reachable ctx'
  | idxUpdate {E ctx ctx' index p id payer secondary} :
      Reachable ctx → ctx.idxUpdate E index p id payer secondary = .ok ctx' →
        ctx'.db.Fits → Reachable ctx'

theorem Sound.of_cache_empty (hconsistent : ctx.db.Consistent)
    (hfits : ctx.db.Fits) (hcache : ctx.keyvalCache = {}) : ctx.Sound := by
  constructor
  · exact hconsistent
  · exact hfits
  all_goals
    rw [hcache]
    nofun

theorem Sound.start (htables : ctx.db.tables = .empty) (hrows : ctx.db.rows = .empty)
    (hsecondary : ctx.db.secondaryRows = .empty) (hcache : ctx.keyvalCache = {}) : ctx.Sound := by
  refine .of_cache_empty ?_ ?_ hcache
  · rw [ChainDb.Consistent, htables, hrows, hsecondary]
    exact ⟨nofun, nofun, fun h => absurd h (Nat.lt_irrefl 0), nofun⟩
  · rw [ChainDb.Fits, hrows, hsecondary]
    decide

theorem Reachable.sound (h : Reachable ctx) : ctx.Sound := by
  induction h with
  | start htables hrows hsecondary hcache => exact Sound.start htables hrows hsecondary hcache
  | context _ htables hnext hrows hsecondary hcache ih =>
    refine Sound.of_cache_empty ?_ ?_ hcache
    · rw [ChainDb.Consistent, htables, hnext, hrows, hsecondary]
      exact ih.consistent
    · rw [ChainDb.Fits, hrows, hsecondary]
      exact ih.fits
  | notify _ _ _ ih =>
    exact ⟨ih.consistent, ih.fits, ih.live, ih.cached, ih.known, ih.named⟩
  | call _ hok hfits ih => exact ih.call hok hfits
  | idxStore _ hok hfits ih => exact ih.idxStore hok hfits
  | idxRemove _ hok hfits ih => exact ih.idxRemove hok hfits
  | idxUpdate _ hok hfits ih => exact ih.idxUpdate hok hfits

end TableContext

end DreamChain
