import DreamChain.Chain.OrderedTables

/-!
Sequences of table calls within one action context, by the receivers that are notified of the
action. Their results are those of the ordered tables, an iterator stays with its row until the
row is removed, and walking with `next` or `previous` visits the rest of a table in order.

An end iterator refers to a table object rather than to the name of the table. Once the last row
is removed the object is gone, and what an end iterator that was handed out before refers to is a
removed object, also after the table was filled again.
-/

namespace DreamChain
open Library IteratorCache List FlatMap

/-- A call by the receiver that is executing. -/
structure TableInvocation where
  receiver : AccountName
  privileged : Bool := false
  call : TableCall

namespace OrderedTables

variable {a a' : OrderedTables} {row : TableName × Nat} {receiver : AccountName} {c : TableCall}
  {r : CallResult} {name : TableName}

inductive Calls : OrderedTables → List (TableInvocation × CallResult) → OrderedTables → Prop where
  | nil {a : OrderedTables} : Calls a [] a
  | cons {a a₁ a₂ inv r log} :
      a.Step inv.receiver inv.call r a₁ → Calls a₁ log a₂ → Calls a ((inv, r) :: log) a₂

variable {i j : Nat} {report : Bool} {found : Option (Nat × KeyValueObject)}
  {log : List (TableInvocation × CallResult)}

theorem Issues.getElem? (h : a.Issues row i a') : a'.iterators[i]? = some (some row) := by
  cases h with
  | known hi => exact hi
  | fresh _ => exact getElem?_concat_eq_some_iff.mpr (.inr ⟨rfl, rfl⟩)

theorem Issues.tables (h : a.Issues row i a') : a'.tables = a.tables := by
  cases h with
  | known _ => rfl
  | fresh _ => rfl

theorem Issues.keeps {row' : TableName × Nat} (h : a.Issues row i a')
    (hj : a.iterators[j]? = some (some row')) : a'.iterators[j]? = some (some row') := by
  cases h with
  | known _ => exact hj
  | fresh _ => exact getElem?_concat_eq_some_iff.mpr (.inl hj)

theorem Returns.tables (h : a.Returns name report found r a') : a'.tables = a.tables := by
  cases h with
  | row hissues => exact hissues.tables
  | none _ => rfl

theorem Returns.keeps (h : a.Returns name report found r a')
    (hj : a.iterators[j]? = some (some row)) : a'.iterators[j]? = some (some row) := by
  cases h with
  | row hissues => exact hissues.keeps hj
  | none _ => exact hj

/-- Only the call that removes a row takes its iterator away. -/
theorem Step.keeps (h : a.Step receiver c r a') (hi : a.iterators[i]? = some (some row))
    (hc : c ≠ .dbRemoveI64 i) : a'.iterators[i]? = some (some row) := by
  cases h with
  | store _ _ hissues => exact hissues.keeps hi
  | update _ _ _ => exact hi
  | @remove iterator _ _ hat _ =>
    have hpos : 0 ≤ iterator := by
      by_contra hneg
      rw [rowAt, if_neg hneg] at hat
      cases hat
    have hne : iterator.toNat ≠ i := by
      rintro rfl
      exact hc (by rw [Int.toNat_of_nonneg hpos])
    exact (getElem?_set_ne hne).trans hi
  | get _ _ => exact hi
  | next _ hreturns | previous _ hreturns | find hreturns | lowerbound hreturns
  | upperbound hreturns => exact hreturns.keeps hi
  | endOf _ => exact hi

theorem Step.frame (h : a.Step receiver c r a') (hname : receiver ≠ name.code) :
    a'.tables name = a.tables name := by
  cases h with
  | store _ _ hissues =>
    rw [hissues.tables]
    refine Function.update_of_ne ?_ _ _
    rintro rfl
    exact hname rfl
  | update _ _ hcode | remove _ hcode =>
    refine Function.update_of_ne ?_ _ _
    rintro rfl
    exact hname hcode.symm
  | get _ _ => rfl
  | next _ hreturns | previous _ hreturns | find hreturns | lowerbound hreturns
  | upperbound hreturns => rw [hreturns.tables]
  | endOf _ => rfl

theorem Calls.keeps (h : Calls a log a') (hi : a.iterators[i]? = some (some row))
    (hlog : ∀ e ∈ log, e.1.call ≠ .dbRemoveI64 i) : a'.iterators[i]? = some (some row) := by
  induction h with
  | nil => exact hi
  | cons hstep _ ih =>
    apply ih
    · exact hstep.keeps hi (hlog _ mem_cons_self)
    · exact fun e he => hlog e (mem_cons_of_mem _ he)

theorem Calls.frame (h : Calls a log a') (hlog : ∀ e ∈ log, e.1.receiver ≠ name.code) :
    a'.tables name = a.tables name := by
  induction h with
  | nil => rfl
  | cons hstep _ ih =>
    rw [ih fun e he => hlog e (mem_cons_of_mem _ he)]
    exact hstep.frame (hlog _ mem_cons_self)

end OrderedTables

def TableCall.Reads : TableCall → Prop
  | dbStoreI64 _ _ _ _ _ | dbUpdateI64 _ _ _ | dbRemoveI64 _ => False
  | _ => True

namespace TableContext

variable {E : Environment} {ctx ctx' ctx₀ : TableContext} {name : TableName} {id : Nat}
  {iterator : Int}

def notified (ctx : TableContext) (inv : TableInvocation) : TableContext :=
  { ctx with receiver := inv.receiver, privileged := inv.privileged }

inductive Calls (E : Environment) :
    TableContext → List (TableInvocation × CallResult) → TableContext → Prop where
  | nil {ctx : TableContext} : Calls E ctx [] ctx
  | cons {ctx ctx₁ ctx₂ inv r log} :
      (ctx.notified inv).call E inv.call = .ok (r, ctx₁) → ctx₁.db.Fits → Calls E ctx₁ log ctx₂ →
        Calls E ctx ((inv, r) :: log) ctx₂

variable {log : List (TableInvocation × CallResult)} {fuel : Nat}

theorem Calls.reachable (h : Calls E ctx log ctx') (hctx : ctx.Reachable) : ctx'.Reachable := by
  induction h with
  | nil => exact hctx
  | cons hok hfits _ ih => exact ih ((hctx.notify _ _).call hok hfits)

theorem Calls.refines (h : Calls E ctx log ctx') (hctx : ctx.Reachable)
    (hpos : ∀ e ∈ log, ∀ i, e.1.call.iterator? = some i → 0 ≤ i) :
    OrderedTables.Calls ctx.view log ctx'.view := by
  induction h with
  | nil => exact .nil
  | @cons ctx ctx₁ ctx₂ inv r log hok hfits _ ih =>
    have hnotified := hctx.notify inv.receiver inv.privileged
    refine .cons (call_refines hnotified.sound (hpos _ mem_cons_self) hok hfits) ?_
    exact ih (hnotified.call hok hfits) fun e he => hpos e (mem_cons_of_mem _ he)

def continueWalk (rest : TableContext → Int → Applied (List Nat)) :
    CallResult × TableContext → Applied (List Nat)
  | (.iterator next (some id), ctx) => do
    let ids ← rest ctx next
    return id :: ids
  | _ => return []

/-- The keys that a walk with one of the calls visits until there is no further row. -/
def walk (E : Environment) (c : Int → TableCall) : Nat → TableContext → Int → Applied (List Nat)
  | 0, _, _ => .ok []
  | fuel + 1, ctx, iterator => ctx.call E (c iterator) >>= continueWalk (walk E c fuel)

theorem walk_succ (c : Int → TableCall) {r : CallResult}
    (hok : ctx.call E (c iterator) = .ok (r, ctx')) :
    walk E c (fuel + 1) ctx iterator = continueWalk (walk E c fuel) (r, ctx') := by
  rw [walk, hok]
  rfl

theorem rowAt_of_issues {a : OrderedTables} {i : Nat} {row : TableName × Nat}
    (h : a.Issues row i ctx'.view) : ctx'.view.rowAt i = some row := by
  rw [OrderedTables.rowAt, Int.toNat_natCast, h.getElem?]
  rfl

theorem walk_next (h : ctx.Sound) (hat : ctx.view.rowAt iterator = some (name, id))
    (hfuel : ((ctx.db.table name).keys.filter fun k => id < k).length ≤ fuel) :
    walk E .dbNextI64 fuel ctx iterator =
      .ok ((ctx.db.table name).keys.filter fun k => id < k) := by
  induction fuel generalizing ctx iterator id with
  | zero => rw [walk, eq_nil_of_length_eq_zero (Nat.le_zero.mp hfuel)]
  | succ fuel ih =>
    obtain ⟨r, ctx', hok, hdb, hreturns⟩ := next_refines h hat
    rw [walk_succ .dbNextI64 hok]
    generalize hfirst : (ctx.db.table name).firstWhere (fun k => id < k) = found at hreturns
    generalize hview : ctx'.view = view at hreturns
    cases hreturns with
    | none _ =>
      rw [filter_eq_nil_iff.mpr]
      · rfl
      · intro k hk
        rw [firstWhere_eq_none_iff.mp hfirst k hk]
        exact Bool.false_ne_true
    | row hissues =>
      have hfilter := filter_lt_of_firstWhere hfirst
      rw [hfilter, length_cons] at hfuel
      rw [hfilter]
      rw [← hview] at hissues
      have hsound := h.dbNextI64 hok
      have hrest := ih hsound (rowAt_of_issues hissues) (by rw [hdb]; omega)
      rw [hdb] at hrest
      rw [if_pos rfl, continueWalk, hrest]
      rfl

theorem walk_previous (h : ctx.Sound) (hat : ctx.view.rowAt iterator = some (name, id))
    (hfuel : ((ctx.db.table name).keys.filter fun k => k < id).length ≤ fuel) :
    walk E .dbPreviousI64 fuel ctx iterator =
      .ok ((ctx.db.table name).keys.filter fun k => k < id).reverse := by
  induction fuel generalizing ctx iterator id with
  | zero => rw [walk, eq_nil_of_length_eq_zero (Nat.le_zero.mp hfuel), reverse_nil]
  | succ fuel ih =>
    obtain ⟨r, ctx', hok, hdb, hreturns⟩ := previous_refines h hat
    rw [walk_succ .dbPreviousI64 hok]
    generalize hlast : (ctx.db.table name).lastWhere (fun k => k < id) = found at hreturns
    generalize hview : ctx'.view = view at hreturns
    cases hreturns with
    | none _ =>
      rw [filter_eq_nil_iff.mpr]
      · rfl
      · intro k hk
        rw [lastWhere_eq_none_iff.mp hlast k hk]
        exact Bool.false_ne_true
    | row hissues =>
      have hfilter := filter_gt_of_lastWhere hlast
      rw [hfilter, length_append, length_singleton] at hfuel
      rw [hfilter, reverse_append]
      rw [← hview] at hissues
      have hsound := h.dbPreviousI64 hok
      have hrest := ih hsound (rowAt_of_issues hissues) (by rw [hdb]; omega)
      rw [hdb] at hrest
      rw [if_pos rfl, continueWalk, hrest]
      rfl

/-- The iterators of a context. `walk` needs no more steps than the table has rows. -/
structure IteratesTables (E : Environment) (ctx : TableContext) : Prop where
  unique : ∀ (i j : Nat) row, ctx.view.iterators[i]? = some (some row) →
    ctx.view.iterators[j]? = some (some row) → i = j
  alive : ∀ (i : Nat) name id, ctx.view.iterators[i]? = some (some (name, id)) →
    id ∈ (ctx.db.table name).keys
  removed : ∀ (c : TableCall) (i : Nat), c.iterator? = some (i : Int) →
    ctx.view.iterators[i]? = some none → ctx.call E c =
      .error ⟨⟨.tableOperationNotPermitted, "dereference of deleted object"⟩, none⟩
  reads : ∀ c : TableCall, c.Reads →
    (∀ i, c.iterator? = some i → ∃ row, ctx.view.rowAt i = some row) →
      ∃ r ctx', ctx.call E c = .ok (r, ctx')
  ascending : ∀ iterator name id fuel, ctx.view.rowAt iterator = some (name, id) →
    (ctx.db.table name).size ≤ fuel → walk E .dbNextI64 fuel ctx iterator =
      .ok ((ctx.db.table name).keys.filter fun k => id < k)
  descending : ∀ iterator name id fuel, ctx.view.rowAt iterator = some (name, id) →
    (ctx.db.table name).size ≤ fuel → walk E .dbPreviousI64 fuel ctx iterator =
      .ok ((ctx.db.table name).keys.filter fun k => k < id).reverse

theorem call_of_removed {c e} (hc : c.iterator? = some iterator)
    (hpos : 0 ≤ iterator) (hget : ctx.keyvalCache.get iterator = .error e) :
    ctx.call E c = .error e := by
  have hnot : ¬iterator < -1 := by omega
  cases c with
  | dbUpdateI64 _ _ _ =>
    cases hc
    simp [call, dbUpdateI64, writableRow, hget, bind, Except.bind]
  | dbRemoveI64 _ =>
    cases hc
    simp [call, dbRemoveI64, writableRow, hget, bind, Except.bind]
  | dbGetI64 _ _ =>
    cases hc
    simp [call, dbGetI64, hget, bind, Except.bind]
  | dbNextI64 _ =>
    cases hc
    simp [call, dbNextI64, hnot, hget, bind, Except.bind]
  | dbPreviousI64 _ =>
    cases hc
    simp [call, dbPreviousI64, hnot, hget, bind, Except.bind]
  | _ => cases hc

theorem Sound.iteratesTables (h : ctx.Sound) : ctx.IteratesTables E where
  unique := by
    intro i j row hi hj
    obtain ⟨row₁, hi₁, hname₁⟩ := getElem?_view_iff.mp hi
    obtain ⟨row₂, hj₂, hname₂⟩ := getElem?_view_iff.mp hj
    have hfind₁ := (ctx.keyvalCache.object_iff row₁ i).mpr hi₁
    have hfind₂ := (ctx.keyvalCache.object_iff row₂ j).mpr hj₂
    obtain rfl := h.nameOf_injective hfind₁ hfind₂ (hname₁.trans hname₂.symm)
    exact Option.some.inj (hfind₁.symm.trans hfind₂)
  alive := by
    intro i name id hi
    obtain ⟨row, hrow, hname⟩ := getElem?_view_iff.mp hi
    obtain ⟨name', hname', hid, hmem⟩ :=
      h.nameOf_eq ((ctx.keyvalCache.object_iff row i).mpr hrow)
    obtain ⟨rfl, rfl⟩ := Prod.mk.inj (Option.some.inj (hname.symm.trans hname'))
    rw [ChainDb.table_of_tableId? hid, mem_keys_fiber]
    exact hmem
  removed := by
    intro c i hc hi
    have hpos : (0 : Int) ≤ i := Int.natCast_nonneg i
    apply call_of_removed hc hpos
    apply get_of_removed hpos
    exact h.getElem?_of_removed hi
  reads := by
    intro c hc hat
    cases c with
    | dbGetI64 iterator bufferSize =>
      obtain ⟨⟨name, id⟩, hrow⟩ := hat iterator rfl
      obtain ⟨r, hok, _⟩ := get_refines h hrow ctx.receiver bufferSize
      exact ⟨r, ctx, hok⟩
    | dbNextI64 iterator =>
      obtain ⟨⟨name, id⟩, hrow⟩ := hat iterator rfl
      obtain ⟨r, ctx', hok, _⟩ := next_refines h hrow
      exact ⟨r, ctx', hok⟩
    | dbPreviousI64 iterator =>
      obtain ⟨⟨name, id⟩, hrow⟩ := hat iterator rfl
      obtain ⟨r, ctx', hok, _⟩ := previous_refines h hrow
      exact ⟨r, ctx', hok⟩
    | dbFindI64 _ _ _ _ | dbLowerboundI64 _ _ _ _ | dbUpperboundI64 _ _ _ _ | dbEndI64 _ _ _ =>
      exact ⟨_, _, rfl⟩
    | dbStoreI64 _ _ _ _ _ | dbUpdateI64 _ _ _ | dbRemoveI64 _ => exact hc.elim
  ascending := by
    intro iterator name id fuel hat hfuel
    exact walk_next h hat (Nat.le_trans (length_filter_le _ _)
      (Nat.le_trans (length_map _).le hfuel))
  descending := by
    intro iterator name id fuel hat hfuel
    exact walk_previous h hat (Nat.le_trans (length_filter_le _ _)
      (Nat.le_trans (length_map _).le hfuel))

end TableContext

/-- Calls with iterators that were returned earlier, by any receivers of the action, against the
ordered tables. -/
theorem table_calls_refine {E : Environment} {ctx₀ ctx : TableContext}
    {log : List (TableInvocation × CallResult)} (hstart : ctx₀.Reachable)
    (hrun : TableContext.Calls E ctx₀ log ctx)
    (hpos : ∀ e ∈ log, ∀ i, e.1.call.iterator? = some i → 0 ≤ i) :
    OrderedTables.Calls ctx₀.view log ctx.view ∧ ctx.IteratesTables E ∧
      (∀ (i : Nat) row, ctx₀.view.iterators[i]? = some (some row) →
        (∀ e ∈ log, e.1.call ≠ .dbRemoveI64 i) → ctx.view.iterators[i]? = some (some row)) ∧
      ∀ name, (∀ e ∈ log, e.1.receiver ≠ name.code) → ctx.db.table name = ctx₀.db.table name := by
  have hcalls := hrun.refines hstart hpos
  refine ⟨hcalls, (hrun.reachable hstart).sound.iteratesTables, ?_, ?_⟩
  · intro i row hi hlog
    exact hcalls.keeps hi hlog
  · intro name hlog
    exact hcalls.frame hlog

section Example

def emptyTableContext : TableContext :=
  { db := { ramUsage := ⟨[(1, 0), (2, 0)], by decide⟩ }, receiver := 1, account := 1 }

def tableEnvironment : Environment :=
  { hash := fun _ => {}, validateCode := fun _ => .ok (), packSize := fun _ => 0 }

theorem emptyTableContext_reachable : emptyTableContext.Reachable :=
  .start rfl rfl rfl rfl

theorem table_calls_refine_notified : ∃ ctx : TableContext,
      OrderedTables.Calls emptyTableContext.view
        [(⟨1, false, .dbStoreI64 0 7 1 5 [42]⟩, .iterator 0 none),
          (⟨2, false, .dbGetI64 0 8⟩, .data 1 [42])] ctx.view ∧
      ctx.IteratesTables tableEnvironment ∧
      ctx.db.table (tableName 3 0 7) = emptyTableContext.db.table (tableName 3 0 7) := by
  obtain ⟨ctx₁, hstore, hfits₁, ctx₂, hget, hfits₂⟩ : ∃ ctx₁,
      (emptyTableContext.notified ⟨1, false, .dbStoreI64 0 7 1 5 [42]⟩).call tableEnvironment
        (.dbStoreI64 0 7 1 5 [42]) = .ok (.iterator 0 none, ctx₁) ∧ ctx₁.db.Fits ∧ ∃ ctx₂,
      (ctx₁.notified ⟨2, false, .dbGetI64 0 8⟩).call tableEnvironment (.dbGetI64 0 8) =
        .ok (.data 1 [42], ctx₂) ∧ ctx₂.db.Fits :=
    ⟨_, rfl, by rw [ChainDb.Fits]; decide, _, rfl, by rw [ChainDb.Fits]; decide⟩
  have hrun := TableContext.Calls.cons hstore hfits₁ (.cons hget hfits₂ .nil)
  obtain ⟨hcalls, hiterates, _, hframe⟩ := table_calls_refine emptyTableContext_reachable hrun (by
    intro e he i hi
    simp only [mem_cons, not_mem_nil, or_false] at he
    obtain rfl | rfl := he
    · cases hi
    · cases hi
      exact Int.le_refl 0)
  refine ⟨ctx₂, hcalls, hiterates, hframe _ ?_⟩
  intro e he
  simp only [mem_cons, not_mem_nil, or_false] at he
  obtain rfl | rfl := he
  · decide
  · decide

end Example

section EndIterators

variable {E : Environment} {ctx ctx' ctx₁ ctx₂ : TableContext} {name : TableName} {c : TableCall}
  {r : CallResult} {ei : Int} {n : Nat} {p : TablePointer}

namespace TableContext

def callTable (ctx : TableContext) : TableCall → Option TableName
  | .dbFindI64 code scope table _ | .dbLowerboundI64 code scope table _
  | .dbUpperboundI64 code scope table _ | .dbEndI64 code scope table =>
    some (tableName code scope table)
  | .dbNextI64 iterator => (ctx.view.rowAt iterator).map Prod.fst
  | .dbStoreI64 _ _ _ _ _ | .dbUpdateI64 _ _ _ | .dbRemoveI64 _ | .dbGetI64 _ _
  | .dbPreviousI64 _ => none

/-- `db_previous_i64` of an end iterator of the table returns the last row when there is one, and
-1 otherwise. -/
def LastBefore (E : Environment) (ctx : TableContext) (name : TableName) (ei : Int) : Prop :=
  match (ctx.db.table name).lastWhere fun _ => true with
  | some (id, _) => ∃ (i : Nat) (ctx' : TableContext),
      ctx.call E (.dbPreviousI64 ei) = .ok (.iterator i (some id), ctx') ∧
        ctx'.view.rowAt i = some (name, id)
  | none => ∃ ctx', ctx.call E (.dbPreviousI64 ei) = .ok (.iterator (-1) none, ctx')

variable {search : Nat → Option RowPointer} {primary : Option Nat}

theorem lookup_endIterator (hok : ctx.lookup name search = (r, ctx'))
    (h : ctx.keyvalCache.endIteratorToTable[n]? = some p) :
    ctx'.keyvalCache.endIteratorToTable[n]? = some p := by
  rw [lookup] at hok
  split at hok
  · cases hok
    exact h
  · split at hok
    · cases hok
      exact cacheTable_endIterator h _
    · cases hok
      change ((ctx.keyvalCache.cacheTable _).2.add _).2.endIteratorToTable[n]? = some p
      rw [add_endIterators]
      exact cacheTable_endIterator h _

theorem visit_endIterators (row : RowPointer) :
    (ctx.visit row).2.keyvalCache.endIteratorToTable = ctx.keyvalCache.endIteratorToTable :=
  add_endIterators row

variable {iterator : Int}

theorem next_endIterators (hok : ctx.dbNextI64 iterator = .ok (r, ctx')) :
    ctx'.keyvalCache.endIteratorToTable = ctx.keyvalCache.endIteratorToTable := by
  rw [dbNextI64] at hok
  split at hok
  · cases hok
    rfl
  · simp only [bind_eq_ok] at hok
    obtain ⟨row, _, o, _, hok⟩ := hok
    split at hok
    · simp only [bind_eq_ok] at hok
      obtain ⟨ei, _, hok⟩ := hok
      cases hok
      rfl
    · cases hok
      exact visit_endIterators _

theorem previous_endIterators (hok : ctx.dbPreviousI64 iterator = .ok (r, ctx')) :
    ctx'.keyvalCache.endIteratorToTable = ctx.keyvalCache.endIteratorToTable := by
  rw [dbPreviousI64] at hok
  split at hok
  · simp only [previousOfEnd, bind_eq_ok] at hok
    obtain ⟨x, _, hok⟩ := hok
    cases x with
    | none => cases hok
    | some p =>
      simp only [bind_eq_ok] at hok
      obtain ⟨t, _, hok⟩ := hok
      split at hok
      · cases hok
        rfl
      · cases hok
        exact visit_endIterators _
  · simp only [bind_eq_ok] at hok
    obtain ⟨row, _, o, _, hok⟩ := hok
    split at hok
    · cases hok
      rfl
    · cases hok
      exact visit_endIterators _

theorem call_endIterator (hok : ctx.call E c = .ok (r, ctx'))
    (h : ctx.keyvalCache.endIteratorToTable[n]? = some p) :
    ctx'.keyvalCache.endIteratorToTable[n]? = some p := by
  cases c with
  | dbStoreI64 scope table payer id buffer =>
    obtain ⟨t, ram, count, _, _, _, _, _, rfl⟩ := dbStoreI64_ok hok
    change ((ctx.keyvalCache.cacheTable _).2.add _).2.endIteratorToTable[n]? = some p
    rw [add_endIterators]
    exact cacheTable_endIterator h _
  | dbUpdateI64 iterator payer buffer =>
    obtain ⟨row, o, p', ram, _, _, rfl⟩ := dbUpdateI64_ok hok
    exact h
  | dbRemoveI64 iterator =>
    obtain ⟨row, o, p', t, ram, count, hget, _, _, _, _, _, rfl⟩ := dbRemoveI64_ok hok
    exact h
  | dbGetI64 iterator bufferSize =>
    have hok' : ctx.dbGetI64 iterator bufferSize = .ok (r, ctx') := hok
    simp only [dbGetI64, bind_eq_ok] at hok'
    obtain ⟨row, _, o, _, hok'⟩ := hok'
    split at hok'
    · cases hok'
      exact h
    · cases hok'
      exact h
  | dbNextI64 iterator => rw [next_endIterators hok, h]
  | dbPreviousI64 iterator => rw [previous_endIterators hok, h]
  | dbFindI64 code scope table id | dbLowerboundI64 code scope table id
  | dbUpperboundI64 code scope table id | dbEndI64 code scope table =>
    exact lookup_endIterator (Except.ok.inj hok) h

theorem Calls.endIterator {log : List (TableInvocation × CallResult)} (h : Calls E ctx log ctx')
    (hn : ctx.keyvalCache.endIteratorToTable[n]? = some p) :
    ctx'.keyvalCache.endIteratorToTable[n]? = some p := by
  induction h with
  | nil => exact hn
  | cons hok _ _ ih => exact ih (call_endIterator hok hn)

theorem lookup_handsOut (h : ctx.Sound)
    (hok : ctx.lookup name search = (.iterator ei primary, ctx')) (hei : ei < -1) :
    ∃ p : TablePointer, ctx'.keyvalCache.endIteratorToTable[endIteratorToIndex ei]? = some p ∧
      p.name = name ∧ ctx'.db.tableId? name = some p.id := by
  rw [lookup] at hok
  split at hok
  · cases hok
    exact absurd hei (by decide)
  · rename_i t ht
    split at hok
    · cases hok
      obtain ⟨p, hp⟩ := cacheTable_find (c := ctx.keyvalCache) ⟨t.id, name⟩
      obtain ⟨hend, hid⟩ := endIterator_of_tableCache hp
      have hsound := h.cacheTable (p := ⟨t.id, name⟩) ht rfl
      exact ⟨p, hend, (hsound.named hp ht rfl).symm,
        ChainDb.tableId?_eq_some_iff.mpr ⟨t, ht, hid.symm⟩⟩
    · rename_i row _
      cases hok
      have hnonneg : 0 ≤ (ctx.addRow ⟨t.id, name⟩ row).1 := add_nonneg row
      omega

theorem next_handsOut {id : Nat} (h : ctx.Sound) (hat : ctx.view.rowAt iterator = some (name, id))
    (hok : ctx.dbNextI64 iterator = .ok (.iterator ei primary, ctx')) (hei : ei < -1) :
    ∃ p : TablePointer, ctx'.keyvalCache.endIteratorToTable[endIteratorToIndex ei]? = some p ∧
      p.name = name ∧ ctx'.db.tableId? name = some p.id := by
  obtain ⟨row, o, hpos, hget, _, hname, _, hid, _⟩ := h.row_of_rowAt hat
  rw [dbNextI64, if_neg (by omega), bind_eq_ok] at hok
  obtain ⟨row', hget', hok⟩ := hok
  obtain rfl := Except.ok.inj (hget.symm.trans hget')
  simp only [bind_eq_ok] at hok
  obtain ⟨o', _, hok⟩ := hok
  split at hok
  · simp only [bind_eq_ok, getEndIteratorByTableId_eq_ok_iff] at hok
    obtain ⟨ei', ⟨p, hp⟩, hok⟩ := hok
    cases hok
    obtain ⟨hend, hpid⟩ := endIterator_of_tableCache hp
    rw [nameOf, hp] at hname
    exact ⟨p, hend, (Prod.mk.inj (Option.some.inj hname)).1, hid.trans (congrArg some hpid.symm)⟩
  · rename_i next _
    cases hok
    have hnonneg := add_nonneg (c := ctx.keyvalCache) next
    omega

theorem call_handsOut (h : ctx.Sound) (hok : ctx.call E c = .ok (.iterator ei primary, ctx'))
    (hei : ei < -1) (hname : ctx.callTable c = some name) :
    ∃ p : TablePointer, ctx'.keyvalCache.endIteratorToTable[endIteratorToIndex ei]? = some p ∧
      p.name = name ∧ ctx'.db.tableId? name = some p.id := by
  cases c with
  | dbFindI64 code scope table id | dbLowerboundI64 code scope table id
  | dbUpperboundI64 code scope table id | dbEndI64 code scope table =>
    obtain rfl := Option.some.inj hname
    exact lookup_handsOut h (Except.ok.inj hok) hei
  | dbNextI64 iterator =>
    obtain ⟨⟨name', id⟩, hat, rfl⟩ := Option.map_eq_some_iff.mp hname
    exact next_handsOut h hat hok hei
  | _ => cases hname

theorem dbPreviousI64_of_end {t} (hei : ei < -1)
    (hfind : ctx.keyvalCache.findTableByEndIterator ei = .ok (some p))
    (hread : ctx.db.readTable p = .ok t) : ctx.dbPreviousI64 ei =
      (match sameTable t.id (ctx.db.rows.lastWhere fun k => RowPointer.tableId k ≤ t.id) with
        | none => .ok (.iterator (-1) none, ctx)
        | some last => .ok (ctx.visit last)) := by
  rw [dbPreviousI64, if_pos hei, previousOfEnd, hfind]
  change (ctx.db.readTable p >>= _) = _
  rw [hread]
  rfl

theorem lastBefore_of_live (h : ctx.Sound) (hei : ei < -1)
    (hend : ctx.keyvalCache.endIteratorToTable[endIteratorToIndex ei]? = some p)
    (hid : ctx.db.tableId? p.name = some p.id) : ctx.LastBefore E p.name ei := by
  obtain ⟨t, ht, htid⟩ := ChainDb.tableId?_eq_some_iff.mp hid
  have hfind := findTableByEndIterator_eq_ok_iff.mpr ⟨hei, hend⟩
  have hread := ChainDb.readTable_eq_ok_iff.mpr ⟨ht, htid⟩
  have hlast : sameTable t.id (ctx.db.rows.lastWhere fun k => RowPointer.tableId k ≤ t.id) =
      ((ctx.db.table p.name).lastWhere fun _ => true).map
        fun e => (toLex (t.id, e.1) : RowPointer) := by
    rw [ChainDb.table_of_tableId? hid, ← htid]
    apply sameTable_lastWhere_eq
    · intro k
      exact decide_eq_true (Nat.le_refl t.id)
    · intro k hk
      exact of_decide_eq_true hk
  have hcall : ctx.call E (.dbPreviousI64 ei) = _ := dbPreviousI64_of_end hei hfind hread
  rw [LastBefore, hcall, hlast]
  cases hfound : (ctx.db.table p.name).lastWhere fun _ => true with
  | none => exact ⟨ctx, rfl⟩
  | some e =>
    have hname : nameOf ctx.keyvalCache (toLex (t.id, e.1)) = some (p.name, e.1) := by
      have hcached := tableCache_of_endIterator hend
      change (ctx.keyvalCache.tableCache.find? t.id).map _ = _
      rw [htid, hcached]
      rfl
    obtain ⟨i, hi, hissues⟩ := TableContext.Sound.issues_add h hname
      (hid.trans (congrArg some htid.symm))
    refine ⟨i, (ctx.visit (toLex (t.id, e.1))).2, ?_, rowAt_of_issues hissues⟩
    rw [← hi]
    rfl

theorem previous_of_removed (hei : ei < -1)
    (hend : ctx.keyvalCache.endIteratorToTable[endIteratorToIndex ei]? = some p)
    (hid : ctx.db.tableId? p.name ≠ some p.id) :
    ctx.call E (.dbPreviousI64 ei) = .error danglingPointer := by
  have hfind := findTableByEndIterator_eq_ok_iff.mpr ⟨hei, hend⟩
  have hread : ctx.db.readTable p = .error danglingPointer := by
    rw [ChainDb.readTable]
    split
    · rename_i t ht
      rw [if_neg]
      exact fun htid => hid (ChainDb.tableId?_eq_some_iff.mpr ⟨t, ht, htid⟩)
    · rfl
  change ctx.dbPreviousI64 ei = _
  rw [dbPreviousI64, if_pos hei, previousOfEnd, hfind]
  change (ctx.db.readTable p >>= _) = _
  rw [hread]
  rfl

end TableContext

/-- An end iterator of a table serves `db_previous_i64` exactly as long as the table has the
object that it had when the iterator was handed out. -/
theorem previous_of_end_iff {ctx₀ : TableContext} {inv : TableInvocation}
    {primary : Option Nat} {log : List (TableInvocation × CallResult)} (hstart : ctx₀.Reachable)
    (hhand : (ctx₀.notified inv).call E inv.call = .ok (.iterator ei primary, ctx₁))
    (hfits : ctx₁.db.Fits) (hei : ei < -1)
    (hname : (ctx₀.notified inv).callTable inv.call = some name)
    (hrun : TableContext.Calls E ctx₁ log ctx₂) :
    ctx₂.LastBefore E name ei ↔ ctx₂.db.tableId? name = ctx₁.db.tableId? name := by
  have hnotified := hstart.notify inv.receiver inv.privileged
  obtain ⟨p, hend, rfl, hid⟩ := TableContext.call_handsOut hnotified.sound hhand hei hname
  have hend₂ := hrun.endIterator hend
  have hsound := (hrun.reachable (hnotified.call hhand hfits)).sound
  rw [hid]
  constructor
  · intro hlast
    by_contra hne
    have hcall := TableContext.previous_of_removed (E := E) hei hend₂ hne
    rw [TableContext.LastBefore, hcall] at hlast
    split at hlast
    · obtain ⟨_, _, hok, _⟩ := hlast
      cases hok
    · obtain ⟨_, hok⟩ := hlast
      cases hok
  · exact TableContext.lastBefore_of_live hsound hei hend₂

end EndIterators

section Example

/-- The only row of a table is removed after an end iterator was handed out. The end iterator
refers to the removed table object then, and still does when the table has a row again. -/
theorem previous_of_end_dangles : ∃ ctx₁ ctx₂ ctx₃ : TableContext,
      TableContext.Calls tableEnvironment emptyTableContext
        [(⟨1, false, .dbStoreI64 0 7 1 5 [42]⟩, .iterator 0 none),
          (⟨1, false, .dbEndI64 1 0 7⟩, .iterator (-2) none)] ctx₁ ∧
      TableContext.Calls tableEnvironment ctx₁ [(⟨1, false, .dbRemoveI64 0⟩, .done)] ctx₂ ∧
      ctx₂.call tableEnvironment (.dbPreviousI64 (-2)) = .error danglingPointer ∧
      TableContext.Calls tableEnvironment ctx₂
        [(⟨1, false, .dbStoreI64 0 7 1 6 [43]⟩, .iterator 1 none)] ctx₃ ∧
      (ctx₃.db.table (tableName 1 0 7)).keys = [6] ∧
      ctx₃.call tableEnvironment (.dbPreviousI64 (-2)) = .error danglingPointer :=
  ⟨_, _, _,
    .cons rfl (by rw [ChainDb.Fits]; decide) (.cons rfl (by rw [ChainDb.Fits]; decide) .nil),
    .cons rfl (by rw [ChainDb.Fits]; decide) .nil, rfl,
    .cons rfl (by rw [ChainDb.Fits]; decide) .nil, rfl, rfl⟩

theorem previous_of_end_iff_untouched :
    ∃ ctx : TableContext, ctx.LastBefore tableEnvironment (tableName 1 0 7) (-2) := by
  obtain ⟨ctx₁, hstore, hfits₁, ctx₂, hend, hfits₂⟩ : ∃ ctx₁,
      (emptyTableContext.notified ⟨1, false, .dbStoreI64 0 7 1 5 [42]⟩).call tableEnvironment
        (.dbStoreI64 0 7 1 5 [42]) = .ok (.iterator 0 none, ctx₁) ∧ ctx₁.db.Fits ∧ ∃ ctx₂,
      (ctx₁.notified ⟨1, false, .dbEndI64 1 0 7⟩).call tableEnvironment (.dbEndI64 1 0 7) =
        .ok (.iterator (-2) none, ctx₂) ∧ ctx₂.db.Fits :=
    ⟨_, rfl, by rw [ChainDb.Fits]; decide, _, rfl, by rw [ChainDb.Fits]; decide⟩
  have hreachable := (emptyTableContext_reachable.notify 1 false).call hstore hfits₁
  exact ⟨ctx₂, (previous_of_end_iff hreachable hend hfits₂ (by decide) rfl .nil).mpr rfl⟩

end Example

end DreamChain
