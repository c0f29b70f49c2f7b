import DreamChain.Chain.Action

/-!
The traces that the state history plugin stores with a block. Every execution of a transaction
that gets a receipt leaves its trace in a cache, speculative ones too, and an accepted block takes
its traces from there by the ids of its transactions. The trace of the block's own transaction is
recognised by its shape and kept apart.
-/

namespace DreamChain.StateHistory
open Library List

/-- What is read of a trace. The rest of it and the transaction stored with it are `content`. -/
structure TransactionTrace (τ : Type) where
  id : TransactionIdType
  receipt : Bool
  failedDtrxTrace : Option TransactionIdType
  actionTraces : List Action
  content : τ
deriving DecidableEq

variable {τ : Type} {id : TransactionIdType}

def TransactionTrace.isOnblock (p : TransactionTrace τ) : Bool :=
  match p.actionTraces with
  | [act] =>
    decide (act.account = config.systemAccountName ∧ act.name = stringToName "onblock" ∧
      act.authorization = [⟨config.systemAccountName, config.activeName⟩])
  | _ => false

structure TraceCache (τ : Type) where
  cachedTraces : FlatMap TransactionIdType (TransactionTrace τ) := .empty
  onblockTrace : Option (TransactionTrace τ) := none

namespace TraceCache

def onAppliedTransaction (c : TraceCache τ) (p : TransactionTrace τ) : TraceCache τ :=
  if p.receipt then
    if p.isOnblock then { c with onblockTrace := some p }
    else
      match p.failedDtrxTrace with
      | some id => { c with cachedTraces := c.cachedTraces.insert id p }
      | none => { c with cachedTraces := c.cachedTraces.insert p.id p }
  else c

def findTrace (c : TraceCache τ) (id : TransactionIdType) : Fallible (TransactionTrace τ) :=
  match (c.cachedTraces.find? id).filter (fun p => p.receipt) with
  | some p => .ok p
  | none => .error ⟨.other 3110000, "missing trace for transaction ${id}"⟩

def findTraces (c : TraceCache τ) : List TransactionIdType → Fallible (List (TransactionTrace τ))
  | [] => .ok []
  | id :: ids => do
    let p ← c.findTrace id
    let traces ← c.findTraces ids
    return p :: traces

/-- `store_traces` for the transactions of a block, up to the write to the log. -/
def storeTraces (c : TraceCache τ) (ids : List TransactionIdType) :
    TraceCache τ × Fallible (List (TransactionTrace τ)) :=
  match c.findTraces ids with
  | .error e => (c, .error e)
  | .ok traces => ({}, .ok (c.onblockTrace.toList ++ traces))

end TraceCache

inductive Outcome (τ : Type) where
  | executed (actionTraces : List Action) (content : τ)
  /-- `retired` tells that a scheduled transaction gets a receipt all the same. -/
  | failed (subjective retired : Bool) (actionTraces : List Action) (content : τ)
  | badBlock

structure PendingBlock (τ : Type) where
  /-- Not a speculative block in another read mode than SPECULATIVE. -/
  keeps : Bool
  receipts : List (TransactionIdType × TransactionTrace τ) := []
  onblock : Option (TransactionTrace τ) := none

def PendingBlock.traces (block : PendingBlock τ) : List (TransactionTrace τ) :=
  block.onblock.toList ++ block.receipts.map Prod.snd

/-- A scheduled transaction, with what its execution and its error handler come to. -/
structure ScheduledTrx (τ : Type) where
  id : TransactionIdType
  expired : Bool
  content : τ
  outcome : Outcome τ
  hasSender : Bool
  errorId : TransactionIdType
  onerror : Outcome τ

inductive Operation (τ : Type) where
  | startBlock (keeps : Bool) (id : TransactionIdType) (onblock : Outcome τ)
  | pushTransaction (id : TransactionIdType) (outcome : Outcome τ)
  | pushScheduledTransaction (g : ScheduledTrx τ)
  | abortBlock
  | acceptBlock

structure Node (τ : Type) where
  cache : TraceCache τ := {}
  pending : Option (PendingBlock τ) := none

namespace Node

/-- The trace of an execution is emitted, and its receipt is kept or taken back. -/
def emit (n : Node τ) (block : PendingBlock τ) (keep : Bool) (id : TransactionIdType)
    (trace : TransactionTrace τ) : Node τ where
  cache := n.cache.onAppliedTransaction trace
  pending := some (if trace.receipt && keep then
    { block with receipts := block.receipts ++ [(id, trace)] } else block)

def pushTransaction (n : Node τ) (block : PendingBlock τ) (id : TransactionIdType) :
    Outcome τ → Node τ
  | .executed actionTraces content =>
    n.emit block block.keeps id ⟨id, true, none, actionTraces, content⟩
  | .failed _ _ actionTraces content =>
    n.emit block block.keeps id ⟨id, false, none, actionTraces, content⟩
  | .badBlock => n

/-- A failed transaction is handed to its sender, unless the failure is subjective. -/
def pushScheduledTransaction (n : Node τ) (block : PendingBlock τ) (g : ScheduledTrx τ) : Node τ :=
  if g.expired then n.emit block true g.id ⟨g.id, true, none, [], g.content⟩
  else
    match g.outcome with
    | .executed actionTraces content =>
      n.emit block true g.id ⟨g.id, true, none, actionTraces, content⟩
    | .failed subjective retired actionTraces content =>
      if g.hasSender && !subjective then
        match g.onerror with
        | .executed actionTraces content =>
          n.emit block true g.id ⟨g.errorId, true, some g.id, actionTraces, content⟩
        | .failed _ retired actionTraces content =>
          n.emit block true g.id ⟨g.errorId, retired, some g.id, actionTraces, content⟩
        | .badBlock => n
      else n.emit block true g.id ⟨g.id, retired, none, actionTraces, content⟩
    | .badBlock => n

/-- A block that keeps its transactions starts with a transaction of its own. -/
def startBlock (n : Node τ) (keeps : Bool) (id : TransactionIdType) (onblock : Outcome τ) : Node τ :=
  match keeps, onblock with
  | true, .executed actionTraces content =>
    let trace : TransactionTrace τ := ⟨id, true, none, actionTraces, content⟩
    ⟨n.cache.onAppliedTransaction trace, some ⟨keeps, [], some trace⟩⟩
  | true, .failed _ _ actionTraces content =>
    ⟨n.cache.onAppliedTransaction ⟨id, false, none, actionTraces, content⟩, some ⟨keeps, [], none⟩⟩
  | _, _ => ⟨n.cache, some ⟨keeps, [], none⟩⟩

/-- A transaction with a receipt in the block is a duplicate, or no longer scheduled. -/
def apply (n : Node τ) (op : Operation τ) : Node τ :=
  match n.pending, op with
  | none, .startBlock keeps id onblock => n.startBlock keeps id onblock
  | some block, .pushTransaction id outcome =>
    if id ∈ block.receipts.map Prod.fst then n else n.pushTransaction block id outcome
  | some block, .pushScheduledTransaction g =>
    if g.id ∈ block.receipts.map Prod.fst then n else n.pushScheduledTransaction block g
  | some _, .abortBlock => { n with pending := none }
  | some block, .acceptBlock => ⟨(n.cache.storeTraces (block.receipts.map Prod.fst)).1, none⟩
  | _, _ => n

/-- Blocks are received, produced and switched to by these operations, in any order. -/
inductive Reachable : Node τ → Prop
  | start : Reachable {}
  | apply {n} (h : Reachable n) (op : Operation τ) : Reachable (n.apply op)

/-- Of the block's own executions only those that look like its own transaction may be missing in
the cache. -/
def Recorded (n : Node τ) : Prop :=
  ∀ block, n.pending = some block → ∀ r ∈ block.receipts,
    r.2.receipt = true ∧ (r.2.isOnblock = false → n.cache.cachedTraces.find? r.1 = some r.2)

variable {n : Node τ} {block : PendingBlock τ}

theorem find?_onAppliedTransaction (c : TraceCache τ) (p : TransactionTrace τ)
    (id : TransactionIdType) : (c.onAppliedTransaction p).cachedTraces.find? id =
      if p.receipt = true ∧ p.isOnblock = false ∧ p.failedDtrxTrace.getD p.id = id then some p
      else c.cachedTraces.find? id := by
  rw [TraceCache.onAppliedTransaction]
  cases hreceipt : p.receipt with
  | false => simp
  | true =>
    cases honblock : p.isOnblock with
    | true => simp
    | false => cases p.failedDtrxTrace <;> simp [FlatMap.find?_insert]

theorem Recorded.emit (h : n.Recorded) (hblock : n.pending = some block)
    (hid : id ∉ block.receipts.map Prod.fst) {trace : TransactionTrace τ}
    (hcached : trace.failedDtrxTrace.getD trace.id = id) (keep : Bool) :
    (n.emit block keep id trace).Recorded := by
  intro block' hblock' r hr
  cases hblock'
  simp only [Node.emit, find?_onAppliedTransaction, hcached] at hr ⊢
  have hother (hmem : r ∈ block.receipts) : ¬ (trace.receipt = true ∧ trace.isOnblock = false ∧
      id = r.1) := fun hself => hid (hself.2.2 ▸ mem_map_of_mem hmem)
  split at hr
  · rename_i hkept
    cases mem_append.mp hr with
    | inl hmem =>
      rw [if_neg (hother hmem)]
      exact h block hblock r hmem
    | inr hnew =>
      rw [mem_singleton.mp hnew]
      have hreceipt := (Bool.and_eq_true_iff.mp hkept).1
      exact ⟨hreceipt, fun honblock => if_pos ⟨hreceipt, honblock, rfl⟩⟩
  · rw [if_neg (hother hr)]
    exact h block hblock r hr

theorem Recorded.apply (h : n.Recorded) (op : Operation τ) : (n.apply op).Recorded := by
  unfold Node.apply
  split
  · unfold startBlock
    split <;> exact fun block hblock r hr => by cases hblock; cases hr
  · rename_i block id outcome hpending
    split
    · exact h
    · rename_i hid
      cases outcome with
      | executed | failed => exact h.emit hpending hid rfl _
      | badBlock => exact h
  · rename_i block g hpending
    split
    · exact h
    · rename_i hid
      rw [pushScheduledTransaction]
      split
      · exact h.emit hpending hid rfl _
      · split
        · exact h.emit hpending hid rfl _
        · split
          · split
            · exact h.emit hpending hid rfl _
            · exact h.emit hpending hid rfl _
            · exact h
          · exact h.emit hpending hid rfl _
        · exact h
  · exact nofun
  · exact nofun
  · exact h

theorem Reachable.recorded (h : Reachable n) : n.Recorded := by
  induction h with
  | start => exact nofun
  | apply _ op ih => exact ih.apply op

end Node

namespace TraceCache

variable {c : TraceCache τ}

theorem length_findTraces {ids traces}
    (h : c.findTraces ids = .ok traces) : traces.length = ids.length := by
  induction ids generalizing traces with
  | nil =>
    cases h
    rfl
  | cons id ids ih =>
    simp only [findTraces, bind_eq_ok] at h
    obtain ⟨p, -, rest, hrest, h⟩ := h
    cases h
    exact congrArg Nat.succ (ih hrest)

theorem findTrace_eq_ok {p : TransactionTrace τ} :
    c.findTrace id = .ok p ↔ c.cachedTraces.find? id = some p ∧ p.receipt = true := by
  rw [findTrace, ← Option.filter_eq_some_iff]
  split
  · rename_i q hq
    rw [hq, Except.ok.injEq, Option.some.injEq]
  · rename_i hnone
    rw [hnone]
    exact iff_of_false nofun nofun

theorem findTraces_eq_ok {l : List (TransactionIdType × TransactionTrace τ)} :
    c.findTraces (l.map Prod.fst) = .ok (l.map Prod.snd) ↔ ∀ r ∈ l, c.findTrace r.1 = .ok r.2 := by
  induction l with
  | nil => exact iff_of_true rfl nofun
  | cons r l ih =>
    rw [forall_mem_cons, ← ih]
    simp only [map_cons, findTraces, bind_eq_ok]
    constructor
    · rintro ⟨p, hp, rest, hrest, heq⟩
      cases heq
      exact ⟨hp, hrest⟩
    · exact fun h => ⟨_, h.1, _, h.2, rfl⟩

end TraceCache

/-- The own transaction of the block is the last one since the last entry that looked like one,
and no other transaction of the block does. -/
def PendingBlock.Recognised (block : PendingBlock τ) (c : TraceCache τ) : Prop :=
  c.onblockTrace = block.onblock ∧ ∀ r ∈ block.receipts, r.2.isOnblock = true →
    c.cachedTraces.find? r.1 = some r.2

def onblockAction : Action :=
  ⟨config.systemAccountName, stringToName "onblock",
    [⟨config.systemAccountName, config.activeName⟩], .bytes []⟩

/-- A speculative block, which is aborted, and the block that is received then. -/
def staleNode (onblock : Outcome Nat) : Node Nat :=
  [Operation.startBlock true { hash0 := 1 } (.executed [onblockAction] 1), .abortBlock,
    .startBlock true { hash0 := 2 } onblock,
    .pushTransaction { hash0 := 3 } (.executed [] 3)].foldl Node.apply {}

theorem reachable_staleNode (onblock : Outcome Nat) : (staleNode onblock).Reachable :=
  (((Node.Reachable.start.apply _).apply _).apply _).apply _

end DreamChain.StateHistory
