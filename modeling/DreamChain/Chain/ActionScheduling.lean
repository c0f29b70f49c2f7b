import DreamChain.Chain.Action
import DreamChain.Library.ExceptLoop

/-!
The execution of the actions of a transaction. The code of an action can notify other accounts of
it and create inline actions. All of them are traced in a vector that grows while it is executed.
The context of an action first runs the code of all notified accounts, then the context-free
inline actions and then the ordinary ones, each in a context of its own.

Contracts are trees of the calls they make, so nothing is assumed of them. A transaction that does
not end is stopped by its deadline.
-/

namespace DreamChain
open Library List

structure ActionTrace where
  actionOrdinal : Nat
  creatorActionOrdinal : Nat
  closestUnnotifiedAncestorActionOrdinal : Nat
  receiver : AccountName
  act : Action
  contextFree : Bool
deriving DecidableEq

/-- An action is executed for another account than its own as a notification only. -/
def ActionTrace.isNotification (t : ActionTrace) : Bool := t.receiver ≠ t.act.account

/-- The code that runs for a receiver. -/
inductive ContractCode (σ : Type) where
  | finish
  | throws (e : ChainException)
  /-- All the other calls. The code goes on with the state they leave. -/
  | access (f : σ → Fallible σ) (next : σ → ContractCode σ)
  | requireRecipient (recipient : AccountName) (next : ContractCode σ)
  | executeInline (a : Action) (next : ContractCode σ)
  | executeContextFreeInline (a : Action) (next : ContractCode σ)

structure ActionWorld (σ : Type) where
  isAccount : σ → AccountName → Bool
  maxInlineActionDepth : σ → UInt16
  /-- The native handler and the contract that run for a receiver. -/
  code : σ → List ActionTrace → (receiver : AccountName) → (act : Action) → (contextFree : Bool) →
    (actionOrdinal : Nat) → ContractCode σ
  /-- The checks of the authorizations of an inline action. -/
  checkInlineAuthorization : σ → (receiver : AccountName) → (act a : Action) → Fallible Unit
  nextSequences : σ → (receiver : AccountName) → Action → Fallible σ
  scheduleTransaction : σ → Fallible σ

/-- The parts of `transaction_context` that the actions change. A receipt is listed with the
ordinal of the trace it is stored in. -/
structure TransactionRun (σ : Type) where
  world : σ
  actionTraces : List ActionTrace := []
  executed : List Nat := []

namespace TransactionRun

variable {σ : Type}

def getActionTrace (st : TransactionRun σ) (actionOrdinal : Nat) : Fallible ActionTrace :=
  match actionOrdinal with
  | 0 => .error ⟨.transactionException,
      "action_ordinal ${ordinal} is outside allowed range [1,${max}]"⟩
  | i + 1 =>
    match st.actionTraces[i]? with
    | none => .error ⟨.transactionException,
        "action_ordinal ${ordinal} is outside allowed range [1,${max}]"⟩
    | some trace => .ok trace

def newActionOrdinal (st : TransactionRun σ) : Nat := st.actionTraces.length + 1

def scheduleAction (st : TransactionRun σ) (act : Action) (receiver : AccountName) (contextFree : Bool)
    (creatorActionOrdinal closestUnnotifiedAncestorActionOrdinal : Nat) : TransactionRun σ :=
  { st with
    actionTraces := st.actionTraces ++ [⟨st.newActionOrdinal, creatorActionOrdinal,
      closestUnnotifiedAncestorActionOrdinal, receiver, act, contextFree⟩] }

end TransactionRun

structure ApplyContext where
  recurseDepth : Nat
  firstReceiverActionOrdinal : Nat
  actionOrdinal : Nat
  receiver : AccountName
  act : Action
  contextFree : Bool
  notified : List (AccountName × Nat) := []
  inlineActions : List Nat := []
  cfaInlineActions : List Nat := []

namespace ApplyContext

variable {σ : Type}

def hasRecipient (ctx : ApplyContext) (code : AccountName) : Bool :=
  code ∈ ctx.notified.map Prod.fst

/-- The scheduled action is the one that the current trace holds. -/
def requireRecipient (ctx : ApplyContext) (st : TransactionRun σ) (recipient : AccountName) :
    Fallible (ApplyContext × TransactionRun σ) :=
  if ctx.hasRecipient recipient then .ok (ctx, st)
  else do
    let provided ← st.getActionTrace ctx.actionOrdinal
    return ({ ctx with notified := ctx.notified ++ [(recipient, st.newActionOrdinal)] },
      st.scheduleAction provided.act recipient false ctx.actionOrdinal ctx.firstReceiverActionOrdinal)

def executeInline (W : ActionWorld σ) (ctx : ApplyContext) (st : TransactionRun σ) (a : Action) :
    Fallible (ApplyContext × TransactionRun σ) := do
  eosAssert (W.isAccount st.world a.account = true) .actionValidateException
    "inline action's code account ${account} does not exist"
  W.checkInlineAuthorization st.world ctx.receiver ctx.act a
  return ({ ctx with inlineActions := ctx.inlineActions ++ [st.newActionOrdinal] },
    st.scheduleAction a a.account false ctx.actionOrdinal ctx.firstReceiverActionOrdinal)

def executeContextFreeInline (W : ActionWorld σ) (ctx : ApplyContext) (st : TransactionRun σ)
    (a : Action) : Fallible (ApplyContext × TransactionRun σ) := do
  eosAssert (W.isAccount st.world a.account = true) .actionValidateException
    "inline action's code account ${account} does not exist"
  eosAssert (a.authorization.length = 0) .actionValidateException
    "context-free actions cannot have authorizations"
  return ({ ctx with cfaInlineActions := ctx.cfaInlineActions ++ [st.newActionOrdinal] },
    st.scheduleAction a a.account true ctx.actionOrdinal ctx.firstReceiverActionOrdinal)

def apply (W : ActionWorld σ) :
    ContractCode σ → ApplyContext → TransactionRun σ → Fallible (ApplyContext × TransactionRun σ)
  | .finish, ctx, st => .ok (ctx, st)
  | .throws e, _, _ => .error e
  | .access f next, ctx, st => do
    let world ← f st.world
    apply W (next world) ctx { st with world }
  | .requireRecipient recipient next, ctx, st => do
    let result ← ctx.requireRecipient st recipient
    apply W next result.1 result.2
  | .executeInline a next, ctx, st => do
    let result ← ctx.executeInline W st a
    apply W next result.1 result.2
  | .executeContextFreeInline a next, ctx, st => do
    let result ← ctx.executeContextFreeInline W st a
    apply W next result.1 result.2

def execOne (W : ActionWorld σ) (ctx : ApplyContext) (st : TransactionRun σ) :
    Fallible (ApplyContext × TransactionRun σ) := do
  eosAssert (W.isAccount st.world ctx.receiver = true) (.other 13) "unknown key ${key}"
  let code := W.code st.world st.actionTraces ctx.receiver ctx.act ctx.contextFree ctx.actionOrdinal
  let result ← apply W code ctx st
  let world ← W.nextSequences result.2.world ctx.receiver ctx.act
  return (result.1, { result.2 with world, executed := result.2.executed ++ [ctx.actionOrdinal] })

/-- The loop over the notified accounts, which the code that runs can extend. The first argument
bounds its rounds. -/
def execNotified (W : ActionWorld σ) :
    Nat → Nat → ApplyContext → TransactionRun σ → Fallible (ApplyContext × TransactionRun σ)
  | 0, _, _, _ => .error ⟨.deadlineException, "deadline exceeded"⟩
  | rounds + 1, i, ctx, st =>
    match ctx.notified[i]? with
    | none => .ok (ctx, st)
    | some next => do
      let result ← execOne W { ctx with receiver := next.1, actionOrdinal := next.2 } st
      execNotified W rounds (i + 1) result.1 result.2

def execReceivers (W : ActionWorld σ) (rounds : Nat) (ctx : ApplyContext) (st : TransactionRun σ) :
    Fallible (ApplyContext × TransactionRun σ) := do
  let result ← execOne W
    { ctx with notified := ctx.notified ++ [(ctx.receiver, ctx.actionOrdinal)] } st
  execNotified W rounds 1 result.1 result.2

def checkDepth (W : ActionWorld σ) (ctx : ApplyContext) (st : TransactionRun σ) : Fallible Unit :=
  if 0 < ctx.cfaInlineActions.length ∨ 0 < ctx.inlineActions.length then
    eosAssert (ctx.recurseDepth < (W.maxInlineActionDepth st.world).toNat) .transactionException
      "max inline action depth per transaction reached"
  else .ok ()

end ApplyContext

namespace TransactionRun

variable {σ : Type}

def applyContext (trace : ActionTrace) (actionOrdinal recurseDepth : Nat) : ApplyContext where
  recurseDepth
  firstReceiverActionOrdinal := actionOrdinal
  actionOrdinal
  receiver := trace.receiver
  act := trace.act
  contextFree := trace.contextFree

def executeAction (W : ActionWorld σ) :
    Nat → Nat → TransactionRun σ → Nat → Fallible (TransactionRun σ)
  | 0, _, _, _ => .error ⟨.deadlineException, "deadline exceeded"⟩
  | rounds + 1, recurseDepth, st, actionOrdinal => do
    let trace ← st.getActionTrace actionOrdinal
    let result ← ApplyContext.execReceivers W rounds (applyContext trace actionOrdinal recurseDepth) st
    result.1.checkDepth W result.2
    let st ← result.1.cfaInlineActions.foldlM (executeAction W rounds (recurseDepth + 1)) result.2
    result.1.inlineActions.foldlM (executeAction W rounds (recurseDepth + 1)) st

end TransactionRun

structure TransactionActions where
  contextFreeActions : List Action := []
  actions : List Action := []
  applyContextFree : Bool := true
  /-- In microseconds. -/
  delay : Int := 0
  isInitialized : Bool := true

namespace TransactionActions

variable {σ : Type}

def original (trx : TransactionActions) : List (Action × Bool) :=
  (if trx.applyContextFree then trx.contextFreeActions.map fun act => (act, true) else []) ++
    (if trx.delay = 0 then trx.actions.map fun act => (act, false) else [])

def scheduleOriginal (st : TransactionRun σ) (a : Action × Bool) : TransactionRun σ :=
  st.scheduleAction a.1 a.1.account a.2 0 0

def exec (W : ActionWorld σ) (rounds : Nat) (trx : TransactionActions) (world : σ) :
    Fallible (TransactionRun σ) := do
  eosAssert (trx.isInitialized = true) .transactionException "must first initialize"
  let st : TransactionRun σ := trx.original.foldl scheduleOriginal { world }
  let st ← (range' 1 st.actionTraces.length).foldlM (TransactionRun.executeAction W rounds 0) st
  if trx.delay ≠ 0 then
    let world ← W.scheduleTransaction st.world
    return { st with world }
  else return st

end TransactionActions

/-- One trace must be executed before another: the action before what it or the accounts notified
of it created, notifications before inline actions, and context-free ones before ordinary ones. -/
def ActionTrace.Precedes (s t : ActionTrace) : Prop :=
  t.closestUnnotifiedAncestorActionOrdinal ≠ 0 ∧
    (s.actionOrdinal = t.closestUnnotifiedAncestorActionOrdinal ∨
      (s.closestUnnotifiedAncestorActionOrdinal = t.closestUnnotifiedAncestorActionOrdinal ∧
        t.isNotification = false ∧
        (s.isNotification = true ∨ (s.contextFree = true ∧ t.contextFree = false))))

/-- The code of one trace created another. What a notified account creates belongs to the action it
was notified of. -/
def ActionTrace.Created (c t : ActionTrace) : Prop :=
  c.actionOrdinal = t.creatorActionOrdinal ∧ t.closestUnnotifiedAncestorActionOrdinal =
    if c.isNotification then c.closestUnnotifiedAncestorActionOrdinal else c.actionOrdinal

namespace TransactionRun

variable {σ : Type} {st st' st₁ st₂ : TransactionRun σ}

def Numbered (st : TransactionRun σ) : Prop :=
  st.actionTraces.map ActionTrace.actionOrdinal = range' 1 st.actionTraces.length

variable {t : ActionTrace} {roots roots' done : List Nat}

theorem Numbered.getActionTrace_ok (h : st.Numbered) {actionOrdinal : Nat}
    (hok : st.getActionTrace actionOrdinal = .ok t) :
    t ∈ st.actionTraces ∧ t.actionOrdinal = actionOrdinal := by
  cases actionOrdinal with
  | zero => cases hok
  | succ i =>
    simp only [getActionTrace] at hok
    split at hok
    · cases hok
    · rename_i ht
      cases hok
      have hord := congrArg (fun l => l[i]?) h
      obtain ⟨hlt, -⟩ := List.getElem?_eq_some_iff.mp ht
      simp only [getElem?_map, ht, Option.map_some, getElem?_range' hlt,
        Option.some.injEq] at hord
      exact ⟨mem_of_getElem? ht, by omega⟩

theorem Numbered.eq_of_ordinal (h : st.Numbered) {s : ActionTrace} (hs : s ∈ st.actionTraces)
    (ht : t ∈ st.actionTraces) (heq : s.actionOrdinal = t.actionOrdinal) : s = t :=
  inj_on_of_nodup_map (h ▸ nodup_range') hs ht heq

theorem Numbered.le_length (h : st.Numbered) (ht : t ∈ st.actionTraces) :
    1 ≤ t.actionOrdinal ∧ t.actionOrdinal ≤ st.actionTraces.length := by
  have hmem : t.actionOrdinal ∈ st.actionTraces.map ActionTrace.actionOrdinal :=
    mem_map_of_mem ht
  rw [h, mem_range'_1] at hmem
  omega

theorem ordinals_append {l l' : List ActionTrace} {start start' : Nat}
    (h : l.map ActionTrace.actionOrdinal = range' start l.length)
    (h' : l'.map ActionTrace.actionOrdinal = range' start' l'.length)
    (heq : start' = start + l.length) :
    (l ++ l').map ActionTrace.actionOrdinal = range' start (l ++ l').length := by
  rw [map_append, h, h', heq, length_append, range'_append_1]

variable {new : List ActionTrace}

theorem Numbered.append (h : st.Numbered) (htraces : st'.actionTraces = st.actionTraces ++ new)
    (hnew : new.map ActionTrace.actionOrdinal =
      range' (st.actionTraces.length + 1) new.length) : st'.Numbered := by
  rw [Numbered, htraces]
  exact ordinals_append h hnew (Nat.add_comm _ 1)

/-- The traces before some actions are executed. Nothing was created by the actions yet. -/
structure Ready (st : TransactionRun σ) (roots : List Nat) : Prop where
  numbered : st.Numbered
  roots_le : ∀ o ∈ roots, 1 ≤ o ∧ o ≤ st.actionTraces.length
  nodup : roots.Nodup
  fresh : ∀ t ∈ st.actionTraces, t.closestUnnotifiedAncestorActionOrdinal ∉ roots ∧
    t.closestUnnotifiedAncestorActionOrdinal ≤ st.actionTraces.length
  first : ∀ t ∈ st.actionTraces, t.actionOrdinal ∈ roots → t.isNotification = false

theorem Ready.left (h : st.Ready (roots ++ roots')) : st.Ready roots :=
  ⟨h.numbered, fun o ho => h.roots_le o (mem_append_left _ ho), (nodup_append.mp h.nodup).1,
    fun t ht => ⟨fun hmem => (h.fresh t ht).1 (mem_append_left _ hmem), (h.fresh t ht).2⟩,
    fun t ht hmem => h.first t ht (mem_append_left _ hmem)⟩

/-- What the execution of some actions, in their order, adds to the traces and to the receipts. -/
structure Executes (roots : List Nat) (st st' : TransactionRun σ) (new : List ActionTrace)
    (done : List Nat) : Prop where
  traces_eq : st'.actionTraces = st.actionTraces ++ new
  executed_eq : st'.executed = st.executed ++ done
  ordinals : new.map ActionTrace.actionOrdinal = range' (st.actionTraces.length + 1) new.length
  perm : done.Perm (roots ++ new.map ActionTrace.actionOrdinal)
  inOrder : roots.Sublist done
  closest : ∀ t ∈ new, t.closestUnnotifiedAncestorActionOrdinal ∈ roots ∨
    t.closestUnnotifiedAncestorActionOrdinal ∈ new.map ActionTrace.actionOrdinal
  creator : ∀ t ∈ new, 1 ≤ t.creatorActionOrdinal ∧ t.creatorActionOrdinal < t.actionOrdinal
  lineage : ∀ t ∈ new, ∃ c ∈ st'.actionTraces, c.Created t
  order : ∀ s ∈ st'.actionTraces, ∀ t ∈ new, s.Precedes t →
    [s.actionOrdinal, t.actionOrdinal].Sublist done
  once : ∀ s ∈ new, ∀ t ∈ new, s.isNotification = true → t.isNotification = true →
    s.closestUnnotifiedAncestorActionOrdinal = t.closestUnnotifiedAncestorActionOrdinal →
    s.receiver = t.receiver → s = t
  notFirst : ∀ s ∈ st'.actionTraces, ∀ t ∈ new, t.isNotification = true →
    s.actionOrdinal = t.closestUnnotifiedAncestorActionOrdinal →
    s.act = t.act ∧ s.receiver ≠ t.receiver

theorem mem_range'_ordinals {start o : Nat}
    (h : new.map ActionTrace.actionOrdinal = range' start new.length)
    (ho : o ∈ new.map ActionTrace.actionOrdinal) : start ≤ o ∧ o < start + new.length := by
  rw [h, mem_range'_1] at ho
  exact ho

theorem Executes.nil (st : TransactionRun σ) : Executes [] st st [] [] where
  traces_eq := (append_nil _).symm
  executed_eq := (append_nil _).symm
  ordinals := rfl
  perm := .nil
  inOrder := List.Sublist.slnil
  closest _ h := absurd h not_mem_nil
  creator _ h := absurd h not_mem_nil
  lineage _ h := absurd h not_mem_nil
  order _ _ _ h := absurd h not_mem_nil
  once _ h := absurd h not_mem_nil
  notFirst _ _ _ h := absurd h not_mem_nil

theorem Executes.ready (h : Executes roots st st' new done)
    (hready : st.Ready (roots ++ roots')) : st'.Ready roots' := by
  obtain ⟨-, hnodup', hdisjoint⟩ := nodup_append.mp hready.nodup
  have hlength : st'.actionTraces.length = st.actionTraces.length + new.length := by
    rw [h.traces_eq, length_append]
  have hle (o : Nat) (ho : o ∈ roots') := hready.roots_le o (mem_append_right _ ho)
  refine ⟨hready.numbered.append h.traces_eq h.ordinals, fun o ho => ?_, hnodup', fun t ht => ?_,
    fun t ht hroot => ?_⟩
  · have := hle o ho
    omega
  · rw [h.traces_eq] at ht
    cases mem_append.mp ht with
    | inl hold =>
      obtain ⟨hfresh, hbound⟩ := hready.fresh t hold
      exact ⟨fun hmem => hfresh (mem_append_right _ hmem), by omega⟩
    | inr hnew =>
      cases h.closest t hnew with
      | inl hroot =>
        have := hready.roots_le _ (mem_append_left _ hroot)
        exact ⟨fun hmem => hdisjoint _ hroot _ hmem rfl, by omega⟩
      | inr hlater =>
        have := mem_range'_ordinals h.ordinals hlater
        refine ⟨fun hmem => ?_, by omega⟩
        have := hle _ hmem
        omega
  · rw [h.traces_eq] at ht
    cases mem_append.mp ht with
    | inl hold => exact hready.first t hold (mem_append_right _ hroot)
    | inr hnew =>
      have := mem_range'_ordinals h.ordinals (mem_map_of_mem hnew)
      have := hle _ hroot
      omega

theorem Executes.trans {new' done'}
    (h : Executes roots st st₁ new done) (h' : Executes roots' st₁ st₂ new' done')
    (hready : st.Ready (roots ++ roots')) :
    Executes (roots ++ roots') st st₂ (new ++ new') (done ++ done') := by
  have hlength : st₁.actionTraces.length = st.actionTraces.length + new.length := by
    rw [h.traces_eq, length_append]
  have hroots (o : Nat) (ho : o ∈ roots) := hready.roots_le o (mem_append_left _ ho)
  have hroots' (o : Nat) (ho : o ∈ roots') := hready.roots_le o (mem_append_right _ ho)
  have hdisjoint := (nodup_append.mp hready.nodup).2.2
  -- What was created by the first actions and by the later ones is told apart by its ancestors.
  have hapart (s : ActionTrace) (hs : s ∈ new') (t : ActionTrace) (ht : t ∈ new) :
      s.actionOrdinal ≠ t.closestUnnotifiedAncestorActionOrdinal ∧
        s.closestUnnotifiedAncestorActionOrdinal ≠ t.closestUnnotifiedAncestorActionOrdinal := by
    have hord := mem_range'_ordinals h'.ordinals (mem_map_of_mem hs)
    have hclosest : t.closestUnnotifiedAncestorActionOrdinal ≤ st₁.actionTraces.length := by
      cases h.closest t ht with
      | inl hroot =>
        have := hroots _ hroot
        omega
      | inr hmem =>
        have := mem_range'_ordinals h.ordinals hmem
        omega
    refine ⟨by omega, fun heq => ?_⟩
    cases h'.closest s hs with
    | inl hroot' =>
      cases h.closest t ht with
      | inl hroot => exact hdisjoint _ hroot _ (heq ▸ hroot') rfl
      | inr hmem =>
        have := mem_range'_ordinals h.ordinals hmem
        have := hroots' _ hroot'
        omega
    | inr hmem' =>
      have := mem_range'_ordinals h'.ordinals hmem'
      omega
  refine ⟨?_, ?_, ordinals_append h.ordinals h'.ordinals (by omega), ?_,
    h.inOrder.append h'.inOrder, fun t ht => ?_, forall_mem_append.mpr ⟨h.creator, h'.creator⟩,
    forall_mem_append.mpr ⟨fun t ht => ?_, h'.lineage⟩, fun s hs t ht hprec => ?_,
    fun s hs t ht hns hnt hclosest hreceiver => ?_, fun s hs t ht hnt heq => ?_⟩
  · rw [h'.traces_eq, h.traces_eq, append_assoc]
  · rw [h'.executed_eq, h.executed_eq, append_assoc]
  · rw [map_append]
    refine (h.perm.append h'.perm).trans ?_
    rw [append_assoc, append_assoc]
    refine List.Perm.append_left _ ?_
    rw [← append_assoc, ← append_assoc]
    exact List.Perm.append_right _ perm_append_comm
  · rw [map_append]
    cases mem_append.mp ht with
    | inl hfirst => exact (h.closest t hfirst).imp (mem_append_left _) (mem_append_left _)
    | inr hlater =>
      exact (h'.closest t hlater).imp (mem_append_right _) (mem_append_right _)
  · obtain ⟨c, hc, hcreated⟩ := h.lineage t ht
    exact ⟨c, h'.traces_eq ▸ mem_append_left _ hc, hcreated⟩
  · cases mem_append.mp ht with
    | inl hfirst =>
      rw [h'.traces_eq] at hs
      cases mem_append.mp hs with
      | inl hold => exact (h.order s hold t hfirst hprec).trans (sublist_append_left _ _)
      | inr hnew =>
        obtain ⟨hord, hanc⟩ := hapart s hnew t hfirst
        cases hprec.2 with
        | inl heq => exact absurd heq hord
        | inr hsame => exact absurd hsame.1 hanc
    | inr hlater => exact (h'.order s hs t hlater hprec).trans (sublist_append_right _ _)
  · cases mem_append.mp hs with
    | inl hs =>
      cases mem_append.mp ht with
      | inl ht => exact h.once s hs t ht hns hnt hclosest hreceiver
      | inr ht => exact absurd hclosest.symm (hapart t ht s hs).2
    | inr hs =>
      cases mem_append.mp ht with
      | inl ht => exact absurd hclosest (hapart s hs t ht).2
      | inr ht => exact h'.once s hs t ht hns hnt hclosest hreceiver
  · cases mem_append.mp ht with
    | inl hfirst =>
      rw [h'.traces_eq] at hs
      cases mem_append.mp hs with
      | inl hold => exact h.notFirst s hold t hfirst hnt heq
      | inr hnew => exact absurd heq (hapart s hnew t hfirst).1
    | inr hlater => exact h'.notFirst s hs t hlater hnt heq

end TransactionRun

namespace ApplyContext

variable {σ : Type} {W : ActionWorld σ} {first : ActionTrace} {start st st' : TransactionRun σ}
  {ctx ctx' : ApplyContext} {new : List ActionTrace}

/-- The queues of a context hold the new traces by their kind. -/
structure Gathers (first : ActionTrace) (start : TransactionRun σ) (ctx : ApplyContext)
    (st : TransactionRun σ) (new : List ActionTrace) : Prop where
  traces_eq : st.actionTraces = start.actionTraces ++ new
  ordinals : new.map ActionTrace.actionOrdinal =
    range' (start.actionTraces.length + 1) new.length
  closest : ∀ t ∈ new, t.closestUnnotifiedAncestorActionOrdinal = first.actionOrdinal
  creator : ∀ t ∈ new, 1 ≤ t.creatorActionOrdinal ∧ t.creatorActionOrdinal < t.actionOrdinal
  lineage : ∀ t ∈ new, t.creatorActionOrdinal = first.actionOrdinal ∨
    ∃ c ∈ new, c.isNotification = true ∧ c.actionOrdinal = t.creatorActionOrdinal
  act_eq : ∀ t ∈ new, t.isNotification = true → t.act = first.act
  notified_eq : ctx.notified = (first.receiver, first.actionOrdinal) ::
    (new.filter ActionTrace.isNotification).map fun t => (t.receiver, t.actionOrdinal)
  cfa_eq : ctx.cfaInlineActions =
    (new.filter fun t => !t.isNotification && t.contextFree).map ActionTrace.actionOrdinal
  inline_eq : ctx.inlineActions =
    (new.filter fun t => !t.isNotification && !t.contextFree).map ActionTrace.actionOrdinal
  nodup : (ctx.notified.map Prod.fst).Nodup
  first_eq : ctx.firstReceiverActionOrdinal = first.actionOrdinal
  current : (ctx.receiver, ctx.actionOrdinal) ∈ ctx.notified

section

variable (h : Gathers first start ctx st new)
include h

/-- The code that runs is the one of the first receiver or of a notified account. -/
theorem Gathers.current_cases : ctx.actionOrdinal = first.actionOrdinal ∨
      ∃ c ∈ new, c.isNotification = true ∧ c.actionOrdinal = ctx.actionOrdinal := by
  have hcurrent := h.current
  rw [h.notified_eq, mem_cons] at hcurrent
  refine hcurrent.imp (fun heq => (Prod.mk.inj heq).2) fun hmem => ?_
  obtain ⟨c, hc, heq⟩ := mem_map.mp hmem
  obtain ⟨hnew, hnotification⟩ := mem_filter.mp hc
  exact ⟨c, hnew, hnotification, (Prod.mk.inj heq).2⟩

theorem Gathers.current_trace (hfirst : first ∈ start.actionTraces) :
    ∃ t ∈ st.actionTraces, t.actionOrdinal = ctx.actionOrdinal ∧ t.act = first.act := by
  rw [h.traces_eq]
  obtain hord | ⟨c, hnew, hnotification, hord⟩ := h.current_cases
  · exact ⟨first, mem_append_left _ hfirst, hord.symm, rfl⟩
  · exact ⟨c, mem_append_right _ hnew, hord, h.act_eq c hnew hnotification⟩

theorem Gathers.numbered (hnum : start.Numbered) : st.Numbered :=
  hnum.append h.traces_eq h.ordinals

end

structure Queues (ctx ctx' : ApplyContext) (ordinal : Nat) (t : ActionTrace) : Prop where
  notified_eq : ctx'.notified =
    ctx.notified ++ if t.isNotification then [(t.receiver, ordinal)] else []
  cfa_eq : ctx'.cfaInlineActions =
    ctx.cfaInlineActions ++ if !t.isNotification && t.contextFree then [ordinal] else []
  inline_eq : ctx'.inlineActions =
    ctx.inlineActions ++ if !t.isNotification && !t.contextFree then [ordinal] else []
  first_eq : ctx'.firstReceiverActionOrdinal = ctx.firstReceiverActionOrdinal
  receiver_eq : ctx'.receiver = ctx.receiver
  actionOrdinal_eq : ctx'.actionOrdinal = ctx.actionOrdinal

variable {t : ActionTrace} {a : Action} {i : Nat}

theorem Gathers.schedule (h : Gathers first start ctx st new) (hnum : start.Numbered)
    (hfirst : first ∈ start.actionTraces)
    (ht : t = ⟨st.newActionOrdinal, ctx.actionOrdinal, ctx.firstReceiverActionOrdinal, t.receiver,
      t.act, t.contextFree⟩)
    (hact : t.isNotification = true → t.act = first.act ∧ t.receiver ∉ ctx.notified.map Prod.fst)
    (hqueues : Queues ctx ctx' st.newActionOrdinal t) :
    Gathers first start ctx' (st.scheduleAction t.act t.receiver t.contextFree ctx.actionOrdinal
      ctx.firstReceiverActionOrdinal) (new ++ [t]) := by
  obtain ⟨s, hs, hcreator, -⟩ := h.current_trace hfirst
  have hlt := (h.numbered hnum).le_length hs
  have hord : t.actionOrdinal = st.newActionOrdinal := congrArg ActionTrace.actionOrdinal ht
  have hlength : st.newActionOrdinal = start.actionTraces.length + 1 + new.length := by
    rw [TransactionRun.newActionOrdinal, h.traces_eq, length_append]
    omega
  have hforall {P : ActionTrace → Prop} (hnew : ∀ u ∈ new, P u) (hlast : P t) :
      ∀ u ∈ new ++ [t], P u :=
    forall_mem_append.mpr ⟨hnew, forall_mem_singleton.mpr hlast⟩
  have hsame : t.creatorActionOrdinal = ctx.actionOrdinal :=
    congrArg ActionTrace.creatorActionOrdinal ht
  refine ⟨?_, ?_, hforall h.closest ?_, hforall h.creator ?_, hforall (fun u hu => ?_) ?_,
    hforall h.act_eq ?_, ?_, ?_, ?_, ?_, ?_, ?_⟩
  · rw [TransactionRun.scheduleAction, h.traces_eq, ← ht, append_assoc]
  · rw [map_append, h.ordinals, length_append, length_singleton,
      range'_1_concat, map_singleton, hord, hlength]
  · exact (congrArg ActionTrace.closestUnnotifiedAncestorActionOrdinal ht).trans h.first_eq
  · rw [hord, TransactionRun.newActionOrdinal]
    omega
  · exact (h.lineage u hu).imp id fun ⟨c, hc, hcreated⟩ => ⟨c, mem_append_left _ hc, hcreated⟩
  · rw [hsame]
    exact h.current_cases.imp id fun ⟨c, hc, hcreated⟩ => ⟨c, mem_append_left _ hc, hcreated⟩
  · exact fun hnotification => (hact hnotification).1
  · rw [hqueues.notified_eq, h.notified_eq, filter_append,
      ← hord]
    cases hn : t.isNotification <;> simp [hn]
  · rw [hqueues.cfa_eq, h.cfa_eq, filter_append, ← hord]
    cases hn : (!t.isNotification && t.contextFree) <;> simp [hn]
  · rw [hqueues.inline_eq, h.inline_eq, filter_append, ← hord]
    cases hn : (!t.isNotification && !t.contextFree) <;> simp [hn]
  · rw [hqueues.notified_eq]
    cases hn : t.isNotification with
    | false => simpa using h.nodup
    | true =>
      rw [map_append, nodup_append]
      refine ⟨h.nodup, nodup_singleton _, fun a ha b hb => ?_⟩
      cases mem_singleton.mp hb
      exact ne_of_mem_of_not_mem ha (hact hn).2
  · exact hqueues.first_eq.trans h.first_eq
  · rw [hqueues.receiver_eq, hqueues.actionOrdinal_eq, hqueues.notified_eq]
    exact mem_append_left _ h.current

/-- What a call or a whole run of code leaves of a context and of the receipts. -/
structure Continues (ctx ctx' : ApplyContext) (st st' : TransactionRun σ) : Prop where
  receiver_eq : ctx'.receiver = ctx.receiver
  actionOrdinal_eq : ctx'.actionOrdinal = ctx.actionOrdinal
  executed_eq : st'.executed = st.executed
  notified_grows : ctx.notified <+: ctx'.notified

theorem Continues.refl (ctx : ApplyContext) (st : TransactionRun σ) : Continues ctx ctx st st :=
  ⟨rfl, rfl, rfl, prefix_rfl⟩

theorem Continues.trans {ctx'' st''}
    (h : Continues ctx ctx' st st') (h' : Continues ctx' ctx'' st' st'') :
    Continues ctx ctx'' st st'' :=
  ⟨h'.receiver_eq.trans h.receiver_eq, h'.actionOrdinal_eq.trans h.actionOrdinal_eq,
    h'.executed_eq.trans h.executed_eq, h.notified_grows.trans h'.notified_grows⟩

theorem Queues.continues {ordinal : Nat} (h : Queues ctx ctx' ordinal t) (act : Action)
    (receiver : AccountName) (contextFree : Bool) (creator closest : Nat) :
    Continues ctx ctx' st (st.scheduleAction act receiver contextFree creator closest) :=
  ⟨h.receiver_eq, h.actionOrdinal_eq, rfl, h.notified_eq ▸ prefix_append _ _⟩

/-- A step of the code keeps the queues in step with the traces. -/
def Advances (first : ActionTrace) (start : TransactionRun σ) (ctx : ApplyContext)
    (st : TransactionRun σ) (result : ApplyContext × TransactionRun σ) : Prop :=
  (∃ new, Gathers first start result.1 result.2 new) ∧ Continues ctx result.1 st result.2

variable {result : ApplyContext × TransactionRun σ}

theorem requireRecipient_advances {recipient : AccountName} (hnum : start.Numbered)
    (hfirst : first ∈ start.actionTraces) (hown : first.isNotification = false)
    (h : Gathers first start ctx st new) (hok : ctx.requireRecipient st recipient = .ok result) :
    Advances first start ctx st result := by
  rw [requireRecipient] at hok
  split at hok
  · cases hok
    exact ⟨⟨new, h⟩, .refl ctx st⟩
  · rename_i hrecipient
    simp only [bind_eq_ok] at hok
    obtain ⟨provided, hprovided, hok⟩ := hok
    cases hok
    obtain ⟨s, hs, hsord, hsact⟩ := h.current_trace hfirst
    obtain ⟨hmem, hord⟩ := (h.numbered hnum).getActionTrace_ok hprovided
    cases (h.numbered hnum).eq_of_ordinal hmem hs (hord.trans hsord.symm)
    have hnew : recipient ∉ ctx.notified.map Prod.fst := of_decide_eq_false (by
      simpa [hasRecipient] using hrecipient)
    have hfirstReceiver : first.receiver ∈ ctx.notified.map Prod.fst := by
      rw [h.notified_eq]
      exact mem_cons_self
    have hnotification : decide (recipient ≠ provided.act.account) = true := by
      rw [hsact, decide_eq_true_eq]
      have heq : first.receiver = first.act.account := by
        simpa [ActionTrace.isNotification] using hown
      rw [← heq]
      exact fun hsame => hnew (hsame ▸ hfirstReceiver)
    let t : ActionTrace := ⟨st.newActionOrdinal, ctx.actionOrdinal, ctx.firstReceiverActionOrdinal,
      recipient, provided.act, false⟩
    have ht : t.isNotification = true := hnotification
    have hqueues : Queues ctx
        { ctx with notified := ctx.notified ++ [(recipient, st.newActionOrdinal)] }
        st.newActionOrdinal t := by
      refine ⟨?_, ?_, ?_, rfl, rfl, rfl⟩ <;> simp [ht, t]
    exact ⟨⟨_, h.schedule hnum hfirst (t := t) rfl (fun _ => ⟨hsact, hnew⟩) hqueues⟩,
      hqueues.continues _ _ _ _ _⟩

section

variable (hnum : start.Numbered) (hfirst : first ∈ start.actionTraces)
  (h : Gathers first start ctx st new)
include hnum hfirst h

theorem Gathers.inline_advances {contextFree : Bool}
    (hqueues : Queues ctx ctx' st.newActionOrdinal ⟨st.newActionOrdinal, ctx.actionOrdinal,
      ctx.firstReceiverActionOrdinal, a.account, a, contextFree⟩) :
    Advances first start ctx st (ctx', st.scheduleAction a a.account contextFree ctx.actionOrdinal
      ctx.firstReceiverActionOrdinal) := by
  let t : ActionTrace := ⟨st.newActionOrdinal, ctx.actionOrdinal, ctx.firstReceiverActionOrdinal,
    a.account, a, contextFree⟩
  have ht : t.isNotification = false := by simp [ActionTrace.isNotification, t]
  exact ⟨⟨_, h.schedule hnum hfirst (t := t) rfl (by simp [ht]) hqueues⟩, hqueues.continues _ _ _ _ _⟩

theorem executeInline_advances (hok : ctx.executeInline W st a = .ok result) :
    Advances first start ctx st result := by
  simp only [executeInline, bind_eq_ok] at hok
  obtain ⟨_, -, _, -, hok⟩ := hok
  cases hok
  apply h.inline_advances hnum hfirst
  refine ⟨?_, ?_, ?_, rfl, rfl, rfl⟩ <;> simp [ActionTrace.isNotification]

theorem executeContextFreeInline_advances (hok : ctx.executeContextFreeInline W st a = .ok result) :
    Advances first start ctx st result := by
  simp only [executeContextFreeInline, bind_eq_ok] at hok
  obtain ⟨_, -, _, -, hok⟩ := hok
  cases hok
  apply h.inline_advances hnum hfirst
  refine ⟨?_, ?_, ?_, rfl, rfl, rfl⟩ <;> simp [ActionTrace.isNotification]

end

theorem Gathers.withWorld (h : Gathers first start ctx st new) (world : σ) :
    Gathers first start ctx { st with world } new :=
  { h with }

theorem apply_advances {code : ContractCode σ} (hnum : start.Numbered)
    (hfirst : first ∈ start.actionTraces) (hown : first.isNotification = false)
    (h : Gathers first start ctx st new) (hok : apply W code ctx st = .ok result) :
    Advances first start ctx st result := by
  induction code generalizing ctx st new with
  | finish =>
    cases hok
    exact ⟨⟨new, h⟩, .refl ctx st⟩
  | throws => cases hok
  | access f next ih =>
    simp only [apply, bind_eq_ok] at hok
    obtain ⟨world, -, hok⟩ := hok
    obtain ⟨hgathers, hcontinues⟩ := ih world (h.withWorld world) hok
    exact ⟨hgathers, { hcontinues with }⟩
  | requireRecipient _ next ih =>
    simp only [apply, bind_eq_ok] at hok
    obtain ⟨middle, hcall, hok⟩ := hok
    obtain ⟨⟨_, hmiddle⟩, hcontinues⟩ := requireRecipient_advances hnum hfirst hown h hcall
    exact (ih hmiddle hok).imp id hcontinues.trans
  | executeInline a next ih =>
    simp only [apply, bind_eq_ok] at hok
    obtain ⟨middle, hcall, hok⟩ := hok
    obtain ⟨⟨_, hmiddle⟩, hcontinues⟩ := executeInline_advances hnum hfirst h hcall
    exact (ih hmiddle hok).imp id hcontinues.trans
  | executeContextFreeInline a _ ih =>
    simp only [apply, bind_eq_ok] at hok
    obtain ⟨_, hcall, hok⟩ := hok
    obtain ⟨⟨_, hmiddle⟩, hcontinues⟩ := executeContextFreeInline_advances hnum hfirst h hcall
    exact (ih hmiddle hok).imp id hcontinues.trans

structure Receives (first : ActionTrace) (start : TransactionRun σ) (i : Nat) (ctx : ApplyContext)
    (st : TransactionRun σ) (new : List ActionTrace) : Prop extends
    Gathers first start ctx st new where
  executed_eq : st.executed = start.executed ++ (ctx.notified.take i).map Prod.snd
  le_length : i ≤ ctx.notified.length

section

variable (hnum : start.Numbered) (hfirst : first ∈ start.actionTraces)
  (hown : first.isNotification = false)
include hnum hfirst hown

theorem execOne_receives (h : Gathers first start ctx st new)
    (hexecuted : st.executed = start.executed ++ (ctx.notified.take i).map Prod.snd)
    (hnext : ctx.notified[i]? = some (ctx.receiver, ctx.actionOrdinal))
    (hok : execOne W ctx st = .ok result) :
    ∃ new', Receives first start (i + 1) result.1 result.2 new' := by
  simp only [execOne, bind_eq_ok] at hok
  obtain ⟨_, -, middle, happly, _, -, hok⟩ := hok
  cases hok
  obtain ⟨⟨new', hgathers⟩, hcontinues⟩ := apply_advances hnum hfirst hown h happly
  obtain ⟨_, hrest⟩ := hcontinues.notified_grows
  obtain ⟨hlt, -⟩ := List.getElem?_eq_some_iff.mp hnext
  refine ⟨new', { hgathers with }, ?_, ?_⟩
  · have htake : middle.1.notified.take (i + 1) =
        ctx.notified.take i ++ [(ctx.receiver, ctx.actionOrdinal)] := by
      rw [← hrest, take_append_of_le_length hlt, take_add_one, hnext]
      rfl
    rw [htake, map_append, ← append_assoc, ← hexecuted, ← hcontinues.executed_eq]
    rfl
  · rw [← hrest, length_append]
    omega

theorem execNotified_receives {rounds : Nat} (h : Receives first start i ctx st new)
    (hok : execNotified W rounds i ctx st = .ok result) :
    ∃ new', Receives first start result.1.notified.length result.1 result.2 new' := by
  induction rounds generalizing i ctx st new with
  | zero => cases hok
  | succ _ ih =>
    rw [execNotified] at hok
    split at hok
    · rename_i hnone
      cases hok
      have hlength : i = ctx.notified.length :=
        le_antisymm h.le_length (getElem?_eq_none_iff.mp hnone)
      exact ⟨new, hlength ▸ h⟩
    · rename_i next hnext
      simp only [bind_eq_ok] at hok
      obtain ⟨_, hone, hok⟩ := hok
      have hcurrent : Gathers first start { ctx with receiver := next.1, actionOrdinal := next.2 }
          st new := { h.toGathers with current := mem_of_getElem? hnext }
      obtain ⟨_, hreceives⟩ :=
        execOne_receives hnum hfirst hown hcurrent h.executed_eq hnext hone
      exact ih hreceives hok

/-- The receiver of an action and all the accounts notified of it run first. -/
theorem execReceivers_receives {rounds recurseDepth : Nat} (hok : execReceivers W rounds
      (TransactionRun.applyContext first first.actionOrdinal recurseDepth) start = .ok result) :
    ∃ new, Gathers first start result.1 result.2 new ∧
      result.2.executed = start.executed ++
        first.actionOrdinal :: (new.filter ActionTrace.isNotification).map ActionTrace.actionOrdinal := by
  simp only [execReceivers, bind_eq_ok] at hok
  obtain ⟨_, hone, hok⟩ := hok
  let ctx : ApplyContext :=
    { TransactionRun.applyContext first first.actionOrdinal recurseDepth with
      notified := [(first.receiver, first.actionOrdinal)] }
  have hstart : Gathers first start ctx start [] :=
    ⟨(append_nil _).symm, rfl, nofun, nofun, nofun, nofun, rfl, rfl, rfl,
      nodup_singleton _, rfl, mem_cons_self⟩
  obtain ⟨_, hreceives₁⟩ := execOne_receives (i := 0) hnum hfirst hown hstart
    (append_nil _).symm rfl hone
  obtain ⟨new, hreceives⟩ := execNotified_receives hnum hfirst hown hreceives₁ hok
  refine ⟨new, hreceives.toGathers, ?_⟩
  have hexecuted := hreceives.executed_eq
  rw [take_length, hreceives.notified_eq, map_cons, map_map] at hexecuted
  exact hexecuted

end

end ApplyContext

namespace TransactionRun

variable {σ : Type} {W : ActionWorld σ} {start st st' : TransactionRun σ} {first : ActionTrace}
  {ctx : ApplyContext} {new : List ActionTrace}

theorem perm_queues (new : List ActionTrace) :
    (new.filter ActionTrace.isNotification ++ ((new.filter fun t => !t.isNotification && t.contextFree) ++
      new.filter fun t => !t.isNotification && !t.contextFree)).Perm new := by
  have hcfa : (new.filter fun t => !t.isNotification && t.contextFree) =
      (new.filter fun t => !t.isNotification).filter fun t => t.contextFree := by
    rw [filter_filter]
    exact filter_congr fun t _ => Bool.and_comm _ _
  have hinline : (new.filter fun t => !t.isNotification && !t.contextFree) =
      (new.filter fun t => !t.isNotification).filter fun t => !t.contextFree := by
    rw [filter_filter]
    exact filter_congr fun t _ => Bool.and_comm _ _
  rw [hcfa, hinline]
  exact ((filter_append_perm _ _).append_left _).trans (filter_append_perm _ _)

theorem mem_inlines {o : Nat} (h : ctx.Gathers first start st new) :
    o ∈ ctx.cfaInlineActions ++ ctx.inlineActions ↔
      ∃ t ∈ new, t.isNotification = false ∧ t.actionOrdinal = o := by
  rw [h.cfa_eq, h.inline_eq, mem_append, mem_map, mem_map]
  constructor
  · rintro (⟨t, ht, rfl⟩ | ⟨t, ht, rfl⟩)
    · obtain ⟨hnew, hkind⟩ := mem_filter.mp ht
      exact ⟨t, hnew, by simpa using (Bool.and_eq_true_iff.mp hkind).1, rfl⟩
    · obtain ⟨hnew, hkind⟩ := mem_filter.mp ht
      exact ⟨t, hnew, by simpa using (Bool.and_eq_true_iff.mp hkind).1, rfl⟩
  · rintro ⟨t, hnew, hkind, rfl⟩
    cases hcf : t.contextFree with
    | true => exact .inl ⟨t, mem_filter.mpr ⟨hnew, by simp [hkind, hcf]⟩, rfl⟩
    | false => exact .inr ⟨t, mem_filter.mpr ⟨hnew, by simp [hkind, hcf]⟩, rfl⟩

theorem ready_inlines (hready : start.Ready [first.actionOrdinal])
    (h : ctx.Gathers first start st new) :
    st.Ready (ctx.cfaInlineActions ++ ctx.inlineActions) := by
  have hnum := h.numbered hready.numbered
  have hlength : st.actionTraces.length = start.actionTraces.length + new.length := by
    rw [h.traces_eq, length_append]
  have hfirst := hready.roots_le _ mem_cons_self
  have hbounds {o : Nat} (ho : o ∈ ctx.cfaInlineActions ++ ctx.inlineActions) :
      start.actionTraces.length + 1 ≤ o ∧ o ≤ st.actionTraces.length := by
    obtain ⟨t, hnew, -, rfl⟩ := (mem_inlines h).mp ho
    have := mem_range'_ordinals h.ordinals (mem_map_of_mem hnew)
    omega
  refine ⟨hnum, fun o ho => ?_, ?_, fun t ht => ?_, fun t ht hroot => ?_⟩
  · have := hbounds ho
    omega
  · have hperm := (perm_queues new).map ActionTrace.actionOrdinal
    have hnodup := hperm.nodup_iff.mpr (h.ordinals ▸ nodup_range')
    rw [map_append, map_append, ← h.cfa_eq, ← h.inline_eq] at hnodup
    exact (nodup_append.mp hnodup).2.1
  · rw [h.traces_eq] at ht
    cases mem_append.mp ht with
    | inl hold =>
      have := (hready.fresh t hold).2
      refine ⟨fun hmem => ?_, by omega⟩
      have := hbounds hmem
      omega
    | inr hnew =>
      rw [h.closest t hnew]
      refine ⟨fun hmem => ?_, by omega⟩
      have := hbounds hmem
      omega
  · obtain ⟨s, hs, hkind, hord⟩ := (mem_inlines h).mp hroot
    cases hnum.eq_of_ordinal (h.traces_eq ▸ mem_append_right _ hs) ht hord
    exact hkind

/-- An action, its notifications and then its inline actions. -/
theorem executes_root {st₂ later done}
    (hready : start.Ready [first.actionOrdinal]) (hfirst : first ∈ start.actionTraces)
    (h : ctx.Gathers first start st new)
    (hexecuted : st.executed = start.executed ++ first.actionOrdinal ::
      (new.filter ActionTrace.isNotification).map ActionTrace.actionOrdinal)
    (hinlines : Executes (ctx.cfaInlineActions ++ ctx.inlineActions) st st₂ later done) :
    Executes [first.actionOrdinal] start st₂ (new ++ later) (first.actionOrdinal ::
      (new.filter ActionTrace.isNotification).map ActionTrace.actionOrdinal ++ done) := by
  have hnum := h.numbered hready.numbered
  have hlength : st.actionTraces.length = start.actionTraces.length + new.length := by
    rw [h.traces_eq, length_append]
  have hbound := hready.roots_le _ mem_cons_self
  have hperm := (perm_queues new).map ActionTrace.actionOrdinal
  rw [map_append, map_append, ← h.cfa_eq, ← h.inline_eq] at hperm
  -- Traces created below an inline action have an ancestor that is not older than it.
  have hlater (t : ActionTrace) (ht : t ∈ later) :
      start.actionTraces.length < t.closestUnnotifiedAncestorActionOrdinal := by
    cases hinlines.closest t ht with
    | inl hroot =>
      obtain ⟨s, hs, -, hord⟩ := (mem_inlines h).mp hroot
      have := mem_range'_ordinals h.ordinals (mem_map_of_mem hs)
      omega
    | inr hmem =>
      have := mem_range'_ordinals hinlines.ordinals hmem
      omega
  have hchild (s : ActionTrace) (hs : s ∈ st₂.actionTraces)
      (hclosest : s.closestUnnotifiedAncestorActionOrdinal = first.actionOrdinal) : s ∈ new := by
    rw [hinlines.traces_eq, h.traces_eq] at hs
    cases mem_append.mp hs with
    | inl hs =>
      cases mem_append.mp hs with
      | inl hold => exact absurd (mem_singleton.mpr hclosest) (hready.fresh s hold).1
      | inr hnew => exact hnew
    | inr hs =>
      have := hlater s hs
      omega
  have hinline_mem (t : ActionTrace) (ht : t ∈ new) (hkind : t.isNotification = false) :
      t.actionOrdinal ∈ done :=
    hinlines.inOrder.subset ((mem_inlines h).mpr ⟨t, ht, hkind, rfl⟩)
  have hreceivers := h.nodup
  rw [h.notified_eq, map_cons, map_map, nodup_cons] at hreceivers
  refine ⟨?_, ?_, ordinals_append h.ordinals hinlines.ordinals (by omega), ?_, ?_, fun t ht => ?_,
    forall_mem_append.mpr ⟨h.creator, hinlines.creator⟩,
    forall_mem_append.mpr ⟨fun t ht => ?_, hinlines.lineage⟩, fun s hs t ht hprec => ?_,
    fun s hs t ht hns hnt hclosest hreceiver => ?_, fun s hs t ht hnt heq => ?_⟩
  · rw [hinlines.traces_eq, h.traces_eq, append_assoc]
  · rw [hinlines.executed_eq, hexecuted, append_assoc]
  · rw [map_append]
    refine List.Perm.cons _ ?_
    refine (hinlines.perm.append_left _).trans ?_
    rw [← append_assoc]
    exact hperm.append_right _
  · exact List.Sublist.cons_cons _ (nil_sublist _)
  · cases mem_append.mp ht with
    | inl hnew => exact .inl (mem_singleton.mpr (h.closest t hnew))
    | inr hlate =>
      rw [map_append]
      refine .inr ?_
      cases hinlines.closest t hlate with
      | inl hroot =>
        obtain ⟨s, hs, -, hord⟩ := (mem_inlines h).mp hroot
        exact mem_append_left _ (hord ▸ mem_map_of_mem hs)
      | inr hmem => exact mem_append_right _ hmem
  · rw [hinlines.traces_eq, h.traces_eq]
    obtain hown | ⟨c, hc, hnotification, hord⟩ := h.lineage t ht
    · refine ⟨first, mem_append_left _ (mem_append_left _ hfirst), hown.symm, ?_⟩
      rw [hready.first first hfirst mem_cons_self]
      exact h.closest t ht
    · refine ⟨c, mem_append_left _ (mem_append_right _ hc), hord, ?_⟩
      rw [hnotification]
      exact (h.closest t ht).trans (h.closest c hc).symm
  · cases mem_append.mp ht with
    | inr hlate => exact (hinlines.order s hs t hlate hprec).trans (sublist_append_right _ _)
    | inl hnew =>
      obtain heq | ⟨hclosest, htkind, hor⟩ := hprec.2
      · rw [heq, h.closest t hnew]
        refine List.Sublist.cons_cons _ (singleton_sublist.mpr (mem_append.mpr ?_))
        cases hkind : t.isNotification with
        | true =>
          exact .inl (mem_map_of_mem (mem_filter.mpr ⟨hnew, hkind⟩))
        | false => exact .inr (hinline_mem t hnew hkind)
      · have hsnew := hchild s hs (hclosest.trans (h.closest t hnew))
        change List.Sublist ([s.actionOrdinal] ++ [t.actionOrdinal]) _
        cases hskind : s.isNotification with
        | true =>
          refine List.Sublist.append ?_ (singleton_sublist.mpr (hinline_mem t hnew htkind))
          exact singleton_sublist.mpr (mem_cons_of_mem _
            (mem_map_of_mem (mem_filter.mpr ⟨hsnew, hskind⟩)))
        | false =>
          obtain ⟨hscf, htcf⟩ := hor.resolve_left (by simp [hskind])
          refine (List.Sublist.trans ?_ hinlines.inOrder).trans (sublist_append_right _ _)
          refine List.Sublist.append ?_ ?_
          · rw [h.cfa_eq]
            exact singleton_sublist.mpr (mem_map_of_mem
              (mem_filter.mpr ⟨hsnew, by simp [hskind, hscf]⟩))
          · rw [h.inline_eq]
            exact singleton_sublist.mpr (mem_map_of_mem
              (mem_filter.mpr ⟨hnew, by simp [htkind, htcf]⟩))
  · cases mem_append.mp hs with
    | inl hsnew =>
      cases mem_append.mp ht with
      | inl htnew =>
        exact inj_on_of_nodup_map hreceivers.2 (mem_filter.mpr ⟨hsnew, hns⟩)
          (mem_filter.mpr ⟨htnew, hnt⟩) hreceiver
      | inr htlate =>
        have := hlater t htlate
        have := h.closest s hsnew
        omega
    | inr hslate =>
      cases mem_append.mp ht with
      | inl htnew =>
        have := hlater s hslate
        have := h.closest t htnew
        omega
      | inr htlate => exact hinlines.once s hslate t htlate hns hnt hclosest hreceiver
  · cases mem_append.mp ht with
    | inr hlate => exact hinlines.notFirst s hs t hlate hnt heq
    | inl hnew =>
      have hnum₂ := hnum.append hinlines.traces_eq hinlines.ordinals
      have hmem : first ∈ st₂.actionTraces := by
        rw [hinlines.traces_eq, h.traces_eq]
        exact mem_append_left _ (mem_append_left _ hfirst)
      cases hnum₂.eq_of_ordinal hs hmem (heq.trans (h.closest t hnew))
      refine ⟨(h.act_eq t hnew hnt).symm, fun hsame => hreceivers.1 ?_⟩
      exact hsame ▸ mem_map_of_mem (mem_filter.mpr ⟨hnew, hnt⟩)

theorem foldlM_executes {f : TransactionRun σ → Nat → Fallible (TransactionRun σ)}
    (hone : ∀ st st' o, st.Ready [o] → f st o = .ok st' → ∃ new done, Executes [o] st st' new done)
    {roots : List Nat} (hready : st.Ready roots) (hok : roots.foldlM f st = .ok st') :
    ∃ new done, Executes roots st st' new done := by
  induction roots generalizing st with
  | nil =>
    cases hok
    exact ⟨[], [], .nil _⟩
  | cons o rest ih =>
    obtain ⟨st₁, hfirst, hok⟩ := foldlM_cons_ok.mp hok
    have hready' : st.Ready ([o] ++ rest) := hready
    obtain ⟨_, _, hexecutes⟩ := hone st st₁ o hready'.left hfirst
    obtain ⟨_, _, hexecutes'⟩ := ih (hexecutes.ready hready') hok
    exact ⟨_, _, hexecutes.trans hexecutes' hready'⟩

theorem executeAction_executes {rounds recurseDepth actionOrdinal : Nat}
    (hready : st.Ready [actionOrdinal])
    (hok : executeAction W rounds recurseDepth st actionOrdinal = .ok st') :
    ∃ new done, Executes [actionOrdinal] st st' new done := by
  induction rounds generalizing recurseDepth st st' actionOrdinal with
  | zero => cases hok
  | succ rounds ih =>
    simp only [executeAction, bind_eq_ok] at hok
    obtain ⟨first, hfirst, result, hreceivers, _, -, st₁, hcfa, hinline⟩ := hok
    obtain ⟨hmem, rfl⟩ := hready.numbered.getActionTrace_ok hfirst
    have hown := hready.first first hmem mem_cons_self
    obtain ⟨_, hgathers, hexecuted⟩ :=
      ApplyContext.execReceivers_receives hready.numbered hmem hown hreceivers
    have hinlines : (result.1.cfaInlineActions ++ result.1.inlineActions).foldlM
        (executeAction W rounds (recurseDepth + 1)) result.2 = .ok st' := by
      rw [foldlM_append]
      exact bind_eq_ok.mpr ⟨st₁, hcfa, hinline⟩
    obtain ⟨_, _, hexecutes⟩ := foldlM_executes (fun _ _ _ hready hok => ih hready hok)
      (ready_inlines hready hgathers) hinlines
    exact ⟨_, _, executes_root hready hmem hgathers hexecuted hexecutes⟩

end TransactionRun

namespace TransactionActions

variable {σ : Type} {W : ActionWorld σ} {rounds : Nat} {trx : TransactionActions} {world : σ}
  {st : TransactionRun σ}

structure Scheduled (l : List (Action × Bool)) (st : TransactionRun σ) : Prop where
  numbered : st.Numbered
  acts_eq : (st.actionTraces.map fun t => (t.act, t.contextFree)) = l
  own : ∀ t ∈ st.actionTraces, t.creatorActionOrdinal = 0 ∧
    t.closestUnnotifiedAncestorActionOrdinal = 0 ∧ t.isNotification = false
  executed_eq : st.executed = []

variable {l : List (Action × Bool)}

theorem Scheduled.scheduleOriginal (h : Scheduled l st) (a : Action × Bool) :
    Scheduled (l ++ [a]) (scheduleOriginal st a) := by
  refine ⟨h.numbered.append rfl rfl, ?_, fun t ht => ?_, h.executed_eq⟩
  · exact (map_append ..).trans (congrArg (· ++ [a]) h.acts_eq)
  · cases mem_append.mp ht with
    | inl hold => exact h.own t hold
    | inr hnew =>
      cases mem_singleton.mp hnew
      exact ⟨rfl, rfl, by simp [ActionTrace.isNotification]⟩

theorem scheduled_foldl {l' : List (Action × Bool)} (h : Scheduled l st) :
    Scheduled (l ++ l') (l'.foldl scheduleOriginal st) := by
  induction l' generalizing l st with
  | nil => rwa [append_nil]
  | cons a _ ih =>
    rw [append_cons]
    exact ih (h.scheduleOriginal a)

theorem Scheduled.ready (h : Scheduled l st) : st.Ready (range' 1 st.actionTraces.length) := by
  refine ⟨h.numbered, fun o ho => ?_, nodup_range', fun t ht => ?_, fun t ht _ => (h.own t ht).2.2⟩
  · rw [mem_range'_1] at ho
    omega
  · rw [(h.own t ht).2.1]
    exact ⟨by simp [mem_range'_1], Nat.zero_le _⟩

theorem exec_executes (hok : trx.exec W rounds world = .ok st) :
    ∃ (start : TransactionRun σ) (new : List ActionTrace), Scheduled trx.original start ∧
      start.Executes (range' 1 start.actionTraces.length) st new st.executed := by
  simp only [exec, bind_eq_ok] at hok
  obtain ⟨_, -, st₁, hfold, hok⟩ := hok
  have hscheduled : Scheduled trx.original
      (trx.original.foldl scheduleOriginal ({ world } : TransactionRun σ)) :=
    scheduled_foldl (l := []) ⟨rfl, rfl, forall_mem_nil _, rfl⟩
  obtain ⟨new, done, hexecutes⟩ := TransactionRun.foldlM_executes
    (fun _ _ _ => TransactionRun.executeAction_executes) hscheduled.ready hfold
  have hdone : st₁.executed = done := by
    rw [hexecutes.executed_eq, hscheduled.executed_eq, nil_append]
  subst hdone
  refine ⟨_, new, hscheduled, ?_⟩
  split at hok
  · simp only [bind_eq_ok] at hok
    obtain ⟨_, -, hok⟩ := hok
    cases hok
    exact { hexecutes with }
  · cases hok
    exact hexecutes

end TransactionActions

/-- The traces of a transaction count up in the order of their creation and come after their
creators. Each is executed once, after its action and the notifications and before what must
follow it, and an account is notified of an action once. -/
theorem action_scheduling {σ : Type} {W : ActionWorld σ} {rounds : Nat} {trx : TransactionActions}
    {world : σ} {st : TransactionRun σ} (hok : trx.exec W rounds world = .ok st) :
    st.actionTraces.map ActionTrace.actionOrdinal = range' 1 st.actionTraces.length ∧
      (st.actionTraces.take trx.original.length).map (fun t => (t.act, t.contextFree)) =
        trx.original ∧
      (∀ t ∈ st.actionTraces, t.creatorActionOrdinal < t.actionOrdinal ∧
        (t.creatorActionOrdinal = 0 ↔ t.actionOrdinal ≤ trx.original.length)) ∧
      (∀ t ∈ st.actionTraces, t.creatorActionOrdinal ≠ 0 → ∃ c ∈ st.actionTraces, c.Created t) ∧
      st.executed.Perm (range' 1 st.actionTraces.length) ∧
      st.executed.length = st.actionTraces.length ∧
      (∀ s ∈ st.actionTraces, ∀ t ∈ st.actionTraces, s.Precedes t →
        [s.actionOrdinal, t.actionOrdinal].Sublist st.executed) ∧
      (∀ s ∈ st.actionTraces, ∀ t ∈ st.actionTraces, t.isNotification = true →
        (s.actionOrdinal = t.closestUnnotifiedAncestorActionOrdinal →
          s.act = t.act ∧ s.receiver ≠ t.receiver) ∧
        (s.isNotification = true → s.closestUnnotifiedAncestorActionOrdinal =
          t.closestUnnotifiedAncestorActionOrdinal → s.receiver = t.receiver → s = t)) := by
  obtain ⟨start, new, hscheduled, h⟩ := TransactionActions.exec_executes hok
  have hnum := hscheduled.numbered.append h.traces_eq h.ordinals
  have hstart : start.actionTraces.length = trx.original.length := by
    rw [← hscheduled.acts_eq, length_map]
  have hlength : st.actionTraces.length = start.actionTraces.length + new.length := by
    rw [h.traces_eq, length_append]
  have hperm : st.executed.Perm (range' 1 st.actionTraces.length) := by
    rw [hlength, ← range'_append_1, Nat.add_comm 1, ← h.ordinals]
    exact h.perm
  have hcases (t : ActionTrace) (ht : t ∈ st.actionTraces) : t ∈ start.actionTraces ∨ t ∈ new :=
    mem_append.mp (h.traces_eq ▸ ht)
  refine ⟨hnum, ?_, fun t ht => ?_, fun t ht hcreator => ?_, hperm, ?_, fun s hs t ht hprec => ?_,
    fun s hs t ht hnt => ⟨fun heq => ?_, fun hns hclosest hreceiver => ?_⟩⟩
  · rw [h.traces_eq, ← hstart, take_left']
    · exact hscheduled.acts_eq
    · rfl
  · cases hcases t ht with
    | inl hown =>
      have hle := hscheduled.numbered.le_length hown
      have hzero := (hscheduled.own t hown).1
      omega
    | inr hnew =>
      have hcreator := h.creator t hnew
      have hord := TransactionRun.mem_range'_ordinals h.ordinals (mem_map_of_mem hnew)
      omega
  · cases hcases t ht with
    | inl hown => exact absurd (hscheduled.own t hown).1 hcreator
    | inr hnew => exact h.lineage t hnew
  · rw [hperm.length_eq, length_range']
  · cases hcases t ht with
    | inl hown => exact absurd (hscheduled.own t hown).2.1 hprec.1
    | inr hnew => exact h.order s hs t hnew hprec
  · cases hcases t ht with
    | inl hown => exact absurd hnt (by simp [(hscheduled.own t hown).2.2])
    | inr hnew => exact h.notFirst s hs t hnew hnt heq
  · cases hcases t ht with
    | inl hown => exact absurd hnt (by simp [(hscheduled.own t hown).2.2])
    | inr htnew =>
      cases hcases s hs with
      | inl hown => exact absurd hns (by simp [(hscheduled.own s hown).2.2])
      | inr hsnew => exact h.once s hsnew t htnew hns hnt hclosest hreceiver

def namedAction (account : AccountName) (name : ActionName) : Action := ⟨account, name, [], .bytes []⟩

/-- Account 1 creates an inline action, notifies account 3 and creates a context-free inline action.
Account 3 notifies accounts 1 and 4 and creates an inline action. -/
def relayWorld : ActionWorld Unit where
  isAccount _ _ := true
  maxInlineActionDepth _ := 4
  code _ _ receiver act _ _ :=
    if act.name = 0 then .finish
    else if receiver = 1 then
      .executeInline (namedAction 2 0) (.requireRecipient 3
        (.executeContextFreeInline (namedAction 4 0) .finish))
    else if receiver = 3 then
      .requireRecipient 1 (.requireRecipient 4 (.executeInline (namedAction 5 0) .finish))
    else .finish
  checkInlineAuthorization _ _ _ _ := .ok ()
  nextSequences world _ _ := .ok world
  scheduleTransaction world := .ok world

theorem action_scheduling_relay : ∃ st,
    TransactionActions.exec relayWorld 5 { actions := [namedAction 1 1] } () = .ok st ∧
      st.actionTraces.map ActionTrace.receiver = [1, 2, 3, 4, 4, 5] ∧
      st.executed = [1, 3, 5, 4, 2, 6] ∧ st.executed.length = st.actionTraces.length := by
  obtain ⟨st, hst, hreceivers, hexecuted⟩ : ∃ st,
      TransactionActions.exec relayWorld 5 { actions := [namedAction 1 1] } () = .ok st ∧
        st.actionTraces.map ActionTrace.receiver = [1, 2, 3, 4, 4, 5] ∧
        st.executed = [1, 3, 5, 4, 2, 6] := by
    decide +kernel
  obtain ⟨-, -, -, -, -, hlength, -⟩ := action_scheduling hst
  exact ⟨st, hst, hreceivers, hexecuted, hlength⟩

end DreamChain
