import DreamChain.Chain.ConfirmationWindow

/-!
Chains of header states and what one step of a chain can do. A chain is the list of
its links, newest first, so that the history of every block is the tail after it.
`Extends` asks only that the two functions of the source succeed; the slot, the
number of confirmed blocks, the header and the feature callback are arbitrary.

Every later result about chains starts from `StepFacts`; none of them unfolds `next`.
-/

namespace DreamChain
open Library BlockHeaderState PendingBlockHeaderState List

structure Link where
  parent : BlockHeaderState
  child : BlockHeaderState

namespace Link

def number (l : Link) : Nat := l.child.blockNum

def producer (l : Link) : AccountName := l.child.header.producer

def confirmed (l : Link) : Nat := l.child.header.confirmed

end Link

/-- `next` and `_finish_next` accept some header on top of `s` and give `s'`. -/
def Extends (P : Primitives) (s s' : BlockHeaderState) : Prop :=
  ∃ (when : BlockTimestamp) (numPrevBlocksToConfirm : Nat) (validator : FeatureValidator)
    (pending : PendingBlockHeaderState) (h : BlockHeader),
    when.slot < 2 ^ 32 ∧ numPrevBlocksToConfirm < 2 ^ 16 ∧
      s.next P when numPrevBlocksToConfirm = .ok pending ∧
      pending.finishNext P validator h = .ok s'

inductive HeaderChain (P : Primitives) (genesis : GenesisState) :
    List Link → BlockHeaderState → Prop
  | genesis : HeaderChain P genesis [] (genesisHeaderState P genesis)
  | extend {links s s'} :
      HeaderChain P genesis links s → Extends P s s' →
        HeaderChain P genesis (⟨s, s'⟩ :: links) s'

def ProducerScheduleType.Valid (s : ProducerScheduleType) : Prop :=
  1 ≤ s.producers.length ∧ s.producers.length ≤ config.maxProducers ∧ s.names.Nodup

instance (s : ProducerScheduleType) : Decidable s.Valid :=
  inferInstanceAs (Decidable (_ ∧ _ ∧ _))

def SchedulesValid (links : List Link) : Prop :=
  ∀ l ∈ links, ∀ newProducers, l.child.header.newProducers = some newProducers →
    newProducers.Valid

theorem schedulesValid_nil : SchedulesValid [] := by
  intro l hl
  cases hl

theorem schedulesValid_cons {l links} : SchedulesValid (l :: links) ↔
      (∀ newProducers, l.child.header.newProducers = some newProducers → newProducers.Valid) ∧
        SchedulesValid links := by
  simp only [SchedulesValid, forall_mem_cons]

namespace BlockHeaderState

/-- The pending schedule takes over in a block with last irreversible block `lib`. -/
def Promotes (s : BlockHeaderState) (lib : Nat) : Prop :=
  s.pendingSchedule.schedule.producers ≠ [] ∧ s.pendingSchedule.scheduleLibNum ≤ lib

/-- The loop of `carryOver` from any map, so that the induction goes through. -/
theorem find?_carryOver_loop (producer : AccountName) (own lib : Nat)
    (old : FlatMap AccountName Nat) (producers : List ProducerKey) (p : AccountName)
    (m : FlatMap AccountName Nat) :
    (producers.foldl
      (fun m pro =>
        if pro.producerName = producer then m.insert pro.producerName own
        else
          match old.find? pro.producerName with
          | some existing => m.insert pro.producerName existing
          | none => m.insert pro.producerName lib) m).find? p =
      if p ∈ producers.map ProducerKey.producerName then
        some (if p = producer then own else (old.find? p).getD lib)
      else m.find? p := by
  induction producers generalizing m with
  | nil => simp
  | cons pro rest ih =>
    rw [foldl_cons, ih]
    by_cases hrest : p ∈ rest.map ProducerKey.producerName
    · simp [hrest]
    · simp only [hrest, if_false, map_cons, mem_cons, or_false]
      by_cases hp : p = pro.producerName
      · subst hp
        by_cases hown : pro.producerName = producer
        · simp [hown]
        · cases hold : old.find? pro.producerName <;> simp [hown]
      · have hne : pro.producerName ≠ p := Ne.symm hp
        by_cases hown : pro.producerName = producer
        · rw [if_pos hown, if_neg hp, FlatMap.find?_insert_of_ne _ _ hne]
        · rw [if_neg hown, if_neg hp]
          cases old.find? pro.producerName <;> exact FlatMap.find?_insert_of_ne _ _ hne

theorem find?_carryOver (producer : AccountName) (own lib : Nat)
    (old : FlatMap AccountName Nat) (producers : List ProducerKey) (p : AccountName) :
    (carryOver producer own lib old producers).find? p =
      if p ∈ producers.map ProducerKey.producerName then
        some (if p = producer then own else (old.find? p).getD lib)
      else none :=
  find?_carryOver_loop producer own lib old producers p .empty

theorem mem_keys_carryOver (producer : AccountName) (own lib : Nat)
    (old : FlatMap AccountName Nat) (producers : List ProducerKey) (p : AccountName) :
    p ∈ (carryOver producer own lib old producers).keys ↔
      p ∈ producers.map ProducerKey.producerName := by
  rw [FlatMap.mem_keys_iff, find?_carryOver]
  by_cases h : p ∈ producers.map ProducerKey.producerName <;> simp [h]

theorem getScheduledProducer_mem {s : BlockHeaderState} {t : BlockTimestamp} {prokey : ProducerKey}
    (h : s.getScheduledProducer t = some prokey) : prokey ∈ s.activeSchedule.producers :=
  mem_of_getElem? h

end BlockHeaderState

/-- How the schedules and the two producer maps move from a state to the next one. -/
inductive Handover (s s' : BlockHeaderState) : Prop
  /-- The pending schedule becomes active and leaves an empty pending schedule. -/
  | promoted (due : s.Promotes s'.dposIrreversibleBlocknum)
      (active : s'.activeSchedule = s.pendingSchedule.schedule)
      (produced : s'.producerToLastProduced =
        (carryOver s'.header.producer s'.blockNum s'.dposIrreversibleBlocknum
          s.producerToLastProduced s.pendingSchedule.schedule.producers).insert
            s'.header.producer s'.blockNum)
      (implied : s'.producerToLastImpliedIrb =
        carryOver s'.header.producer s.dposProposedIrreversibleBlocknum
          s'.dposIrreversibleBlocknum s.producerToLastImpliedIrb
          s.pendingSchedule.schedule.producers)
      (cleared : s'.pendingSchedule.schedule.producers = [])
  /-- The active schedule stays; the pending one stays or is set by the header. -/
  | kept (notDue : ¬ s.Promotes s'.dposIrreversibleBlocknum)
      (active : s'.activeSchedule = s.activeSchedule)
      (produced : s'.producerToLastProduced =
        s.producerToLastProduced.insert s'.header.producer s'.blockNum)
      (implied : s'.producerToLastImpliedIrb =
        s.producerToLastImpliedIrb.insert s'.header.producer
          s.dposProposedIrreversibleBlocknum)
      (pending :
        (s'.header.newProducers = none ∧
          s'.pendingSchedule.schedule = s.pendingSchedule.schedule ∧
          s'.pendingSchedule.scheduleLibNum = s.pendingSchedule.scheduleLibNum) ∨
        (s.pendingSchedule.schedule.producers = [] ∧
          s'.header.newProducers = some s'.pendingSchedule.schedule ∧
          s'.pendingSchedule.scheduleLibNum = s'.blockNum ∧
          s'.pendingSchedule.schedule.version = u32 (s.activeSchedule.version + 1)))

structure StepFacts (s s' : BlockHeaderState) : Prop where
  scheduled : s'.header.producer ∈ s.activeSchedule.names
  number : s'.blockNum = u32 (s.blockNum + 1)
  confirmed : s'.header.confirmed < 2 ^ 16
  unconfirmed : ∀ lastProduced,
    s.producerToLastProduced.find? s'.header.producer = some lastProduced →
      lastProduced < subU32 s'.blockNum s'.header.confirmed
  window : (s'.confirmCount, s'.dposProposedIrreversibleBlocknum) =
    confirmBlocks s'.blockNum
      (growConfirmCount s.confirmCount
        (requiredConfs s.activeSchedule.producers.length)).length
      (s'.header.confirmed + 1)
      (growConfirmCount s.confirmCount (requiredConfs s.activeSchedule.producers.length))
      s.dposProposedIrreversibleBlocknum
  lib : s'.dposIrreversibleBlocknum = s.calcDposLastIrreversible s'.header.producer
  handover : Handover s s'

namespace PendingBlockHeaderState

variable {p : PendingBlockHeaderState} {h : BlockHeader} {u : Unit}

theorem checkNewProducers_eq_ok {newProducers : ProducerScheduleType} :
    p.checkNewProducers newProducers = .ok u ↔
      p.wasPendingPromoted = false ∧
        newProducers.version = u32 (p.activeSchedule.version + 1) ∧
        p.prevPendingSchedule.schedule.producers = [] := by
  simp only [checkNewProducers, bind_eq_ok, eosAssert_eq_ok, exists_const,
    length_eq_zero_iff]

theorem checkHeader_ok (hc : p.checkHeader h = .ok u) :
    h.confirmed = p.confirmed ∧ h.producer = p.producer ∧
      ∀ newProducers, h.newProducers = some newProducers →
        p.wasPendingPromoted = false ∧
          newProducers.version = u32 (p.activeSchedule.version + 1) ∧
          p.prevPendingSchedule.schedule.producers = [] := by
  simp only [checkHeader, bind_eq_ok, eosAssert_eq_ok, exists_const] at hc
  obtain ⟨_, _, hconfirmed, hproducer, _, hnew⟩ := hc
  refine ⟨hconfirmed, hproducer, ?_⟩
  intro newProducers hsome
  rw [hsome] at hnew
  exact checkNewProducers_eq_ok.mp hnew

theorem finishNext_ok {P validator s} (hf : p.finishNext P validator h = .ok s) :
    p.checkHeader h = .ok () ∧
      s.toBlockHeaderStateCommon = p.toBlockHeaderStateCommon ∧ s.header = h ∧
      s.pendingSchedule = p.nextPendingSchedule P h := by
  simp only [finishNext, bind_eq_ok] at hf
  obtain ⟨_, hcheck, exts, _, features, _, hs⟩ := hf
  cases hs
  exact ⟨hcheck, rfl, rfl, rfl⟩

end PendingBlockHeaderState

variable {P : Primitives} {s : BlockHeaderState} {c : Nat}

theorem next_ok {when pending} (h : s.next P when c = .ok pending) :
    ∃ prokey ∈ s.activeSchedule.producers, ∃ t,
      s.checkDoubleConfirm prokey.producerName c = .ok () ∧
        pending = s.nextPending P prokey t c := by
  simp only [BlockHeaderState.next, bind_eq_ok] at h
  obtain ⟨t, _, h⟩ := h
  cases hp : s.getScheduledProducer t with
  | none => simp [hp] at h
  | some prokey =>
    simp only [hp, bind_eq_ok] at h
    obtain ⟨_, hcheck, hpending⟩ := h
    cases hpending
    exact ⟨prokey, getScheduledProducer_mem hp, t, hcheck, rfl⟩

theorem checkDoubleConfirm_ok {producer : AccountName}
    (h : s.checkDoubleConfirm producer c = .ok ()) :
    ∀ lastProduced, s.producerToLastProduced.find? producer = some lastProduced →
      lastProduced < subU32 (u32 (s.blockNum + 1)) c := by
  intro lastProduced hfind
  simpa only [checkDoubleConfirm, hfind, eosAssert_eq_ok] using h

private theorem handover_of_pending {s' : BlockHeaderState} {prokey : ProducerKey}
    {t : BlockTimestamp} {h : BlockHeader}
    (hheader : (s.nextPending P prokey t c).checkHeader h = .ok ())
    (hcommon : s'.toBlockHeaderStateCommon =
      (s.nextPending P prokey t c).toBlockHeaderStateCommon) (hh : s'.header = h)
    (hproducer : h.producer = prokey.producerName)
    (hpending : s'.pendingSchedule = (s.nextPending P prokey t c).nextPendingSchedule P h) :
    Handover s s' := by
  obtain ⟨_, _, hnew⟩ := checkHeader_ok hheader
  by_cases due : s.Promotes (s.calcDposLastIrreversible prokey.producerName)
  · have hcase : s.pendingSchedule.schedule.producers ≠ [] ∧ s.pendingSchedule.scheduleLibNum ≤
        s.calcDposLastIrreversible prokey.producerName := due
    have hnone : h.newProducers = none := by
      cases hn : h.newProducers with
      | none => rfl
      | some newProducers =>
        have hp := (hnew newProducers hn).1
        simp [nextPending, hcase] at hp
    apply Handover.promoted
    · simpa [hcommon, nextPending] using due
    · simp [hcommon, nextPending, hcase]
    · simp [hcommon, nextPending, hcase, hh, hproducer]
    · simp [hcommon, nextPending, hcase, hh, hproducer]
    · simp [hpending, nextPendingSchedule, hnone,
        nextPending, hcase]
  · have hcase : ¬ (s.pendingSchedule.schedule.producers ≠ [] ∧
        s.pendingSchedule.scheduleLibNum ≤
          s.calcDposLastIrreversible prokey.producerName) := due
    apply Handover.kept
    · simpa [hcommon, nextPending] using due
    · simp only [hcommon, nextPending, hcase, if_false]
    · simp only [hcommon, nextPending, hcase, if_false, hh, hproducer]
    · simp only [hcommon, nextPending, hcase, if_false, hh, hproducer]
    · cases hn : h.newProducers with
      | none =>
        refine .inl ⟨by rw [hh, hn], ?_, ?_⟩
        · simp only [hpending, nextPendingSchedule, hn,
            nextPending, hcase, decide_false, Bool.false_eq_true, if_false]
        · simp only [hpending, nextPendingSchedule, hn,
            nextPending]
      | some newProducers =>
        obtain ⟨_, hversion, hempty⟩ := hnew newProducers hn
        simp only [nextPending, hcase, if_false] at hversion hempty
        refine .inr ⟨hempty, ?_, ?_, ?_⟩
        · simp only [hh, hn, hpending, nextPendingSchedule]
        · simp only [hpending, nextPendingSchedule, hn, hcommon]
        · simpa only [hpending, nextPendingSchedule, hn] using hversion

/-- Everything a step can do to the fields the finality rules read. -/
theorem Extends.facts {s' : BlockHeaderState} (h : Extends P s s') : StepFacts s s' := by
  obtain ⟨when, c, validator, pending, header, _, hwidth, hnext, hfinish⟩ := h
  obtain ⟨prokey, hmem, t, hcheck, rfl⟩ := next_ok hnext
  obtain ⟨hheader, hcommon, hh, hpending⟩ := finishNext_ok hfinish
  obtain ⟨hconfirmed, hproducer, _⟩ := checkHeader_ok hheader
  have hproducer' : header.producer = prokey.producerName := hproducer
  have hconfirmed' : header.confirmed = c := hconfirmed
  have hnumber : s'.blockNum = u32 (s.blockNum + 1) := by
    simp [hcommon, nextPending]
  refine ⟨?_, hnumber, ?_, ?_, ?_, ?_, handover_of_pending hheader hcommon hh hproducer' hpending⟩
  · rw [hh, hproducer']
    exact mem_map_of_mem hmem
  · rwa [hh, hconfirmed']
  · rw [hh, hproducer', hnumber, hconfirmed']
    exact checkDoubleConfirm_ok hcheck
  · simp [hcommon, nextPending, hh, hconfirmed']
  · simp [hcommon, nextPending, hh, hproducer']

end DreamChain
