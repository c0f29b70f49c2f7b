import DreamChain.Chain.BlockProduction

/-!
The way of a producer schedule from a proposal to the active schedule. A transaction sets
the proposed schedule in the global property object, `start_block` moves it to the pending
schedule of the block once the proposing block is irreversible, and a later block promotes
the pending schedule. The version is fixed at the proposal, from the schedule that is last
in line then.

The schedule last in line keeps its version through every move, which is what the
assertions of `start_block` and `_finish_next` rely on.
-/

namespace DreamChain
open Library PendingBlockHeaderState

structure GlobalPropertyObject where
  proposedScheduleBlockNum : Option Nat := none
  proposedSchedule : ProducerScheduleType := {}
deriving DecidableEq, Inhabited

structure BuildingBlock where
  pendingBlockHeaderState : PendingBlockHeaderState
  newPendingProducerSchedule : Option ProducerScheduleType := none
deriving DecidableEq, Inhabited

/-- One call of `set_proposed_producers` and whether empty schedules are disallowed then. -/
structure ProposeCall where
  producers : List ProducerKey
  disallowEmptyProducerSchedule : Bool := false
deriving DecidableEq, Inhabited

/-- A block as its producer builds it: the arguments of `start_block`, the calls its
transactions make and the roots of what it contains. -/
structure BlockScript where
  when : BlockTimestamp := {}
  confirmBlockCount : Nat := 0
  calls : List ProposeCall := []
  transactionMroot : DigestType := {}
  actionMroot : DigestType := {}
  newProtocolFeatureActivations : List DigestType := []
deriving DecidableEq, Inhabited

def BlockScript.WellTyped (b : BlockScript) : Prop :=
  b.when.slot < 2 ^ 32 ∧ b.confirmBlockCount < 2 ^ 16

instance (b : BlockScript) : Decidable b.WellTyped := inferInstanceAs (Decidable (_ ∧ _))

namespace BuildingBlock

def activeProducers (bb : BuildingBlock) : ProducerScheduleType :=
  bb.pendingBlockHeaderState.activeSchedule

def pendingProducers (bb : BuildingBlock) : ProducerScheduleType :=
  match bb.newPendingProducerSchedule with
  | some newPendingProducerSchedule => newPendingProducerSchedule
  | none => bb.pendingBlockHeaderState.prevPendingSchedule.schedule

def header (P : Primitives) (bb : BuildingBlock) (b : BlockScript) : BlockHeader :=
  bb.pendingBlockHeaderState.makeBlockHeader P b.transactionMroot b.actionMroot
    bb.newPendingProducerSchedule b.newProtocolFeatureActivations

end BuildingBlock

def lastInLine (pending active : ProducerScheduleType) : ProducerScheduleType :=
  if pending.producers.length = 0 then active else pending

/-- `set_proposed_producers`, with the value it returns to the contract. -/
def setProposedProducers (curBlockNum : Nat) (bb : BuildingBlock) (gpo : GlobalPropertyObject)
    (call : ProposeCall) : GlobalPropertyObject × Int :=
  if call.producers.length = 0 ∧ call.disallowEmptyProducerSchedule then (gpo, -1)
  else if gpo.proposedScheduleBlockNum.isSome ∧
      (gpo.proposedScheduleBlockNum ≠ some curBlockNum ∨
        call.producers = gpo.proposedSchedule.producers) then (gpo, -1)
  else
    let front := lastInLine bb.pendingProducers bb.activeProducers
    if call.producers = front.producers then (gpo, -1)
    else
      let sch : ProducerScheduleType := ⟨u32 (front.version + 1), call.producers⟩
      (⟨some curBlockNum, sch⟩, sch.version)

structure ProducerNode where
  head : BlockHeaderState
  gpo : GlobalPropertyObject := {}
deriving DecidableEq

namespace ProducerNode

def startBlock (P : Primitives) (n : ProducerNode) (b : BlockScript) :
    Fallible (BuildingBlock × GlobalPropertyObject) := do
  let pbhs ← n.head.next P b.when b.confirmBlockCount
  match n.gpo.proposedScheduleBlockNum with
  | some proposedScheduleBlockNum =>
    if proposedScheduleBlockNum ≤ pbhs.dposIrreversibleBlocknum ∧
        pbhs.prevPendingSchedule.schedule.producers.length = 0 then
      eosAssert (n.gpo.proposedSchedule.version = u32 (pbhs.activeScheduleVersion + 1))
        .producerScheduleException "wrong producer schedule version specified"
      return (⟨pbhs, some n.gpo.proposedSchedule⟩, ⟨none, {}⟩)
    else
      return (⟨pbhs, none⟩, n.gpo)
  | none => return (⟨pbhs, none⟩, n.gpo)

def applyCalls (n : ProducerNode) (bb : BuildingBlock) (gpo : GlobalPropertyObject)
    (calls : List ProposeCall) : GlobalPropertyObject :=
  calls.foldl
    (fun gpo call => (setProposedProducers (u32 (n.head.blockNum + 1)) bb gpo call).1) gpo

def produceBlock (P : Primitives) (n : ProducerNode) (b : BlockScript) : Fallible ProducerNode := do
  let (bb, gpo) ← n.startBlock P b
  let head ← bb.pendingBlockHeaderState.finishNext P (fun _ _ _ => .ok ()) (bb.header P b)
  return ⟨head, n.applyCalls bb gpo b.calls⟩

def produceBlocks (P : Primitives) : ProducerNode → List BlockScript → Fallible ProducerNode
  | n, [] => .ok n
  | n, b :: rest => do
    let n' ← n.produceBlock P b
    produceBlocks P n' rest

end ProducerNode

inductive ProductionRun (P : Primitives) (genesis : GenesisState) : ProducerNode → Prop
  | genesis : ProductionRun P genesis ⟨genesisHeaderState P genesis, {}⟩
  | block {n n' b} :
      ProductionRun P genesis n → b.WellTyped → n.produceBlock P b = .ok n' →
        ProductionRun P genesis n'

theorem produceBlocks_run {P genesis n n' scripts} (h : ProductionRun P genesis n)
    (hscripts : ∀ b ∈ scripts, b.WellTyped) (hok : n.produceBlocks P scripts = .ok n') :
    ProductionRun P genesis n' := by
  induction scripts generalizing n with
  | nil =>
    cases hok
    exact h
  | cons b rest ih =>
    simp only [ProducerNode.produceBlocks, bind_eq_ok] at hok
    obtain ⟨m, hblock, hrest⟩ := hok
    exact ih (.block h (hscripts b List.mem_cons_self) hblock)
      (fun c hc => hscripts c (List.mem_cons_of_mem _ hc)) hrest

structure HandoverInvariant (n : ProducerNode) : Prop where
  pending : n.head.pendingSchedule.schedule.producers ≠ [] →
    n.head.pendingSchedule.schedule.version = u32 (n.head.activeSchedule.version + 1)
  proposed : n.gpo.proposedScheduleBlockNum.isSome →
    n.gpo.proposedSchedule.version =
      u32 ((lastInLine n.head.pendingSchedule.schedule n.head.activeSchedule).version + 1)
  active : n.head.activeSchedule.producers ≠ []

def ProposalFits (gpo : GlobalPropertyObject) (front : ProducerScheduleType) : Prop :=
  gpo.proposedScheduleBlockNum.isSome → gpo.proposedSchedule.version = u32 (front.version + 1)

variable {bb : BuildingBlock} {gpo : GlobalPropertyObject}

section

variable (h : ProposalFits gpo (lastInLine bb.pendingProducers bb.activeProducers))
include h

theorem setProposedProducers_fits {curBlockNum : Nat} (call : ProposeCall) :
    ProposalFits (setProposedProducers curBlockNum bb gpo call).1
      (lastInLine bb.pendingProducers bb.activeProducers) := by
  simp only [setProposedProducers]
  split
  · exact h
  · split
    · exact h
    · split
      · exact h
      · intro _
        rfl

theorem applyCalls_fits {n : ProducerNode} (calls : List ProposeCall) :
    ProposalFits (n.applyCalls bb gpo calls)
      (lastInLine bb.pendingProducers bb.activeProducers) := by
  induction calls generalizing gpo with
  | nil => exact h
  | cons call rest ih => exact ih (setProposedProducers_fits h call)

end

variable {P : Primitives} {genesis : GenesisState} {n n' : ProducerNode} {b : BlockScript}

/-- How the block under construction starts: with the proposal promoted to pending, or with
the schedules of the head. -/
theorem startBlock_ok (h : n.startBlock P b = .ok (bb, gpo)) :
    n.head.next P b.when b.confirmBlockCount = .ok bb.pendingBlockHeaderState ∧
      ((bb.newPendingProducerSchedule = none ∧ gpo = n.gpo) ∨
        (bb.newPendingProducerSchedule = some n.gpo.proposedSchedule ∧ gpo = ⟨none, {}⟩ ∧
          bb.pendingBlockHeaderState.prevPendingSchedule.schedule.producers = [] ∧
          n.gpo.proposedSchedule.version =
            u32 (bb.pendingBlockHeaderState.activeScheduleVersion + 1))) := by
  simp only [ProducerNode.startBlock, bind_eq_ok] at h
  obtain ⟨pbhs, hnext, h⟩ := h
  split at h
  · split at h
    · rename_i hdue
      simp only [bind_eq_ok, eosAssert_eq_ok, exists_const] at h
      obtain ⟨hversion, hresult⟩ := h
      cases hresult
      exact ⟨hnext, .inr ⟨rfl, rfl, List.length_eq_zero_iff.mp hdue.2, hversion⟩⟩
    · cases h
      exact ⟨hnext, .inl ⟨rfl, rfl⟩⟩
  · cases h
    exact ⟨hnext, .inl ⟨rfl, rfl⟩⟩

variable {s s' : BlockHeaderState} {e : ChainException}

theorem next_error_type {when c} (h : s.next P when c = .error e) :
    e.type ≠ .producerScheduleException := by
  simp only [BlockHeaderState.next, bind_eq_error] at h
  rcases h with h | ⟨t, _, h⟩
  · simp only [BlockHeaderState.nextTimestamp] at h
    split at h
    · simp only [bind_eq_error, eosAssert_eq_error] at h
      rcases h with ⟨_, rfl⟩ | ⟨_, _, h⟩
      · decide
      · cases h
    · cases h
  · split at h
    · cases h
      decide
    · simp only [bind_eq_error, BlockHeaderState.checkDoubleConfirm] at h
      rcases h with h | ⟨_, _, h⟩
      · split at h
        · obtain ⟨_, rfl⟩ := eosAssert_eq_error.mp h
          decide
        · cases h
      · cases h

theorem startBlock_checkHeader (h : n.startBlock P b = .ok (bb, gpo)) :
    bb.pendingBlockHeaderState.checkHeader (bb.header P b) = .ok () := by
  obtain ⟨hnext, hcase⟩ := startBlock_ok h
  obtain ⟨prokey, _, t, _, hpbhs⟩ := next_ok hnext
  refine checkHeader_header (P := P) (i := ⟨b.when, b.confirmBlockCount, b.transactionMroot,
    b.actionMroot, bb.newPendingProducerSchedule, b.newProtocolFeatureActivations⟩) _ ?_
  intro schedule hsome
  rcases hcase with ⟨hnone, _⟩ | ⟨hnew, _, hempty, hversion⟩
  · exact absurd (hnone.symm.trans hsome) nofun
  · obtain rfl : n.gpo.proposedSchedule = schedule := Option.some.inj (hnew.symm.trans hsome)
    rw [hpbhs] at hempty hversion ⊢
    have hpending : n.head.pendingSchedule.schedule.producers = [] := hempty
    refine checkNewProducers_eq_ok.mpr ⟨?_, ?_, hempty⟩
    · simp [BlockHeaderState.nextPending, hpending]
    · simpa [BlockHeaderState.nextPending, hpending] using hversion

theorem finishNext_lastInLine (hstart : n.startBlock P b = .ok (bb, gpo))
    (hfinish : bb.pendingBlockHeaderState.finishNext P (fun _ _ _ => .ok ()) (bb.header P b) =
      .ok s') : lastInLine s'.pendingSchedule.schedule s'.activeSchedule =
      lastInLine bb.pendingProducers bb.activeProducers := by
  obtain ⟨hnext, _⟩ := startBlock_ok hstart
  obtain ⟨prokey, _, t, _, hpbhs⟩ := next_ok hnext
  obtain ⟨_, hcommon, _, hpending⟩ := finishNext_ok hfinish
  have hactive : s'.activeSchedule = bb.activeProducers := by
    rw [hcommon]
    rfl
  rw [hactive, hpending]
  cases hnew : bb.newPendingProducerSchedule with
  | some newProducers =>
    simp only [nextPendingSchedule, BuildingBlock.header,
      makeBlockHeader, BuildingBlock.pendingProducers, hnew]
  | none =>
    simp only [nextPendingSchedule, BuildingBlock.header,
      makeBlockHeader, BuildingBlock.pendingProducers, hnew]
    by_cases hpromoted : bb.pendingBlockHeaderState.wasPendingPromoted = true
    · have hdue : n.head.pendingSchedule.schedule.producers ≠ [] ∧
          n.head.pendingSchedule.scheduleLibNum ≤
            n.head.calcDposLastIrreversible prokey.producerName := by
        simpa [hpbhs, BlockHeaderState.nextPending] using hpromoted
      have hschedule : bb.activeProducers = n.head.pendingSchedule.schedule := by
        rw [BuildingBlock.activeProducers, hpbhs]
        exact if_pos hdue
      have hprev : bb.pendingBlockHeaderState.prevPendingSchedule = n.head.pendingSchedule := by
        rw [hpbhs]
        rfl
      simp [hpromoted, lastInLine, hschedule, hprev]
    · simp [hpromoted]

theorem startBlock_fits
    (hfits : ProposalFits n.gpo (lastInLine n.head.pendingSchedule.schedule n.head.activeSchedule))
    (h : n.startBlock P b = .ok (bb, gpo)) :
    ProposalFits gpo (lastInLine bb.pendingProducers bb.activeProducers) := by
  obtain ⟨hnext, hcase⟩ := startBlock_ok h
  obtain ⟨prokey, _, t, _, hpbhs⟩ := next_ok hnext
  rcases hcase with ⟨hnone, rfl⟩ | ⟨_, rfl, _⟩
  · have hprev : bb.pendingProducers = n.head.pendingSchedule.schedule := by
      rw [BuildingBlock.pendingProducers, hnone, hpbhs]
      rfl
    rw [hprev]
    by_cases hempty : n.head.pendingSchedule.schedule.producers = []
    · have hactive : bb.activeProducers = n.head.activeSchedule := by
        rw [BuildingBlock.activeProducers, hpbhs]
        exact if_neg (fun hdue => hdue.1 hempty)
      rwa [hactive]
    · have hlength : ¬ n.head.pendingSchedule.schedule.producers.length = 0 := by
        simpa using hempty
      rw [lastInLine, if_neg hlength] at hfits ⊢
      exact hfits
  · intro hsome
    cases hsome

theorem startBlock_error_type
    (hfits : ProposalFits n.gpo (lastInLine n.head.pendingSchedule.schedule n.head.activeSchedule))
    (h : n.startBlock P b = .error e) : e.type ≠ .producerScheduleException := by
  simp only [ProducerNode.startBlock, bind_eq_error] at h
  rcases h with h | ⟨pbhs, hnext, h⟩
  · exact next_error_type h
  · obtain ⟨prokey, _, t, _, rfl⟩ := next_ok hnext
    split at h
    · rename_i hsome
      split at h
      · rename_i hdue
        have hempty : n.head.pendingSchedule.schedule.producers.length = 0 := hdue.2
        have hversion := hfits (by rw [hsome]; rfl)
        rw [lastInLine, if_pos hempty] at hversion
        simp only [bind_eq_error, eosAssert_eq_error] at h
        rcases h with ⟨hwrong, _⟩ | ⟨_, _, h⟩
        · exact absurd hversion hwrong
        · cases h
      · cases h
    · cases h

/-- What every node of a run satisfies; the pending schedule of the genesis state has the
version of the active one and is promoted by the first block. -/
structure RunInvariant (P : Primitives) (genesis : GenesisState) (n : ProducerNode) : Prop where
  proposed : ProposalFits n.gpo
    (lastInLine n.head.pendingSchedule.schedule n.head.activeSchedule)
  active : n.head.activeSchedule.producers ≠ []
  pending : n.head = genesisHeaderState P genesis ∨
    (n.head.pendingSchedule.schedule.producers ≠ [] →
      n.head.pendingSchedule.schedule.version = u32 (n.head.activeSchedule.version + 1))

theorem Handover.pending_version (h : Handover s s')
    (hs : s = genesisHeaderState P genesis ∨ (s.pendingSchedule.schedule.producers ≠ [] →
      s.pendingSchedule.schedule.version = u32 (s.activeSchedule.version + 1)))
    (hne : s'.pendingSchedule.schedule.producers ≠ []) :
    s'.pendingSchedule.schedule.version = u32 (s'.activeSchedule.version + 1) := by
  cases h with
  | promoted _ _ _ _ cleared => exact absurd cleared hne
  | kept notDue active _ _ pending =>
    rw [active]
    rcases pending with ⟨_, hsame, _⟩ | ⟨_, _, _, hversion⟩
    · rcases hs with rfl | hs
      · exact absurd ⟨List.cons_ne_nil _ _, Nat.zero_le _⟩ notDue
      · rw [hsame] at hne ⊢
        exact hs hne
    · exact hversion

theorem Handover.active_ne_nil (h : Handover s s') (hs : s.activeSchedule.producers ≠ []) :
    s'.activeSchedule.producers ≠ [] := by
  cases h with
  | promoted due active _ _ _ =>
    rw [active]
    exact due.1
  | kept _ active _ _ _ =>
    rw [active]
    exact hs

theorem produceBlock_invariant (h : RunInvariant P genesis n) (hb : b.WellTyped)
    (hok : n.produceBlock P b = .ok n') : HandoverInvariant n' := by
  simp only [ProducerNode.produceBlock, bind_eq_ok] at hok
  obtain ⟨⟨bb, gpo⟩, hstart, head, hfinish, hresult⟩ := hok
  cases hresult
  have hnext := (startBlock_ok hstart).1
  have hstep : Extends P n.head head :=
    ⟨b.when, b.confirmBlockCount, _, _, _, hb.1, hb.2, hnext, hfinish⟩
  refine ⟨hstep.facts.handover.pending_version h.pending, ?_,
    hstep.facts.handover.active_ne_nil h.active⟩
  have hfits := applyCalls_fits (n := n) (startBlock_fits h.proposed hstart) b.calls
  rw [← finishNext_lastInLine hstart hfinish] at hfits
  exact hfits

theorem ProductionRun.invariant (h : ProductionRun P genesis n) : RunInvariant P genesis n := by
  induction h with
  | genesis =>
    refine ⟨?_, List.cons_ne_nil _ _, .inl rfl⟩
    intro hsome
    cases hsome
  | block _ hb hok ih =>
    have hinv := produceBlock_invariant ih hb hok
    exact ⟨hinv.proposed, hinv.active, .inr hinv.pending⟩

/-- In every run of block production the three schedules of a produced block have
consecutive versions, and no assertion on a schedule stops the block that comes next. -/
theorem scheduleHandover (h : ProductionRun P genesis n) (b : BlockScript) (hb : b.WellTyped) :
    (∀ n', n.produceBlock P b = .ok n' → HandoverInvariant n') ∧
      (∀ e, n.startBlock P b = .error e → e.type ≠ .producerScheduleException) ∧
      ∀ bb gpo, n.startBlock P b = .ok (bb, gpo) →
        bb.pendingBlockHeaderState.checkHeader (bb.header P b) = .ok () :=
  ⟨fun _ hok => produceBlock_invariant h.invariant hb hok,
    fun _ herror => startBlock_error_type h.invariant.proposed herror,
    fun _ _ hstart => startBlock_checkHeader hstart⟩

/-- The first block proposes a schedule twice and the second announces it. The third makes
it active and proposes an empty schedule. -/
theorem scheduleHandover_emptyProposal : ∃ n n', ProductionRun runPrimitives {} n ∧
    n.produceBlock runPrimitives { calls := [⟨[], false⟩] } = .ok n' ∧ HandoverInvariant n' ∧
    n'.head.activeSchedule = ⟨1, [⟨1, []⟩, ⟨2, []⟩]⟩ ∧ n'.gpo = ⟨some 4, ⟨2, []⟩⟩ := by
  obtain ⟨n, hn⟩ : ∃ n, (⟨genesisHeaderState runPrimitives {}, {}⟩ : ProducerNode).produceBlocks
      runPrimitives [{ calls := [⟨[⟨1, []⟩], false⟩, ⟨[⟨1, []⟩, ⟨2, []⟩], true⟩] }, {}] = .ok n :=
    ⟨_, rfl⟩
  have hrun : ProductionRun runPrimitives {} n := produceBlocks_run .genesis (by decide) hn
  obtain ⟨n', hn'⟩ : ∃ n', n.produceBlock runPrimitives { calls := [⟨[], false⟩] } = .ok n' := by
    cases hn
    exact ⟨_, rfl⟩
  refine ⟨n, n', hrun, hn', (scheduleHandover hrun _ (by decide)).1 n' hn', ?_⟩
  cases hn
  cases hn'
  exact ⟨rfl, rfl⟩

end DreamChain
