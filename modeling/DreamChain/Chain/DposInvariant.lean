import DreamChain.Chain.BlockProduction

/-!
The invariant of the finality bookkeeping along a chain: the confirmation window,
the proposed and the final irreversible block and the map of implied irreversible
blocks. Its parts need each other, so one induction over the chain carries them all.

Block numbers are 32-bit counters. The invariant is stated for chains short enough
that the counter has not wrapped around.
-/

namespace DreamChain
open Library List BlockHeaderState FlatMap

/-- A step, read on the window from the newest block backwards. -/
structure WindowStep (s s' : BlockHeaderState) : Prop where
  entry : ∀ j x, s'.confirmCount.reverse[j]? = some x →
    1 ≤ x ∧
      ((j = 0 ∧ requiredConfs s.activeSchedule.producers.length = x + 1) ∨
        ∃ k, j = k + 1 ∧
          ((j ≤ s'.header.confirmed ∧ s.confirmCount.reverse[k]? = some (x + 1)) ∨
            (s'.header.confirmed < j ∧ s.confirmCount.reverse[k]? = some x)))
  outcome : (s'.dposProposedIrreversibleBlocknum = s.dposProposedIrreversibleBlocknum ∧
      s'.confirmCount.length ≤ s.confirmCount.length + 1 ∧
      s'.confirmCount.length ≤ config.maximumTrackedDposConfirmations) ∨
    ∃ distance ≤ s'.header.confirmed,
      s'.dposProposedIrreversibleBlocknum = subU32 s'.blockNum distance ∧
      s'.confirmCount.length = distance ∧
      ((distance = 0 ∧ requiredConfs s.activeSchedule.producers.length = 1) ∨
        ∃ k, distance = k + 1 ∧ s.confirmCount.reverse[k]? = some 1)

private theorem getElem?_of_take {l : List Nat} {n i x : Nat} (h : (l.take n)[i]? = some x) :
    l[i]? = some x := by
  rw [getElem?_take] at h
  split at h
  · exact h
  · cases h

variable {window : List Nat} {links : List Link} {tip : BlockHeaderState}

theorem reverse_growConfirmCount {required : Nat}
    (hsize : window.length ≤ config.maximumTrackedDposConfirmations) (hreq : required ≤ 255) :
    (growConfirmCount window required).reverse =
      required :: window.reverse.take (config.maximumTrackedDposConfirmations - 1) := by
  have hu : u8 required = required := Nat.mod_eq_of_lt (by omega)
  simp only [growConfirmCount, config.maximumTrackedDposConfirmations, hu] at hsize ⊢
  split
  · rw [reverse_append, take_of_length_le (by rw [List.length_reverse]; omega)]
    rfl
  · have hlen : window.reverse.take (1024 - 1) = window.reverse.dropLast := by
      rw [dropLast_eq_take, List.length_reverse]
      congr 1
      omega
    rw [reverse_append, hlen, dropLast_reverse]
    rfl

variable {s : BlockHeaderState} {s' : BlockHeaderState}

theorem StepFacts.windowStep (h : StepFacts s s') (hcounters : Counters s.confirmCount)
    (hsize : s.confirmCount.length ≤ config.maximumTrackedDposConfirmations)
    (hreq : 1 ≤ requiredConfs s.activeSchedule.producers.length ∧
      requiredConfs s.activeSchedule.producers.length ≤ 255) : WindowStep s s' := by
  have hrev := reverse_growConfirmCount hsize hreq.2
  have hgrown : Counters (growConfirmCount s.confirmCount
      (requiredConfs s.activeSchedule.producers.length)) := by
    intro x hx
    rw [← mem_reverse, hrev, mem_cons] at hx
    rcases hx with rfl | hx
    · exact hreq
    · exact hcounters x (mem_reverse.mp (mem_of_mem_take hx))
  have hwindow := h.window
  rw [confirmBlocks_eq _ _ _ _ hgrown, hrev, Prod.mk.injEq] at hwindow
  obtain ⟨hcount, hproposed⟩ := hwindow
  have hpos : ∀ y ∈ requiredConfs s.activeSchedule.producers.length ::
      s.confirmCount.reverse.take (config.maximumTrackedDposConfirmations - 1), 1 ≤ y := by
    intro y hy
    rw [← hrev, mem_reverse] at hy
    exact (hgrown y hy).1
  have hlen := confirm_length (requiredConfs s.activeSchedule.producers.length ::
    s.confirmCount.reverse.take (config.maximumTrackedDposConfirmations - 1))
      (s'.header.confirmed + 1)
  refine ⟨?_, ?_⟩
  · intro j x hx
    rw [hcount, reverse_reverse] at hx
    obtain ⟨hone, hcase⟩ := confirm_getElem hpos hx
    refine ⟨hone, ?_⟩
    cases j with
    | zero =>
      rcases hcase with ⟨_, hget⟩ | ⟨hlt, _⟩
      · simpa using hget
      · omega
    | succ k =>
      refine .inr ⟨k, rfl, ?_⟩
      rcases hcase with ⟨hlt, hget⟩ | ⟨hlt, hget⟩
      · exact .inl ⟨by omega, getElem?_of_take hget⟩
      · exact .inr ⟨by omega, getElem?_of_take hget⟩
  · cases hhit : (confirm (requiredConfs s.activeSchedule.producers.length ::
        s.confirmCount.reverse.take (config.maximumTrackedDposConfirmations - 1))
          (s'.header.confirmed + 1)).2 with
    | none =>
      refine .inl ⟨by simpa only [hhit] using hproposed, ?_, ?_⟩
      · rw [hcount, List.length_reverse, hlen, hhit]
        simp only [Option.getD_none, length_cons, length_take, List.length_reverse]
        omega
      · rw [hcount, List.length_reverse, hlen, hhit]
        simp only [Option.getD_none, length_cons, length_take,
          config.maximumTrackedDposConfirmations]
        omega
    | some distance =>
      obtain ⟨hlt, hget⟩ := confirm_hit hhit
      refine .inr ⟨distance, by omega, by simpa only [hhit] using hproposed, ?_, ?_⟩
      · rw [hcount, List.length_reverse, hlen, hhit, Option.getD_some]
      · cases distance with
        | zero => exact .inl ⟨rfl, by simpa using hget⟩
        | succ k =>
          exact .inr ⟨k, rfl, getElem?_of_take (by simpa using hget)⟩

structure DposInvariant (s : BlockHeaderState) : Prop where
  counters : ∀ x ∈ s.confirmCount, 1 ≤ x ∧ x ≤ 84
  /-- The counters the next block decrements, its own included, are positive. -/
  grown : ∀ x ∈ growConfirmCount s.confirmCount
    (requiredConfs s.activeSchedule.producers.length), 1 ≤ x ∧ x ≤ 84
  windowSize : s.confirmCount.length ≤ config.maximumTrackedDposConfirmations
  window : s.dposProposedIrreversibleBlocknum + s.confirmCount.length ≤ s.blockNum
  implied : ∀ v ∈ s.producerToLastImpliedIrb.values, v ≤ s.dposProposedIrreversibleBlocknum
  lib : s.dposIrreversibleBlocknum ≤ s.dposProposedIrreversibleBlocknum
  proposed : s.dposProposedIrreversibleBlocknum ≤ s.blockNum
  keys : 2 ≤ s.blockNum →
    ∀ p, p ∈ s.producerToLastImpliedIrb.keys ↔ p ∈ s.activeSchedule.names

theorem requiredConfs_of_valid {s : ProducerScheduleType} (h : s.Valid) :
    1 ≤ requiredConfs s.producers.length ∧ requiredConfs s.producers.length ≤ 84 := by
  have hmax : s.producers.length ≤ 125 := h.2.1
  have hu : u32 (s.producers.length * 2 / 3) = s.producers.length * 2 / 3 :=
    Nat.mod_eq_of_lt (by omega)
  simp only [requiredConfs]
  omega

theorem calcDposLastIrreversible_le (producer : AccountName)
    (h : ∀ v ∈ s.producerToLastImpliedIrb.values, v ≤ s.dposProposedIrreversibleBlocknum) :
    s.calcDposLastIrreversible producer ≤ s.dposProposedIrreversibleBlocknum := by
  simp only [calcDposLastIrreversible]
  split
  · exact Nat.zero_le _
  · cases hn : nthElement (s.producerToLastImpliedIrb.entries.map fun i =>
        if i.1 = producer then s.dposProposedIrreversibleBlocknum else i.2) _ with
    | none => exact Nat.zero_le _
    | some x =>
      obtain ⟨e, he, rfl⟩ := mem_map.mp (nthElement_mem hn)
      split
      · exact le_rfl
      · exact h e.2 (mem_map_of_mem he)

/-- The schedules of a state; only the genesis state has no implied block at all. -/
structure ScheduleInvariant (s : BlockHeaderState) : Prop where
  number : 1 ≤ s.blockNum
  active : s.activeSchedule.Valid
  pending : s.pendingSchedule.schedule.producers ≠ [] → s.pendingSchedule.schedule.Valid
  first : s.blockNum < 2 →
    s.producerToLastImpliedIrb = .empty ∧ s.activeSchedule.producers.length = 1

theorem subU32_of_le {a b : Nat} (hab : b ≤ a) (ha : a < 2 ^ 32) : subU32 a b = a - b := by
  simp only [subU32, u32]
  omega

theorem grown_counters {schedule : ProducerScheduleType} (hcounters : ∀ x ∈ window, 1 ≤ x ∧ x ≤ 84)
    (hschedule : schedule.Valid) :
    ∀ x ∈ growConfirmCount window (requiredConfs schedule.producers.length),
      1 ≤ x ∧ x ≤ 84 := by
  have hreq := requiredConfs_of_valid hschedule
  have hu : u8 (requiredConfs schedule.producers.length) =
      requiredConfs schedule.producers.length := Nat.mod_eq_of_lt (by omega)
  intro x hx
  simp only [growConfirmCount, hu] at hx
  split at hx
  · rcases mem_append.mp hx with hx | hx
    · exact hcounters x hx
    · rwa [mem_singleton.mp hx]
  · rcases mem_append.mp hx with hx | hx
    · exact hcounters x (mem_of_mem_tail hx)
    · rwa [mem_singleton.mp hx]

section

variable (h : Handover s s')
include h

theorem Handover.active_valid (hs : ScheduleInvariant s) : s'.activeSchedule.Valid := by
  cases h with
  | promoted due active _ _ _ =>
    rw [active]
    exact hs.pending due.1
  | kept _ active _ _ _ =>
    rw [active]
    exact hs.active

theorem Handover.pending_valid (hs : ScheduleInvariant s)
    (hnew : ∀ newProducers, s'.header.newProducers = some newProducers → newProducers.Valid)
    (hne : s'.pendingSchedule.schedule.producers ≠ []) : s'.pendingSchedule.schedule.Valid := by
  cases h with
  | promoted _ _ _ _ cleared => exact absurd cleared hne
  | kept _ _ _ _ pending =>
    rcases pending with ⟨_, hsame, _⟩ | ⟨_, hsome, _, _⟩
    · rw [hsame] at hne ⊢
      exact hs.pending hne
    · exact hnew _ hsome

/-- The implied blocks of the next state are old ones, the proposed block of the parent,
or the last irreversible block of the new state. -/
theorem Handover.implied_origin {p v} (hv : s'.producerToLastImpliedIrb.find? p = some v) :
    s.producerToLastImpliedIrb.find? p = some v ∨
      (p = s'.header.producer ∧ v = s.dposProposedIrreversibleBlocknum) ∨
      v = s'.dposIrreversibleBlocknum := by
  cases h with
  | promoted _ _ _ implied _ =>
    rw [implied, find?_carryOver] at hv
    split at hv
    · by_cases hp : p = s'.header.producer
      · simp only [hp, Option.some.injEq] at hv
        exact .inr (.inl ⟨hp, hv.symm⟩)
      · simp only [hp] at hv
        cases hold : s.producerToLastImpliedIrb.find? p with
        | none => exact .inr (.inr (by simpa [hold] using hv.symm))
        | some w => exact .inl (by simpa [hold] using hv)
    · cases hv
  | kept _ _ _ implied _ =>
    rw [implied, find?_insert] at hv
    split at hv
    · rename_i hp
      exact .inr (.inl ⟨hp.symm, by simpa using hv.symm⟩)
    · exact .inl hv

theorem Handover.keys (hscheduled : s'.header.producer ∈ s.activeSchedule.names)
    (hfirst : s.blockNum < 2 →
      s.producerToLastImpliedIrb = .empty ∧ s.activeSchedule.producers.length = 1)
    (hkeys : 2 ≤ s.blockNum → ∀ p, p ∈ s.producerToLastImpliedIrb.keys ↔ p ∈ s.activeSchedule.names)
    (p : AccountName) : p ∈ s'.producerToLastImpliedIrb.keys ↔ p ∈ s'.activeSchedule.names := by
  cases h with
  | promoted _ active _ implied _ =>
    rw [implied, active]
    exact mem_keys_carryOver _ _ _ _ _ p
  | kept _ active _ implied _ =>
    rw [implied, active, mem_keys_insert]
    by_cases hnum : s.blockNum < 2
    · obtain ⟨hempty, hlen⟩ := hfirst hnum
      obtain ⟨x, hx⟩ := length_eq_one_iff.mp
        (show s.activeSchedule.names.length = 1 by simpa [ProducerScheduleType.names] using hlen)
      rw [hx, mem_singleton] at hscheduled
      simp [hempty, hx, hscheduled]
    · rw [hkeys (by omega) p]
      exact ⟨fun h => h.elim (fun hp => hp ▸ hscheduled) id, Or.inr⟩

end

theorem StepFacts.windowStep_of_invariant (h : StepFacts s s')
    (hd : DposInvariant s) (hs : ScheduleInvariant s) : WindowStep s s' := by
  have hreq := requiredConfs_of_valid hs.active
  refine h.windowStep ?_ hd.windowSize ⟨hreq.1, by omega⟩
  intro x hx
  have hx' := hd.counters x hx
  exact ⟨hx'.1, by omega⟩

theorem StepFacts.invariant (h : StepFacts s s')
    (hd : DposInvariant s) (hs : ScheduleInvariant s) (hfit : s.blockNum + 1 < 2 ^ 32)
    (hnew : ∀ newProducers, s'.header.newProducers = some newProducers → newProducers.Valid) :
    (DposInvariant s' ∧ ScheduleInvariant s') ∧
      s.dposProposedIrreversibleBlocknum ≤ s'.dposProposedIrreversibleBlocknum := by
  have hnumber : s'.blockNum = s.blockNum + 1 := h.number.trans (Nat.mod_eq_of_lt hfit)
  have hpositive := hs.number
  have hreq := requiredConfs_of_valid hs.active
  have hwin := h.windowStep_of_invariant hd hs
  have hwindow := hd.window
  have hmove : s.dposProposedIrreversibleBlocknum ≤ s'.dposProposedIrreversibleBlocknum ∧
      s'.dposProposedIrreversibleBlocknum + s'.confirmCount.length ≤ s'.blockNum ∧
      s'.confirmCount.length ≤ config.maximumTrackedDposConfirmations := by
    rcases hwin.outcome with ⟨hsame, hlen, hmax⟩ | ⟨distance, _, hprop, hlen, hentry⟩
    · exact ⟨by omega, by omega, hmax⟩
    · have hdist : distance ≤ s.confirmCount.length := by
        rcases hentry with ⟨hzero, _⟩ | ⟨k, hk, hget⟩
        · omega
        · have hlt := (List.getElem?_eq_some_iff.mp hget).1
          rw [List.length_reverse] at hlt
          omega
      rw [subU32_of_le (by omega) (by omega)] at hprop
      have hsize := hd.windowSize
      exact ⟨by omega, by omega, by omega⟩
  have hlib : s'.dposIrreversibleBlocknum ≤ s.dposProposedIrreversibleBlocknum := by
    rw [h.lib]
    exact calcDposLastIrreversible_le _ hd.implied
  have hcounters : ∀ x ∈ s'.confirmCount, 1 ≤ x ∧ x ≤ 84 := by
    intro x hx
    obtain ⟨j, hj⟩ := mem_iff_getElem?.mp (mem_reverse.mpr hx)
    obtain ⟨hone, hcase⟩ := hwin.entry j x hj
    refine ⟨hone, ?_⟩
    rcases hcase with ⟨_, hx⟩ | ⟨k, _, ⟨_, hget⟩ | ⟨_, hget⟩⟩
    · omega
    · have := hd.counters _ (mem_reverse.mp (mem_of_getElem? hget))
      omega
    · exact (hd.counters _ (mem_reverse.mp (mem_of_getElem? hget))).2
  have hactive := h.handover.active_valid hs
  refine ⟨⟨⟨hcounters, grown_counters hcounters hactive, hmove.2.2, hmove.2.1, ?_, by omega,
    by omega, fun _ => h.handover.keys h.scheduled hs.first hd.keys⟩,
    by omega, hactive, h.handover.pending_valid hs hnew, fun _ => by omega⟩, hmove.1⟩
  intro v hv
  obtain ⟨p, hp⟩ := (mem_values_iff _ v).mp hv
  rcases h.handover.implied_origin hp with hold | ⟨_, hown⟩ | hlibv
  · have := hd.implied v ((mem_values_iff _ v).mpr ⟨p, hold⟩)
    omega
  · omega
  · omega

theorem genesis_blockNum (P : Primitives) (genesis : GenesisState) :
    (genesisHeaderState P genesis).blockNum = 1 := by
  simp [genesisHeaderState, BlockHeader.blockNum, BlockHeader.numFromId, endianReverseU32, u32]

theorem genesis_valid (P : Primitives) (genesis : GenesisState) :
    (genesisHeaderState P genesis).activeSchedule.Valid :=
  ⟨le_refl 1, show 1 ≤ 125 by omega, nodup_singleton _⟩

theorem genesis_invariant (P : Primitives) (genesis : GenesisState) :
    DposInvariant (genesisHeaderState P genesis) ∧
      ScheduleInvariant (genesisHeaderState P genesis) := by
  have hvalid := genesis_valid P genesis
  refine ⟨⟨?_, ?_, Nat.zero_le _, ?_, ?_, le_rfl, Nat.zero_le _, ?_⟩,
    (genesis_blockNum P genesis).ge, hvalid, fun _ => hvalid, fun _ => ⟨rfl, rfl⟩⟩
  · intro x hx
    cases hx
  · exact grown_counters (fun x hx => by cases hx) hvalid
  · exact Nat.zero_le _
  · intro v hv
    cases hv
  · intro h
    rw [genesis_blockNum] at h
    omega

theorem HeaderChain.blockNum {P genesis}
    (h : HeaderChain P genesis links tip) (hfit : links.length + 1 < 2 ^ 32) :
    tip.blockNum = links.length + 1 := by
  induction h with
  | genesis => exact genesis_blockNum P genesis
  | extend _ hstep ih =>
    rw [length_cons] at hfit ⊢
    rw [hstep.facts.number, ih (by omega)]
    exact Nat.mod_eq_of_lt hfit

theorem HeaderChain.invariants {P genesis}
    (h : HeaderChain P genesis links tip) (hvalid : SchedulesValid links)
    (hfit : links.length + 1 < 2 ^ 32) : DposInvariant tip ∧ ScheduleInvariant tip := by
  induction h with
  | genesis => exact genesis_invariant P genesis
  | extend hchain hstep ih =>
    rw [length_cons] at hfit
    have hrest := ih (fun l hl => hvalid l (mem_cons_of_mem _ hl)) (by omega)
    have hnum := hchain.blockNum (by omega)
    exact (hstep.facts.invariant hrest.1 hrest.2 (by omega) (hvalid _ mem_cons_self)).1

/-- The invariant of every header state on a chain from genesis, and the proposed
irreversible block never moves back along it. -/
theorem dposInvariant_of_chain {P : Primitives} {genesis : GenesisState} {links : List Link}
    {tip : BlockHeaderState} (h : HeaderChain P genesis links tip)
    (hvalid : SchedulesValid links) (hfit : links.length + 1 < 2 ^ 32) : DposInvariant tip ∧
      ∀ l ∈ links, l.parent.dposProposedIrreversibleBlocknum ≤
        l.child.dposProposedIrreversibleBlocknum := by
  refine ⟨(h.invariants hvalid hfit).1, ?_⟩
  induction h with
  | genesis =>
    intro l hl
    cases hl
  | extend hchain hstep ih =>
    rw [length_cons] at hfit
    have hrest : SchedulesValid _ := fun l hl => hvalid l (mem_cons_of_mem _ hl)
    intro l hl
    rcases mem_cons.mp hl with rfl | hl
    · have hinv := hchain.invariants hrest (by omega)
      have hnum := hchain.blockNum (by omega)
      exact (hstep.facts.invariant hinv.1 hinv.2 (by omega) (hvalid _ mem_cons_self)).2
    · exact ih hrest (by omega) l hl

/-- The producer of the genesis schedule announces a schedule of two producers, which
takes over one block later. -/
def scheduleChange : List BlockInputs :=
  [{}, { newProducers := some ⟨1, [⟨1, []⟩, ⟨2, []⟩]⟩ }, {}, { confirmed := 1 }]

theorem dposInvariant_of_scheduleChange : ∃ links tip,
    HeaderChain runPrimitives {} links tip ∧ links.length = 4 ∧ DposInvariant tip ∧
      ∀ l ∈ links, l.parent.dposProposedIrreversibleBlocknum ≤
        l.child.dposProposedIrreversibleBlocknum := by
  obtain ⟨links, tip, hchain, hvalid, hlength, _⟩ :=
    exists_run scheduleChange (fun _ => True) (by decide) (by decide +kernel)
  have hfour : links.length = 4 := hlength
  exact ⟨links, tip, hchain, hfour, dposInvariant_of_chain hchain hvalid (by omega)⟩

section Wraparound

variable {P : Primitives} {genesis : GenesisState} {s s' : BlockHeaderState} {key : ProducerKey}

theorem exists_extends_of_single (hactive : s.activeSchedule.producers = [key])
    (confirmed : Nat) (hwidth : confirmed < 2 ^ 16)
    (hcheck : ∀ last, s.producerToLastProduced.find? key.producerName = some last →
      last < subU32 (u32 (s.blockNum + 1)) confirmed)
    (newProducers : Option ProducerScheduleType)
    (hnew : ∀ schedule, newProducers = some schedule →
      s.pendingSchedule.schedule.producers = [] ∧
        schedule.version = u32 (s.activeSchedule.version + 1)) :
    ∃ s', Extends P s s' ∧ s'.header.producer = key.producerName ∧
      s'.header.confirmed = confirmed ∧ s'.header.newProducers = newProducers := by
  have hprokey : ∀ t : BlockTimestamp, s.getScheduledProducer t = some key := by
    intro t
    have hindex : t.slot % (1 * 12) / 12 = 0 := by omega
    simp [getScheduledProducer, hactive]
  refine exists_extends (i := { confirmed, newProducers })
    ⟨Nat.two_pow_pos 32, hwidth⟩ rfl (hprokey _) ?_ ?_ rfl
  · cases hfind : s.producerToLastProduced.find? key.producerName with
    | none => simp only [checkDoubleConfirm, hfind]
    | some last =>
      simp only [checkDoubleConfirm, hfind, eosAssert_eq_ok]
      exact hcheck last hfind
  · intro schedule hsome
    obtain ⟨hempty, hversion⟩ := hnew schedule hsome
    simp [PendingBlockHeaderState.checkNewProducers, nextPending, hempty,
      hversion, bind_eq_ok, eosAssert_eq_ok]

theorem StepFacts.single_window (h : StepFacts s s')
    (hactive : s.activeSchedule.producers = [key]) (hwindow : s.confirmCount = []) :
    s'.confirmCount = [] ∧ s'.dposProposedIrreversibleBlocknum = s'.blockNum := by
  have hstep := h.window
  have hlt : s'.blockNum < 2 ^ 32 := by
    rw [h.number]
    exact Nat.mod_lt _ (by omega)
  have hsub : subU32 s'.blockNum 0 = s'.blockNum := by
    rw [subU32_of_le (Nat.zero_le _) hlt, Nat.sub_zero]
  have hrequired : u8 (requiredConfs 1) = 1 := by decide
  have hcount : u8 (1 + 255) = 0 := by decide
  rw [hactive, hwindow] at hstep
  simpa [growConfirmCount, confirmBlocks, hrequired, hcount, hsub] using hstep

theorem calcDposLastIrreversible_single {producer : AccountName}
    (hkeys : s.producerToLastImpliedIrb.keys = [producer]) :
    s.calcDposLastIrreversible producer = s.dposProposedIrreversibleBlocknum := by
  obtain ⟨e, he⟩ := length_eq_one_iff.mp (show s.producerToLastImpliedIrb.entries.length = 1 by
      simpa [FlatMap.keys] using congrArg length hkeys)
  have hfst : e.1 = producer := by simpa [FlatMap.keys, he] using hkeys
  simp [calcDposLastIrreversible, he, hfst, nthElement]

/-- Block `n` of a chain that only the producer of the genesis schedule has extended. -/
structure SingleProducer (s : BlockHeaderState) (n : Nat) : Prop where
  number : s.blockNum = n
  active : ∃ key, s.activeSchedule.producers = [key] ∧
    key.producerName = config.systemAccountName
  produced : ∀ p, s.producerToLastProduced.find? p =
    if p = config.systemAccountName then some n else none
  implied : s.producerToLastImpliedIrb.keys = [config.systemAccountName]
  window : s.confirmCount = []
  proposed : s.dposProposedIrreversibleBlocknum = n

variable {n : Nat}

theorem SingleProducer.next (hs : SingleProducer s n) (hn : n + 1 < 2 ^ 32)
    (newProducers : Option ProducerScheduleType) (hnew : ∀ schedule, newProducers = some schedule →
      s.pendingSchedule.schedule.producers = [] ∧
        schedule.version = u32 (s.activeSchedule.version + 1)) :
    ∃ s', Extends P s s' ∧ s'.header.producer = config.systemAccountName ∧
      s'.header.newProducers = newProducers ∧ s'.dposIrreversibleBlocknum = n ∧
      s'.blockNum = n + 1 := by
  obtain ⟨key, hactive, hname⟩ := hs.active
  have hnumber : u32 (s.blockNum + 1) = n + 1 := by
    rw [hs.number]
    exact Nat.mod_eq_of_lt hn
  have hcheck : ∀ last, s.producerToLastProduced.find? key.producerName = some last →
      last < subU32 (u32 (s.blockNum + 1)) 0 := by
    intro last hlast
    rw [hs.produced, if_pos hname, Option.some.injEq] at hlast
    rw [hnumber, subU32_of_le (Nat.zero_le _) hn]
    omega
  obtain ⟨s', hstep, hproducer, _, hnewProducers⟩ :=
    exists_extends_of_single (P := P) hactive 0 (by omega) hcheck newProducers hnew
  refine ⟨s', hstep, hproducer.trans hname, hnewProducers, ?_, hstep.facts.number.trans hnumber⟩
  rw [hstep.facts.lib, hproducer, hname, calcDposLastIrreversible_single hs.implied, hs.proposed]

theorem SingleProducer.of_next (hs : SingleProducer s n) (h : StepFacts s s')
    (hproducer : s'.header.producer = config.systemAccountName) (hnumber : s'.blockNum = n + 1)
    (hpending : s.pendingSchedule.schedule.producers = []) : SingleProducer s' (n + 1) := by
  obtain ⟨key, hactive, hname⟩ := hs.active
  obtain ⟨hwindow, hproposed⟩ := h.single_window hactive hs.window
  cases h.handover with
  | promoted due _ _ _ _ => exact absurd hpending due.1
  | kept _ active produced implied _ =>
    refine ⟨hnumber, ⟨key, active ▸ hactive, hname⟩, ?_, ?_, hwindow, hnumber ▸ hproposed⟩
    · intro p
      rw [produced, find?_insert, hproducer, hs.produced, hnumber]
      by_cases hp : p = config.systemAccountName
      · simp [hp]
      · simp [hp, Ne.symm hp]
    · have hmem : s'.header.producer ∈ s.producerToLastImpliedIrb.keys := by
        rw [hs.implied, hproducer]
        exact mem_singleton_self _
      rw [implied, keys_insert_of_mem _ _ _ hmem, hs.implied]

variable (P genesis) in
theorem genesis_extends_single : ∃ s', Extends P (genesisHeaderState P genesis) s' ∧
    SingleProducer s' 2 ∧ s'.pendingSchedule.schedule.producers = [] ∧
    s'.header.newProducers = none := by
  obtain ⟨s', hstep, hproducer, _, hnew⟩ := exists_extends_of_single (P := P)
    (s := genesisHeaderState P genesis)
    (show _ = [(⟨config.systemAccountName, genesis.initialKey⟩ : ProducerKey)] from rfl) 0 (by omega) (fun last hlast => by cases hlast) none (fun _ h => by cases h)
  have hnumber : s'.blockNum = 2 := by
    rw [hstep.facts.number, genesis_blockNum]
    rfl
  obtain ⟨hwindow, hproposed⟩ := hstep.facts.single_window rfl rfl
  cases hstep.facts.handover with
  | kept notDue _ _ _ _ => exact absurd ⟨cons_ne_nil _ _, Nat.zero_le _⟩ notDue
  | promoted _ active produced implied cleared =>
    refine ⟨s', hstep, ⟨hnumber, ⟨_, by rw [active]; rfl, rfl⟩, ?_, ?_, hwindow,
      hnumber ▸ hproposed⟩, cleared, hnew⟩
    · intro p
      rw [produced, find?_insert, find?_carryOver, hproducer, hnumber]
      by_cases hp : p = config.systemAccountName
      · simp [hp]
      · have hp' : p ∉ (genesisHeaderState P genesis).pendingSchedule.schedule.producers.map
            ProducerKey.producerName := by
          simpa [genesisHeaderState] using hp
        simp [hp, Ne.symm hp, hp']
    · rw [implied, hproducer]
      simp [genesisHeaderState, carryOver, FlatMap.insert,
        insertEntry, FlatMap.keys, empty]

variable (P genesis) in
theorem exists_single_chain (n : Nat) (hn : n + 2 < 2 ^ 32) :
    ∃ links s, HeaderChain P genesis links s ∧ SchedulesValid links ∧
      SingleProducer s (n + 2) ∧ s.pendingSchedule.schedule.producers = [] := by
  induction n with
  | zero =>
    obtain ⟨s', hstep, hsingle, hpending, hnew⟩ :=
      genesis_extends_single P genesis
    refine ⟨_, s', .extend .genesis hstep, schedulesValid_cons.mpr ⟨?_, schedulesValid_nil⟩,
      hsingle, hpending⟩
    intro schedule hsome
    exact absurd (hnew.symm.trans hsome) nofun
  | succ n ih =>
    obtain ⟨links, s, hchain, hvalid, hsingle, hpending⟩ := ih (by omega)
    obtain ⟨s', hstep, hproducer, hnew, _, hnumber⟩ :=
      hsingle.next (P := P) (by omega) none (fun _ h => by cases h)
    refine ⟨_, s', .extend hchain hstep, schedulesValid_cons.mpr ⟨?_, hvalid⟩,
      hsingle.of_next hstep.facts hproducer hnumber hpending, ?_⟩
    · intro schedule hsome
      exact absurd (hnew.symm.trans hsome) nofun
    · cases hstep.facts.handover with
      | promoted due _ _ _ _ => exact absurd hpending due.1
      | kept _ _ _ _ pending =>
        rcases pending with ⟨_, hsame, _⟩ | ⟨_, hsome, _⟩
        · rw [hsame, hpending]
        · exact absurd (hnew.symm.trans hsome) nofun

/-- A schedule change just before the last block number lets the chain go on with block
number 0, which moves the proposed irreversible block back. -/
theorem exists_wraparound (P : Primitives) (genesis : GenesisState) :
    ∃ links tip, HeaderChain P genesis links tip ∧ SchedulesValid links ∧
      ∃ l ∈ links, l.child.dposProposedIrreversibleBlocknum <
        l.parent.dposProposedIrreversibleBlocknum := by
  obtain ⟨links, s, hchain, hvalid, hsingle, hpending⟩ :=
    exists_single_chain P genesis (2 ^ 32 - 5) (by omega)
  let schedule : ProducerScheduleType := ⟨u32 (s.activeSchedule.version + 1), [⟨1, []⟩]⟩
  -- the block that announces the schedule
  obtain ⟨s₁, hstep₁, hproducer₁, hnew₁, _, hnumber₁⟩ :=
    hsingle.next (P := P) (by omega) (some schedule)
      (fun schedule' h => by cases h; exact ⟨hpending, rfl⟩)
  have hsingle₁ := hsingle.of_next hstep₁.facts hproducer₁ hnumber₁ hpending
  have hpending₁ : s₁.pendingSchedule.schedule = schedule ∧
      s₁.pendingSchedule.scheduleLibNum = s₁.blockNum := by
    cases hstep₁.facts.handover with
    | promoted due _ _ _ _ => exact absurd hpending due.1
    | kept _ _ _ _ pending =>
      rcases pending with ⟨hnone, _⟩ | ⟨_, hsome, hlib, _⟩
      · exact absurd (hnew₁.symm.trans hnone) nofun
      · exact ⟨Option.some.inj (hsome.symm.trans hnew₁), hlib⟩
  -- the last block number, in which it is promoted
  obtain ⟨s₂, hstep₂, hproducer₂, hnew₂, hlib₂, hnumber₂⟩ :=
    hsingle₁.next (P := P) (by omega) none (fun _ h => by cases h)
  obtain ⟨key₁, hactive₁, _⟩ := hsingle₁.active
  obtain ⟨hwindow₂, hproposed₂⟩ := hstep₂.facts.single_window hactive₁ hsingle₁.window
  have hpromoted : s₂.activeSchedule.producers = [⟨1, []⟩] ∧
      s₂.producerToLastProduced.find? 1 = some (2 ^ 32 - 2) := by
    cases hstep₂.facts.handover with
    | kept notDue _ _ _ _ =>
      refine absurd ⟨?_, ?_⟩ notDue
      · rw [hpending₁.1]
        exact cons_ne_nil _ _
      · rw [hpending₁.2, hlib₂, hsingle₁.number]
    | promoted _ active produced _ _ =>
      refine ⟨by rw [active, hpending₁.1], ?_⟩
      have hother : config.systemAccountName ≠ 1 := by decide
      rw [produced, find?_insert, find?_carryOver, hproducer₂,
        if_neg hother, hpending₁.1, hsingle₁.produced, hlib₂]
      simp [schedule, hother.symm]
  -- block number 0
  obtain ⟨s₃, hstep₃, _, _, hnew₃⟩ := exists_extends_of_single (P := P) hpromoted.1 1 (by omega) (by
      intro last hlast
      rw [hpromoted.2, Option.some.injEq] at hlast
      rw [hnumber₂, ← hlast]
      decide)
    none (fun _ h => by cases h)
  have hproposed₃ := (hstep₃.facts.single_window hpromoted.1 hwindow₂).2
  refine ⟨_, s₃, .extend (.extend (.extend hchain hstep₁) hstep₂) hstep₃,
    schedulesValid_cons.mpr ⟨?_, schedulesValid_cons.mpr ⟨?_, schedulesValid_cons.mpr
      ⟨?_, hvalid⟩⟩⟩, ⟨s₂, s₃⟩, mem_cons_self, ?_⟩
  · intro schedule' hsome
    exact absurd (hnew₃.symm.trans hsome) nofun
  · intro schedule' hsome
    exact absurd (hnew₂.symm.trans hsome) nofun
  · intro schedule' hsome
    rw [← Option.some.inj (hnew₁.symm.trans hsome)]
    exact ⟨le_refl 1, show 1 ≤ 125 by omega, nodup_singleton _⟩
  · rw [hproposed₃, hproposed₂, hstep₃.facts.number, hnumber₂]
    decide

end Wraparound

/-- Once the 32-bit block numbers are used up the invariant is lost. -/
theorem dposInvariant_lost_after_wraparound :
    ¬ ∀ (P : Primitives) (genesis : GenesisState) (links : List Link) (tip : BlockHeaderState),
      HeaderChain P genesis links tip → SchedulesValid links →
        DposInvariant tip ∧
          ∀ l ∈ links, l.parent.dposProposedIrreversibleBlocknum ≤
            l.child.dposProposedIrreversibleBlocknum := by
  intro h
  obtain ⟨links, tip, hchain, hvalid, l, hl, hlt⟩ := exists_wraparound runPrimitives {}
  have hle := (h runPrimitives {} links tip hchain hvalid).2 l hl
  omega

end DreamChain
