import DreamChain.Chain.DposInvariant

/-!
When the last irreversible block moves forward. The block is an order statistic of the
implied irreversible blocks, so it stays in place or grows exactly when not more than a
third of the producers lag behind it. Adding a block to an unchanged schedule keeps that
count low; a promotion can replace the producers that voted by producers that lag.

`commit_block` and the order of the fork database take the monotone case for granted.
-/

namespace DreamChain
open Library List FlatMap

/-- The producers behind the last irreversible block when `producer` extends `s`, which
counts the producer itself with the proposed irreversible block. -/
def BlockHeaderState.laggards (s : BlockHeaderState) (producer : AccountName) : Nat :=
  s.producerToLastImpliedIrb.entries.countP fun i =>
    (if i.1 = producer then s.dposProposedIrreversibleBlocknum else i.2) <
      s.dposIrreversibleBlocknum

/-- Not more than the third of the producers that the selected position leaves out. -/
def BlockHeaderState.QuorumKept (s : BlockHeaderState) (producer : AccountName) : Prop :=
  s.laggards producer ≤ (s.producerToLastImpliedIrb.size - 1) / 3

instance (s : BlockHeaderState) (producer : AccountName) : Decidable (s.QuorumKept producer) :=
  inferInstanceAs (Decidable (_ ≤ _))

variable {s s' : BlockHeaderState} {P : Primitives} {genesis : GenesisState} {links : List Link}
  {tip : BlockHeaderState}

theorem le_calcDposLastIrreversible_iff (producer : AccountName)
    (hne : s.producerToLastImpliedIrb.entries ≠ []) (y : Nat) :
    y ≤ s.calcDposLastIrreversible producer ↔
      (s.producerToLastImpliedIrb.entries.countP fun i =>
        (if i.1 = producer then s.dposProposedIrreversibleBlocknum else i.2) < y) ≤
          (s.producerToLastImpliedIrb.size - 1) / 3 := by
  have hpos : 0 < s.producerToLastImpliedIrb.entries.length := length_pos_of_ne_nil hne
  have hlen : ∀ f : AccountName × Nat → Nat,
      (s.producerToLastImpliedIrb.entries.map f).length ≠ 0 := by
    intro f
    rw [length_map]
    omega
  simp only [BlockHeaderState.calcDposLastIrreversible, hlen, if_false]
  obtain ⟨x, hx⟩ := nthElement_isSome (l := s.producerToLastImpliedIrb.entries.map fun i =>
    if i.1 = producer then s.dposProposedIrreversibleBlocknum else i.2)
    (k := ((s.producerToLastImpliedIrb.entries.map fun i =>
      if i.1 = producer then s.dposProposedIrreversibleBlocknum else i.2).length - 1) / 3)
    (by rw [length_map]; omega)
  rw [hx, Option.getD_some, le_nthElement_iff hx, countP_map, length_map]
  rfl

theorem entries_ne_nil_of_mem_keys {m : FlatMap AccountName Nat} {p : AccountName}
    (h : p ∈ m.keys) : m.entries ≠ [] := by
  intro hnil
  rw [FlatMap.keys, hnil] at h
  cases h

theorem Handover.implied_ne_nil (h : Handover s s') : s'.producerToLastImpliedIrb.entries ≠ [] := by
  cases h with
  | promoted due _ _ implied _ =>
    obtain ⟨key, hkey⟩ := exists_mem_of_ne_nil _ due.1
    apply entries_ne_nil_of_mem_keys (p := key.producerName)
    rw [implied, BlockHeaderState.mem_keys_carryOver]
    exact mem_map_of_mem hkey
  | kept _ _ _ implied _ =>
    apply entries_ne_nil_of_mem_keys (p := s'.header.producer)
    rw [implied, mem_keys_insert]
    exact .inl rfl

theorem HeaderChain.tracked (h : HeaderChain P genesis links tip) :
    tip = genesisHeaderState P genesis ∨ tip.producerToLastImpliedIrb.entries ≠ [] := by
  cases h with
  | genesis => exact .inl rfl
  | extend _ hstep => exact .inr hstep.facts.handover.implied_ne_nil

theorem HeaderChain.step_lib_iff (h : HeaderChain P genesis links s) (hstep : StepFacts s s') :
    s.dposIrreversibleBlocknum ≤ s'.dposIrreversibleBlocknum ↔
      s.QuorumKept s'.header.producer := by
  rw [hstep.lib]
  rcases h.tracked with rfl | hne
  · exact iff_of_true (Nat.zero_le _) (Nat.zero_le _)
  · exact le_calcDposLastIrreversible_iff _ hne _

/-- Along a chain the last irreversible block never moves back if and only if no block is
added while more than a third of the producers lag behind it. -/
theorem lib_monotone_iff {P : Primitives} {genesis : GenesisState} {links : List Link}
    {tip : BlockHeaderState} (h : HeaderChain P genesis links tip) :
    (∀ l ∈ links, l.parent.dposIrreversibleBlocknum ≤ l.child.dposIrreversibleBlocknum) ↔
      ∀ l ∈ links, l.parent.QuorumKept l.producer := by
  induction h with
  | genesis => exact iff_of_true (fun l hl => by cases hl) (fun l hl => by cases hl)
  | extend hchain hstep ih =>
    rw [forall_mem_cons, forall_mem_cons, ih, hchain.step_lib_iff hstep.facts]
    rfl

/-- A block under an unchanged schedule leaves a quorum behind, whoever comes next. Only a
promotion can lose it. -/
theorem quorumKept_of_kept (h : StepFacts s s') (hd : DposInvariant s) (hs : ScheduleInvariant s)
    (hfit : s.blockNum + 1 < 2 ^ 32)
    (hnew : ∀ newProducers, s'.header.newProducers = some newProducers → newProducers.Valid)
    (hsecond : 2 ≤ s.blockNum) (hkept : ¬ s.Promotes s'.dposIrreversibleBlocknum)
    (producer : AccountName) : s'.QuorumKept producer := by
  obtain ⟨⟨hd', _⟩, hproposed⟩ := h.invariant hd hs hfit hnew
  have hle : s'.dposIrreversibleBlocknum ≤ s'.dposProposedIrreversibleBlocknum := hd'.lib
  cases h.handover with
  | promoted due _ _ _ _ => exact absurd due hkept
  | kept _ _ _ implied _ =>
    have hmem : s'.header.producer ∈ s.producerToLastImpliedIrb.keys :=
      (hd.keys hsecond _).mpr h.scheduled
    have hquorum := (le_calcDposLastIrreversible_iff s'.header.producer
      (entries_ne_nil_of_mem_keys hmem) s'.dposIrreversibleBlocknum).mp h.lib.le
    have hsize : s'.producerToLastImpliedIrb.size = s.producerToLastImpliedIrb.size := by
      rw [implied, size, entries_insert_of_mem _ _ _ hmem, length_map]
      rfl
    rw [BlockHeaderState.QuorumKept, BlockHeaderState.laggards, hsize, implied,
      entries_insert_of_mem _ _ _ hmem, countP_map]
    refine le_trans (countP_mono_left ?_) hquorum
    intro i _ hi
    simp only [Function.comp, decide_eq_true_eq] at hi ⊢
    by_cases hp : i.1 = s'.header.producer
    · simp only [hp, if_true] at hi ⊢
      split at hi
      · omega
      · exact hi
    · simp only [hp, if_false] at hi ⊢
      split at hi
      · omega
      · exact hi

/-- A block added without a quorum follows a promotion. -/
theorem promotes_of_not_quorumKept (h : HeaderChain P genesis links tip)
    (hvalid : SchedulesValid links) (hfit : links.length + 1 < 2 ^ 32) (producer : AccountName)
    (hlost : ¬ tip.QuorumKept producer) :
    ∃ l ∈ links, l.child = tip ∧ l.parent.Promotes tip.dposIrreversibleBlocknum := by
  cases h with
  | genesis => exact absurd (Nat.zero_le _) hlost
  | @extend links s _ hchain hstep =>
    refine ⟨_, mem_cons_self, rfl, ?_⟩
    rw [length_cons] at hfit
    obtain ⟨hnew, hrest⟩ := schedulesValid_cons.mp hvalid
    obtain ⟨hd, hs⟩ := hchain.invariants hrest (by omega)
    have hnum := hchain.blockNum (by omega)
    by_contra hkept
    cases hchain with
    | genesis => exact hkept ⟨cons_ne_nil _ _, Nat.zero_le _⟩
    | extend _ _ =>
      rw [length_cons] at hnum hfit
      exact hlost (quorumKept_of_kept hstep.facts hd hs (by omega) hnew (by omega) hkept producer)

/-- The last irreversible block moves back only right after a promotion. -/
theorem promotes_of_lib_lt (h : HeaderChain P genesis links tip) (hvalid : SchedulesValid links)
    (hfit : links.length < 2 ^ 32) : ∀ l ∈ links,
      l.child.dposIrreversibleBlocknum < l.parent.dposIrreversibleBlocknum →
      ∃ l' ∈ links, l'.child = l.parent ∧ l'.parent.Promotes l.parent.dposIrreversibleBlocknum := by
  induction h with
  | genesis =>
    intro l hl
    cases hl
  | extend hchain hstep ih =>
    obtain ⟨-, hrest⟩ := schedulesValid_cons.mp hvalid
    rw [length_cons] at hfit
    intro l hl hlt
    cases hl with
    | head =>
      have hlost := (hchain.step_lib_iff hstep.facts).not.mp (Nat.not_le.mpr hlt)
      obtain ⟨l', hl', hfound⟩ := promotes_of_not_quorumKept hchain hrest (by omega) _ hlost
      exact ⟨l', mem_cons_of_mem _ hl', hfound⟩
    | tail _ hl =>
      obtain ⟨l', hl', hfound⟩ := ih hrest (by omega) l hl hlt
      exact ⟨l', mem_cons_of_mem _ hl', hfound⟩

/-- Producers 1 to 4 take over from the genesis producer. Producer 1 never produces, and
the schedule that follows keeps it together with producer 2 only. -/
def laggardKept : List BlockInputs :=
  [{}, { newProducers := some ⟨1, [⟨1, []⟩, ⟨2, []⟩, ⟨3, []⟩, ⟨4, []⟩]⟩ }, {},
    { when := ⟨12⟩, newProducers := some ⟨2, [⟨1, []⟩, ⟨2, []⟩]⟩ },
    { when := ⟨24⟩, confirmed := 1 }, { when := ⟨36⟩, confirmed := 2 },
    { when := ⟨60⟩, confirmed := 2 }, { when := ⟨72⟩, confirmed := 2 },
    { when := ⟨84⟩, confirmed := 2 }, { when := ⟨108⟩ }]

/-- The last irreversible block falls from 5 to 3. -/
theorem laggardKept_lib : ¬ ∀ (links : List Link) (tip : BlockHeaderState),
    HeaderChain runPrimitives {} links tip → SchedulesValid links →
      ∀ l ∈ links, l.parent.dposIrreversibleBlocknum ≤ l.child.dposIrreversibleBlocknum := by
  intro h
  obtain ⟨links, tip, hchain, hvalid, _, l, hl, hparent, hchild⟩ := exists_run laggardKept
    (fun links => ∃ l ∈ links,
      l.parent.dposIrreversibleBlocknum = 5 ∧ l.child.dposIrreversibleBlocknum = 3)
    (by decide) (by decide +kernel)
  have hle := h links tip hchain hvalid l hl
  omega

theorem lib_monotone_iff_laggardKept : ∃ links tip, HeaderChain runPrimitives {} links tip ∧
    ((∀ l ∈ links, l.parent.dposIrreversibleBlocknum ≤ l.child.dposIrreversibleBlocknum) ↔
      ∀ l ∈ links, l.parent.QuorumKept l.producer) := by
  obtain ⟨links, tip, hchain, _⟩ :=
    exists_run laggardKept (fun _ => True) (by decide) (by decide +kernel)
  exact ⟨links, tip, hchain, lib_monotone_iff hchain⟩

theorem promotes_laggardKept : ∃ links tip, HeaderChain runPrimitives {} links tip ∧
    ∃ l ∈ links, l.parent.Promotes 5 := by
  obtain ⟨links, tip, hchain, hvalid, hlength, l, hl, hfive, hlt⟩ := exists_run laggardKept
    (fun links => ∃ l ∈ links, l.parent.dposIrreversibleBlocknum = 5 ∧
      l.child.dposIrreversibleBlocknum < 5) (by decide) (by decide +kernel)
  rw [← hfive] at hlt
  obtain ⟨l', hl', -, hpromotes⟩ :=
    promotes_of_lib_lt hchain hvalid (by rw [hlength]; decide) l hl hlt
  exact ⟨links, tip, hchain, l', hl', hfive ▸ hpromotes⟩

end DreamChain
