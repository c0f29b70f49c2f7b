import DreamChain.Chain.DposInvariant

/-!
No producer confirms a block number twice. The check of the source compares one recorded
number with a 32-bit difference, so it says what it is meant to say as long as a block
does not confirm more blocks than its own number; beyond that the difference wraps around
and the check accepts almost everything.

The record of a producer survives a schedule change it stays in. A producer that comes
back later starts at the last irreversible block of the promotion, which lies above every
block it produced before it left.
-/

namespace DreamChain
open Library List FlatMap

/-- Two blocks of one producer confirm disjoint ranges; the list is newest first. -/
def NoDoubleConfirm (links : List Link) : Prop :=
  links.Pairwise fun later earlier => later.producer = earlier.producer →
    (earlier.number : Int) < (later.number : Int) - (later.confirmed : Int)

instance (links : List Link) : Decidable (NoDoubleConfirm links) :=
  inferInstanceAs (Decidable (List.Pairwise _ _))

structure ProducedRecord (links : List Link) (s : BlockHeaderState) : Prop where
  numbers : ∀ l ∈ links, l.number ≤ s.blockNum
  recorded : ∀ p v, s.producerToLastProduced.find? p = some v →
    ∀ l ∈ links, l.producer = p → l.number ≤ v
  /-- A producer that left the schedule did so before the pending schedule was set. -/
  retired : s.pendingSchedule.schedule.producers ≠ [] →
    ∀ l ∈ links, l.producer ∉ s.producerToLastProduced.keys →
      l.number < s.pendingSchedule.scheduleLibNum

variable {s s' : BlockHeaderState}

theorem StepFacts.recorded {links : List Link} (h : StepFacts s s') (hrec : ProducedRecord links s)
    (p : AccountName) (v : Nat) (hv : s'.producerToLastProduced.find? p = some v)
    (hp : p ≠ s'.header.producer) : ∀ l ∈ links, l.producer = p → l.number ≤ v := by
  intro l hl hlp
  cases h.handover with
  | kept _ _ produced _ _ =>
    rw [produced, find?_insert_of_ne _ _ hp.symm] at hv
    exact hrec.recorded p v hv l hl hlp
  | promoted due _ produced _ _ =>
    rw [produced, find?_insert_of_ne _ _ hp.symm, BlockHeaderState.find?_carryOver] at hv
    split at hv
    · cases hold : s.producerToLastProduced.find? p with
      | some w =>
        have hw : w = v := by simpa [hold] using hv
        exact hw ▸ hrec.recorded p w hold l hl hlp
      | none =>
        have hlib : s'.dposIrreversibleBlocknum = v := by simpa [hold] using hv
        have hretired := hrec.retired due.1 l hl
          (by rw [hlp]; exact (find?_eq_none_iff _ _).mp hold)
        have hdue := due.2
        omega
    · cases hv

theorem StepFacts.mem_produced (h : StepFacts s s') :
    s'.header.producer ∈ s'.producerToLastProduced.keys := by
  cases h.handover with
  | kept _ _ produced _ _ | promoted _ _ produced _ _ =>
    rw [produced, mem_keys_insert]
    exact .inl rfl

theorem ProducedRecord.step {links : List Link} (hrec : ProducedRecord links s) (h : StepFacts s s')
    (hfit : s.blockNum + 1 < 2 ^ 32) : ProducedRecord (⟨s, s'⟩ :: links) s' := by
  have hnumber : s'.blockNum = s.blockNum + 1 := h.number.trans (Nat.mod_eq_of_lt hfit)
  have hnumbers : ∀ l ∈ (⟨s, s'⟩ : Link) :: links, l.number ≤ s'.blockNum := by
    refine forall_mem_cons.mpr ⟨le_rfl, ?_⟩
    intro l hl
    have := hrec.numbers l hl
    omega
  refine ⟨hnumbers, ?_, ?_⟩
  · intro p v hv l hl hlp
    by_cases hp : p = s'.header.producer
    · have hown : v = s'.blockNum := by
        cases h.handover with
        | kept _ _ produced _ _ | promoted _ _ produced _ _ => simpa [produced, hp] using hv.symm
      exact hown ▸ hnumbers l hl
    · cases hl with
      | head => exact absurd hlp.symm hp
      | tail _ hl => exact h.recorded hrec p v hv hp l hl hlp
  · intro hne l hl hmissing
    cases hl with
    | head => exact absurd h.mem_produced hmissing
    | tail _ hl =>
      cases h.handover with
      | promoted _ _ _ _ cleared => exact absurd cleared hne
      | kept _ _ produced _ pending =>
        rw [produced, mem_keys_insert, not_or] at hmissing
        rcases pending with ⟨_, hsame, hlib⟩ | ⟨_, _, hlib, _⟩
        · rw [hlib]
          exact hrec.retired (hsame ▸ hne) l hl hmissing.2
        · have := hrec.numbers l hl
          omega

variable {P : Primitives} {genesis : GenesisState} {links : List Link} {tip : BlockHeaderState}

theorem HeaderChain.producedRecord (h : HeaderChain P genesis links tip)
    (hfit : links.length + 1 < 2 ^ 32) : ProducedRecord links tip := by
  induction h with
  | genesis =>
    refine ⟨?_, ?_, ?_⟩
    · intro l hl
      cases hl
    · intro p v _ l hl
      cases hl
    · intro _ l hl
      cases hl
  | extend hchain hstep ih =>
    rw [length_cons] at hfit
    have hnum := hchain.blockNum (by omega)
    exact (ih (by omega)).step hstep.facts (by omega)

theorem HeaderChain.active_tracked (h : HeaderChain P genesis links tip) (hne : links ≠ []) :
    ∀ p ∈ tip.activeSchedule.names, p ∈ tip.producerToLastProduced.keys := by
  induction h with
  | genesis => exact absurd rfl hne
  | extend hchain hstep ih =>
    intro p hp
    cases hstep.facts.handover with
    | promoted _ active produced _ _ =>
      rw [active] at hp
      rw [produced, mem_keys_insert, BlockHeaderState.mem_keys_carryOver]
      exact .inr hp
    | kept notDue active produced _ _ =>
      rw [active] at hp
      rw [produced, mem_keys_insert]
      refine .inr (ih ?_ p hp)
      rintro rfl
      cases hchain
      exact notDue ⟨cons_ne_nil _ _, Nat.zero_le _⟩

/-- The step of the result: a block that does not confirm more than its number confirms
only blocks above the earlier ones of its producer. -/
theorem HeaderChain.unconfirmed (h : HeaderChain P genesis links s) (hstep : StepFacts s s')
    (hfit : s.blockNum + 1 < 2 ^ 32) (hrange : s'.header.confirmed ≤ s'.blockNum)
    (hrec : ProducedRecord links s) : ∀ l ∈ links, s'.header.producer = l.producer →
      (l.number : Int) < (s'.blockNum : Int) - (s'.header.confirmed : Int) := by
  intro l hl hproducer
  have hnumber : s'.blockNum = s.blockNum + 1 := hstep.number.trans (Nat.mod_eq_of_lt hfit)
  have htracked := h.active_tracked (ne_nil_of_mem hl) _ hstep.scheduled
  obtain ⟨v, hv⟩ := (mem_keys_iff _ _).mp htracked
  have hle : l.number ≤ v := hrec.recorded _ v hv l hl hproducer.symm
  have hlt := hstep.unconfirmed v hv
  rw [subU32_of_le hrange (by omega)] at hlt
  omega

/-- As long as the block numbers fit, the check does its work exactly on the chains where
no producer of an earlier block confirms more blocks than its number. -/
theorem noDoubleConfirm_iff (h : HeaderChain P genesis links tip)
    (hfit : links.length + 1 < 2 ^ 32) : NoDoubleConfirm links ↔
      links.Pairwise fun later earlier => later.producer = earlier.producer →
        later.confirmed ≤ later.number := by
  constructor
  · intro hall
    refine hall.imp ?_
    intro later earlier hpair hproducer
    have := hpair hproducer
    omega
  · intro hrange
    induction h with
    | genesis => exact List.Pairwise.nil
    | @extend links s s' hchain hstep ih =>
      rw [length_cons] at hfit
      rw [pairwise_cons] at hrange
      have hnum := hchain.blockNum (by omega)
      refine pairwise_cons.mpr ⟨?_, ih (by omega) hrange.2⟩
      intro l hl hproducer
      exact hchain.unconfirmed hstep.facts (by omega) (hrange.1 l hl hproducer)
        (hchain.producedRecord (by omega)) l hl hproducer

/-- The blocks for which the check compares with a recorded number confirm no more blocks
than their own number, so that its difference does not wrap around. -/
def ConfirmsInRange (links : List Link) : Prop :=
  ∀ l ∈ links, l.producer ∈ l.parent.producerToLastProduced.keys → l.confirmed ≤ l.number

instance (links : List Link) : Decidable (ConfirmsInRange links) :=
  inferInstanceAs (Decidable (∀ l ∈ links, _ → _))

theorem HeaderChain.length_of_inRange (h : HeaderChain P genesis links tip)
    (hrange : ConfirmsInRange links) : links.length + 1 < 2 ^ 32 := by
  induction h with
  | genesis => exact Nat.one_lt_two_pow (by omega)
  | @extend links s s' hchain hstep ih =>
    obtain ⟨hrange', hrest⟩ := forall_mem_cons.mp hrange
    have hlt := ih hrest
    have hnum := hchain.blockNum hlt
    rw [length_cons]
    by_contra hge
    have hzero : s'.blockNum = 0 := by
      rw [hstep.facts.number, hnum, show links.length + 1 + 1 = 2 ^ 32 by omega]
      exact Nat.mod_self _
    have hne : links ≠ [] := by
      rintro rfl
      rw [length_nil] at hge
      omega
    have htracked := hchain.active_tracked hne _ hstep.facts.scheduled
    have hconfirmed : s'.header.confirmed ≤ s'.blockNum := hrange' htracked
    obtain ⟨v, hv⟩ := (mem_keys_iff _ _).mp htracked
    have hlast := hstep.facts.unconfirmed v hv
    rw [subU32_of_le hconfirmed (by omega)] at hlast
    omega

theorem HeaderChain.noDoubleConfirm (h : HeaderChain P genesis links tip)
    (hrange : ConfirmsInRange links) : NoDoubleConfirm links := by
  have hfit := h.length_of_inRange hrange
  rw [noDoubleConfirm_iff h hfit]
  induction h with
  | genesis => exact List.Pairwise.nil
  | extend hchain hstep ih =>
    rw [length_cons] at hfit
    obtain ⟨hrange', hrest⟩ := forall_mem_cons.mp hrange
    refine pairwise_cons.mpr ⟨?_, ih hrest (by omega)⟩
    intro l hl _
    exact hrange' (hchain.active_tracked (ne_nil_of_mem hl) _ hstep.facts.scheduled)

/-- On every chain whose blocks stay in range no producer confirms a block twice. While the
block numbers fit, a repeated confirmation is exactly a block beyond that range whose
producer was there before. -/
theorem doubleConfirm_excluded (h : HeaderChain P genesis links tip) :
    (ConfirmsInRange links → NoDoubleConfirm links) ∧
      (links.length + 1 < 2 ^ 32 →
        (NoDoubleConfirm links ↔
          links.Pairwise fun later earlier => later.producer = earlier.producer →
            later.confirmed ≤ later.number)) :=
  ⟨h.noDoubleConfirm, noDoubleConfirm_iff h⟩

theorem doubleConfirm_scheduleChange : ∃ links tip,
    HeaderChain runPrimitives {} links tip ∧ links.length = 4 ∧ NoDoubleConfirm links := by
  obtain ⟨links, tip, hchain, _, hlength, hrange⟩ := exists_run scheduleChange
    ConfirmsInRange (by decide) (by decide +kernel)
  exact ⟨links, tip, hchain, hlength, (doubleConfirm_excluded hchain).1 hrange⟩

/-- The second block confirms four blocks, one more than its own number. -/
def confirmsTooMany : List BlockInputs := [{}, { confirmed := 4 }]

theorem confirmsTooMany_accepted : ¬ ∀ (links : List Link) (tip : BlockHeaderState),
    HeaderChain runPrimitives {} links tip → NoDoubleConfirm links := by
  intro h
  obtain ⟨links, tip, hchain, _, _, hdouble⟩ := exists_run confirmsTooMany
    (¬ NoDoubleConfirm ·) (by decide) (by decide +kernel)
  exact hdouble (h links tip hchain)

end DreamChain
