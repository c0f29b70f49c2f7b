import DreamChain.Chain.DoubleConfirm
import DreamChain.Chain.Finality

/-!
What stands behind the two finality numbers. The counters of the confirmation window are
anonymous; that each decrement comes from another producer is recovered from the ranges
that the blocks of one producer confirm, which are disjoint. A proposed irreversible block
is therefore backed by the confirmations its schedule requires, and a new last irreversible
block by producers that saw it proposed.

Both results count blocks of the chain itself; nothing is assumed about the producers.
-/

namespace DreamChain
open Library List FlatMap

namespace Link

def Covers (l : Link) (b : Nat) : Prop := l.number ≤ b + l.confirmed ∧ b ≤ l.number

instance (l : Link) (b : Nat) : Decidable (l.Covers b) := inferInstanceAs (Decidable (_ ∧ _))

end Link

/-- The producers that confirm the block number `b` on a chain. -/
def confirmers (links : List Link) (b : Nat) : Finset AccountName :=
  ((links.filter fun l => l.Covers b).map Link.producer).toFinset

def impliers (links : List Link) (schedule : ProducerScheduleType) (lib : Nat) :
    Finset AccountName :=
  schedule.names.toFinset.filter fun p =>
    ∃ l ∈ links, l.producer = p ∧ lib ≤ l.parent.dposProposedIrreversibleBlocknum

variable {b missing : Nat} {l : Link} {links : List Link}

theorem mem_confirmers {p : AccountName} :
    p ∈ confirmers links b ↔ ∃ l ∈ links, l.Covers b ∧ l.producer = p := by
  simp only [confirmers, mem_toFinset, mem_map, mem_filter, decide_eq_true_eq,
    and_assoc]

theorem card_confirmers_le_cons (l : Link) (links : List Link) (b : Nat) :
    (confirmers links b).card ≤ (confirmers (l :: links) b).card := by
  apply Finset.card_le_card
  intro p hp
  obtain ⟨m, hm, hcovers, hproducer⟩ := mem_confirmers.mp hp
  exact mem_confirmers.mpr ⟨m, mem_cons_of_mem _ hm, hcovers, hproducer⟩

theorem card_confirmers_cons (hcovers : l.Covers b) (hdisjoint : NoDoubleConfirm (l :: links)) :
    (confirmers links b).card + 1 ≤ (confirmers (l :: links) b).card := by
  have hnew : l.producer ∉ confirmers links b := by
    intro hmem
    obtain ⟨m, hm, hm_covers, hproducer⟩ := mem_confirmers.mp hmem
    have hlt := (pairwise_cons.mp hdisjoint).1 m hm hproducer.symm
    have hlow := hcovers.1
    have hhigh := hm_covers.2
    omega
  rw [← Finset.card_insert_of_notMem hnew]
  apply Finset.card_le_card
  intro p hp
  rcases Finset.mem_insert.mp hp with rfl | hp
  · exact mem_confirmers.mpr ⟨l, mem_cons_self, hcovers, rfl⟩
  · obtain ⟨m, hm, hm_covers, hproducer⟩ := mem_confirmers.mp hp
    exact mem_confirmers.mpr ⟨m, mem_cons_of_mem _ hm, hm_covers, hproducer⟩

/-- Block `b` of the chain has all but `missing` of the confirmations its schedule asks for. -/
def Backed (links : List Link) (b missing : Nat) : Prop :=
  ∃ l ∈ links, l.number = b ∧
    requiredConfs l.parent.activeSchedule.producers.length ≤
      missing + (confirmers links b).card

theorem Backed.cons (h : Backed links b missing) (l : Link) : Backed (l :: links) b missing := by
  obtain ⟨m, hm, hnumber, hrequired⟩ := h
  have hle := card_confirmers_le_cons l links b
  exact ⟨m, mem_cons_of_mem _ hm, hnumber, by omega⟩

theorem Backed.confirm (h : Backed links b (missing + 1)) (hcovers : l.Covers b)
    (hdisjoint : NoDoubleConfirm (l :: links)) : Backed (l :: links) b missing := by
  obtain ⟨m, hm, hnumber, hrequired⟩ := h
  have hcard := card_confirmers_cons hcovers hdisjoint
  exact ⟨m, mem_cons_of_mem _ hm, hnumber, by omega⟩

theorem Backed.self (l : Link)
    (h : requiredConfs l.parent.activeSchedule.producers.length ≤ missing + 1) :
    Backed (l :: links) l.number missing := by
  have hmem : l.producer ∈ confirmers (l :: links) l.number :=
    mem_confirmers.mpr ⟨l, mem_cons_self, ⟨Nat.le_add_right _ _, le_rfl⟩, rfl⟩
  have hcard := Finset.card_pos.mpr ⟨_, hmem⟩
  exact ⟨l, mem_cons_self, rfl, by omega⟩

/-- The counters are what is missing to a quorum of confirmers. -/
def WindowBacked (links : List Link) (s : BlockHeaderState) : Prop :=
  ∀ j x, s.confirmCount.reverse[j]? = some x → Backed links (s.blockNum - j) x

section Step

variable {s s' : BlockHeaderState} {links : List Link}

theorem WindowBacked.step (h : WindowBacked links s) (hwin : WindowStep s s')
    (hnumber : s'.blockNum = s.blockNum + 1) (hdisjoint : NoDoubleConfirm (⟨s, s'⟩ :: links)) :
    WindowBacked (⟨s, s'⟩ :: links) s' := by
  intro j x hx
  obtain ⟨_, ⟨rfl, hrequired⟩ | ⟨k, rfl, hold⟩⟩ := hwin.entry j x hx
  · exact Backed.self ⟨s, s'⟩ hrequired.le
  · have hblock : s'.blockNum - (k + 1) = s.blockNum - k := by omega
    rw [hblock]
    rcases hold with ⟨hcovered, hget⟩ | ⟨_, hget⟩
    · refine (h k (x + 1) hget).confirm ⟨?_, ?_⟩ hdisjoint
      · show s'.blockNum ≤ s.blockNum - k + s'.header.confirmed
        omega
      · show s.blockNum - k ≤ s'.blockNum
        omega
    · exact (h k x hget).cons _

theorem WindowBacked.proposed (h : WindowBacked links s) (hwin : WindowStep s s')
    (hnumber : s'.blockNum = s.blockNum + 1) (hfit : s'.blockNum < 2 ^ 32)
    (hsize : s.confirmCount.length ≤ s.blockNum) (hdisjoint : NoDoubleConfirm (⟨s, s'⟩ :: links))
    (hgrows : s.dposProposedIrreversibleBlocknum < s'.dposProposedIrreversibleBlocknum) :
    Backed (⟨s, s'⟩ :: links) s'.dposProposedIrreversibleBlocknum 0 := by
  rcases hwin.outcome with ⟨hsame, _, _⟩ | ⟨distance, hconfirmed, hproposed, _, hentry⟩
  · omega
  · rcases hentry with ⟨rfl, hrequired⟩ | ⟨k, rfl, hget⟩
    · rw [hproposed, subU32_of_le (Nat.zero_le _) hfit]
      exact Backed.self ⟨s, s'⟩ hrequired.le
    · have hk := (List.getElem?_eq_some_iff.mp hget).1
      rw [List.length_reverse] at hk
      have hblock : s'.dposProposedIrreversibleBlocknum = s.blockNum - k := by
        rw [hproposed, subU32_of_le (by omega) hfit]
        omega
      rw [hblock]
      refine (h k 1 hget).confirm ⟨?_, ?_⟩ hdisjoint
      · show s'.blockNum ≤ s.blockNum - k + s'.header.confirmed
        omega
      · show s.blockNum - k ≤ s'.blockNum
        omega

end Step

def ImpliedBacked (links : List Link) (s : BlockHeaderState) : Prop :=
  ∀ p v, s.producerToLastImpliedIrb.find? p = some v →
    (∃ l ∈ links, l.producer = p ∧ v ≤ l.parent.dposProposedIrreversibleBlocknum) ∨
      ∃ l ∈ links, v ≤ l.child.dposIrreversibleBlocknum

theorem ImpliedBacked.step {s s' : BlockHeaderState}
    (h : ImpliedBacked links s) (hstep : StepFacts s s') : ImpliedBacked (⟨s, s'⟩ :: links) s' := by
  intro p v hv
  rcases hstep.handover.implied_origin hv with hold | ⟨hown, hproposed⟩ | hlib
  · rcases h p v hold with ⟨l, hl, hcase⟩ | ⟨l, hl, hcase⟩
    · exact .inl ⟨l, mem_cons_of_mem _ hl, hcase⟩
    · exact .inr ⟨l, mem_cons_of_mem _ hl, hcase⟩
  · exact .inl ⟨_, mem_cons_self, hown.symm, hproposed.le⟩
  · exact .inr ⟨_, mem_cons_self, hlib.le⟩

variable {P : Primitives} {genesis : GenesisState} {links : List Link} {tip : BlockHeaderState}

theorem HeaderChain.impliedBacked (h : HeaderChain P genesis links tip) :
    ImpliedBacked links tip := by
  induction h with
  | genesis =>
    intro p v hv
    cases hv
  | extend _ hstep ih => exact ih.step hstep.facts

/-- No block confirms as many blocks as its own number. -/
def ConfirmsBelowHeight (links : List Link) : Prop := ∀ l ∈ links, l.confirmed + 1 ≤ l.number

instance (links : List Link) : Decidable (ConfirmsBelowHeight links) :=
  inferInstanceAs (Decidable (∀ l ∈ links, _))

theorem ConfirmsBelowHeight.inRange (h : ConfirmsBelowHeight links) : ConfirmsInRange links := by
  intro l hl _
  have := h l hl
  omega

theorem HeaderChain.windowBacked (h : HeaderChain P genesis links tip)
    (hvalid : SchedulesValid links) (hheight : ConfirmsBelowHeight links) :
    WindowBacked links tip := by
  have hfit := h.length_of_inRange hheight.inRange
  have hdisjoint := h.noDoubleConfirm hheight.inRange
  induction h with
  | genesis =>
    intro j x hx
    cases hx
  | extend hchain hstep ih =>
    rw [length_cons] at hfit
    obtain ⟨_, hrest⟩ := schedulesValid_cons.mp hvalid
    obtain ⟨hd, hs⟩ := hchain.invariants hrest (by omega)
    have hnum := hchain.blockNum (by omega)
    have hbacked := ih hrest (forall_mem_cons.mp hheight).2 (by omega)
      (pairwise_cons.mp hdisjoint).2
    exact hbacked.step (hstep.facts.windowStep_of_invariant hd hs)
      (hstep.facts.number.trans (Nat.mod_eq_of_lt (by omega))) hdisjoint

theorem proposed_backed {s s' : BlockHeaderState} (h : HeaderChain P genesis links s)
    (hstep : Extends P s s') (hvalid : SchedulesValid links)
    (hheight : ConfirmsBelowHeight (⟨s, s'⟩ :: links))
    (hgrows : s.dposProposedIrreversibleBlocknum < s'.dposProposedIrreversibleBlocknum) :
    Backed (⟨s, s'⟩ :: links) s'.dposProposedIrreversibleBlocknum 0 := by
  have hchain : HeaderChain P genesis (⟨s, s'⟩ :: links) s' := .extend h hstep
  have hfit := hchain.length_of_inRange hheight.inRange
  rw [length_cons] at hfit
  obtain ⟨hd, hs⟩ := h.invariants hvalid (by omega)
  have hnum := h.blockNum (by omega)
  have hwindow := hd.window
  have hnumber := hstep.facts.number.trans (Nat.mod_eq_of_lt (by omega))
  exact (h.windowBacked hvalid (forall_mem_cons.mp hheight).2).proposed
    (hstep.facts.windowStep_of_invariant hd hs) hnumber (by omega) (by omega)
    (hchain.noDoubleConfirm hheight.inRange) hgrows

theorem countP_entries_le_card {m : FlatMap AccountName Nat} (c : AccountName × Nat → Bool)
    (names : Finset AccountName) (h : ∀ e ∈ m.entries, c e = true → e.1 ∈ names) :
    m.entries.countP c ≤ names.card := by
  have hnodup : ((m.entries.filter c).map Prod.fst).Nodup :=
    m.keys_nodup.sublist (filter_sublist.map _)
  rw [countP_eq_length_filter, ← length_map (f := Prod.fst),
    ← toFinset_card_of_nodup hnodup]
  apply Finset.card_le_card
  intro p hp
  obtain ⟨e, he, rfl⟩ := mem_map.mp (mem_toFinset.mp hp)
  obtain ⟨hmem, hc⟩ := mem_filter.mp he
  exact h e hmem hc

theorem size_implied {s : BlockHeaderState} (hactive : s.activeSchedule.Valid)
    (hkeys : ∀ p, p ∈ s.producerToLastImpliedIrb.keys ↔ p ∈ s.activeSchedule.names) :
    s.producerToLastImpliedIrb.size = s.activeSchedule.producers.length := by
  have hperm : s.producerToLastImpliedIrb.keys.Perm s.activeSchedule.names :=
    (perm_ext_iff_of_nodup (keys_nodup _) hactive.2.2).mpr hkeys
  simpa [FlatMap.keys, FlatMap.size, ProducerScheduleType.names] using hperm.length_eq

/-- A last irreversible block beyond those of all ancestors was proposed to a quorum of the
producers that schedule the block. -/
theorem lib_backed {s s' : BlockHeaderState} (h : HeaderChain P genesis links s)
    (hstep : StepFacts s s') (hvalid : SchedulesValid links) (hfit : links.length + 1 < 2 ^ 32)
    (hlib : ∀ a ∈ genesisHeaderState P genesis :: links.map Link.child,
      a.dposIrreversibleBlocknum < s'.dposIrreversibleBlocknum) :
    2 * s.activeSchedule.producers.length / 3 + 1 ≤
      (impliers (⟨s, s'⟩ :: links) s.activeSchedule s'.dposIrreversibleBlocknum).card := by
  have hne : s.producerToLastImpliedIrb.entries ≠ [] := by
    rcases h.tracked with rfl | hne
    · have hzero : s'.dposIrreversibleBlocknum = 0 := hstep.lib
      have hgenesis := hlib _ mem_cons_self
      omega
    · exact hne
  have hnum : 2 ≤ s.blockNum := by
    rw [h.blockNum hfit]
    cases h with
    | genesis => exact absurd rfl hne
    | extend _ _ =>
      rw [length_cons]
      omega
  obtain ⟨hd, hs⟩ := h.invariants hvalid hfit
  have hkeys := hd.keys hnum
  have hsize := size_implied hs.active hkeys
  have hquorum := (le_calcDposLastIrreversible_iff s'.header.producer hne
    s'.dposIrreversibleBlocknum).mp hstep.lib.le
  have hsplit := length_eq_countP_add_countP (l := s.producerToLastImpliedIrb.entries)
    (fun i => decide ((if i.1 = s'.header.producer then s.dposProposedIrreversibleBlocknum
      else i.2) < s'.dposIrreversibleBlocknum))
  have hcard := countP_entries_le_card (m := s.producerToLastImpliedIrb)
    (fun i => decide (¬ decide ((if i.1 = s'.header.producer then
      s.dposProposedIrreversibleBlocknum else i.2) < s'.dposIrreversibleBlocknum) = true))
    (impliers (⟨s, s'⟩ :: links) s.activeSchedule s'.dposIrreversibleBlocknum) ?_
  · have hactive : 1 ≤ s.activeSchedule.producers.length := hs.active.1
    rw [size] at hsize hquorum
    omega
  · intro e he hlarge
    have hname : e.1 ∈ s.activeSchedule.names :=
      (hkeys e.1).mp (mem_map_of_mem he)
    refine Finset.mem_filter.mpr ⟨mem_toFinset.mpr hname, ?_⟩
    simp only [decide_eq_true_eq, not_lt] at hlarge
    by_cases hp : e.1 = s'.header.producer
    · rw [if_pos hp] at hlarge
      exact ⟨_, mem_cons_self, hp.symm, hlarge⟩
    · rw [if_neg hp] at hlarge
      have hfind : s.producerToLastImpliedIrb.find? e.1 = some e.2 :=
        (mem_entries_iff _ _ _).mp he
      rcases h.impliedBacked e.1 e.2 hfind with ⟨l, hl, hproducer, hle⟩ | ⟨l, hl, hle⟩
      · exact ⟨l, mem_cons_of_mem _ hl, hproducer, hlarge.trans hle⟩
      · have hold := hlib l.child (mem_cons_of_mem _ (mem_map_of_mem hl))
        omega

theorem HeaderChain.parents_valid (h : HeaderChain P genesis links tip)
    (hvalid : SchedulesValid links) (hfit : links.length + 1 < 2 ^ 32) :
    ∀ l ∈ links, l.parent.activeSchedule.Valid := by
  induction h with
  | genesis =>
    intro l hl
    cases hl
  | extend hchain _ ih =>
    rw [length_cons] at hfit
    obtain ⟨_, hrest⟩ := schedulesValid_cons.mp hvalid
    exact forall_mem_cons.mpr ⟨(hchain.invariants hrest (by omega)).2.active, ih hrest (by omega)⟩

/-- Finality is backed by quorums. A block that raises the proposed irreversible block does
so with the confirmations of more than two thirds of the producers that scheduled that
block; one that raises the last irreversible block above those of all its ancestors does so
with more than two thirds of its own schedule having built on a state that proposed it. -/
theorem finality_backed {l : Link} (h : HeaderChain P genesis (l :: links) tip)
    (hvalid : SchedulesValid (l :: links)) (hheight : ConfirmsBelowHeight (l :: links)) :
    (l.parent.dposProposedIrreversibleBlocknum < l.child.dposProposedIrreversibleBlocknum →
      ∃ b ∈ l :: links, b.number = l.child.dposProposedIrreversibleBlocknum ∧
        2 * b.parent.activeSchedule.producers.length / 3 + 1 ≤
          (confirmers (l :: links) l.child.dposProposedIrreversibleBlocknum).card) ∧
      ((∀ a ∈ genesisHeaderState P genesis :: links.map Link.child,
          a.dposIrreversibleBlocknum < l.child.dposIrreversibleBlocknum) →
        2 * l.parent.activeSchedule.producers.length / 3 + 1 ≤
          (impliers (l :: links) l.parent.activeSchedule l.child.dposIrreversibleBlocknum).card) := by
  have hfit := h.length_of_inRange hheight.inRange
  have hparents := h.parents_valid hvalid hfit
  rw [length_cons] at hfit
  obtain ⟨_, hrest⟩ := schedulesValid_cons.mp hvalid
  cases h with
  | extend hchain hstep =>
    refine ⟨?_, fun hlib => lib_backed hchain hstep.facts hrest (by omega) hlib⟩
    intro hgrows
    obtain ⟨b, hb, hnumber, hrequired⟩ := proposed_backed hchain hstep hrest hheight hgrows
    have hmax : b.parent.activeSchedule.producers.length ≤ 125 := (hparents b hb).2.1
    rw [requiredConfs, u32, Nat.mod_eq_of_lt (by omega)] at hrequired
    rw [Nat.zero_add, Nat.mul_comm] at hrequired
    exact ⟨b, hb, hnumber, hrequired⟩

/-- Block 10 of the run raises both numbers under a schedule of four producers. -/
theorem finality_backed_laggardKept : ∃ l links tip,
    HeaderChain runPrimitives {} (l :: links) tip ∧ l.number = 10 ∧
      3 ≤ (confirmers (l :: links) 8).card ∧
      3 ≤ (impliers (l :: links) l.parent.activeSchedule 5).card := by
  obtain ⟨links, tip, hchain, hvalid, -, hheight, height, hhead, hancestors⟩ :=
    exists_run (laggardKept.take 9)
      (fun links => ConfirmsBelowHeight links ∧
        (∀ l ∈ links, l.number = 8 → l.parent.activeSchedule.producers.length = 4) ∧
        (∃ l, links.head? = some l ∧ l.number = 10 ∧
          l.parent.activeSchedule.producers.length = 4 ∧
          l.parent.dposProposedIrreversibleBlocknum = 7 ∧
          l.child.dposProposedIrreversibleBlocknum = 8 ∧ l.child.dposIrreversibleBlocknum = 5) ∧
        ∀ a ∈ genesisHeaderState runPrimitives {} :: links.tail.map Link.child,
          a.dposIrreversibleBlocknum < 5)
      (by decide) (by decide +kernel)
  obtain ⟨l, hl, hten, hfour, hfrom, hto, hlib⟩ := hhead
  obtain ⟨links, rfl⟩ := head?_eq_some_iff.mp hl
  obtain ⟨hproposed, hfinal⟩ := finality_backed hchain hvalid hheight
  rw [hto] at hproposed
  rw [hlib, hfour] at hfinal
  obtain ⟨b, hb, hnumber, hcard⟩ := hproposed (by omega)
  rw [height b hb hnumber] at hcard
  exact ⟨l, links, tip, hchain, hten, hcard, hfinal hancestors⟩

end DreamChain
