import DreamChain.Library.FlatMap

/-!
Ordered access to a map: the first and the last entry whose key meets a condition, which is what
an ordered index answers to bounds and to steps of an iterator. A map with composite keys is read
one component at a time through its fibers, and a neighbour in the whole map is a neighbour in
the fiber or lies outside of it.
-/

namespace DreamChain.Library.FlatMap
open List

universe u v w

variable {α : Type u} {β : Type v} {γ : Type w} [LinearOrder α] [LinearOrder β]

theorem ext_find? {m n : FlatMap α γ} (h : ∀ k, m.find? k = n.find? k) : m = n := by
  have hperm : m.entries.Perm n.entries := by
    apply (perm_ext_iff_of_nodup m.keys_nodup.of_map n.keys_nodup.of_map).mpr
    intro e
    rw [mem_entries_iff, mem_entries_iff, h]
  have hentries : m.entries = n.entries :=
    List.Perm.eq_of_pairwise (fun _ _ _ _ hab hba => absurd hba (lt_asymm hab))
      m.sorted n.sorted hperm
  cases m
  congr

theorem find?_eq_some_iff_of_pairwise {δ : Type u} {R : δ → δ → Prop}
    {l : List δ} (hl : l.Pairwise R) (hasymm : ∀ a b, R a b → ¬R b a) {q : δ → Bool} {e : δ} :
    l.find? q = some e ↔ e ∈ l ∧ q e = true ∧ ∀ a ∈ l, q a = true → a = e ∨ R e a := by
  rw [find?_eq_some_iff_append]
  constructor
  · rintro ⟨hq, as, bs, rfl, has⟩
    refine ⟨mem_append_right as mem_cons_self, hq, fun a ha hqa => ?_⟩
    cases mem_append.mp ha with
    | inl hbefore => exact absurd hqa (by simpa using has a hbefore)
    | inr hafter =>
      have htail := (pairwise_append.mp hl).2.1
      exact (mem_cons.mp hafter).imp_right ((pairwise_cons.mp htail).1 a)
  · rintro ⟨hmem, hq, hfirst⟩
    obtain ⟨as, bs, rfl⟩ := append_of_mem hmem
    refine ⟨hq, as, bs, rfl, fun a ha => ?_⟩
    have hae := (pairwise_append.mp hl).2.2 a ha e mem_cons_self
    cases hqa : q a with
    | false => rfl
    | true =>
      cases hfirst a (mem_append_left _ ha) hqa with
      | inl heq => exact absurd (heq ▸ hae) (hasymm _ _ (heq ▸ hae))
      | inr hea => exact absurd hea (hasymm _ _ hae)

/-- A search in the part of a list that a function selects, when nothing is selected any more
behind an element that meets the condition and is not. -/
theorem find?_filterMap_of_pairwise {δ : Type u} {ε : Type v} {R : δ → δ → Prop} {l : List δ}
    (hl : l.Pairwise R) {f : δ → Option ε} {q : ε → Bool} {P : δ → Bool}
    (hf : ∀ d b, f d = some b → q b = P d)
    (hlate : ∀ d e, R d e → P d = true → f d = none → f e = none) :
    (l.filterMap f).find? q = (l.find? P).bind f := by
  induction l with
  | nil => rfl
  | cons d rest ih =>
    obtain ⟨hd, hrest⟩ := pairwise_cons.mp hl
    rw [find?_cons]
    cases hfd : f d with
    | none =>
      rw [filterMap_cons_none hfd]
      cases hP : P d with
      | false => exact ih hrest
      | true =>
        have hnil : rest.filterMap f = [] :=
          filterMap_eq_nil_iff.mpr fun e he => hlate d e (hd e he) hP hfd
        rw [hnil]
        exact hfd.symm
    | some b =>
      rw [filterMap_cons_some hfd, find?_cons, hf d b hfd]
      cases P d with
      | false => exact ih hrest
      | true => exact hfd.symm

section Access

variable (m : FlatMap α γ)

def firstWhere (p : α → Bool) : Option (α × γ) := m.entries.find? fun e => p e.1

def lastWhere (p : α → Bool) : Option (α × γ) := m.entries.reverse.find? fun e => p e.1

variable {m} {p : α → Bool} {k : α} {x : γ}

theorem firstWhere_eq_none_iff : m.firstWhere p = none ↔ ∀ k ∈ m.keys, p k = false := by
  simp [firstWhere, keys]

theorem lastWhere_eq_none_iff : m.lastWhere p = none ↔ ∀ k ∈ m.keys, p k = false := by
  simp [lastWhere, keys]

theorem forall_entries_iff {q : α → Bool} {P : α → Prop} {r : α → Prop}
    (hx : m.find? k = some x) (hP : ∀ j, j ≠ k → (r j ↔ P j)) (hk : P k) :
    (∀ a ∈ m.entries, q a.1 = true → a = (k, x) ∨ r a.1) ↔
      ∀ j ∈ m.keys, q j = true → P j := by
  constructor
  · intro h j hj hq
    obtain ⟨y, hy⟩ := (m.mem_keys_iff j).mp hj
    cases h (j, y) ((m.mem_entries_iff j y).mpr hy) hq with
    | inl heq => exact (Prod.mk.inj heq).1 ▸ hk
    | inr hr =>
      by_cases hjk : j = k
      · exact hjk ▸ hk
      · exact (hP j hjk).mp hr
  · rintro h ⟨j, y⟩ ha hq
    by_cases hjk : j = k
    · subst hjk
      rw [mem_entries_iff, hx] at ha
      exact .inl (by rw [Option.some.inj ha])
    · exact .inr ((hP j hjk).mpr (h j (mem_map_of_mem ha) hq))

theorem firstWhere_eq_some_iff : m.firstWhere p = some (k, x) ↔
      m.find? k = some x ∧ p k = true ∧ ∀ j ∈ m.keys, p j = true → k ≤ j := by
  rw [firstWhere, find?_eq_some_iff_of_pairwise m.sorted (fun _ _ => lt_asymm), mem_entries_iff]
  refine and_congr_right fun hx => and_congr_right fun _ =>
    forall_entries_iff (r := fun j => k < j) hx ?_ le_rfl
  intro j hj
  exact ⟨le_of_lt, fun hle => lt_of_le_of_ne hle (Ne.symm hj)⟩

theorem lastWhere_eq_some_iff : m.lastWhere p = some (k, x) ↔
      m.find? k = some x ∧ p k = true ∧ ∀ j ∈ m.keys, p j = true → j ≤ k := by
  rw [lastWhere, find?_eq_some_iff_of_pairwise (pairwise_reverse.mpr m.sorted)
    (fun _ _ => lt_asymm), mem_reverse, mem_entries_iff]
  simp only [mem_reverse]
  refine and_congr_right fun hx => and_congr_right fun _ =>
    forall_entries_iff (r := fun j => j < k) hx ?_ le_rfl
  intro j hj
  exact ⟨le_of_lt, fun hle => lt_of_le_of_ne hle hj⟩

theorem keys_sorted (m : FlatMap α γ) : m.keys.Pairwise (· < ·) := pairwise_map.mpr m.sorted

theorem eq_of_sorted {l l' : List α} (hl : l.Pairwise (· < ·)) (hl' : l'.Pairwise (· < ·))
    (hmem : ∀ a, a ∈ l ↔ a ∈ l') : l = l' :=
  List.Perm.eq_of_pairwise (fun _ _ _ _ hab hba => absurd hba (lt_asymm hab)) hl hl'
    ((perm_ext_iff_of_nodup (hl.imp ne_of_lt) (hl'.imp ne_of_lt)).mpr hmem)

theorem filter_lt_of_firstWhere {j : α} (h : m.firstWhere (fun i => k < i) = some (j, x)) :
    m.keys.filter (fun i => k < i) = j :: m.keys.filter (fun i => j < i) := by
  obtain ⟨hfind, hlt, hmin⟩ := firstWhere_eq_some_iff.mp h
  have hkj := of_decide_eq_true hlt
  apply eq_of_sorted (m.keys_sorted.filter _)
  · refine pairwise_cons.mpr ⟨?_, m.keys_sorted.filter _⟩
    intro i hi
    exact of_decide_eq_true (mem_filter.mp hi).2
  · intro i
    simp only [mem_filter, mem_cons, decide_eq_true_eq]
    constructor
    · rintro ⟨hi, hki⟩
      cases (hmin i hi (decide_eq_true hki)).eq_or_lt with
      | inl heq => exact .inl heq.symm
      | inr hji => exact .inr ⟨hi, hji⟩
    · rintro (rfl | ⟨hi, hji⟩)
      · exact ⟨mem_keys_of_find? hfind, hkj⟩
      · exact ⟨hi, hkj.trans hji⟩

theorem filter_gt_of_lastWhere {j : α} (h : m.lastWhere (fun i => i < k) = some (j, x)) :
    m.keys.filter (fun i => i < k) = m.keys.filter (fun i => i < j) ++ [j] := by
  obtain ⟨hfind, hlt, hmax⟩ := lastWhere_eq_some_iff.mp h
  have hjk := of_decide_eq_true hlt
  apply eq_of_sorted (m.keys_sorted.filter _)
  · refine pairwise_append.mpr ⟨m.keys_sorted.filter _, pairwise_singleton _ _, ?_⟩
    intro i hi i' hi'
    rw [mem_singleton.mp hi']
    exact of_decide_eq_true (mem_filter.mp hi).2
  · intro i
    simp only [mem_filter, mem_append, mem_singleton, decide_eq_true_eq]
    constructor
    · rintro ⟨hi, hik⟩
      cases (hmax i hi (decide_eq_true hik)).eq_or_lt with
      | inl heq => exact .inr heq
      | inr hij => exact .inl ⟨hi, hij⟩
    · rintro (⟨hi, hij⟩ | rfl)
      · exact ⟨hi, hij.trans hjk⟩
      · exact ⟨mem_keys_of_find? hfind, hjk⟩

end Access

section Fibers

variable (m : FlatMap (α ×ₗ β) γ) (a : α)

def fiberEntry (e : (α ×ₗ β) × γ) : Option (β × γ) :=
  if (ofLex e.1).1 = a then some ((ofLex e.1).2, e.2) else none

/-- The entries whose key has the given first component, by the second one. -/
def fiber : FlatMap β γ where
  entries := m.entries.filterMap (fiberEntry a)
  sorted := by
    apply m.sorted.filterMap
    intro e e' hlt b hb b' hb'
    simp only [fiberEntry, Option.ite_none_right_eq_some, Option.some.injEq] at hb hb'
    obtain ⟨ha, rfl⟩ := hb
    obtain ⟨ha', rfl⟩ := hb'
    cases Prod.Lex.lt_iff.mp hlt with
    | inl hfirst => exact absurd hfirst (by rw [ha, ha']; exact lt_irrefl a)
    | inr hsecond => exact hsecond.2

variable {m a}

@[simp] theorem find?_fiber (b : β) : (m.fiber a).find? b = m.find? (toLex (a, b)) := by
  apply Option.ext
  intro x
  rw [← mem_entries_iff, ← mem_entries_iff, fiber, mem_filterMap]
  constructor
  · rintro ⟨⟨k, y⟩, hmem, hentry⟩
    simp only [fiberEntry, Option.ite_none_right_eq_some] at hentry
    obtain ⟨rfl, rfl, rfl⟩ := hentry
    exact hmem
  · intro hmem
    exact ⟨_, hmem, by simp [fiberEntry]⟩

theorem mem_keys_fiber (b : β) : b ∈ (m.fiber a).keys ↔ toLex (a, b) ∈ m.keys := by
  rw [mem_keys_iff, mem_keys_iff, find?_fiber]

variable {k : α ×ₗ β}

omit [LinearOrder α] [LinearOrder β] in
theorem eq_toLex_iff {b : β} : k = toLex ((ofLex k).1, b) ↔ (ofLex k).2 = b :=
  ⟨fun h => congrArg (fun k => (ofLex k).2) h, fun h => h ▸ rfl⟩

theorem fiber_insert_self (m : FlatMap (α ×ₗ β) γ) (k : α ×ₗ β) (x : γ) :
    (m.insert k x).fiber (ofLex k).1 = (m.fiber (ofLex k).1).insert (ofLex k).2 x := by
  apply ext_find?
  intro b
  rw [find?_fiber, find?_insert, find?_insert, find?_fiber]
  exact if_congr eq_toLex_iff rfl rfl

theorem fiber_insert_of_ne (m : FlatMap (α ×ₗ β) γ) (x : γ) (h : (ofLex k).1 ≠ a) :
    (m.insert k x).fiber a = m.fiber a := by
  apply ext_find?
  intro b
  rw [find?_fiber, find?_fiber, find?_insert_of_ne]
  rintro rfl
  exact h rfl

theorem fiber_erase_self (m : FlatMap (α ×ₗ β) γ) (k : α ×ₗ β) :
    (m.erase k).fiber (ofLex k).1 = (m.fiber (ofLex k).1).erase (ofLex k).2 := by
  apply ext_find?
  intro b
  rw [find?_fiber, find?_erase, find?_erase, find?_fiber]
  exact if_congr eq_toLex_iff rfl rfl

theorem fiber_erase_of_ne (m : FlatMap (α ×ₗ β) γ) (h : (ofLex k).1 ≠ a) :
    (m.erase k).fiber a = m.fiber a := by
  apply ext_find?
  intro b
  rw [find?_fiber, find?_fiber, find?_erase, if_neg]
  rintro rfl
  exact h rfl

omit [LinearOrder β] in
theorem fiberEntry_eq_none {e : (α ×ₗ β) × γ} : fiberEntry a e = none ↔ (ofLex e.1).1 ≠ a := by
  simp [fiberEntry]

variable {P : α ×ₗ β → Bool} {p : β → Bool}

omit [LinearOrder β] in
theorem of_fiberEntry (hP : ∀ b, P (toLex (a, b)) = p b)
    {e : (α ×ₗ β) × γ} {b : β × γ} (he : fiberEntry a e = some b) : p b.1 = P e.1 := by
  simp only [fiberEntry, Option.ite_none_right_eq_some, Option.some.injEq] at he
  obtain ⟨rfl, rfl⟩ := he
  exact (hP _).symm

theorem firstWhere_fiber (hP : ∀ b, P (toLex (a, b)) = p b)
    (hlow : ∀ k, P k = true → a ≤ (ofLex k).1) :
    (m.fiber a).firstWhere p = (m.firstWhere P).bind (fiberEntry a) := by
  refine find?_filterMap_of_pairwise m.sorted (fun e b he => of_fiberEntry hP he) ?_
  intro e e' hlt he hne
  rw [fiberEntry_eq_none] at hne ⊢
  exact ((hlow _ he).lt_of_ne hne.symm |>.trans_le (Prod.Lex.monotone_fst _ _ hlt.le)).ne'

theorem lastWhere_fiber (hP : ∀ b, P (toLex (a, b)) = p b)
    (hhigh : ∀ k, P k = true → (ofLex k).1 ≤ a) :
    (m.fiber a).lastWhere p = (m.lastWhere P).bind (fiberEntry a) := by
  rw [lastWhere, fiber, ← filterMap_reverse]
  refine find?_filterMap_of_pairwise (pairwise_reverse.mpr m.sorted)
    (fun e b he => of_fiberEntry hP he) ?_
  intro e e' hlt he hne
  rw [fiberEntry_eq_none] at hne ⊢
  exact ((Prod.Lex.monotone_fst _ _ hlt.le).trans_lt ((hhigh _ he).lt_of_ne hne)).ne

end Fibers

end DreamChain.Library.FlatMap
