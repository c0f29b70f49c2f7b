import DreamChain.Library.FlatMap

/-!
Sums over the entries of an ordered map. Every change of one entry changes the sum by what the
entry contributes, so a total that is kept next to a map can be compared with it after each
operation.
-/

namespace DreamChain.Library.FlatMap
open List

universe u v

variable {α : Type u} {β : Type v} [LinearOrder α]

def total {M : Type*} [AddCommMonoid M] (m : FlatMap α β) (f : α → β → M) : M :=
  (m.entries.map fun e => f e.1 e.2).sum

section Total
variable {M : Type*} [AddCommMonoid M]

theorem total_eq_zero (m : FlatMap α β) {f : α → β → M}
    (h : ∀ k x, m.find? k = some x → f k x = 0) : m.total f = 0 := by
  refine sum_eq_zero fun y hy => ?_
  obtain ⟨e, he, rfl⟩ := mem_map.mp hy
  exact h e.1 e.2 ((m.mem_entries_iff e.1 e.2).mp he)

theorem total_insertEntry_absent (f : α → β → M) (k : α) (x : β) {l : List (α × β)}
    (h : k ∉ l.map Prod.fst) :
    ((insertEntry k x l).map fun e => f e.1 e.2).sum = (l.map fun e => f e.1 e.2).sum + f k x := by
  induction l with
  | nil => simp [insertEntry]
  | cons e rest ih =>
    simp only [map_cons, mem_cons, not_or] at h
    simp only [insertEntry]
    split
    · exact add_comm _ _
    · rw [if_neg h.1]
      simp only [map_cons, sum_cons, ih h.2]
      exact (add_assoc _ _ _).symm

theorem total_insert_absent (m : FlatMap α β) (f : α → β → M) {k : α} (x : β) (h : k ∉ m.keys) :
    (m.insert k x).total f = m.total f + f k x :=
  total_insertEntry_absent f k x h

theorem total_erase (m : FlatMap α β) (f : α → β → M) {k : α} {x : β} (h : m.find? k = some x) :
    (m.erase k).total f + f k x = m.total f := by
  obtain ⟨l, hl⟩ := m
  rw [← mem_entries_iff] at h
  simp only [total, erase] at h ⊢
  induction l with
  | nil => cases h
  | cons e rest ih =>
    rw [pairwise_cons] at hl
    cases mem_cons.mp h with
    | inl heq =>
      have hrest : rest.filter (fun a => a.1 ≠ k) = rest := by
        rw [filter_eq_self]
        intro a ha
        have hlt := hl.1 a ha
        rw [← heq] at hlt
        exact decide_eq_true hlt.ne'
      rw [← heq, filter_cons_of_neg (by simp), hrest, map_cons]
      exact add_comm _ _
    | inr hmem =>
      have hlt : e.1 < k := hl.1 _ hmem
      rw [filter_cons_of_pos (by simpa using hlt.ne), map_cons, map_cons,
        sum_cons, sum_cons, add_assoc, ih hl.2 hmem]

theorem erase_insert_entries (m : FlatMap α β) (k : α) (x : β) :
    (m.insert k x).erase k = m.erase k := by
  obtain ⟨l, hl⟩ := m
  simp only [insert, erase, FlatMap.mk.injEq]
  induction l with
  | nil => simp [insertEntry]
  | cons e rest ih =>
    rw [pairwise_cons] at hl
    simp only [insertEntry]
    split
    · rw [filter_cons_of_neg (by simp)]
    · split
      · rename_i heq
        rw [filter_cons_of_neg (by simp), filter_cons_of_neg (by simp [heq])]
      · rw [filter_cons, filter_cons, ih hl.2]

theorem total_insert_present (m : FlatMap α β) (f : α → β → M) {k : α} {x : β} (y : β)
    (h : m.find? k = some x) : (m.insert k y).total f + f k x = m.total f + f k y := by
  have hnew := total_erase (m.insert k y) f (m.find?_insert_self k y)
  rw [erase_insert_entries] at hnew
  rw [← hnew, ← m.total_erase f h]
  exact add_right_comm _ _ _

end Total

section Ordered
variable {M : Type*} [AddCommMonoid M] [PartialOrder M] [IsOrderedAddMonoid M]

variable {f : α → β → M}

theorem total_nonneg (m : FlatMap α β) (h : ∀ k x, m.find? k = some x → 0 ≤ f k x) :
    0 ≤ m.total f := by
  refine sum_nonneg fun y hy => ?_
  obtain ⟨e, he, rfl⟩ := mem_map.mp hy
  exact h e.1 e.2 ((m.mem_entries_iff e.1 e.2).mp he)

theorem le_total (m : FlatMap α β) (h : ∀ k x, m.find? k = some x → 0 ≤ f k x) {k : α} {x : β}
    (hk : m.find? k = some x) : f k x ≤ m.total f := by
  have hrest : 0 ≤ (m.erase k).total f := by
    refine total_nonneg _ fun j y hj => h j y ?_
    exact ((find?_erase_eq_some_iff m).mp hj).2
  rw [← m.total_erase f hk]
  exact le_add_of_nonneg_left hrest

end Ordered

def sum (m : FlatMap α β) (f : α → β → Nat) : Nat := (m.entries.map fun e => f e.1 e.2).sum

variable {k : α} {x : β}

section

variable (m : FlatMap α β) (f : α → β → Nat)
include m f

theorem sum_insert_absent (x : β) (h : k ∉ m.keys) : (m.insert k x).sum f = m.sum f + f k x :=
  m.total_insert_absent f x h

theorem sum_erase (h : m.find? k = some x) : (m.erase k).sum f + f k x = m.sum f :=
  m.total_erase f h

theorem sum_insert_present (y : β) (h : m.find? k = some x) :
    (m.insert k y).sum f + f k x = m.sum f + f k y :=
  m.total_insert_present f y h

theorem le_sum (h : m.find? k = some x) : f k x ≤ m.sum f := by
  have heq := m.sum_erase f h
  omega

end

theorem sum_le_size (m : FlatMap α β) {f : α → β → Nat} (h : ∀ k x, f k x ≤ 1) :
    m.sum f ≤ m.size := by
  obtain ⟨l, hl⟩ := m
  simp only [sum, size]
  clear hl
  induction l with
  | nil => exact Nat.le_refl 0
  | cons e rest ih =>
    have he := h e.1 e.2
    rw [map_cons, sum_cons, length_cons]
    omega

end DreamChain.Library.FlatMap
