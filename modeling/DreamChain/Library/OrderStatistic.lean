import Mathlib

/-!
Order statistics of a finite list. The element a selection algorithm leaves at
position `k` is fixed by the list up to permutation, so it is read off the sorted
list. Bounds on it are counting statements; no proof below looks at an order of
the input list.
-/

namespace DreamChain.Library
open List

universe u
variable {α : Type u} [LinearOrder α]

def nthElement (l : List α) (k : Nat) : Option α :=
  (l.insertionSort (· ≤ ·))[k]?

variable {l : List α} {k : Nat} {x : α}

theorem nthElement_isSome (h : k < l.length) : ∃ x, nthElement l k = some x := by
  have hk : k < (l.insertionSort (· ≤ ·)).length := by
    rwa [length_insertionSort]
  exact ⟨_, getElem?_eq_getElem hk⟩

theorem nthElement_mem (h : nthElement l k = some x) : x ∈ l :=
  (perm_insertionSort (· ≤ ·) l).mem_iff.mp (mem_of_getElem? h)

private theorem le_getElem_sorted_iff {s : List α} (hs : s.Pairwise (· ≤ ·)) :
    ∀ {k : Nat} {x : α}, s[k]? = some x → ∀ y, y ≤ x ↔ s.countP (· < y) ≤ k := by
  induction s with
  | nil => simp
  | cons a s ih =>
    rw [pairwise_cons] at hs
    intro k x hx y
    cases k with
    | zero =>
      obtain rfl : a = x := by simpa using hx
      simp only [Nat.le_zero, countP_eq_zero, mem_cons, decide_eq_true_eq,
        not_lt, forall_eq_or_imp]
      exact ⟨fun hy => ⟨hy, fun b hb => hy.trans (hs.1 b hb)⟩, fun h => h.1⟩
    | succ k =>
      have hx' : s[k]? = some x := by simpa using hx
      have hax : a ≤ x := hs.1 x (mem_of_getElem? hx')
      rw [ih hs.2 hx' y, countP_cons]
      by_cases hay : a < y
      · simp [hay]
      · have hyx : y ≤ x := (not_lt.mp hay).trans hax
        have hzero : s.countP (· < y) ≤ k := (ih hs.2 hx' y).mp hyx
        simp only [hay, decide_false, Bool.false_eq_true, if_false]
        omega

/-- Comparing with the element at position `k` is counting the smaller elements. -/
theorem le_nthElement_iff (h : nthElement l k = some x) (y : α) : y ≤ x ↔ l.countP (· < y) ≤ k := by
  rw [le_getElem_sorted_iff (pairwise_insertionSort (· ≤ ·) l) h y,
    (perm_insertionSort (· ≤ ·) l).countP_eq]

end DreamChain.Library
