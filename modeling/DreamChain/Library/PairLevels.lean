import Mathlib

/-!
The levels of a tree that is built from a list by combining neighbours. A level that grows at
its end changes the level above it only at the end, and what later growth can still use of a
level are its peaks: the roots of the complete subtrees, from the smallest to the largest.
-/

namespace DreamChain.Library
open List

universe u

variable {α : Type u} (h : α → α → α)

/-- The complete pairs of a level; an element without a partner is left out. -/
def pairs : List α → List α
  | [] => []
  | [_] => []
  | a :: b :: rest => h a b :: pairs rest

theorem length_pairs (l : List α) : (pairs h l).length = l.length / 2 := by
  fun_induction pairs h l with
  | case1 | case2 => simp
  | case3 a b rest ih =>
    simp only [length_cons]
    omega

/-- The roots of the complete subtrees over a list. -/
def peaks (l : List α) : List α :=
  if hl : l = [] then []
  else (if l.length % 2 = 1 then [l.getLast hl] else []) ++ peaks (pairs h l)
termination_by l.length
decreasing_by
  rw [length_pairs]
  have hpos := length_pos_iff.mpr hl
  omega

variable {h} {l : List α} {a b : α}

theorem pairs_append (hl : l.length % 2 = 0) (m : List α) :
    pairs h (l ++ m) = pairs h l ++ pairs h m := by
  fun_induction pairs h l with
  | case1 => rfl
  | case2 => simp at hl
  | case3 a b rest ih =>
    have hrest : rest.length % 2 = 0 := by
      simp only [length_cons] at hl
      omega
    rw [cons_append, cons_append, pairs, ih hrest, cons_append]

theorem pairs_concat (hl : l.length % 2 = 0) : pairs h (l ++ [a]) = pairs h l := by
  rw [pairs_append hl]
  exact append_nil _

theorem pairs_concat_pair (hl : l.length % 2 = 0) :
    pairs h (l ++ [a, b]) = pairs h l ++ [h a b] := by
  rw [pairs_append hl]
  rfl

@[simp] theorem peaks_nil : peaks h [] = [] := by
  rw [peaks, dif_pos rfl]

theorem peaks_of_even (hl : l.length % 2 = 0) : peaks h l = peaks h (pairs h l) := by
  by_cases hnil : l = []
  · subst hnil
    rfl
  · rw [peaks, dif_neg hnil, if_neg (by omega), nil_append]

theorem peaks_concat (hl : l.length % 2 = 0) : peaks h (l ++ [a]) = a :: peaks h (pairs h l) := by
  have hodd : (l ++ [a]).length % 2 = 1 := by
    rw [length_append, length_singleton]
    omega
  rw [peaks, dif_neg (by simp), if_pos hodd, getLast_concat, pairs_concat hl]
  rfl

theorem getElem?_pairs (d : α) (l : List α) (j : Nat) : (pairs h l)[j]? =
    if j < l.length / 2 then some (h (l.getD (2 * j) d) (l.getD (2 * j + 1) d)) else none := by
  fun_induction pairs h l generalizing j with
  | case1 | case2 => simp
  | case3 a b rest ih =>
    have hcount : (a :: b :: rest).length / 2 = rest.length / 2 + 1 := by
      simp only [length_cons]
      omega
    rw [hcount]
    cases j with
    | zero => simp
    | succ j =>
      rw [getElem?_cons_succ, ih]
      simp [Nat.mul_add]

theorem map_eq_of_map_pairs {β : Type*} {f : α → β} {l' : List α}
    (hf : ∀ a b a' b', f (h a b) = f (h a' b') → f a = f a' ∧ f b = f b')
    (hlength : l.length = l'.length) (heven : l.length % 2 = 0)
    (hpairs : (pairs h l).map f = (pairs h l').map f) : l.map f = l'.map f := by
  fun_induction pairs h l generalizing l' with
  | case1 => simp [length_eq_zero_iff.mp hlength.symm]
  | case2 => simp at heven
  | case3 a b rest ih =>
    match l', hlength with
    | a' :: b' :: rest', hlength =>
      simp only [pairs, map_cons, cons.injEq] at hpairs ⊢
      simp only [length_cons, Nat.add_right_cancel_iff] at hlength heven
      obtain ⟨ha, hb⟩ := hf _ _ _ _ hpairs.1
      exact ⟨ha, hb, ih hlength (by omega) hpairs.2⟩

end DreamChain.Library
