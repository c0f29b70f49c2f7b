import Mathlib

/-!
Arithmetic of a quota that is kept in scaled form. A use of `u` units is added to the scaled
value as `u * P` over `W` rounded up, and the scaled value is read back as a use in the
window by multiplying with `W` and dividing by `P`. Reading rounds down where a use is checked
and up where the rest of the quota is offered.
-/

namespace DreamChain.Library

theorem ceilDiv_mul_lt (n : Nat) {d : Nat} (hd : 0 < d) : n ⌈/⌉ d * d < n + d := by
  rw [Nat.ceilDiv_eq_add_pred_div]
  have h := Nat.div_mul_le_self (n + d - 1) d
  omega

theorem ceilDiv_le_self (n : Nat) {d : Nat} (hd : 0 < d) : n ⌈/⌉ d ≤ n :=
  (ceilDiv_le_iff_le_mul hd).mpr (Nat.le_mul_of_pos_left n hd)

theorem ceilDiv_mono {m n d : Nat} (hd : 0 < d) (h : m ≤ n) : m ⌈/⌉ d ≤ n ⌈/⌉ d :=
  (gc_smul_ceilDiv hd).monotone_l h

theorem mul_ceilDiv_le (u P : Nat) {W : Nat} (hW : 0 < W) : (u * P) ⌈/⌉ W ≤ u * (P ⌈/⌉ W) := by
  rw [ceilDiv_le_iff_le_mul hW]
  have h : P ≤ W * (P ⌈/⌉ W) := (ceilDiv_le_iff_le_mul hW).mp le_rfl
  calc u * P ≤ u * (W * (P ⌈/⌉ W)) := Nat.mul_le_mul_left u h
    _ = W * (u * (P ⌈/⌉ W)) := Nat.mul_left_comm u W _

/-- A use added to the scaled value is read back as no more than what was offered before it
plus the use: the window is at most the scale, so the rounding of the charge is lost again. -/
theorem div_add_ceilDiv_le (v u : Nat) {W P : Nat} (hW : 0 < W) (hP : W ≤ P) :
    (v + (u * P) ⌈/⌉ W) * W / P ≤ (v * W) ⌈/⌉ P + u := by
  have hpos : 0 < P := hW.trans_le hP
  have hcharge := ceilDiv_mul_lt (u * P) hW
  have hused : v * W ≤ P * ((v * W) ⌈/⌉ P) := (ceilDiv_le_iff_le_mul hpos).mp le_rfl
  rw [← Nat.lt_succ_iff, Nat.div_lt_iff_lt_mul hpos]
  calc (v + (u * P) ⌈/⌉ W) * W = v * W + (u * P) ⌈/⌉ W * W := Nat.add_mul _ _ _
    _ < P * ((v * W) ⌈/⌉ P) + (u * P + P) := by omega
    _ = ((v * W) ⌈/⌉ P + u).succ * P := by rw [Nat.succ_mul, Nat.add_mul, Nat.mul_comm P]; omega

theorem ceilDiv_add_le (v u : Nat) {W P : Nat} (hW : 0 < W) (hP : 0 < P) :
    (v * W) ⌈/⌉ P + u ≤ (v + (u * P) ⌈/⌉ W) * W / P + 1 := by
  have hcharge : u * P ≤ W * ((u * P) ⌈/⌉ W) := (ceilDiv_le_iff_le_mul hW).mp le_rfl
  have hused := ceilDiv_mul_lt (v * W) hP
  rw [← Nat.sub_le_iff_le_add, Nat.le_div_iff_mul_le hP, Nat.sub_mul, Nat.add_mul,
    Nat.add_mul]
  rw [Nat.mul_comm W] at hcharge
  omega

end DreamChain.Library
