import Mathlib

/-!
Smearing the bits of a number downwards. Or-ing a number with its own shifts, by one, two, four
and so on, sets every bit below the highest one, so the result is one less than a power of two.
-/

namespace DreamChain.Library

/-- A bit is set where one of the `w` bits from it upwards is set in `v`. -/
def Smeared (v w x : Nat) : Prop := ∀ i, x.testBit i = true ↔ ∃ j < w, v.testBit (i + j) = true

namespace Smeared

variable {v w x : Nat}

theorem start (v : Nat) : Smeared v 1 v := by
  intro i
  constructor
  · exact fun h => ⟨0, Nat.one_pos, h⟩
  · rintro ⟨j, hj, h⟩
    obtain rfl : j = 0 := by omega
    exact h

theorem double (h : Smeared v w x) : Smeared v (2 * w) (x ||| x >>> w) := by
  intro i
  rw [Nat.testBit_or, Nat.testBit_shiftRight, Bool.or_eq_true, h i, h (w + i)]
  constructor
  · rintro (⟨j, hj, hbit⟩ | ⟨j, hj, hbit⟩)
    · exact ⟨j, by omega, hbit⟩
    · exact ⟨w + j, by omega, by rwa [show i + (w + j) = w + i + j by omega]⟩
  · rintro ⟨j, hj, hbit⟩
    by_cases hjw : j < w
    · exact .inl ⟨j, hjw, hbit⟩
    · exact .inr ⟨j - w, by omega, by rwa [show w + i + (j - w) = i + j by omega]⟩

theorem eq_size (h : Smeared v w x) (hv : v < 2 ^ w) : x = 2 ^ v.size - 1 := by
  refine Nat.eq_of_testBit_eq fun i => Bool.eq_iff_iff.mpr ?_
  rw [Nat.testBit_two_pow_sub_one, decide_eq_true_eq, Nat.lt_size, h i]
  constructor
  · rintro ⟨j, -, hbit⟩
    have hpow : 2 ^ i ≤ 2 ^ (i + j) := Nat.pow_le_pow_right Nat.two_pos (Nat.le_add_right i j)
    exact Nat.le_trans hpow (Nat.ge_two_pow_of_testBit hbit)
  · intro hle
    obtain ⟨k, hk, hbit⟩ := Nat.exists_ge_and_testBit_of_ge_two_pow hle
    have hlarge : 2 ^ k < 2 ^ w := Nat.lt_of_le_of_lt (Nat.ge_two_pow_of_testBit hbit) hv
    have hkw : k < w := (Nat.pow_lt_pow_iff_right Nat.one_lt_two).mp hlarge
    exact ⟨k - i, by omega, by rwa [show i + (k - i) = k by omega]⟩

end Smeared

theorem size_half {n : Nat} (hn : n ≠ 0) : n.size = (n / 2).size + 1 := by
  have hpos : 0 < n.size := Nat.size_pos.mpr (Nat.pos_of_ne_zero hn)
  refine Nat.le_antisymm (Nat.size_le.mpr ?_) ?_
  · have hhalf := Nat.lt_size_self (n / 2)
    omega
  · have hhalf : (n / 2).size ≤ n.size - 1 := by
      have hlt := Nat.lt_size_self n
      have hpow : 2 ^ n.size = 2 ^ (n.size - 1) * 2 := by
        rw [← Nat.pow_succ, Nat.succ_eq_add_one, Nat.sub_add_cancel hpos]
      exact Nat.size_le.mpr (by omega)
    omega

end DreamChain.Library
