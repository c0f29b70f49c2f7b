import Mathlib

/-!
Numbers written in groups of seven bits, lowest first. Every byte but the last has its high bit
set. The reader stops at a byte without that bit, or when the next group would start beyond the
width of the number; it accepts more byte strings than the writer produces.
-/

namespace DreamChain.Library
open List

/-- The groups of a number, at most `rounds` of them. -/
def writeGroups : Nat → Nat → List UInt8
  | 0, _ => []
  | rounds + 1, n =>
    if n / 128 = 0 then [UInt8.ofNat (n % 128)]
    else UInt8.ofNat (n % 128 + 128) :: writeGroups rounds (n / 128)

def readGroups (width : Nat) : Nat → Nat → List UInt8 → Option (Nat × List UInt8)
  | _, _, [] => none
  | shift, acc, b :: ds =>
    let acc := acc ||| ((b.toNat % 128) <<< shift) % 2 ^ width
    if 128 ≤ b.toNat ∧ shift + 7 < width then readGroups width (shift + 7) acc ds
    else some (acc, ds)

theorem writeGroups_ne_nil (rounds n : Nat) : writeGroups (rounds + 1) n ≠ [] := by
  rw [writeGroups]
  split <;> exact List.cons_ne_nil _ _

variable {acc shift width n : Nat}

theorem or_group {group : Nat} (hacc : acc < 2 ^ shift) (hgroup : group * 2 ^ shift < 2 ^ width) :
    acc ||| (group <<< shift) % 2 ^ width = acc + group * 2 ^ shift := by
  rw [Nat.shiftLeft_eq, Nat.mod_eq_of_lt hgroup, ← Nat.shiftLeft_eq, Nat.or_comm,
    ← Nat.shiftLeft_add_eq_or_of_lt hacc, Nat.add_comm]

theorem toNat_ofNat_of_lt (h : n < 256) : (UInt8.ofNat n).toNat = n := by
  rw [UInt8.toNat_ofNat', Nat.mod_eq_of_lt h]

theorem group_step (hacc : acc < 2 ^ shift) (hn : n * 2 ^ shift < 2 ^ width) (hzero : n / 128 ≠ 0) :
    n % 128 * 2 ^ shift < 2 ^ width ∧ n / 128 * 2 ^ (shift + 7) < 2 ^ width ∧
      shift + 7 < width ∧ acc + n % 128 * 2 ^ shift < 2 ^ (shift + 7) ∧
      acc + n % 128 * 2 ^ shift + n / 128 * 2 ^ (shift + 7) = acc + n * 2 ^ shift := by
  have hpow : 2 ^ (shift + 7) = 128 * 2 ^ shift := by rw [Nat.pow_add, Nat.mul_comm]
  have hrest : n / 128 * 2 ^ (shift + 7) < 2 ^ width := by
    rw [hpow, ← Nat.mul_assoc]
    exact Nat.lt_of_le_of_lt (Nat.mul_le_mul_right _ (Nat.div_mul_le_self n 128)) hn
  have hshift : shift + 7 < width := by
    refine (Nat.pow_lt_pow_iff_right (by decide : 1 < 2)).mp ?_
    exact Nat.lt_of_le_of_lt (Nat.le_mul_of_pos_left _ (by omega)) hrest
  have hnext : acc + n % 128 * 2 ^ shift < 2 ^ (shift + 7) := by
    have hle : (n % 128 + 1) * 2 ^ shift ≤ 128 * 2 ^ shift := Nat.mul_le_mul_right _ (by omega)
    rw [Nat.add_mul] at hle
    omega
  refine ⟨Nat.lt_of_le_of_lt (Nat.mul_le_mul_right _ (Nat.mod_le n 128)) hn, hrest, hshift, hnext,
    ?_⟩
  rw [hpow, ← Nat.mul_assoc, Nat.add_assoc, ← Nat.add_mul, Nat.mod_add_div']

/-- Reading continues what an earlier part of the number left in the accumulator: a relation between
the place and the sum where reading starts, what was written, and the sum at its end. -/
theorem writeGroups_induction {motive : Nat → Nat → List UInt8 → Nat → Prop} {rounds : Nat}
    (hlast : ∀ {shift acc n}, acc < 2 ^ shift → n * 2 ^ shift < 2 ^ width → shift < width → n < 128 →
      motive shift acc [UInt8.ofNat n] (acc + n * 2 ^ shift))
    (hstep : ∀ {shift acc n ds v}, acc < 2 ^ shift → n * 2 ^ shift < 2 ^ width → shift + 7 < width →
      n < 128 → motive (shift + 7) (acc + n * 2 ^ shift) ds v →
      motive shift acc (UInt8.ofNat (n + 128) :: ds) v)
    (hacc : acc < 2 ^ shift) (hn : n * 2 ^ shift < 2 ^ width) (hshift : shift < width)
    (hrounds : n < 128 ^ (rounds + 1)) :
    motive shift acc (writeGroups (rounds + 1) n) (acc + n * 2 ^ shift) := by
  induction rounds generalizing shift acc n with
  | zero =>
    have hlow : n < 128 := by simpa using hrounds
    rw [writeGroups, if_pos (Nat.div_eq_of_lt hlow), Nat.mod_eq_of_lt hlow]
    exact hlast hacc hn hshift hlow
  | succ rounds ih =>
    rw [writeGroups]
    by_cases hzero : n / 128 = 0
    · have hlow : n < 128 := by omega
      rw [if_pos hzero, Nat.mod_eq_of_lt hlow]
      exact hlast hacc hn hshift hlow
    · obtain ⟨hgroup, hrest, hshift, hnext, hsum⟩ := group_step hacc hn hzero
      rw [if_neg hzero, ← hsum]
      exact hstep hacc hgroup hshift (Nat.mod_lt n (by decide)) (ih hnext hrest hshift
        (Nat.div_lt_of_lt_mul (by rwa [Nat.pow_succ, Nat.mul_comm] at hrounds)))

theorem toNat_group (h : n < 128) : (UInt8.ofNat n).toNat = n ∧
    (UInt8.ofNat (n + 128)).toNat = n + 128 ∧ n % 128 = n ∧ (n + 128) % 128 = n :=
  ⟨toNat_ofNat_of_lt (by omega), toNat_ofNat_of_lt (by omega), by omega, by omega⟩

theorem readGroups_writeGroups {rounds : Nat} (ds : List UInt8) (hacc : acc < 2 ^ shift)
    (hn : n * 2 ^ shift < 2 ^ width) (hshift : shift < width) (hrounds : n < 128 ^ (rounds + 1)) :
    readGroups width shift acc (writeGroups (rounds + 1) n ++ ds) =
      some (acc + n * 2 ^ shift, ds) := by
  refine writeGroups_induction
    (motive := fun shift acc bytes v => readGroups width shift acc (bytes ++ ds) = some (v, ds))
    ?_ ?_ hacc hn hshift hrounds
  · intro shift acc n hacc hn _ hlow
    simp only [cons_append, nil_append, readGroups, toNat_group hlow]
    rw [if_neg (by omega), or_group hacc hn]
  · intro shift acc n bytes v hacc hn hshift hlow hreads
    simp only [cons_append, readGroups, toNat_group hlow]
    rw [if_pos ⟨by omega, hshift⟩, or_group hacc hn, hreads]

theorem readGroups_lt {ds rest : List UInt8} (hacc : acc < 2 ^ width)
    (h : readGroups width shift acc ds = some (n, rest)) : n < 2 ^ width := by
  induction ds generalizing shift acc with
  | nil => cases h
  | cons b ds ih =>
    have hor : acc ||| ((b.toNat % 128) <<< shift) % 2 ^ width < 2 ^ width :=
      Nat.or_lt_two_pow hacc (Nat.mod_lt _ (Nat.two_pow_pos width))
    simp only [readGroups] at h
    split at h
    · exact ih hor h
    · cases h
      exact hor

end DreamChain.Library
