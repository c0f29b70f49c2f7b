import Mathlib

/-!
Numbers as lists of digits, lowest first: the bytes of a number of fixed width, and the decimal
texts of numbers, which may be padded with zeros.
-/

namespace DreamChain.Library
open List

variable {n v d : Nat} {l : List Nat}

def ofBytes (bytes : List UInt8) : Nat := Nat.ofDigits 256 (bytes.map UInt8.toNat)

/-- The lowest `n` bytes of a number. -/
def littleEndian : Nat → Nat → List UInt8
  | 0, _ => []
  | n + 1, v => UInt8.ofNat v :: littleEndian n (v / 256)

@[simp]
theorem length_littleEndian (n v : Nat) : (littleEndian n v).length = n := by
  induction n generalizing v with
  | zero => rfl
  | succ n ih => rw [littleEndian, length_cons, ih]

theorem ofBytes_cons (b : UInt8) (bytes : List UInt8) :
    ofBytes (b :: bytes) = b.toNat + 256 * ofBytes bytes :=
  Nat.ofDigits_cons

theorem ofBytes_littleEndian (n v : Nat) : ofBytes (littleEndian n v) = v % 256 ^ n := by
  induction n generalizing v with
  | zero => rw [Nat.pow_zero, Nat.mod_one]; rfl
  | succ n ih => rw [littleEndian, ofBytes_cons, ih, Nat.pow_succ', Nat.mod_mul]; rfl

theorem ofBytes_lt (bytes : List UInt8) : ofBytes bytes < 256 ^ bytes.length := by
  have hbytes : ∀ x ∈ bytes.map UInt8.toNat, x < 256 := by simpa using fun b _ => b.toNat_lt
  simpa [ofBytes] using Nat.ofDigits_lt_base_pow_length (by decide) hbytes

theorem littleEndian_ofBytes (bytes : List UInt8) :
    littleEndian bytes.length (ofBytes bytes) = bytes := by
  induction bytes with
  | nil => rfl
  | cons b bytes ih =>
    have hb := b.toNat_lt
    have hlow : UInt8.ofNat (ofBytes (b :: bytes)) = b := by
      apply UInt8.toNat_inj.mp
      rw [UInt8.toNat_ofNat', ofBytes_cons]
      omega
    rw [length_cons, littleEndian, hlow, ofBytes_cons,
      show (b.toNat + 256 * ofBytes bytes) / 256 = ofBytes bytes by omega, ih]

theorem map_ofNat_eq_littleEndian (hl : ∀ x ∈ l, x < 256) :
    l.map UInt8.ofNat = littleEndian l.length (Nat.ofDigits 256 l) := by
  have hbytes : (l.map UInt8.ofNat).map UInt8.toNat = l := by
    rw [map_map]
    exact (map_congr_left fun x hx => by simp [Nat.mod_eq_of_lt (hl x hx)]).trans (map_id l)
  rw [← littleEndian_ofBytes (l.map UInt8.ofNat), ofBytes, hbytes, length_map]

theorem exists_bit {bytes : List UInt8} {k : Nat} (h : k < 8 * bytes.length) :
    ∃ b, bytes[k / 8]? = some b ∧ b.toNat >>> (k % 8) % 2 = ofBytes bytes / 2 ^ k % 2 := by
  induction bytes generalizing k with
  | nil => exact absurd h (by simp)
  | cons b bytes ih =>
    rw [ofBytes_cons]
    rcases Nat.lt_or_ge k 8 with hk | hk
    · refine ⟨b, by rw [Nat.div_eq_of_lt hk]; rfl, ?_⟩
      rw [Nat.mod_eq_of_lt hk]
      interval_cases k <;> omega
    · obtain ⟨j, rfl⟩ := Nat.exists_eq_add_of_le hk
      obtain ⟨c, hc, hbit⟩ := ih (k := j) (by rw [length_cons] at h; omega)
      refine ⟨c, ?_, ?_⟩
      · rw [show (8 + j) / 8 = j / 8 + 1 by omega, getElem?_cons_succ, hc]
      · have hb := b.toNat_lt
        rw [Nat.add_mod_left, hbit, Nat.pow_add, ← Nat.div_div_eq_div_mul,
          show (b.toNat + 256 * ofBytes bytes) / 2 ^ 8 = ofBytes bytes by omega]

/-- A bit is set in the place of a zero. -/
theorem ofBytes_setBit {bytes : List UInt8} {k b : Nat} (h : k < 8 * bytes.length) (hb : b < 2)
    (hzero : ofBytes bytes % 2 ^ (k + 1) = 0) :
    ofBytes (bytes.modify (k / 8) (· ||| UInt8.ofNat (b <<< (k % 8)))) =
      ofBytes bytes + b * 2 ^ k := by
  induction bytes generalizing k with
  | nil => exact absurd h (by simp)
  | cons byte bytes ih =>
    have hbyte := byte.toNat_lt
    rw [ofBytes_cons] at hzero
    rcases Nat.lt_or_ge k 8 with hk | hk
    · have hlow : b * 2 ^ k < 2 ^ (k + 1) := by
        rw [Nat.pow_succ']
        exact Nat.mul_lt_mul_of_pos_right hb (Nat.two_pow_pos k)
      have hpow : 2 ^ (k + 1) ≤ 256 := Nat.pow_le_pow_right (by decide) (show k + 1 ≤ 8 by omega)
      have hdvd : 2 ^ (k + 1) ∣ byte.toNat := by
        refine (Nat.dvd_add_left (Dvd.dvd.mul_right ?_ _)).mp (Nat.dvd_of_mod_eq_zero hzero)
        exact Nat.pow_dvd_pow 2 (show k + 1 ≤ 8 by omega)
      obtain ⟨m, hm⟩ := hdvd
      have hor := Nat.two_pow_add_eq_or_of_lt hlow m
      rw [Nat.div_eq_of_lt hk, Nat.mod_eq_of_lt hk, Nat.shiftLeft_eq, modify_zero_cons,
        ofBytes_cons, ofBytes_cons, UInt8.toNat_or, UInt8.toNat_ofNat',
        Nat.mod_eq_of_lt (hlow.trans_le hpow), hm]
      omega
    · obtain ⟨j, rfl⟩ := Nat.exists_eq_add_of_le hk
      have hrest : ofBytes bytes % 2 ^ (j + 1) = 0 := by
        rw [Nat.add_assoc, Nat.pow_add, Nat.mod_mul,
          show (byte.toNat + 256 * ofBytes bytes) / 2 ^ 8 = ofBytes bytes by omega] at hzero
        omega
      rw [show (8 + j) / 8 = j / 8 + 1 by omega, Nat.add_mod_left, modify_succ_cons, ofBytes_cons,
        ih (by rw [length_cons] at h; omega) hrest, ofBytes_cons, Nat.pow_add, Nat.mul_left_comm]
      omega

/-- The text of digits, the highest first. -/
def digitText (l : List Nat) : List Char := (l.map Nat.digitChar).reverse

theorem toDigits_eq_digitText (v : Nat) : ∃ l, Nat.toDigits 10 v = digitText l ∧
    (∀ x ∈ l, x < 10) ∧ Nat.ofDigits 10 l = v := by
  induction v using Nat.strong_induction_on with
  | _ v ih =>
    by_cases hv : v < 10
    · exact ⟨[v], Nat.toDigits_of_lt_base hv, by simpa using hv, by simp⟩
    · obtain ⟨l, htext, hl, hvalue⟩ := ih (v / 10) (by omega)
      refine ⟨v % 10 :: l, ?_, ?_, ?_⟩
      · rw [Nat.toDigits_of_base_le (by decide) (by omega), htext]
        simp [digitText]
      · simpa using ⟨Nat.mod_lt v (by decide), hl⟩
      · rw [Nat.ofDigits_cons]
        omega

/-- Digits that are as many as the text of their number has, or as the padding asks for. -/
theorem digitText_eq_leftpad (hl : ∀ x ∈ l, x < 10)
    (hlength : l.length = max d (Nat.toDigits 10 (Nat.ofDigits 10 l)).length) :
    digitText l = (Nat.toDigits 10 (Nat.ofDigits 10 l)).leftpad d '0' := by
  obtain ⟨k, htext, hk, hvalue⟩ := toDigits_eq_digitText (Nat.ofDigits 10 l)
  have hpadded : l = k ++ replicate (d - k.length) 0 := by
    apply Nat.ofDigits_inj_of_len_eq (b := 10) (by decide) ?_ hl ?_ ?_
    · rw [hlength, htext, digitText, length_reverse, length_map, length_append, length_replicate]
      omega
    · intro x hx
      obtain hx | hx := mem_append.mp hx
      · exact hk x hx
      · rw [eq_of_mem_replicate hx]
        decide
    · rw [Nat.ofDigits_append_replicate_zero, hvalue]
  have hwidth : (Nat.toDigits 10 (Nat.ofDigits 10 l)).length = k.length := by simp [htext, digitText]
  rw [leftpad, htext, hpadded]
  simp [digitText]

end DreamChain.Library
