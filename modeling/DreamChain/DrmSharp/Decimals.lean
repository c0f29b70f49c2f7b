import DreamChain.DrmSharp.AbiSerialization
import DreamChain.Library.Positional

/-!
The conversions of the C# client between decimal texts and numbers of any number of bytes. In both
directions the digits of one base are multiplied by the other one, and the carry goes from digit
to digit in an `int`. The source does not check these computations for an overflow. Here every
`int` is checked, and the results say that no check fails.
-/

namespace DreamChain.DrmSharp
open Library List

def invalidNumber : Exception := ⟨.exception, "invalid number", []⟩

def outOfRange : Exception := ⟨.exception, "number is out of range", []⟩

def checked (x : Nat) : Throwing Nat := convertToInt32 x

/-- The inner loop of both directions. Digits are bytes in one, and characters in the other. -/
def multiplyDigits (base factor : Nat) : List Nat → Nat → Throwing (List Nat × Nat)
  | [], carry => .ok ([], carry)
  | digit :: digits, carry => do
    let x ← checked (digit * factor + carry)
    let (digits, carry) ← multiplyDigits base factor digits (x / base)
    return (x % base :: digits, carry)

def addDigit (result : List Nat) (srcDigit : Char) : Throwing (List Nat) :=
  if srcDigit < '0' ∨ '9' < srcDigit then .error invalidNumber
  else do
    let (result, carry) ← multiplyDigits 256 10 result (srcDigit.toNat - '0'.toNat)
    if carry ≠ 0 then .error outOfRange else .ok result

def decimalToBinary (size : Nat) (s : List Char) : Throwing Bytes := do
  let result ← s.foldlM addDigit (replicate size 0)
  return result.map UInt8.ofNat

def carryDigits (carry : Nat) : List Nat :=
  if carry = 0 then [] else carry % 10 :: carryDigits (carry / 10)

def addByte (b : UInt8) (result : List Nat) : Throwing (List Nat) := do
  let (result, carry) ← multiplyDigits 10 256 result b.toNat
  return result ++ carryDigits carry

/-- The bytes are taken from the last to the first. -/
def binaryToDecimal (bin : Bytes) (minDigits : Nat) : Throwing (List Char) := do
  let result ← bin.foldrM addByte (replicate minDigits 0)
  return digitText result

def isNegative (bin : Bytes) : Throwing Bool :=
  match bin.getLast? with
  | some b => .ok (b.toNat.testBit 7)
  | none => .error indexOutOfRange

def negateFrom : Bytes → Nat → Bytes
  | [], _ => []
  | b :: bin, carry =>
    let x := (~~~b).toNat + carry
    UInt8.ofNat x :: negateFrom bin (x / 256)

def negate (bin : Bytes) : Bytes := negateFrom bin 1

/-- What is converted after a minus sign is `s.Substring(0, 1)`, the sign itself. -/
def signedDecimalToBinary (size : Nat) (s : List Char) : Throwing Bytes :=
  match s with
  | [] => .error indexOutOfRange
  | c :: _ =>
    if c = '-' then do
      let result ← decimalToBinary size (s.take 1)
      return negate result
    else decimalToBinary size s

def signedBinaryToDecimal (bin : Bytes) (minDigits : Nat) : Throwing (List Char) := do
  if ← isNegative bin then
    let s ← binaryToDecimal (negate bin) minDigits
    return '-' :: s
  else binaryToDecimal bin minDigits

section Digits

variable {base factor carry : Nat} {digits : List Nat}

/-- Digits with the value `v` become those of the product up to their width, and what lies above
is the carry. -/
theorem multiplyDigits_ok (hfit : base * factor ≤ 2 ^ 31) (hdigits : ∀ x ∈ digits, x < base)
    (hcarry : carry < factor) : ∃ result,
    multiplyDigits base factor digits carry =
      .ok (result, (Nat.ofDigits base digits * factor + carry) / base ^ digits.length) ∧
    result.length = digits.length ∧ (∀ x ∈ result, x < base) ∧
    Nat.ofDigits base result =
      (Nat.ofDigits base digits * factor + carry) % base ^ digits.length := by
  induction digits generalizing carry with
  | nil => exact ⟨[], by simp [multiplyDigits], rfl, nofun, by simp [Nat.mod_one]⟩
  | cons digit digits ih =>
    obtain ⟨hdigit, hrest⟩ := forall_mem_cons.mp hdigits
    have hbase : 0 < base := Nat.zero_lt_of_lt hdigit
    have hx : digit * factor + carry < base * factor :=
      calc digit * factor + carry
        _ < (digit + 1) * factor := by rw [Nat.add_mul]; omega
        _ ≤ base * factor := Nat.mul_le_mul_right _ hdigit
    obtain ⟨result, hok, hlength, hresult, hvalue⟩ := ih hrest (Nat.div_lt_of_lt_mul hx)
    have hsplit : Nat.ofDigits base (digit :: digits) * factor + carry =
        digit * factor + carry + base * (Nat.ofDigits base digits * factor) := by
      rw [Nat.ofDigits_cons]
      ring
    have hhigh : (Nat.ofDigits base (digit :: digits) * factor + carry) / base =
        Nat.ofDigits base digits * factor + (digit * factor + carry) / base := by
      rw [hsplit, Nat.add_mul_div_left _ _ hbase, Nat.add_comm]
    refine ⟨(digit * factor + carry) % base :: result, ?_, by simp [hlength], ?_, ?_⟩
    · rw [multiplyDigits, checked, convertToInt32, if_pos (hx.trans_le hfit)]
      change (multiplyDigits base factor digits _ >>= _) = _
      rw [hok, length_cons, Nat.pow_succ', ← Nat.div_div_eq_div_mul, hhigh]
      rfl
    · exact forall_mem_cons.mpr ⟨Nat.mod_lt _ hbase, hresult⟩
    · rw [Nat.ofDigits_cons, hvalue, length_cons, Nat.pow_succ', Nat.mod_mul, hhigh, hsplit,
        Nat.add_mul_mod_self_left]

theorem carryDigits_eq (carry : Nat) : carryDigits carry = Nat.digits 10 carry := by
  fun_induction carryDigits carry with
  | case1 => simp
  | case2 carry hne ih => rw [ih, Nat.digits_def' (by decide) (Nat.pos_of_ne_zero hne)]

end Digits

section Unsigned

variable {size : Nat} {s : List Char} {result : List Nat}

theorem addDigit_eq {c : Char} (hc : c.isDigit) (hresult : ∀ x ∈ result, x < 256) :
    let v := 10 * Nat.ofDigits 256 result + (c.toNat - '0'.toNat)
    (256 ^ result.length ≤ v → addDigit result c = .error outOfRange) ∧
    (v < 256 ^ result.length → ∃ result', addDigit result c = .ok result' ∧
      result'.length = result.length ∧ (∀ x ∈ result', x < 256) ∧ Nat.ofDigits 256 result' = v) := by
  intro v
  have hdigit : '0' ≤ c ∧ c ≤ '9' := by simpa [Char.isDigit, Char.le_def] using hc
  have hcarry : c.toNat - '0'.toNat < 10 := by
    have hle : c.toNat ≤ '9'.toNat := hdigit.2
    have hnine : '9'.toNat = '0'.toNat + 9 := rfl
    omega
  obtain ⟨result', hok, hlength, hresult', hvalue⟩ := multiplyDigits_ok
    (show 256 * 10 ≤ 2 ^ 31 by decide) hresult hcarry
  have hrefused : ¬ (c < '0' ∨ '9' < c) := by
    rintro (hlow | hhigh)
    · exact absurd hdigit.1 (not_le.mpr hlow)
    · exact absurd hdigit.2 (not_le.mpr hhigh)
  have hv : Nat.ofDigits 256 result * 10 + (c.toNat - '0'.toNat) = v := by
    rw [Nat.mul_comm]
  rw [hv] at hok hvalue
  have hpos : 0 < 256 ^ result.length := Nat.pow_pos (by decide)
  rw [addDigit, if_neg hrefused, hok]
  refine ⟨fun hle => ?_, fun hlt => ⟨result', ?_, hlength, hresult', ?_⟩⟩
  · change (if v / _ ≠ 0 then Except.error outOfRange else _) = _
    rw [if_pos (Nat.div_pos hle hpos).ne']
  · change (if v / _ ≠ 0 then _ else Except.ok result') = _
    rw [if_neg (by rw [Nat.div_eq_of_lt hlt]; exact fun h => h rfl)]
  · rw [hvalue, Nat.mod_eq_of_lt hlt]

/-- A value that is too large stays so with every further digit. -/
theorem foldlM_addDigit (hs : ∀ c ∈ s, c.isDigit) (hresult : ∀ x ∈ result, x < 256) :
    let v := Nat.ofDigitChars 10 s (Nat.ofDigits 256 result)
    (256 ^ result.length ≤ v → s.foldlM addDigit result = .error outOfRange) ∧
    (v < 256 ^ result.length → ∃ result', s.foldlM addDigit result = .ok result' ∧
      result'.length = result.length ∧ (∀ x ∈ result', x < 256) ∧ Nat.ofDigits 256 result' = v) := by
  induction s generalizing result with
  | nil =>
    refine ⟨fun hle => absurd hle (not_le.mpr ?_), fun _ => ⟨result, rfl, rfl, hresult, ?_⟩⟩
    · simpa using Nat.ofDigits_lt_base_pow_length (by decide) hresult
    · simp
  | cons c s ih =>
    obtain ⟨hc, hs⟩ := forall_mem_cons.mp hs
    obtain ⟨hlarge, hfits⟩ := addDigit_eq hc hresult
    rw [foldlM_cons, Nat.ofDigitChars_cons]
    rcases Nat.lt_or_ge (10 * Nat.ofDigits 256 result + (c.toNat - '0'.toNat))
      (256 ^ result.length) with hlt | hge
    · obtain ⟨result', hok, hlength, hresult', hvalue⟩ := hfits hlt
      rw [hok, ← hvalue, ← hlength]
      exact ih hs hresult'
    · rw [hlarge hge]
      refine ⟨fun _ => rfl, fun hlt => absurd hlt (not_lt.mpr ?_)⟩
      rw [Nat.ofDigitChars_eq_ofDigitChars_zero]
      exact hge.trans (Nat.le_add_right_of_le (Nat.le_mul_of_pos_left _ (Nat.pow_pos (by decide))))

theorem decimalToBinary_eq (hs : ∀ c ∈ s, c.isDigit) :
    decimalToBinary size s = if Nat.ofDigitChars 10 s 0 < 256 ^ size then
      .ok (littleEndian size (Nat.ofDigitChars 10 s 0)) else .error outOfRange := by
  have hzero : Nat.ofDigits 256 (replicate size 0) = 0 := Nat.ofDigits_replicate_zero
  have hzeros : ∀ x ∈ replicate size 0, x < 256 := fun x hx => by
    rw [eq_of_mem_replicate hx]
    decide
  obtain ⟨hlarge, hfits⟩ := foldlM_addDigit hs hzeros
  rw [hzero, length_replicate] at hlarge hfits
  rw [decimalToBinary]
  split
  · obtain ⟨result, hok, hlength, hresult, hvalue⟩ := hfits ‹_›
    rw [hok, ← hvalue, ← hlength, ← map_ofNat_eq_littleEndian hresult]
    rfl
  · rw [hlarge (not_lt.mp ‹_›)]
    rfl

/-- The digits of the carry take the text up to the length of the next value. -/
theorem length_addByte {d v k : Nat} (b : UInt8) (hk : k = max d (Nat.toDigits 10 v).length)
    (hd : 0 < d) : k + (carryDigits ((v * 256 + b.toNat) / 10 ^ k)).length =
      max d (Nat.toDigits 10 (v * 256 + b.toNat)).length := by
  have hwidth : ∀ j, k ≤ j → ((Nat.toDigits 10 (v * 256 + b.toNat)).length ≤ j ↔
      (Nat.digits 10 ((v * 256 + b.toNat) / 10 ^ k)).length ≤ j - k) := by
    intro j hj
    rw [Nat.length_toDigits_le_iff (by decide) (by omega), Nat.digits_length_le_iff (by decide),
      Nat.div_lt_iff_lt_mul (Nat.pow_pos (by decide)), ← Nat.pow_add, Nat.sub_add_cancel hj]
  have hmono : (Nat.toDigits 10 v).length ≤ (Nat.toDigits 10 (v * 256 + b.toNat)).length := by
    rw [Nat.length_toDigits_le_iff (by decide) Nat.length_toDigits_pos]
    have hlt := (Nat.length_toDigits_le_iff (n := v * 256 + b.toNat) (b := 10) (by decide)
      Nat.length_toDigits_pos).mp le_rfl
    omega
  rw [carryDigits_eq]
  have hleast := hwidth (k + (Nat.digits 10 ((v * 256 + b.toNat) / 10 ^ k)).length) (by omega)
  have hless := hwidth (k + (Nat.digits 10 ((v * 256 + b.toNat) / 10 ^ k)).length - 1)
  omega

theorem foldrM_addByte {d : Nat} (hd : 0 < d) (bin : Bytes) :
    ∃ result, bin.foldrM addByte (replicate d 0) = .ok result ∧ (∀ x ∈ result, x < 10) ∧
      Nat.ofDigits 10 result = ofBytes bin ∧
      result.length = max d (Nat.toDigits 10 (ofBytes bin)).length := by
  induction bin with
  | nil =>
    refine ⟨replicate d 0, rfl, fun x hx => by rw [eq_of_mem_replicate hx]; decide,
      Nat.ofDigits_replicate_zero, ?_⟩
    rw [length_replicate]
    exact (max_eq_left hd).symm
  | cons b bin ih =>
    obtain ⟨digits, hok, hdigits, hvalue, hlength⟩ := ih
    obtain ⟨result, hmultiply, hwidth, hresult, hlow⟩ := multiplyDigits_ok
      (show 10 * 256 ≤ 2 ^ 31 by decide) hdigits b.toNat_lt
    rw [hvalue] at hmultiply hlow
    have hnext : ofBytes (b :: bin) = ofBytes bin * 256 + b.toNat := by rw [ofBytes_cons]; ring
    refine ⟨result ++ carryDigits ((ofBytes bin * 256 + b.toNat) / 10 ^ digits.length), ?_, ?_, ?_,
      ?_⟩
    · rw [foldrM_cons, hok]
      change (multiplyDigits 10 256 digits b.toNat >>= _) = _
      rw [hmultiply]
      rfl
    · intro x hx
      obtain hx | hx := mem_append.mp hx
      · exact hresult x hx
      · rw [carryDigits_eq] at hx
        exact Nat.digits_lt_base (by decide) hx
    · rw [Nat.ofDigits_append, carryDigits_eq, Nat.ofDigits_digits, hlow, hwidth, hnext,
        Nat.mod_add_div]
    · rw [length_append, hwidth, hnext]
      exact length_addByte b hlength hd

theorem binaryToDecimal_eq {d : Nat} (hd : 0 < d) (bin : Bytes) :
    binaryToDecimal bin d = .ok ((Nat.toDigits 10 (ofBytes bin)).leftpad d '0') := by
  obtain ⟨result, hok, hresult, hvalue, hlength⟩ := foldrM_addByte hd bin
  rw [binaryToDecimal, hok, ← hvalue, ← digitText_eq_leftpad hresult (by rw [hvalue, hlength])]
  rfl

/-- Both directions are exact for every width, and neither overflows. -/
theorem unsigned_decimals_exact : (∀ (size : Nat) (s : List Char), s ≠ [] → (∀ c ∈ s, c.isDigit) →
      decimalToBinary size s = if Nat.ofDigitChars 10 s 0 < 256 ^ size then
        .ok (littleEndian size (Nat.ofDigitChars 10 s 0)) else .error outOfRange) ∧
    ∀ (bin : Bytes) (d : Nat), 1 ≤ d →
      binaryToDecimal bin d = .ok ((Nat.toDigits 10 (ofBytes bin)).leftpad d '0') :=
  ⟨fun _ _ _ hs => decimalToBinary_eq hs, fun bin _ hd => binaryToDecimal_eq hd bin⟩

theorem unsigned_decimals_exact_word : decimalToBinary 2 "65535".toList = .ok [255, 255] ∧
      decimalToBinary 2 "65536".toList = .error outOfRange ∧
      binaryToDecimal [0, 1] 5 = .ok "00256".toList := by
  refine ⟨?_, ?_, ?_⟩
  · rw [unsigned_decimals_exact.1 2 "65535".toList (by decide) (by simp)]
    decide
  · rw [unsigned_decimals_exact.1 2 "65536".toList (by decide) (by simp)]
    decide
  · rw [unsigned_decimals_exact.2 [0, 1] 5 (by decide)]
    decide

end Unsigned

section Signed

variable {n d : Nat} {v : Int} {bin : Bytes}

def decimalText (minDigits : Nat) (v : Int) : List Char :=
  let digits := (Nat.toDigits 10 v.natAbs).leftpad minDigits '0'
  if v < 0 then '-' :: digits else digits

def twosComplement (n : Nat) (v : Int) : Bytes := littleEndian n (v % 256 ^ n).toNat

theorem ofBytes_negateFrom (bin : Bytes) (carry : Nat) : ofBytes (negateFrom bin carry) =
      (256 ^ bin.length - 1 - ofBytes bin + carry) % 256 ^ bin.length := by
  induction bin generalizing carry with
  | nil => simp [negateFrom, ofBytes, Nat.mod_one]
  | cons b bin ih =>
    have hb := b.toNat_lt
    have hbin := ofBytes_lt bin
    have hnot : (~~~b).toNat = 255 - b.toNat := UInt8.toNat_not b
    have hsplit : 256 ^ (b :: bin).length - 1 - ofBytes (b :: bin) + carry =
        255 - b.toNat + carry + 256 * (256 ^ bin.length - 1 - ofBytes bin) := by
      rw [ofBytes_cons, length_cons]
      omega
    rw [negateFrom, ofBytes_cons, ih, hsplit, length_cons, Nat.pow_succ', Nat.mod_mul, hnot,
      Nat.add_mul_mod_self_left, Nat.add_mul_div_left _ _ (by decide), UInt8.toNat_ofNat',
      Nat.add_comm ((255 - b.toNat + carry) / 256)]

theorem ofBytes_negate (bin : Bytes) :
    ofBytes (negate bin) = (256 ^ bin.length - ofBytes bin) % 256 ^ bin.length := by
  have hbin := ofBytes_lt bin
  rw [negate, ofBytes_negateFrom, show 256 ^ bin.length - 1 - ofBytes bin + 1 =
    256 ^ bin.length - ofBytes bin by omega]

/-- The highest bit is set when the value is in the upper half. -/
theorem isNegative_eq (hne : bin ≠ []) :
    isNegative bin = .ok (decide (256 ^ bin.length ≤ 2 * ofBytes bin)) := by
  obtain ⟨low, b, rfl⟩ := (eq_nil_or_concat' bin).resolve_left hne
  have hlow := ofBytes_lt low
  have hvalue : ofBytes (low ++ [b]) = ofBytes low + 256 ^ low.length * b.toNat := by
    simp [ofBytes, Nat.ofDigits_append]
  rw [isNegative, getLast?_append_cons, getLast?_singleton, length_append, length_singleton]
  simp only [Except.ok.injEq, Nat.testBit_eq_decide_div_mod_eq, decide_eq_decide]
  have hb := b.toNat_lt
  by_cases hhigh : 128 ≤ b.toNat
  · have hle := Nat.mul_le_mul_left (256 ^ low.length) hhigh
    omega
  · have hle := Nat.mul_le_mul_left (256 ^ low.length) (show b.toNat ≤ 127 by omega)
    omega

theorem two_mul_half (hn : 1 ≤ n) : 2 * (2 : Int) ^ (8 * n - 1) = 256 ^ n := by
  rw [← pow_succ', show 8 * n - 1 + 1 = 8 * n by omega, pow_mul]
  norm_num

/-- Numbers are printed with their sign, the least one included. -/
theorem signedBinaryToDecimal_twosComplement (hn : 1 ≤ n) (hd : 1 ≤ d)
    (hlow : -2 ^ (8 * n - 1) ≤ v) (hhigh : v < 2 ^ (8 * n - 1)) :
    signedBinaryToDecimal (twosComplement n v) d = .ok (decimalText d v) := by
  have hhalf := two_mul_half hn
  have hcast : ((256 ^ n : Nat) : Int) = 256 ^ n := by norm_num
  have hlength : (twosComplement n v).length = n := length_littleEndian _ _
  have hne : twosComplement n v ≠ [] := ne_nil_of_length_pos (by omega)
  have hvalue : ofBytes (twosComplement n v) = (v % 256 ^ n).toNat := by
    rw [twosComplement, ofBytes_littleEndian, Nat.mod_eq_of_lt]
    omega
  rw [signedBinaryToDecimal, isNegative_eq hne, hlength, decimalText]
  by_cases hv : v < 0
  · have hmod : v % 256 ^ n = v + 256 ^ n := by
      rw [← Int.add_emod_right, Int.emod_eq_of_lt (by omega) (by omega)]
    have hnegated : ofBytes (negate (twosComplement n v)) = v.natAbs := by
      rw [ofBytes_negate, hlength, hvalue, Nat.mod_eq_of_lt (by omega)]
      omega
    rw [if_pos hv, decide_eq_true (by omega)]
    rw [binaryToDecimal_eq hd, hnegated]
    rfl
  · have hmod : v % 256 ^ n = v := Int.emod_eq_of_lt (by omega) (by omega)
    rw [if_neg hv, decide_eq_false (by omega)]
    change binaryToDecimal (twosComplement n v) d = _
    rw [binaryToDecimal_eq hd, hvalue, hmod, show v.toNat = v.natAbs by omega]

theorem signedDecimalToBinary_minus (n : Nat) (s : List Char) :
    signedDecimalToBinary n ('-' :: s) = .error invalidNumber :=
  rfl

theorem signedDecimalToBinary_digits {s : List Char} (hne : s ≠ []) (hs : ∀ c ∈ s, c.isDigit) :
    signedDecimalToBinary n s = decimalToBinary n s := by
  obtain ⟨c, s, rfl⟩ := exists_cons_of_ne_nil hne
  have hc : c ≠ '-' := fun h => absurd (hs c mem_cons_self) (by rw [h]; decide)
  rw [signedDecimalToBinary, if_neg hc]

/-- Every number in range is printed right and is converted exactly if it has no sign. A text out
of range is refused exactly if it has a sign or does not fit without one. -/
theorem signed_decimals_iff (hn : 1 ≤ n) : (∀ v : Int, -2 ^ (8 * n - 1) ≤ v → v < 2 ^ (8 * n - 1) →
      signedBinaryToDecimal (twosComplement n v) 1 = .ok (decimalText 1 v) ∧
      (signedDecimalToBinary n (decimalText 1 v) = .ok (twosComplement n v) ↔ 0 ≤ v)) ∧
    ∀ s : List Char, s ≠ [] → (∀ c ∈ s, c.isDigit) →
      ((∃ e, signedDecimalToBinary n ('-' :: s) = .error e) ∧
      (2 ^ (8 * n - 1) ≤ Nat.ofDigitChars 10 s 0 →
        ((∃ e, signedDecimalToBinary n s = .error e) ↔ 256 ^ n ≤ Nat.ofDigitChars 10 s 0))) := by
  refine ⟨fun v hlow hhigh => ⟨signedBinaryToDecimal_twosComplement hn le_rfl hlow hhigh, ?_⟩,
    fun s hne hs => ⟨⟨_, signedDecimalToBinary_minus n s⟩, fun _ => ?_⟩⟩
  · have hpadding : (Nat.toDigits 10 v.natAbs).leftpad 1 '0' = Nat.toDigits 10 v.natAbs := by
      rw [leftpad, Nat.sub_eq_zero_of_le Nat.length_toDigits_pos, replicate_zero, nil_append]
    rw [decimalText, hpadding]
    split
    · exact iff_of_false nofun (by omega)
    · have hhalf := two_mul_half hn
      have hcast : ((256 ^ n : Nat) : Int) = 256 ^ n := by norm_num
      have hdigits : ∀ c ∈ Nat.toDigits 10 v.natAbs, c.isDigit := fun c hc =>
        Nat.isDigit_of_mem_toDigits (by decide) (by decide) hc
      rw [signedDecimalToBinary_digits Nat.toDigits_ne_nil hdigits, decimalToBinary_eq hdigits,
        Nat.ofDigitChars_ten_toDigits, if_pos (by omega), twosComplement,
        Int.emod_eq_of_lt (by omega) (by omega), show v.toNat = v.natAbs by omega]
      exact iff_of_true rfl (by omega)
  · rw [signedDecimalToBinary_digits hne hs, decimalToBinary_eq hs]
    split
    · exact iff_of_false nofun (by omega)
    · exact iff_of_true ⟨_, rfl⟩ (by omega)

theorem signed_decimals_iff_byte :
    signedDecimalToBinary 1 (decimalText 1 127) = .ok (twosComplement 1 127) ∧
      signedBinaryToDecimal (twosComplement 1 (-128)) 1 = .ok (decimalText 1 (-128)) := by
  obtain ⟨h, -⟩ := signed_decimals_iff (n := 1) le_rfl
  exact ⟨(h 127 (by decide) (by decide)).2.mpr (by decide), (h (-128) (by decide) (by decide)).1⟩

/-- The text of -1 is refused, and that of 128 is taken for a signed byte. -/
theorem signed_decimals_lost :
    (¬ ∀ (n : Nat) (v : Int), 1 ≤ n → -2 ^ (8 * n - 1) ≤ v → v < 2 ^ (8 * n - 1) →
      signedDecimalToBinary n (decimalText 1 v) = .ok (twosComplement n v)) ∧
    signedDecimalToBinary 1 "128".toList = .ok [128] := by
  refine ⟨fun h => ?_, by decide⟩
  have hminus := h 1 (-1) le_rfl (by decide) (by decide)
  exact absurd hminus (by decide)

end Signed

end DreamChain.DrmSharp
