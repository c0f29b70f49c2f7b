import DreamChain.Chain.Action
import DreamChain.DrmSharp.AbiSerialization
import DreamChain.Library.Positional

/-!
Names on both sides. A name is a number of 64 bits: twelve characters of five bits, from the highest
bit down, and a thirteenth one of four. The chain shifts the characters of a text into the number;
the client sets and reads the bits of an array of eight bytes one by one.
-/

namespace DreamChain
open Library List

section Chain

variable {v i : Nat}

/-- The characters of the lowest bits of a name, five bits each and four for the last. -/
def nameChars (v left : Nat) : List Char :=
  if left = 0 then []
  else charmap.getD (v / 2 ^ (left - 5) % 2 ^ min 5 left) '.' :: nameChars v (left - 5)

theorem reversedChars_eq (v : Nat) : reversedChars v = (nameChars v 64).reverse := by
  simp [nameChars, reversedChars, List.range, List.range.loop]

theorem charToSymbol_charmap : ∀ c < 2 ^ 5, charToSymbol (charmap.getD c '.') = c := by
  decide

theorem stringToNameFrom_nameChars (hi : i ≤ 13) :
    stringToNameFrom (nameChars v (64 - 5 * i)) i = v % 2 ^ (64 - 5 * i) := by
  induction hi using Nat.decreasingInduction with
  | self => simp [nameChars, stringToNameFrom, Nat.mod_one]
  | of_succ i hi ih =>
    rw [nameChars, if_neg (by omega), stringToNameFrom]
    split
    · have hleft : 64 - 5 * i = 64 - 5 * (i + 1) + 5 := by omega
      rw [show 64 - 5 * i - 5 = 64 - 5 * (i + 1) by omega, ih, Nat.min_eq_left (by omega),
        charToSymbol_charmap _ (Nat.mod_lt _ (by decide)), hleft, Nat.mod_mod, Nat.pow_add,
        Nat.mod_mul, Nat.mul_comm, Nat.add_comm]
    · obtain rfl : i = 12 := by omega
      rw [show v / 2 ^ (64 - 5 * 12 - 5) % 2 ^ min 5 (64 - 5 * 12) = v % 2 ^ 4 by simp,
        charToSymbol_charmap _ (by omega), Nat.mod_mod]

theorem stringToNameFrom_append_dots (s : List Char) (n : Nat) :
    stringToNameFrom (s ++ replicate n '.') i = stringToNameFrom s i := by
  induction s generalizing i with
  | nil =>
    induction n generalizing i with
    | zero => rfl
    | succ n ih =>
      have hrest := ih (i := i + 1)
      have hdot : charToSymbol '.' = 0 := by decide
      rw [nil_append] at hrest ⊢
      simp [replicate_succ, stringToNameFrom, hrest, hdot]
  | cons c s ih => rw [cons_append, stringToNameFrom, ih, stringToNameFrom]

/-- The dots at the end make no difference. -/
theorem exists_dots (v : Nat) : ∃ n, nameChars v 64 = nameToString v ++ replicate n '.' := by
  have hdots : ∀ c ∈ (reversedChars v).takeWhile (· = '.'), c = '.' := fun c hc =>
    of_decide_eq_true (all_eq_true.mp all_takeWhile c hc)
  refine ⟨((reversedChars v).takeWhile (· = '.')).length, ?_⟩
  rw [← reverse_replicate, ← eq_replicate_of_mem hdots, nameToString, ← reverse_append,
    takeWhile_append_dropWhile, reversedChars_eq, reverse_reverse]

theorem stringToNameFrom_nameToString (hv : v < 2 ^ 64) :
    stringToNameFrom (nameToString v) 0 = v := by
  obtain ⟨n, hn⟩ := exists_dots v
  rw [← stringToNameFrom_append_dots _ n, ← hn]
  exact (stringToNameFrom_nameChars (i := 0) (by decide)).trans (Nat.mod_eq_of_lt hv)

end Chain

namespace DrmSharp

def charToSymbol (c : Char) : Nat :=
  if 'a' ≤ c ∧ c ≤ 'z' then c.toNat - 'a'.toNat + 6
  else if '1' ≤ c ∧ c ≤ '5' then c.toNat - '1'.toNat + 1
  else 0

/-- The state is the array and one more than `bit`. -/
def putBit (value : Nat) (st : Bytes × Nat) : Bytes × Nat :=
  if 0 < st.2 then
    (st.1.modify ((st.2 - 1) / 8) (· ||| UInt8.ofNat ((value % 2) <<< ((st.2 - 1) % 8))), st.2 - 1)
  else st

def putBits (c : Nat) : Nat → Bytes × Nat → Bytes × Nat
  | 0, st => st
  | j + 1, st => putBits c j (putBit (c >>> j) st)

def putSymbol (st : Bytes × Nat) (char : Char) : Bytes × Nat :=
  let c := charToSymbol char
  putBits (if st.2 < 6 then (c <<< 1) % 256 else c) 5 st

def convertNameToBytes (name : List Char) : Bytes := (name.foldl putSymbol (replicate 8 0, 64)).1

def readBit (a : Bytes) (bit : Nat) : Throwing Nat :=
  match a[bit / 8]? with
  | some b => .ok (b.toNat >>> (bit % 8) % 2)
  | none => .error indexOutOfRange

/-- `left` is one more than `bit`. -/
def readBits (a : Bytes) : Nat → Nat → Nat → Throwing Nat
  | 0, _, c => .ok c
  | _ + 1, 0, c => .ok c
  | i + 1, left + 1, c => do readBits a i left (c <<< 1 ||| (← readBit a left))

def symbolToChar (c : Nat) : Char :=
  if 6 ≤ c then Char.ofNat (c + 'a'.toNat - 6)
  else if 1 ≤ c then Char.ofNat (c + '1'.toNat - 1)
  else '.'

def readSymbols (a : Bytes) (left : Nat) : Throwing (List Char) :=
  if left = 0 then .ok []
  else do
    let c ← readBits a 5 left 0
    let result ← readSymbols a (left - 5)
    return symbolToChar c :: result

def readName (data : Bytes) (readIndex : Nat) : Throwing (List Char × Nat) := do
  let result ← readSymbols ((data.drop readIndex).take 8) 64
  if result = replicate 13 '.' then return (result, readIndex + 8)
  else return ((result.reverse.dropWhile (· = '.')).reverse, readIndex + 8)

section Writing

variable {st : Bytes × Nat} {v : Nat}

/-- The array with the value `v`, whose lowest bits are still to be set. -/
structure Filled (st : Bytes × Nat) (v : Nat) : Prop where
  length : st.1.length = 8
  bound : st.2 ≤ 64
  value : ofBytes st.1 = v
  low : v % 2 ^ st.2 = 0

theorem Filled.putBit (h : Filled st v) (hleft : 0 < st.2) (value : Nat) :
    Filled (putBit value st) (v + value % 2 * 2 ^ (st.2 - 1)) := by
  obtain ⟨a, left⟩ := st
  obtain ⟨left, rfl⟩ := Nat.exists_eq_succ_of_ne_zero hleft.ne'
  have hbound := h.bound
  have hdvd : 2 ^ left ∣ v :=
    (Nat.pow_dvd_pow 2 (Nat.le_succ left)).trans (Nat.dvd_of_mod_eq_zero h.low)
  rw [DrmSharp.putBit, if_pos hleft]
  refine ⟨by rw [length_modify, h.length], Nat.le_of_succ_le hbound, ?_, ?_⟩
  · rw [← h.value]
    exact ofBytes_setBit (by rw [h.length]; exact hbound) (Nat.mod_lt _ (by decide))
      (h.value.symm ▸ h.low)
  · exact Nat.mod_eq_zero_of_dvd (Nat.dvd_add hdvd (Nat.dvd_mul_left _ _))

theorem Filled.putBits (h : Filled st v) (c j : Nat) :
    Filled (putBits c j st) (v + c % 2 ^ j * 2 ^ st.2 / 2 ^ j) ∧
      (DrmSharp.putBits c j st).2 = st.2 - j := by
  induction j generalizing st v with
  | zero => simpa [DrmSharp.putBits, Nat.mod_one] using h
  | succ j ih =>
    rw [DrmSharp.putBits]
    rcases Nat.eq_zero_or_pos st.2 with hzero | hpos
    · have hsame : DrmSharp.putBit (c >>> j) st = st := if_neg (by omega)
      have hnone : ∀ k, c % 2 ^ k * 2 ^ 0 / 2 ^ k = 0 := fun k => by
        rw [Nat.pow_zero, Nat.mul_one, Nat.div_eq_of_lt (Nat.mod_lt _ (Nat.two_pow_pos k))]
      obtain ⟨hfilled, hleft⟩ := ih h
      rw [hzero, hnone] at hfilled ⊢
      rw [hsame]
      exact ⟨hfilled, by omega⟩
    · obtain ⟨hfilled, hleft⟩ := ih (h.putBit hpos (c >>> j))
      have hnext : (DrmSharp.putBit (c >>> j) st).2 = st.2 - 1 := by
        rw [DrmSharp.putBit, if_pos hpos]
      rw [hnext] at hfilled hleft
      refine ⟨?_, by omega⟩
      convert hfilled using 1
      obtain ⟨k, hk⟩ := Nat.exists_eq_succ_of_ne_zero hpos.ne'
      rw [Nat.mod_pow_succ, hk, Nat.succ_sub_one, Nat.shiftRight_eq_div_pow, Nat.pow_succ,
        Nat.pow_succ, ← Nat.mul_assoc, Nat.mul_div_mul_right _ _ (by decide), Nat.add_mul,
        Nat.mul_assoc (2 ^ j), Nat.add_mul_div_left _ _ (Nat.two_pow_pos j)]
      omega

/-- The thirteenth symbol loses its highest bit on both sides. -/
theorem Filled.putSymbols {name : List Char} {i : Nat} (h : Filled st v) (hst : st.2 = 64 - 5 * i)
    (hi : i + name.length ≤ 13) :
    Filled (name.foldl putSymbol st) (v + stringToNameFrom name i) := by
  induction name generalizing st v i with
  | nil => exact h
  | cons char name ih =>
    rw [length_cons] at hi
    obtain ⟨hfilled, hleft⟩ := h.putBits
      (if st.2 < 6 then (charToSymbol char <<< 1) % 256 else charToSymbol char) 5
    have hnext := ih (i := i + 1) (show Filled (putSymbol st char) _ from hfilled)
      (by rw [putSymbol]; omega) (by omega)
    rw [foldl_cons]
    convert hnext using 1
    change _ + (if i < 12 then charToSymbol char % _ * _ + _ else charToSymbol char % _) = _
    rw [hst]
    by_cases hlast : i < 12
    · rw [if_pos hlast, if_neg (by omega), Nat.add_assoc,
        show 64 - 5 * i = 64 - 5 * (i + 1) + 5 by omega, Nat.pow_add, ← Nat.mul_assoc,
        Nat.mul_div_cancel _ (by decide)]
    · obtain rfl : i = 12 := by omega
      obtain rfl := length_eq_zero_iff.mp (show name.length = 0 by omega)
      rw [if_neg hlast, if_pos (by decide), stringToNameFrom]
      omega

theorem convertNameToBytes_eq {name : List Char} (h : name.length ≤ 13) :
    convertNameToBytes name = littleEndian 8 (stringToNameFrom name 0) := by
  have hstart : Filled (replicate 8 0, 64) 0 := ⟨rfl, le_rfl, rfl, rfl⟩
  have hfilled := hstart.putSymbols (i := 0) rfl (show 0 + name.length ≤ 13 by omega)
  rw [convertNameToBytes, ← littleEndian_ofBytes (name.foldl putSymbol _).1, hfilled.length,
    hfilled.value]
  congr 1
  exact Nat.zero_add _

end Writing

section Reading

variable {a : Bytes} {left : Nat}

theorem readBits_eq (i c : Nat) (h : left ≤ 8 * a.length) :
    readBits a i left c =
      .ok (c * 2 ^ min i left + ofBytes a / 2 ^ (left - i) % 2 ^ min i left) := by
  induction i generalizing left c with
  | zero => simp [readBits, Nat.mod_one]
  | succ i ih =>
    cases left with
    | zero => simp [readBits, Nat.mod_one]
    | succ left =>
      obtain ⟨b, hb, hbit⟩ := exists_bit (show left < 8 * a.length from h)
      have hread : readBit a left = .ok (ofBytes a / 2 ^ left % 2) := by
        simp only [readBit, hb, hbit]
      have hor := Nat.two_pow_add_eq_or_of_lt
        (show ofBytes a / 2 ^ left % 2 < 2 ^ 1 from Nat.mod_lt _ (by decide)) c
      rw [readBits, hread]
      change readBits a i left _ = _
      rw [ih _ (by omega), Nat.shiftLeft_eq, Nat.mul_comm c, ← hor, Nat.add_min_add_right,
        Nat.add_sub_add_right, Nat.mod_pow_succ, Nat.div_div_eq_div_mul, ← Nat.pow_add,
        show left - i + min i left = left by omega, Nat.pow_succ]
      congr 1
      ring

theorem symbolToChar_eq : ∀ c < 2 ^ 5, symbolToChar c = charmap.getD c '.' := by
  decide

theorem readSymbols_eq (h : left ≤ 8 * a.length) :
    readSymbols a left = .ok (nameChars (ofBytes a) left) := by
  induction left using Nat.strong_induction_on with
  | _ left ih =>
    rw [readSymbols, nameChars]
    split
    · rfl
    · have hsymbol : ofBytes a / 2 ^ (left - 5) % 2 ^ min 5 left < 2 ^ 5 :=
        (Nat.mod_lt _ (Nat.two_pow_pos _)).trans_le
          (Nat.pow_le_pow_right (by decide) (Nat.min_le_left 5 left))
      rw [readBits_eq 5 0 h, ih (left - 5) (by omega) (by omega), Nat.zero_mul, Nat.zero_add,
        ← symbolToChar_eq _ hsymbol]
      rfl

end Reading

/-- Both sides write the same bytes for a text, and print the same text for a name that is not
zero. -/
theorem names_agree (before rest : Bytes) :
    (∀ name : List Char, name.length ≤ 13 →
      convertNameToBytes name = littleEndian 8 (stringToNameFrom name 0)) ∧
    ∀ v < 2 ^ 64, ∃ text,
      readName (before ++ (littleEndian 8 v ++ rest)) before.length =
        .ok (text, before.length + 8) ∧
      (v ≠ 0 → text = nameToString v) ∧ convertNameToBytes text = littleEndian 8 v := by
  refine ⟨fun _ => convertNameToBytes_eq, fun v hv => ?_⟩
  have hvalue : ofBytes (littleEndian 8 v) = v := by
    rw [ofBytes_littleEndian]
    exact Nat.mod_eq_of_lt hv
  have hread := readSymbols_eq (show 64 ≤ 8 * (littleEndian 8 v).length by simp)
  rw [hvalue] at hread
  have hsame : ((nameChars v 64).reverse.dropWhile (· = '.')).reverse = nameToString v := by
    rw [nameToString, reversedChars_eq]
  have hlength : (nameToString v).length ≤ 13 := by
    rw [nameToString, length_reverse]
    exact (dropWhile_sublist _).length_le.trans (by simp [reversedChars])
  simp only [readName, drop_left, take_left' (length_littleEndian 8 v), hread]
  change ∃ text, (if nameChars v 64 = replicate 13 '.' then _ else _) = _ ∧ _
  split
  · rename_i hdots
    have hzero := (stringToNameFrom_nameChars (v := v) (i := 0) (by decide)).symm
    rw [Nat.mod_eq_of_lt hv, hdots] at hzero
    refine ⟨_, rfl, fun h => absurd hzero h, ?_⟩
    rw [hdots, convertNameToBytes_eq (by simp), ← hzero]
  · refine ⟨_, rfl, fun _ => hsame, ?_⟩
    rw [hsame, convertNameToBytes_eq hlength, stringToNameFrom_nameToString hv]

theorem names_agree_eosio :
    convertNameToBytes "eosio".toList = littleEndian 8 6138663577826885632 ∧
      ∃ text, readName (littleEndian 8 6138663577826885632) 0 = .ok (text, 8) ∧
        text = nameToString 6138663577826885632 := by
  obtain ⟨hwrite, hread⟩ := names_agree [] []
  obtain ⟨text, htext, hprint, -⟩ := hread 6138663577826885632 (by decide)
  exact ⟨(hwrite "eosio".toList (by decide)).trans (by decide), text, by simpa using htext,
    hprint (by decide)⟩

end DrmSharp

end DreamChain
