import DreamChain.DrmSharp.AbiSerialization
import DreamChain.Library.Positional

/-!
The client's codecs of variable-length integers and of times. A number with a sign is written with
the sign in its lowest bit, and what is read back is a `uint`. A time is counted in ticks of 100 ns
from the year 1; on the wire it is a number of milliseconds, of seconds, or of half seconds.
-/

namespace DreamChain.DrmSharp
open Library List

section Varints

/-- `(UInt32)((n << 1) ^ (n >> 31))`. -/
def zigzag (n : Int32) : UInt32 := ((n <<< 1) ^^^ (n >>> 31)).toUInt32

def unzigzag (v : UInt32) : UInt32 :=
  if v &&& 1 ≠ 0 then ((~~~v) >>> 1) ||| 0x80000000 else v >>> 1

def writeVarInt32 (n : Int32) : Bytes := writeVarUint32 (zigzag n).toNat

def readVarInt32 (data : Bytes) (readIndex : Nat) : Throwing (UInt32 × Nat) := do
  let (v, readIndex) ← readVarUint32 data readIndex
  return (unzigzag (UInt32.ofNat v), readIndex)

variable {x : BitVec 32} {v bit readIndex n rounds : Nat}

theorem shiftRight_of_lt (h : x.toNat < 2 ^ 31) : x >>> 31 = 0#32 := by
  refine BitVec.eq_of_toNat_eq ?_
  rw [BitVec.toNat_ushiftRight, Nat.shiftRight_eq_div_pow, Nat.div_eq_of_lt h]
  rfl

/-- The sign of an `int` is spread over all bits. -/
theorem xor_sign (y : BitVec 32) :
    y ^^^ x.sshiftRight 31 = if x.toNat < 2 ^ 31 then y else ~~~y := by
  have hmsb := x.msb_eq_decide
  split <;> rename_i h
  · rw [BitVec.sshiftRight_eq_of_msb_false (by simpa [hmsb] using h), shiftRight_of_lt h,
      BitVec.xor_zero]
  · rw [BitVec.sshiftRight_eq_of_msb_true (by simpa [hmsb] using h), shiftRight_of_lt]
    · exact BitVec.xor_allOnes
    · rw [BitVec.toNat_not]
      omega

theorem toNat_zigzag (n : Int32) : (zigzag n).toNat =
    if n.toUInt32.toNat < 2 ^ 31 then 2 * n.toUInt32.toNat
      else 2 ^ 33 - 1 - 2 * n.toUInt32.toNat := by
  have hbits : (zigzag n).toBitVec = if n.toUInt32.toNat < 2 ^ 31 then n.toUInt32.toBitVec <<< 1
      else ~~~(n.toUInt32.toBitVec <<< 1) := xor_sign _
  have hlt := n.toUInt32.toNat_lt
  rw [← UInt32.toNat_toBitVec, hbits]
  split
  · rw [BitVec.toNat_shiftLeft, UInt32.toNat_toBitVec]
    omega
  · rw [BitVec.toNat_not, BitVec.toNat_shiftLeft, UInt32.toNat_toBitVec]
    omega

theorem toNat_unzigzag (v : UInt32) : (unzigzag v).toNat =
    if v.toNat % 2 = 0 then v.toNat / 2 else 2 ^ 31 + (2 ^ 32 - 1 - v.toNat) / 2 := by
  have hlow : v &&& 1 ≠ 0 ↔ v.toNat % 2 ≠ 0 := by
    rw [Ne, ← UInt32.toNat_inj, UInt32.toNat_and]
    simp
  rw [unzigzag, if_congr hlow rfl rfl, ite_not]
  split
  · exact UInt32.toNat_shiftRight ..
  · have hor := Nat.two_pow_add_eq_or_of_lt
      (show (2 ^ 32 - 1 - v.toNat) / 2 < 2 ^ 31 by omega) 1
    rw [Nat.mul_one] at hor
    rw [hor, Nat.or_comm, UInt32.toNat_or, UInt32.toNat_shiftRight, UInt32.toNat_not]
    rfl

theorem unzigzag_zigzag (n : Int32) : unzigzag (zigzag n) = n.toUInt32 := by
  have hlt := n.toUInt32.toNat_lt
  refine UInt32.toNat_inj.mp ?_
  rw [toNat_unzigzag, toNat_zigzag]
  split_ifs <;> omega

theorem toNat_eq_toInt_iff (n : Int32) : (n.toUInt32.toNat : Int) = n.toInt ↔ 0 ≤ n.toInt := by
  have hcond := n.toBitVec.toInt_eq_toNat_cond
  change n.toInt = if 2 * n.toUInt32.toNat < 2 ^ 32 then (n.toUInt32.toNat : Int) else _ at hcond
  split at hcond <;> omega

theorem length_writeGroups_le (rounds n : Nat) : (writeGroups rounds n).length ≤ rounds := by
  induction rounds generalizing n with
  | zero => exact Nat.le_refl _
  | succ rounds ih =>
    rw [writeGroups]
    split
    · simp
    · simpa using ih _

/-- The loop ends by itself. -/
theorem writeGroups_add (more : Nat) (h : n < 128 ^ (rounds + 1)) :
    writeGroups (rounds + 1 + more) n = writeGroups (rounds + 1) n := by
  induction rounds generalizing n with
  | zero =>
    have hlow : n / 128 = 0 := Nat.div_eq_of_lt (by simpa using h)
    rw [Nat.add_right_comm, writeGroups, writeGroups, if_pos hlow, if_pos hlow]
  | succ rounds ih =>
    have hrest : n / 128 < 128 ^ (rounds + 1) :=
      Nat.div_lt_of_lt_mul (by rwa [Nat.pow_succ, Nat.mul_comm] at h)
    rw [Nat.add_right_comm, writeGroups, writeGroups, ih hrest]

theorem readGroup_writeGroups (ds : Bytes) (hv : v < 2 ^ bit) (hn : n * 2 ^ bit < 2 ^ 32)
    (hbit : bit < 32) (hrounds : n < 128 ^ (rounds + 1)) :
    readGroup bit v readIndex (writeGroups (rounds + 1) n ++ ds) =
      .ok (v + n * 2 ^ bit, readIndex + (writeGroups (rounds + 1) n).length) := by
  refine writeGroups_induction (motive := fun bit v bytes r => ∀ readIndex,
    readGroup bit v readIndex (bytes ++ ds) = .ok (r, readIndex + bytes.length))
    ?_ ?_ hv hn hbit hrounds readIndex
  · intro bit v n hv hn hbit hlow readIndex
    simp only [cons_append, readGroup, toNat_group hlow, Nat.mod_eq_of_lt hbit]
    rw [if_neg (by omega), or_group hv hn, length_singleton]
  · intro bit v n bytes r hv hn hbit hlow hreads readIndex
    simp only [cons_append, readGroup, toNat_group hlow, Nat.mod_eq_of_lt (show bit < 32 by omega)]
    rw [if_pos (by omega), or_group hv hn, hreads, length_cons, Nat.add_assoc, Nat.add_comm 1]

theorem readVarUint32_written (before rest : Bytes) (v : UInt32) :
    readVarUint32 (before ++ (writeVarUint32 v.toNat ++ rest)) before.length =
      .ok (v.toNat, before.length + (writeVarUint32 v.toNat).length) := by
  have hlt := v.toNat_lt
  rw [readVarUint32, drop_left, writeVarUint32,
    readGroup_writeGroups rest (by decide) (by omega) (by decide) (by omega), Nat.pow_zero,
    Nat.mul_one, Nat.zero_add]

/-- What was written is read back, as a `uint`: the number itself unless it is negative. -/
theorem varints_exact_iff (before rest : Bytes) : (∀ v : UInt32,
      readVarUint32 (before ++ (writeVarUint32 v.toNat ++ rest)) before.length =
        .ok (v.toNat, before.length + (writeVarUint32 v.toNat).length) ∧
      (writeVarUint32 v.toNat).length ≤ 5 ∧
      ∀ more, writeGroups (5 + more) v.toNat = writeVarUint32 v.toNat) ∧
    ∀ n : Int32,
      readVarInt32 (before ++ (writeVarInt32 n ++ rest)) before.length =
        .ok (n.toUInt32, before.length + (writeVarInt32 n).length) ∧
      (writeVarInt32 n).length ≤ 5 ∧ ((n.toUInt32.toNat : Int) = n.toInt ↔ 0 ≤ n.toInt) := by
  refine ⟨fun v => ⟨readVarUint32_written before rest v, length_writeGroups_le 5 _, fun more => ?_⟩,
    fun n => ⟨?_, length_writeGroups_le 5 _, toNat_eq_toInt_iff n⟩⟩
  · have hlt := v.toNat_lt
    exact writeGroups_add more (by omega)
  · simp only [readVarInt32, writeVarInt32, readVarUint32_written, bind, Except.bind,
      UInt32.ofNat_toNat, unzigzag_zigzag]
    rfl

theorem varint_unsigned : readVarInt32 (writeVarInt32 (-1)) 0 = .ok (4294967295, 1) := by
  decide

end Varints

section Times

/-- The ticks of `new DateTime(1970, 1, 1)`. -/
def epochTicks : Int := 621355968000000000

def newDateTime (ticks : Int) : Throwing Int :=
  if 0 ≤ ticks ∧ ticks ≤ 3155378975999999999 then .ok ticks
  else .error ⟨.argumentException, "ticks", []⟩

/-- `Math.Round` of a quotient: halves go to the even neighbour. Times are far below `2 ^ 53`
milliseconds, so that the double is a half exactly when the quotient is. -/
def roundQuotient (x d : Int) : Int :=
  if 2 * (x % d) < d then x / d
  else if d < 2 * (x % d) then x / d + 1
  else x / d + x / d % 2

def dateToTimePoint (value : Int) : Nat := ((value - epochTicks).tdiv 10000 % 2 ^ 64).toNat

def timePointToDate (ticks : Int) : Throwing Int :=
  newDateTime ((ticks + epochTicks).bmod 0x10000000000000000)

def dateToTimePointSec (value : Int) : Nat := ((value - epochTicks).tdiv 10000000 % 0x100000000).toNat

def timePointSecToDate (secs : Nat) : Throwing Int :=
  newDateTime (secs * 10000000 + epochTicks)

def dateToBlockTimestamp (value : Int) : Nat :=
  (roundQuotient ((value - epochTicks).tdiv 10000 - 946684800000) 500 % 0x100000000).toNat

def blockTimestampToDate (slot : Nat) : Throwing Int :=
  newDateTime (slot * 10000 * 500 + 946684800000 + epochTicks)

def writeUint32 (v : Nat) : Bytes := littleEndian 4 v

def readUint32 (data : Bytes) (readIndex : Nat) : Throwing (Nat × Nat) :=
  if readIndex + 4 ≤ data.length then .ok (ofBytes ((data.drop readIndex).take 4), readIndex + 4)
  else .error ⟨.argumentException, "", []⟩

def readDate (toDate : Nat → Throwing Int) (data : Bytes) (readIndex : Nat) :
    Throwing (Int × Nat) := do
  let (v, readIndex) ← readUint32 data readIndex
  return (← toDate v, readIndex)

/-- The high word is a quotient of doubles, which is exact below `2 ^ 53`. -/
def writeTimePoint (value : Int) : Bytes :=
  let ticks := dateToTimePoint value
  writeUint32 (ticks % 0x100000000) ++ writeUint32 (ticks / 0x100000000)

def readTimePoint (data : Bytes) (readIndex : Nat) : Throwing (Int × Nat) := do
  let (low, readIndex) ← readUint32 data readIndex
  readDate (fun high => timePointToDate
    ((high * 0x100000000 + low : Int).bmod 0x10000000000000000)) data readIndex

def writeTimePointSec (value : Int) : Bytes := writeUint32 (dateToTimePointSec value)

def readTimePointSec (data : Bytes) (readIndex : Nat) : Throwing (Int × Nat) :=
  readDate timePointSecToDate data readIndex

def writeBlockTimestampType (value : Int) : Bytes := writeUint32 (dateToBlockTimestamp value)

def readBlockTimestampType (data : Bytes) (readIndex : Nat) : Throwing (Int × Nat) :=
  readDate blockTimestampToDate data readIndex

/-- The slot the chain gives a time point, in microseconds from 1970. The difference is taken in 64
bits without a sign. -/
def setTimePoint (t : Int) : Nat := ((t.tdiv 1000 - 946684800000) % 2 ^ 64 / 500 % 0x100000000).toNat

variable (before rest : Bytes)

theorem ok_bind {α β : Type} (a : α) (f : α → Throwing β) : (.ok a >>= f) = f a := rfl

theorem readUint32_written (v : Nat) :
    readUint32 (before ++ (writeUint32 v ++ rest)) before.length =
      .ok (v % 0x100000000, before.length + 4) := by
  rw [readUint32, if_pos (by simp [writeUint32]), drop_left, writeUint32,
    take_left' (length_littleEndian 4 v), ofBytes_littleEndian, show 256 ^ 4 = 0x100000000 by decide]

theorem readDate_written {f : Nat → Throwing Int} {v : Nat} {date : Int}
    (h : f (v % 0x100000000) = .ok date) :
    readDate f (before ++ (writeUint32 v ++ rest)) before.length =
      .ok (date, before.length + 4) := by
  simp only [readDate, readUint32_written, ok_bind, h]
  rfl

theorem readTimePoint_words {low high : Nat} {date : Int}
    (h : timePointToDate (((high % 0x100000000 : Nat) * 0x100000000 +
      (low % 0x100000000 : Nat) : Int).bmod 0x10000000000000000) = .ok date) :
    readTimePoint (before ++ (writeUint32 low ++ (writeUint32 high ++ rest))) before.length =
      .ok (date, before.length + 8) := by
  have hhigh := readDate_written (before ++ writeUint32 low) rest (v := high) (f := fun high =>
    timePointToDate ((high * 0x100000000 + (low % 0x100000000 : Nat) : Int).bmod
      0x10000000000000000)) h
  rw [length_append, writeUint32, append_assoc] at hhigh
  rw [readTimePoint, readUint32_written before, ok_bind]
  exact hhigh

/-- The date a number of milliseconds after 1970. -/
def utc (ms : Nat) : Int := epochTicks + ms * 10000

theorem dateToTimePoint_utc {ms : Nat} (h : ms < 2 ^ 64) : dateToTimePoint (utc ms) = ms := by
  rw [dateToTimePoint, utc, add_sub_cancel_left, Int.mul_tdiv_cancel _ (by decide)]
  omega

theorem newDateTime_eq {ticks : Int} (hlow : 0 ≤ ticks) (hhigh : ticks ≤ 3155378975999999999) :
    newDateTime ticks = .ok ticks := if_pos ⟨hlow, hhigh⟩

theorem bmod_eq {x : Int} (hlow : 0 ≤ x) (hhigh : x < 2 ^ 63) : x.bmod 0x10000000000000000 = x := by
  rw [Int.bmod_def, if_pos (by omega), Int.emod_eq_of_lt hlow (by omega)]

theorem timePointToDate_eq {ticks : Nat} (h : ticks < 253402300800000) :
    timePointToDate ticks = .ok (epochTicks + ticks) := by
  have hepoch : epochTicks = 621355968000000000 := rfl
  rw [timePointToDate, bmod_eq (by omega) (by omega), newDateTime_eq (by omega) (by omega),
    Int.add_comm]

theorem readTimePoint_written {ms : Nat} (h : ms < 253402300800000) :
    readTimePoint (before ++ (writeTimePoint (utc ms) ++ rest)) before.length =
      .ok (epochTicks + ms, before.length + 8) := by
  rw [writeTimePoint, dateToTimePoint_utc (by omega)]
  refine readTimePoint_words before rest ?_
  rw [show ((ms / 0x100000000 % 0x100000000 : Nat) : Int) * 0x100000000 +
    (ms % 0x100000000 % 0x100000000 : Nat) = ms by omega, bmod_eq (by omega) (by omega)]
  exact timePointToDate_eq h

theorem readTimePointSec_written {secs : Nat} (h : secs < 0x100000000) :
    readTimePointSec (before ++ (writeTimePointSec (utc (secs * 1000)) ++ rest)) before.length =
      .ok (utc (secs * 1000), before.length + 4) := by
  have hepoch : epochTicks = 621355968000000000 := rfl
  have hsecs : dateToTimePointSec (utc (secs * 1000)) = secs := by
    rw [dateToTimePointSec, utc, add_sub_cancel_left,
      show ((secs * 1000 : Nat) : Int) * 10000 = secs * 10000000 by omega,
      Int.mul_tdiv_cancel _ (by decide)]
    omega
  rw [writeTimePointSec, hsecs]
  refine readDate_written before rest ?_
  rw [Nat.mod_eq_of_lt h, timePointSecToDate, newDateTime_eq (by omega) (by omega), utc,
    Except.ok.injEq]
  omega

theorem dateToBlockTimestamp_utc (slot : Nat) :
    dateToBlockTimestamp (utc (946684800000 + slot * 500)) = slot % 0x100000000 := by
  rw [dateToBlockTimestamp, utc, add_sub_cancel_left, Int.mul_tdiv_cancel _ (by decide),
    roundQuotient]
  omega

/-- Milliseconds are added to ticks. -/
theorem readBlockTimestampType_written (slot : Nat) :
    readBlockTimestampType (before ++ (writeBlockTimestampType
      (utc (946684800000 + slot * 500)) ++ rest)) before.length =
      .ok (epochTicks + 946684800000 + slot % 0x100000000 * 5000000, before.length + 4) := by
  have hepoch : epochTicks = 621355968000000000 := rfl
  rw [writeBlockTimestampType, dateToBlockTimestamp_utc]
  refine readDate_written before rest ?_
  rw [Nat.mod_mod, blockTimestampToDate, newDateTime_eq (by omega) (by omega), Except.ok.injEq]
  omega

theorem setTimePoint_slot {slot : Nat} (h : slot < 2 ^ 48) :
    setTimePoint ((946684800000 + slot * 500 : Nat) * 1000) = slot % 0x100000000 := by
  rw [setTimePoint, Int.mul_tdiv_cancel _ (by decide),
    show (946684800000 + slot * 500 : Nat) - (946684800000 : Int) = slot * 500 by omega,
    Int.emod_eq_of_lt (by omega) (show slot * 500 < (2 : Int) ^ 64 by omega)]
  omega

/-- Only whole seconds come back as they were. -/
theorem time_codecs_iff : (∀ ms : Nat, ms < 253402300800000 →
      (readTimePoint (before ++ (writeTimePoint (utc ms) ++ rest)) before.length =
        .ok (utc ms, before.length + 8) ↔ ms = 0)) ∧
    (∀ secs : Nat, secs < 0x100000000 →
      readTimePointSec (before ++ (writeTimePointSec (utc (secs * 1000)) ++ rest)) before.length =
        .ok (utc (secs * 1000), before.length + 4)) ∧
    ∀ slot ms : Nat, ms = 946684800000 + slot * 500 → ms < 253402300800000 →
      dateToBlockTimestamp (utc ms) = setTimePoint (ms * 1000) ∧
      readBlockTimestampType (before ++ (writeBlockTimestampType (utc ms) ++ rest)) before.length ≠
        .ok (utc ms, before.length + 4) := by
  refine ⟨fun ms hms => ?_, fun secs hsecs => readTimePointSec_written before rest hsecs, ?_⟩
  · rw [readTimePoint_written before rest hms, Except.ok.injEq, Prod.mk.injEq, utc]
    omega
  · rintro slot _ rfl hms
    refine ⟨(dateToBlockTimestamp_utc slot).trans (setTimePoint_slot (by omega)).symm, fun h => ?_⟩
    rw [readBlockTimestampType_written, Except.ok.injEq, Prod.mk.injEq, utc] at h
    omega

theorem time_codecs_iff_second :
    readTimePointSec (writeTimePointSec (utc 1606000000000)) 0 = .ok (utc 1606000000000, 4) := by
  simpa using (time_codecs_iff [] []).2.1 1606000000 (by decide)

/-- The start of the year 2000, which is slot 0. -/
theorem times_lost :
    readTimePoint (writeTimePoint (utc 946684800000)) 0 = .ok (epochTicks + 946684800000, 8) ∧
      readBlockTimestampType (writeBlockTimestampType (utc 946684800000)) 0 =
        .ok (epochTicks + 946684800000, 4) :=
  ⟨by simpa using
      readTimePoint_written [] [] (show 946684800000 < 253402300800000 by decide),
    by simpa using readBlockTimestampType_written [] [] 0⟩

end Times

end DreamChain.DrmSharp
