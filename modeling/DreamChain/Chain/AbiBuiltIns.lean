import DreamChain.Chain.AbiSerializer

/-!
Built-in types of the ABI serializer. The template `pack_unpack` makes the codec of a type, of
its arrays and of its optionals from the codec of one value; it round-trips when that codec does
and never yields null. The integer `int8` is an instance.
-/

namespace DreamChain
open Library List AbiSerializer

theorem rethrow_eq_ok {α : Type} {x : AbiResult α} {e : AbiException} {a : α} :
    rethrow x e = .ok a ↔ x = .ok a := by
  cases x <;> simp [rethrow, Except.mapError]

variable {n : Nat}

theorem unpackUnsignedInt_packUnsignedInt (hn : n < 2 ^ 32) (stream : Bytes) :
    unpackUnsignedInt (packUnsignedInt n ++ stream) = .ok (n, stream) := by
  have hread : readGroups 32 0 0 (writeGroups 5 n ++ stream) = some (0 + n * 2 ^ 0, stream) :=
    readGroups_writeGroups stream (by decide) (by simpa using hn) (by decide) (by omega)
  rw [unpackUnsignedInt, packUnsignedInt, u32, Nat.mod_eq_of_lt hn, hread]
  simp

theorem unpackUnsignedInt_lt {stream rest : Bytes} (h : unpackUnsignedInt stream = .ok (n, rest)) :
    n < 2 ^ 32 := by
  rw [unpackUnsignedInt] at h
  split at h
  · rename_i r hr
    cases h
    exact readGroups_lt (by decide) hr
  · cases h

theorem packUnsignedInt_ne_nil (n : Nat) : packUnsignedInt n ≠ [] := writeGroups_ne_nil 4 _

/-- A value is written, and read again from the bytes written. Unless extensions may be missing
at its end, any bytes may follow. -/
def Survives (read : Decoder)
    (written : AbiResult Bytes) (extensionsAllowed : Bool) (v : Variant) : Prop :=
  ∃ out, written = .ok out ∧ out ≠ [] ∧
    ∀ rest, (extensionsAllowed = true → rest = []) → read (out ++ rest) = .ok (v, rest)

namespace AbiSerializer

variable {write : Encoder} {read : Decoder}

variable {size : Nat} {stream rest : Bytes} {vars : List Variant}

variable (h : unpackSequence read size stream = .ok (vars, rest))
include h

theorem length_unpackSequence : vars.length = size := by
  induction size generalizing stream vars with
  | zero =>
    cases h
    rfl
  | succ size ih =>
    obtain ⟨⟨v, stream⟩, _, h⟩ := bind_eq_ok.mp h
    obtain ⟨⟨vars, rest⟩, hrest, h⟩ := bind_eq_ok.mp h
    cases h
    exact congrArg Nat.succ (ih hrest)

theorem survives_sequence
    (hvalue : ∀ v ∈ vars, ∀ stream rest, read stream = .ok (v, rest) →
      Survives read (write v) false v) : ∃ out, packSequence write vars = .ok out ∧
      ∀ rest, unpackSequence read size (out ++ rest) = .ok (vars, rest) := by
  induction size generalizing stream vars with
  | zero =>
    cases h
    exact ⟨[], rfl, fun _ => rfl⟩
  | succ size ih =>
    obtain ⟨⟨v, stream'⟩, hread, h⟩ := bind_eq_ok.mp h
    obtain ⟨⟨vars, rest⟩, hrest, h⟩ := bind_eq_ok.mp h
    cases h
    obtain ⟨head, hhead, _, hagain⟩ := hvalue v mem_cons_self stream stream' hread
    obtain ⟨tail, htail, htails⟩ := ih hrest fun w hw => hvalue w (mem_cons_of_mem v hw)
    refine ⟨head ++ tail, ?_, fun rest => ?_⟩
    · exact bind_eq_ok.mpr ⟨head, hhead, bind_eq_ok.mpr ⟨tail, htail, rfl⟩⟩
    · rw [append_assoc]
      exact bind_eq_ok.mpr ⟨(v, tail ++ rest), hagain _ nofun,
        bind_eq_ok.mpr ⟨(vars, rest), htails rest, rfl⟩⟩

end AbiSerializer

def maxNumArrayElements : Nat := 1024 * 1024

/-- `pack_unpack<T>`, from the codec of a `T`. -/
def packUnpack (unpackOne : Decoder) (packOne : Encoder) : BuiltInType where
  unpack isArray isOptional stream :=
    if isArray then do
      let (size, stream) ← unpackUnsignedInt stream
      abiAssert (size ≤ maxNumArrayElements) ⟨.assertException, "Assert Exception", []⟩
      let (vars, stream) ← unpackSequence unpackOne size stream
      return (.array vars, stream)
    else if isOptional then do
      let (b, stream) ← unpackChar stream
      abiAssert (b ≤ 1) ⟨.assertException, "Assert Exception", []⟩
      if b ≠ 0 then unpackOne stream else return (.null, stream)
    else unpackOne stream
  pack var isArray isOptional :=
    if isArray then
      match var with
      | .array vars => do
        abiAssert (vars.length ≤ maxNumArrayElements) ⟨.outOfRangeException, "too large", []⟩
        let out ← packSequence packOne vars
        return packUnsignedInt vars.length ++ out
      | _ => .error ⟨.badCastException, "Invalid cast from ${type} to Array", []⟩
    else if isOptional then
      if var.isNull then .ok [0]
      else do
        let out ← packOne var
        return 1 :: out
    else packOne var

/-- What is read is written, and read again whatever follows; every codec reads something. -/
structure BuiltInType.RoundTrips (btype : BuiltInType) : Prop where
  again : ∀ isArray isOptional stream v rest,
    btype.unpack isArray isOptional stream = .ok (v, rest) →
      Survives (btype.unpack isArray isOptional) (btype.pack v isArray isOptional) false v
  notEmpty : ∀ isArray isOptional r, btype.unpack isArray isOptional [] ≠ .ok r

section PackUnpack

variable {unpackOne : Decoder} {packOne : Encoder}
  (hone : ∀ stream v rest, unpackOne stream = .ok (v, rest) →
    v.isNull = false ∧ Survives unpackOne (packOne v) false v)

include hone

variable {stream rest : Bytes} {v : Variant}

theorem packUnpack_array {isOptional : Bool}
    (h : (packUnpack unpackOne packOne).unpack true isOptional stream = .ok (v, rest)) :
    Survives ((packUnpack unpackOne packOne).unpack true isOptional)
      ((packUnpack unpackOne packOne).pack v true isOptional) false v := by
  simp only [packUnpack, if_true] at h ⊢
  simp only [bind_eq_ok] at h
  obtain ⟨⟨size, stream'⟩, hsize, u, hmax, ⟨vars, stream''⟩, hvars, h⟩ := h
  cases h
  have hlength := length_unpackSequence hvars
  obtain ⟨out, hout, hagain⟩ := survives_sequence hvars fun w _ stream rest hread =>
    (hone stream w rest hread).2
  refine ⟨packUnsignedInt vars.length ++ out, ?_, ?_, fun rest _ => ?_⟩
  · refine bind_eq_ok.mpr ⟨(), ?_, bind_eq_ok.mpr ⟨out, hout, rfl⟩⟩
    rw [hlength]
    exact abiAssert_eq_ok.mpr (abiAssert_eq_ok.mp hmax)
  · exact fun hnil => packUnsignedInt_ne_nil _ (append_eq_nil_iff.mp hnil).1
  · rw [hlength, append_assoc]
    exact bind_eq_ok.mpr ⟨(size, out ++ rest),
      unpackUnsignedInt_packUnsignedInt (unpackUnsignedInt_lt hsize) _,
      bind_eq_ok.mpr ⟨u, hmax, bind_eq_ok.mpr ⟨(vars, rest), hagain rest, rfl⟩⟩⟩

theorem packUnpack_optional
    (h : (packUnpack unpackOne packOne).unpack false true stream = .ok (v, rest)) :
    Survives ((packUnpack unpackOne packOne).unpack false true)
      ((packUnpack unpackOne packOne).pack v false true) false v := by
  simp only [packUnpack, Bool.false_eq_true, if_false, if_true] at h ⊢
  simp only [bind_eq_ok] at h
  obtain ⟨⟨b, stream'⟩, _, _, _, h⟩ := h
  split at h
  · obtain ⟨hnull, out, hout, _, hagain⟩ := hone stream' v rest h
    refine ⟨1 :: out, ?_, cons_ne_nil _ _, fun rest hrest => hagain rest hrest⟩
    rw [hnull]
    exact bind_eq_ok.mpr ⟨out, hout, rfl⟩
  · cases h
    exact ⟨[0], rfl, cons_ne_nil _ _, fun _ _ => rfl⟩

theorem packUnpack_roundTrips (hempty : ∀ r, unpackOne [] ≠ .ok r) :
    (packUnpack unpackOne packOne).RoundTrips where
  again := by
    intro isArray isOptional stream v rest h
    cases isArray with
    | true => exact packUnpack_array hone h
    | false =>
      cases isOptional with
      | true => exact packUnpack_optional hone h
      | false => exact (hone stream v rest h).2
  notEmpty := by
    intro isArray isOptional r h
    cases isArray with
    | true => cases h
    | false =>
      cases isOptional with
      | true => cases h
      | false => exact hempty r h

end PackUnpack

def unpackInt8 : Bytes → AbiResult (Variant × Bytes)
  | [] => .error datastreamRangeError
  | b :: stream => .ok (.int64 b.toInt8.toInt, stream)

/-- `as_int64`, less the conversions from strings and doubles. -/
def Variant.asInt64 : Variant → AbiResult Int
  | .int64 i => .ok i
  | .uint64 n => .ok n
  | .bool b => .ok b.toNat
  | .null => .ok 0
  | _ => .error ⟨.badCastException, "Invalid cast from ${type} to int64", []⟩

def packInt8 (var : Variant) : AbiResult Bytes := do
  let i ← var.asInt64
  return [(Int8.ofInt i).toUInt8]

def int8Type : BuiltInType := packUnpack unpackInt8 packInt8

theorem int8Type_roundTrips : int8Type.RoundTrips := by
  refine packUnpack_roundTrips (fun stream v rest h => ?_) nofun
  cases stream with
  | nil => cases h
  | cons b stream =>
    cases h
    refine ⟨rfl, [b], ?_, cons_ne_nil _ _, fun _ _ => rfl⟩
    simp [packInt8, Variant.asInt64, bind, Except.bind, pure, Except.pure]

end DreamChain
