import DreamChain.Chain.AbiRoundTrip

/-!
The decoder on short inputs. Every value that is accepted takes at least one byte, whatever its
type, so an array has no more elements than bytes were read for it, and the count that an input
declares is followed no further than the input goes.
-/

namespace DreamChain
open Library List

theorem length_readGroups {width shift acc stream r}
    (h : readGroups width shift acc stream = some r) : r.2.length < stream.length := by
  induction stream generalizing shift acc with
  | nil => cases h
  | cons b ds ih =>
    simp only [readGroups] at h
    split at h
    · exact (ih h).trans (Nat.lt_succ_self _)
    · cases h
      exact Nat.lt_succ_self _

theorem length_unpackUnsignedInt {size stream rest}
    (h : unpackUnsignedInt stream = .ok (size, rest)) : rest.length < stream.length := by
  rw [unpackUnsignedInt] at h
  split at h
  · rename_i hr
    cases h
    exact length_readGroups hr
  · cases h

/-- The bytes that a value must have taken: one, and one for each element of an array. -/
def Variant.leastBytes : Variant → Nat
  | .array vars => max 1 vars.length
  | _ => 1

namespace AbiSerializer

section Reader

variable (read : Decoder)

def Consumes : Prop :=
  ∀ stream v rest, read stream = .ok (v, rest) → v.leastBytes + rest.length ≤ stream.length

def elementDecodings : Nat → Bytes → Nat
  | 0, _ => 0
  | size + 1, stream =>
    match read stream with
    | .ok (_, stream) => elementDecodings size stream + 1
    | .error _ => 1

/-- After any number of rounds of the loop there are no more elements than bytes they took; and no
more are begun than there are bytes, those of the count included. -/
structure ElementsBounded : Prop where
  built : ∀ rounds stream vars rest, unpackSequence read rounds stream = .ok (vars, rest) →
    vars.length + rest.length ≤ stream.length
  begun : ∀ stream size elements, unpackUnsignedInt stream = .ok (size, elements) →
    elementDecodings read size elements ≤ stream.length

end Reader

variable {s : AbiSerializer} {read : Decoder} {stream elements rest : Bytes} {v : Variant}

section

variable (h : Consumes read)
include h

theorem Consumes.length_lt (hok : read stream = .ok (v, rest)) : rest.length < stream.length := by
  have hleast : 1 ≤ v.leastBytes := by
    cases v <;> simp [Variant.leastBytes]
  have hread := h _ _ _ hok
  omega

theorem elementDecodings_le (size : Nat) (stream : Bytes) :
    elementDecodings read size stream ≤ stream.length + 1 := by
  induction size generalizing stream with
  | zero => exact Nat.zero_le _
  | succ size ih =>
    rw [elementDecodings]
    cases hread : read stream with
    | error e => exact Nat.le_add_left 1 _
    | ok r => exact Nat.succ_le_succ ((ih r.2).trans (h.length_lt hread))

theorem elementsBounded : ElementsBounded read where
  built rounds := by
    induction rounds with
    | zero =>
      intro stream vars rest hok
      cases hok
      exact (Nat.zero_add _).le
    | succ rounds ih =>
      intro stream vars rest hok
      obtain ⟨⟨v, stream'⟩, hread, hok⟩ := bind_eq_ok.mp hok
      obtain ⟨⟨vars, rest⟩, hrest, hok⟩ := bind_eq_ok.mp hok
      cases hok
      have hfirst := h.length_lt hread
      have hothers := ih _ _ _ hrest
      rw [length_cons]
      omega
  begun _ size elements hsize :=
    (elementDecodings_le h size elements).trans (length_unpackUnsignedInt hsize)

theorem array_leastBytes {size vars} (hsize : unpackUnsignedInt stream = .ok (size, elements))
    (hvars : unpackSequence read size elements = .ok (vars, rest)) :
    (Variant.array vars).leastBytes + rest.length ≤ stream.length := by
  have hcount := length_unpackUnsignedInt hsize
  have helements := (elementsBounded h).built _ _ _ _ hvars
  rw [Variant.leastBytes]
  omega

theorem optional_leastBytes {flag : UInt8} (hflag : unpackChar stream = .ok (flag, elements))
    (hok : (if flag ≠ 0 then read elements else return (.null, elements)) = .ok (v, rest)) :
    v.leastBytes + rest.length ≤ stream.length := by
  cases stream with
  | nil => cases hflag
  | cons b stream =>
    cases hflag
    split at hok
    · exact (h _ _ _ hok).trans (Nat.le_succ _)
    · cases hok
      exact (Nat.add_comm 1 _).le

theorem consumes_packUnpack {packOne : Encoder} (isArray isOptional : Bool)
    : Consumes ((packUnpack read packOne).unpack isArray isOptional) := by
  intro stream v rest hok
  cases isArray with
  | true =>
    obtain ⟨_, hsize, hok⟩ := bind_eq_ok.mp hok
    obtain ⟨_, _, hok⟩ := bind_eq_ok.mp hok
    obtain ⟨_, hvars, hok⟩ := bind_eq_ok.mp hok
    cases hok
    exact array_leastBytes h hsize hvars
  | false =>
    cases isOptional with
    | false => exact h _ _ _ hok
    | true =>
      obtain ⟨_, hflag, hok⟩ := bind_eq_ok.mp hok
      obtain ⟨_, _, hok⟩ := bind_eq_ok.mp hok
      exact optional_leastBytes h hflag hok

theorem consumes_unpackElement : Consumes (unpackElement read) := by
  intro stream v rest hok
  obtain ⟨_, hread, hok⟩ := bind_eq_ok.mp hok
  obtain ⟨_, _, hok⟩ := bind_eq_ok.mp hok
  cases hok
  exact h _ _ _ hread

end

theorem length_set_le (obj : VariantObject) (key : FieldName) (var : Variant) :
    (obj.set key var).length ≤ obj.length + 1 := by
  induction obj with
  | nil => exact le_rfl
  | cons e obj ih =>
    rw [VariantObject.set]
    split
    · exact Nat.le_succ _
    · exact Nat.succ_le_succ ih

theorem length_unpackFields {read : TypeName → Decoder}
    (hread : ∀ type, Consumes (read type)) {fields : List FieldDef} {encountered : Bool}
    {obj obj' : VariantObject}
    (h : unpackFields read fields encountered stream obj = .ok (obj', rest)) :
    obj'.length + rest.length ≤ obj.length + stream.length := by
  induction fields generalizing encountered stream obj with
  | nil =>
    cases h
    exact le_rfl
  | cons field fields ih =>
    by_cases hstream : stream = []
    · subst hstream
      obtain ⟨rfl, rfl, -⟩ := unpackFields_nil_stream.mp h
      exact le_rfl
    · rw [unpackFields_cons hstream] at h
      obtain ⟨r, hr, h⟩ := bind_eq_ok.mp h
      have hfield := (hread _).length_lt hr
      have hset := length_set_le obj field.name r.1
      have hothers := ih h
      omega

def BuiltInsConsume (s : AbiSerializer) : Prop :=
  ∀ type btype, s.builtInTypes.find? type = some btype → ∃ unpackOne packOne,
    btype = packUnpack unpackOne packOne ∧ Consumes unpackOne

/-- The empty struct is refused, and so is the null that an absent optional gives an array. -/
theorem consumes_binaryToVariantWithin (hbuiltIns : s.BuiltInsConsume) (scopes : Nat) :
    (∀ type, Consumes (s.binaryToVariantWithin scopes type)) ∧
    ∀ type stream obj obj' rest, s.structFromBinary scopes type stream obj = .ok (obj', rest) →
      obj'.length + rest.length ≤ obj.length + stream.length := by
  induction scopes with
  | zero => exact ⟨fun _ _ _ _ h => (nomatch h), fun _ _ _ _ _ h => (nomatch h)⟩
  | succ scopes ih =>
    refine ⟨fun type stream v rest h => ?_, fun type stream obj obj' rest h => ?_⟩
    · simp only [binaryToVariantWithin] at h
      split at h
      · rename_i btype hfind
        obtain ⟨unpackOne, packOne, rfl, hone⟩ := hbuiltIns _ _ hfind
        exact consumes_packUnpack hone _ _ _ _ _ (rethrow_eq_ok.mp h)
      · split at h
        · simp only [bind_eq_ok] at h
          obtain ⟨_, hsize, _, hvars, _, _, h⟩ := h
          cases h
          exact array_leastBytes (consumes_unpackElement (ih.1 _)) (rethrow_eq_ok.mp hsize) hvars
        · split at h
          · obtain ⟨_, hflag, h⟩ := bind_eq_ok.mp h
            exact optional_leastBytes (ih.1 _) (rethrow_eq_ok.mp hflag) h
          · split at h
            · obtain ⟨_, hselect, h⟩ := bind_eq_ok.mp h
              split at h
              · cases h
              · obtain ⟨_, hread, h⟩ := bind_eq_ok.mp h
                cases h
                have htag := length_unpackUnsignedInt (rethrow_eq_ok.mp hselect)
                have hvalue := (ih.1 _).length_lt hread
                exact Nat.add_comm 2 _ ▸ (Nat.succ_le_succ hvalue).trans htag
            · simp only [bind_eq_ok] at h
              obtain ⟨_, hread, _, hnotEmpty, h⟩ := h
              cases h
              have hfields := (ih.2 _ _ _ _ _ hread).trans_eq (Nat.zero_add _)
              exact (Nat.add_le_add_right (abiAssert_eq_ok.mp hnotEmpty) _).trans hfields
    · obtain ⟨st, hfind⟩ := exists_struct_of_structFromBinary h
      rw [structFromBinary_of_found hfind] at h
      obtain ⟨⟨base, stream'⟩, hbase, h⟩ := bind_eq_ok.mp h
      have hfields := length_unpackFields (fun t => ih.1 _) h
      split at hbase
      · cases hbase
        exact hfields
      · exact hfields.trans (ih.2 _ _ _ _ _ hbase)

end AbiSerializer

end DreamChain
