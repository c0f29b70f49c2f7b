import DreamChain.Chain.Types
import DreamChain.Library.GroupedBytes

/-!
The ABI serializer: the tables `set_abi` builds from a definition and validates, the decoder
`binary_to_variant` and the encoder `variant_to_binary`. The scopes that may still be entered
are counted down, so the recursion limit of the source is what both functions recurse on. The
built-in types are a parameter; deadlines and the paths shown in messages are left out.
-/

namespace DreamChain
open Library

abbrev TypeName := List Char

abbrev FieldName := List Char

abbrev Bytes := List UInt8

inductive AbiExceptionType where
  | unsupportedAbiVersionException
  | invalidTypeInsideAbi
  | duplicateAbiTypeDefException
  | duplicateAbiStructDefException
  | duplicateAbiActionDefException
  | duplicateAbiTableDefException
  | duplicateAbiErrMsgDefException
  | duplicateAbiVariantDefException
  | abiCircularDefException
  | abiRecursionDepthException
  | abiException
  | packException
  | unpackException
  | badCastException
  | assertException
  | outOfRangeException
deriving DecidableEq, Repr

/-- The name is the type or the field that is put into the message. -/
structure AbiException where
  type : AbiExceptionType
  message : String
  name : List Char := []
deriving DecidableEq, Repr

abbrev AbiResult := Except AbiException

def abiAssert (c : Prop) [Decidable c] (e : AbiException) : AbiResult Unit :=
  if c then .ok () else .error e

theorem abiAssert_eq_ok {c : Prop} [Decidable c] {e : AbiException} {u : Unit} :
    abiAssert c e = .ok u ↔ c := by
  by_cases h : c <;> simp [abiAssert]

/-- Values of `fc::variant`; a double is given by its bits. -/
inductive Variant where
  | null
  | int64 (value : Int)
  | uint64 (value : Nat)
  | double (bits : Nat)
  | bool (value : Bool)
  | string (value : List Char)
  | array (values : List Variant)
  | object (entries : List (FieldName × Variant))
  | blob (data : Bytes)

abbrev Decoder := Bytes → AbiResult (Variant × Bytes)

abbrev Encoder := Variant → AbiResult Bytes

def Variant.isNull : Variant → Bool
  | .null => true
  | _ => false

/-- The entries of a `mutable_variant_object`, in the order of insertion. -/
abbrev VariantObject := List (FieldName × Variant)

namespace VariantObject

def find? (obj : VariantObject) (key : FieldName) : Option Variant :=
  (List.find? (fun e => e.1 = key) obj).map Prod.snd

def set (obj : VariantObject) (key : FieldName) (var : Variant) : VariantObject :=
  match obj with
  | [] => [(key, var)]
  | e :: rest => if e.1 = key then (key, var) :: rest else e :: set rest key var

end VariantObject

structure TypeDef where
  newTypeName : TypeName
  type : TypeName
deriving DecidableEq, Repr

structure FieldDef where
  name : FieldName
  type : TypeName
deriving DecidableEq, Repr

structure StructDef where
  name : TypeName
  base : TypeName := []
  fields : List FieldDef
deriving DecidableEq, Repr

structure ActionDef where
  name : Nat
  type : TypeName
deriving DecidableEq, Repr

structure TableDef where
  name : Nat
  type : TypeName
deriving DecidableEq, Repr

structure ErrorMessage where
  errorCode : Nat
  errorMsg : List Char
deriving DecidableEq, Repr

structure VariantDef where
  name : TypeName
  types : List TypeName
deriving DecidableEq, Repr

structure AbiDef where
  version : List Char
  types : List TypeDef := []
  structs : List StructDef := []
  actions : List ActionDef := []
  tables : List TableDef := []
  errorMessages : List ErrorMessage := []
  variants : List VariantDef := []
deriving DecidableEq, Repr

/-- The unpack and pack functions of a built-in type; the flags select its array or its
optional. -/
structure BuiltInType where
  unpack : (isArray isOptional : Bool) → Bytes → AbiResult (Variant × Bytes)
  pack : Variant → (isArray isOptional : Bool) → AbiResult Bytes

structure AbiSerializer where
  builtInTypes : FlatMap TypeName BuiltInType
  /-- `var.as<bytes>()`, the result for a type the ABI does not have. -/
  asBytes : Variant → AbiResult Bytes
  typedefs : FlatMap TypeName TypeName := .empty
  structs : FlatMap TypeName StructDef := .empty
  actions : FlatMap Nat TypeName := .empty
  tables : FlatMap Nat TypeName := .empty
  errorMessages : FlatMap Nat (List Char) := .empty
  variants : FlatMap TypeName VariantDef := .empty

namespace AbiSerializer

def maxRecursionDepth : Nat := 32

/-- `enter_scope` counts up and then requires less than the limit. -/
def maxScopes : Nat := maxRecursionDepth - 1

def recursionDepthExceeded : AbiException :=
  ⟨.abiRecursionDepthException, "recursive definition, max_recursion_depth ${r} ", []⟩

variable (type : TypeName)

def isArray : Bool := "[]".toList.isSuffixOf type

def isOptional : Bool := "?".toList.isSuffixOf type

def isBinExtension : Bool := "$".toList.isSuffixOf type

def fundamentalType : TypeName :=
  if isArray type then type.take (type.length - 2)
  else if isOptional type then type.take (type.length - 1)
  else type

def removeBinExtension : TypeName :=
  if isBinExtension type then type.take (type.length - 1) else type

/-- `_is_type`, with the number of scopes that may still be entered. -/
def isTypeWithin (s : AbiSerializer) : Nat → TypeName → AbiResult Bool
  | 0, _ => .error recursionDepthExceeded
  | scopes + 1, rtype =>
    let type := fundamentalType rtype
    if (s.builtInTypes.find? type).isSome then .ok true
    else
      match s.typedefs.find? type with
      | some t => s.isTypeWithin scopes t
      | none => .ok ((s.structs.find? type).isSome || (s.variants.find? type).isSome)

variable (s : AbiSerializer)

def isType (type : TypeName) : AbiResult Bool :=
  s.isTypeWithin maxScopes type

def resolveLoop (s : AbiSerializer) (type : TypeName) : Nat → TypeName → TypeName
  | 0, _ => type
  | i + 1, t =>
    match s.typedefs.find? t with
    | none => t
    | some u => s.resolveLoop type i u

def resolveType (type : TypeName) : TypeName :=
  match s.typedefs.find? type with
  | none => type
  | some t => s.resolveLoop type s.typedefs.size t

def getStruct (type : TypeName) : AbiResult StructDef :=
  match s.structs.find? (s.resolveType type) with
  | some st => .ok st
  | none => .error ⟨.invalidTypeInsideAbi, "Unknown struct ${type}", type⟩

def requireType (type : TypeName) : AbiResult Unit := do
  abiAssert (← s.isType type) ⟨.invalidTypeInsideAbi, "${type}", type⟩

/-- The loop over the targets of a typedef. It only goes on at a name not seen before, so it
looks up no more names than there are typedefs. -/
def followTypedefs (s : AbiSerializer) (origin : TypeName) :
    Nat → List TypeName → TypeName → AbiResult Unit
  | 0, _, _ => .error ⟨.abiCircularDefException, "Circular reference in type ${type}", origin⟩
  | lookups + 1, typesSeen, t =>
    match s.typedefs.find? t with
    | none => .ok ()
    | some u => do
      abiAssert (u ∉ typesSeen)
        ⟨.abiCircularDefException, "Circular reference in type ${type}", origin⟩
      s.followTypedefs origin lookups (typesSeen ++ [u]) u

/-- The loop over the bases of a struct; as before each round adds a name of the map. -/
def followBases (s : AbiSerializer) (origin : TypeName) :
    Nat → List TypeName → StructDef → AbiResult Unit
  | 0, _, _ => .error ⟨.abiCircularDefException, "Circular reference in struct ${type}", origin⟩
  | rounds + 1, typesSeen, current =>
    if current.base = [] then .ok ()
    else do
      let base ← s.getStruct current.base
      abiAssert (base.name ∉ typesSeen)
        ⟨.abiCircularDefException, "Circular reference in struct ${type}", origin⟩
      s.followBases origin rounds (typesSeen ++ [base.name]) base

def validate : AbiResult Unit := do
  s.typedefs.entries.forM fun t =>
    s.followTypedefs t.1 s.typedefs.size [t.1, t.2] t.2
  s.typedefs.entries.forM fun t => s.requireType t.2
  s.structs.entries.forM fun st => do
    s.followBases st.2.name (s.structs.size + 1) [st.2.name] st.2
    st.2.fields.forM fun field => do
      abiAssert (← s.isType (removeBinExtension field.type))
        ⟨.invalidTypeInsideAbi, "${type}", field.type⟩
  s.variants.entries.forM fun v => v.2.types.forM s.requireType
  s.actions.entries.forM fun a => s.requireType a.2
  s.tables.entries.forM fun t => s.requireType t.2

def addTypedef (td : TypeDef) : AbiResult AbiSerializer := do
  abiAssert (← s.isType td.type) ⟨.invalidTypeInsideAbi, "invalid type ${type}", td.type⟩
  abiAssert (!(← s.isType td.newTypeName))
    ⟨.duplicateAbiTypeDefException, "type already exists", td.newTypeName⟩
  return { s with typedefs := s.typedefs.insert td.newTypeName td.type }

def setAbi (abi : AbiDef) : AbiResult AbiSerializer := do
  abiAssert ("eosio::abi/1.".toList.isPrefixOf abi.version)
    ⟨.unsupportedAbiVersionException, "ABI has an unsupported version", []⟩
  -- the variants are still empty while the typedefs are checked
  let s : AbiSerializer :=
    { builtInTypes := s.builtInTypes
      asBytes := s.asBytes
      structs := abi.structs.foldl (fun m st => m.insert st.name st) .empty }
  let s ← abi.types.foldlM addTypedef s
  let s : AbiSerializer :=
    { s with
      actions := abi.actions.foldl (fun m a => m.insert a.name a.type) .empty
      tables := abi.tables.foldl (fun m t => m.insert t.name t.type) .empty
      errorMessages := abi.errorMessages.foldl (fun m e => m.insert e.errorCode e.errorMsg) .empty
      variants := abi.variants.foldl (fun m v => m.insert v.name v) .empty }
  abiAssert (s.typedefs.size = abi.types.length)
    ⟨.duplicateAbiTypeDefException, "duplicate type definition detected", []⟩
  abiAssert (s.structs.size = abi.structs.length)
    ⟨.duplicateAbiStructDefException, "duplicate struct definition detected", []⟩
  abiAssert (s.actions.size = abi.actions.length)
    ⟨.duplicateAbiActionDefException, "duplicate action definition detected", []⟩
  abiAssert (s.tables.size = abi.tables.length)
    ⟨.duplicateAbiTableDefException, "duplicate table definition detected", []⟩
  abiAssert (s.errorMessages.size = abi.errorMessages.length)
    ⟨.duplicateAbiErrMsgDefException, "duplicate error message definition detected", []⟩
  abiAssert (s.variants.size = abi.variants.length)
    ⟨.duplicateAbiVariantDefException, "duplicate variant definition detected", []⟩
  s.validate
  return s

end AbiSerializer

/-- `fc::raw::pack` of an `unsigned_int`: 32 bits are five groups at most. -/
def packUnsignedInt (n : Nat) : Bytes := writeGroups 5 (u32 n)

def datastreamRangeError : AbiException :=
  ⟨.outOfRangeException, "${method} datastream of length ${len} over by ${over}", []⟩

def unpackUnsignedInt (stream : Bytes) : AbiResult (Nat × Bytes) :=
  match readGroups 32 0 0 stream with
  | some r => .ok r
  | none => .error datastreamRangeError

/-- `EOS_RETHROW_EXCEPTIONS`: whatever is thrown becomes the given exception. -/
def rethrow {α : Type} (x : AbiResult α) (e : AbiException) : AbiResult α :=
  x.mapError fun _ => e

def unpackChar : Bytes → AbiResult (UInt8 × Bytes)
  | [] => .error datastreamRangeError
  | b :: stream => .ok (b, stream)

namespace AbiSerializer

def unpackSequence (read : Decoder) : Nat → Bytes → AbiResult (List Variant × Bytes)
  | 0, stream => .ok ([], stream)
  | size + 1, stream => do
    let (v, stream) ← read stream
    let (vars, stream) ← unpackSequence read size stream
    return (v :: vars, stream)

/-- An element of an array that is not of a built-in type must not be null. -/
def unpackElement (read : Decoder) (stream : Bytes) : AbiResult (Variant × Bytes) := do
  let (v, stream) ← read stream
  abiAssert (!v.isNull) ⟨.unpackException, "Invalid packed array '${p}'", []⟩
  return (v, stream)

def withoutExtensionDesignation (name : FieldName) : AbiException :=
  ⟨.abiException,
    "Encountered field '${f}' without binary extension designation while processing struct '${p}'",
    name⟩

def unpackFields (read : TypeName → Decoder) :
    List FieldDef → Bool → Bytes → VariantObject → AbiResult (VariantObject × Bytes)
  | [], _, stream, obj => .ok (obj, stream)
  | field :: fields, encounteredExtension, stream, obj =>
    let extension := isBinExtension field.type
    let encounteredExtension := encounteredExtension || extension
    if stream = [] then
      if extension then unpackFields read fields encounteredExtension stream obj
      else if encounteredExtension then
        .error (withoutExtensionDesignation field.name)
      else
        .error ⟨.unpackException,
          "Stream unexpectedly ended; unable to unpack field '${f}' of struct '${p}'",
          field.name⟩
    else do
      let (v, stream) ← read (if extension then removeBinExtension field.type else field.type)
        stream
      unpackFields read fields encounteredExtension stream (obj.set field.name v)

mutual

/-- The `_binary_to_variant` that adds the fields of a struct to an object. -/
def structFromBinary (s : AbiSerializer) :
    Nat → TypeName → Bytes → VariantObject → AbiResult (VariantObject × Bytes)
  | 0, _, _, _ => .error recursionDepthExceeded
  | scopes + 1, type, stream, obj =>
    match s.structs.find? type with
    | none => .error ⟨.invalidTypeInsideAbi, "Unknown type ${type}", type⟩
    | some st => do
      let (obj, stream) ←
        if st.base = [] then .ok (obj, stream)
        else s.structFromBinary scopes (s.resolveType st.base) stream obj
      unpackFields (fun t => s.binaryToVariantWithin scopes (s.resolveType t)) st.fields false
        stream obj

/-- The `_binary_to_variant` of a value, with what it leaves of the stream. -/
def binaryToVariantWithin (s : AbiSerializer) : Nat → TypeName → Bytes → AbiResult (Variant × Bytes)
  | 0, _, _ => .error recursionDepthExceeded
  | scopes + 1, type, stream =>
    let rtype := s.resolveType type
    let ftype := fundamentalType rtype
    match s.builtInTypes.find? ftype with
    | some btype =>
      rethrow (btype.unpack (isArray rtype) (isOptional rtype) stream)
        ⟨.unpackException, "Unable to unpack ${class} type '${type}' while processing '${p}'",
          ftype⟩
    | none =>
      if isArray rtype then do
        let (size, stream) ← rethrow (unpackUnsignedInt stream)
          ⟨.unpackException, "Unable to unpack size of array '${p}'", []⟩
        let (vars, stream) ←
          unpackSequence (unpackElement (s.binaryToVariantWithin scopes ftype)) size stream
        abiAssert (vars.length = size)
          ⟨.unpackException,
            "packed size does not match unpacked array size, packed size ${p} actual size ${a}",
            []⟩
        return (.array vars, stream)
      else if isOptional rtype then do
        let (flag, stream) ← rethrow (unpackChar stream)
          ⟨.unpackException, "Unable to unpack presence flag of optional '${p}'", []⟩
        if flag ≠ 0 then s.binaryToVariantWithin scopes ftype stream
        else return (.null, stream)
      else
        match s.variants.find? rtype with
        | some v => do
          let (select, stream) ← rethrow (unpackUnsignedInt stream)
            ⟨.unpackException, "Unable to unpack tag of variant '${p}'", []⟩
          match v.types[select]? with
          | none =>
            .error ⟨.unpackException,
              "Unpacked invalid tag (${select}) for variant '${p}'", []⟩
          | some t => do
            let (var, stream) ← s.binaryToVariantWithin scopes t stream
            return (.array [.string t, var], stream)
        | none => do
          let (mvo, stream) ← s.structFromBinary scopes rtype stream []
          abiAssert (0 < mvo.length)
            ⟨.unpackException, "Unable to unpack '${p}' from stream", []⟩
          return (.object mvo, stream)

end

/-- The overload on bytes enters a scope of its own; the result is given with the bytes that
are left. -/
def binaryToVariant (s : AbiSerializer) (type : TypeName) (binary : Bytes) :
    AbiResult (Variant × Bytes) :=
  s.binaryToVariantWithin (maxScopes - 1) type binary

def packSequence (write : Encoder) : List Variant → AbiResult Bytes
  | [] => .ok []
  | var :: vars => do
    let head ← write var
    let tail ← packSequence write vars
    return head ++ tail

def missingField (name : FieldName) : AbiException :=
  ⟨.packException, "Missing field '${f}' in input object while processing struct '${p}'", name⟩

/-- The loop over the fields of a struct given as an object. Only the last field passes on the
permission to leave extensions out. -/
def packFields (write : Bool → TypeName → Encoder) (extensionsAllowed : Bool) (vo : VariantObject) :
    List FieldDef → Bool → AbiResult Bytes
  | [], _ => .ok []
  | field :: fields, disallowAdditionalFields =>
    match vo.find? field.name with
    | some var =>
      if disallowAdditionalFields then
        .error ⟨.packException,
          "Unexpected field '${f}' found in input object while processing struct '${p}'",
          field.name⟩
      else do
        let head ← write (extensionsAllowed && fields.isEmpty)
          (removeBinExtension field.type) var
        let tail ← packFields write extensionsAllowed vo fields disallowAdditionalFields
        return head ++ tail
    | none =>
      if isBinExtension field.type && extensionsAllowed then
        packFields write extensionsAllowed vo fields true
      else if disallowAdditionalFields then
        .error (withoutExtensionDesignation field.name)
      else .error (missingField field.name)

/-- The loop over the fields of a struct given as an array. -/
def packItems (write : Bool → TypeName → Encoder)
    (extensionsAllowed : Bool) : List FieldDef → List Variant → AbiResult Bytes
  | [], _ => .ok []
  | field :: fields, var :: va => do
    let head ← write (extensionsAllowed && fields.isEmpty) (removeBinExtension field.type) var
    let tail ← packItems write extensionsAllowed fields va
    return head ++ tail
  | field :: _, [] =>
    if isBinExtension field.type && extensionsAllowed then .ok []
    else
      .error ⟨.packException, "Early end to input array specifying the fields of struct " ++
        "'${p}'; require input for field '${f}'", field.name⟩

/-- The `_variant_to_binary` of a value: the bytes it writes to the stream. -/
def variantToBinaryWithin (s : AbiSerializer) : Nat → Bool → TypeName → Variant → AbiResult Bytes
  | 0, _, _, _ => .error recursionDepthExceeded
  | scopes + 1, extensionsAllowed, type, var =>
    let rtype := s.resolveType type
    match s.builtInTypes.find? (fundamentalType rtype) with
    | some btype => btype.pack var (isArray rtype) (isOptional rtype)
    | none =>
      if isArray rtype then
        match var with
        | .array vars => do
          let out ← packSequence
            (s.variantToBinaryWithin scopes false (fundamentalType rtype)) vars
          return packUnsignedInt vars.length ++ out
        | _ => .error ⟨.badCastException, "Invalid cast from ${type} to Array", []⟩
      else
        match s.variants.find? rtype with
        | some v =>
          match var with
          | .array [.string t, item] =>
            match v.types.idxOf? t with
            | some i => do
              let out ← s.variantToBinaryWithin scopes extensionsAllowed t item
              return packUnsignedInt i ++ out
            | none =>
              .error ⟨.packException, "Specified type '${t}' in input array is not " ++
                "valid within the variant '${p}'", t⟩
          | .array [_, _] =>
            .error ⟨.packException, "Encountered non-string as first item of input " ++
              "array while processing variant '${p}'", []⟩
          | _ =>
            .error ⟨.packException, "Expected input to be an array of two items while " ++
              "processing variant '${p}'", []⟩
        | none =>
          match s.structs.find? rtype with
          | some st =>
            match var with
            | .object vo => do
              let inherited ←
                if st.base = [] then .ok []
                else s.variantToBinaryWithin scopes false (s.resolveType st.base) var
              let own ← packFields (s.variantToBinaryWithin scopes) extensionsAllowed vo
                st.fields false
              return inherited ++ own
            | .array va => do
              abiAssert (st.base = [])
                ⟨.invalidTypeInsideAbi, "Using input array to specify the fields of " ++
                  "the derived struct '${p}'; input arrays are currently only allowed " ++
                  "for structs without a base", []⟩
              packItems (s.variantToBinaryWithin scopes) extensionsAllowed st.fields va
            | _ =>
              .error ⟨.packException, "Unexpected input encountered while processing " ++
                "struct '${p}'", []⟩
          | none => .error ⟨.invalidTypeInsideAbi, "Unknown type ${type}", type⟩

/-- The size of the buffer the overload that returns bytes writes to. -/
def bufferSize : Nat := 1024 * 1024

/-- Every write appends to the buffer, so that it overflows is decided by the whole output. -/
def variantToBinary (s : AbiSerializer) (type : TypeName) (var : Variant) : AbiResult Bytes := do
  if !(← s.isTypeWithin (maxScopes - 1) type) then s.asBytes var
  else
    let out ← s.variantToBinaryWithin (maxScopes - 1) true type var
    abiAssert (out.length ≤ bufferSize) datastreamRangeError
    return out

end AbiSerializer

end DreamChain
