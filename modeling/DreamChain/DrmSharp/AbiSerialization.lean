import DreamChain.Library.FlatMap
import DreamChain.Library.GroupedBytes

/-!
The serializer of the C# client: action data and structures are written and read by an ABI, with
the writers and readers of the built-in types kept in two dictionaries that also take up the
typedefs met on the way. Every function is written over a monad with exceptions, so that it runs
both on a provider, whose dictionaries it changes, and without one. A call may be nested as deep
as its first argument says; below that the stack overflows.
-/

namespace DreamChain.DrmSharp
open Library

abbrev TypeName := List Char

abbrev FieldName := List Char

abbrev Bytes := List UInt8

inductive ExceptionType where
  | exception
  | argumentException
  | invalidOperationException
  | invalidCastException
  | nullReferenceException
  | indexOutOfRangeException
  | overflowException
  | formatException
  | keyNotFoundException
  | stackOverflowException
deriving DecidableEq, Repr

/-- The names are those that are put into the message. -/
structure Exception where
  type : ExceptionType
  message : String := ""
  names : List (List Char) := []
deriving DecidableEq, Repr

abbrev Throwing := Except Exception

def stackOverflow : Exception := ⟨.stackOverflowException, "", []⟩

def nullReference : Exception := ⟨.nullReferenceException, "", []⟩

/-- Objects by what the serializer does with them. A dictionary is given by its entries in the
order of their keys; whatever is neither a list nor a dictionary is a value of `α`. -/
inductive Value (α : Type) where
  | null
  | primitive (value : α)
  | list (items : List (Value α))
  | dictionary (entries : List (FieldName × Value α))

variable {α : Type}

def Value.isNull : Value α → Bool
  | .null => true
  | _ => false

structure AbiType where
  newTypeName : TypeName
  type : TypeName
deriving DecidableEq, Repr

structure AbiField where
  name : FieldName
  type : TypeName
deriving DecidableEq, Repr

structure AbiStruct where
  name : TypeName
  base : TypeName := []
  fields : List AbiField
deriving DecidableEq, Repr

structure AbiAction where
  name : List Char
  type : TypeName
deriving DecidableEq, Repr

structure Abi where
  types : List AbiType := []
  structs : List AbiStruct := []
  actions : List AbiAction := []
deriving DecidableEq, Repr

abbrev Writer (α : Type) := Value α → Throwing Bytes

/-- A `ReaderDelegate`: the data and the index to read at; the index after it is returned. -/
abbrev Reader (α : Type) := Bytes → Nat → Throwing (Value α × Nat)

/-- What is taken from the runtime: the writer and the reader of each built-in type, the cast of
an object that is no list to a collection, the fields and properties of an object, and the
conversions of names. -/
structure Runtime (α : Type) where
  writer : TypeName → Writer α
  reader : TypeName → Reader α
  collection : Value α → Throwing (List (Value α))
  member : Value α → FieldName → Option (Value α)
  snakeCaseToPascalCase : FieldName → FieldName
  pascalCaseToSnakeCase : FieldName → FieldName
  isWhiteSpace : Char → Bool

def builtInTypes : List TypeName :=
  ["int8", "uint8", "int16", "uint16", "int32", "uint32", "int64", "uint64", "int128", "uint128",
    "varuint32", "varint32", "float32", "float64", "float128", "bytes", "bool", "string", "name",
    "asset", "time_point", "time_point_sec", "block_timestamp_type", "symbol_code", "symbol",
    "checksum160", "checksum256", "checksum512", "public_key", "private_key", "signature",
    "extended_asset"].map String.toList

abbrev Serializers (S : Type) := FlatMap TypeName S

def initialSerializers {S : Type} (serializer : TypeName → S) : Serializers S :=
  FlatMap.empty.insertAll (builtInTypes.map fun name => (name, serializer name))

structure AbiSerializationProvider (α : Type) where
  typeWriters : Serializers (Writer α)
  typeReaders : Serializers (Reader α)

def AbiSerializationProvider.new (rt : Runtime α) : AbiSerializationProvider α where
  typeWriters := initialSerializers rt.writer
  typeReaders := initialSerializers rt.reader

def isOptional (type : TypeName) : Bool := "?".toList.isSuffixOf type

def isArray (type : TypeName) : Bool := "[]".toList.isSuffixOf type

def arrayType (type : TypeName) : TypeName := type.take (type.length - 2)

def isNullOrWhiteSpace (rt : Runtime α) (name : List Char) : Bool := name.all rt.isWhiteSpace

def Abi.typeDef? (abi : Abi) (type : TypeName) : Option AbiType :=
  abi.types.find? fun t => t.newTypeName = type

def Abi.struct? (abi : Abi) (name : TypeName) : Option AbiStruct :=
  abi.structs.find? fun s => s.name = name

def unwrapTypeDef (abi : Abi) : Nat → TypeName → Throwing TypeName
  | 0, _ => .error stackOverflow
  | depth + 1, type =>
    match abi.typeDef? type with
    | some wtype => if wtype.type ≠ type then unwrapTypeDef abi depth wtype.type else .ok type
    | none => .ok type

/-- A computation that changes a dictionary; what it has changed stays when it throws. -/
abbrev Caching (S : Type) := ExceptT Exception (StateM (Serializers S))

def getTypeSerializerAndCache {S : Type} (abi : Abi) : Nat → TypeName → Caching S (Option S)
  | 0, _ => throw stackOverflow
  | depth + 1, type => do
    match (← get).find? type with
    | some nativeSerializer => return some nativeSerializer
    | none =>
      match abi.typeDef? type with
      | none => return none
      | some abiTypeDef =>
        match ← getTypeSerializerAndCache abi depth abiTypeDef.type with
        | none => return none
        | some serializer =>
          modify fun typeSerializers => typeSerializers.insert type serializer
          return some serializer

section Writing

variable {m : Type → Type} [Monad m] [MonadExceptOf Exception m]

def liftExcept {β : Type} : Throwing β → m β
  | .ok b => pure b
  | .error e => throw e

/-- The count of an `ICollection` is an `int`, so five groups are enough. -/
def writeVarUint32 (n : Nat) : Bytes := writeGroups 5 n

def asCollection (rt : Runtime α) : Value α → Throwing (List (Value α))
  | .list items => .ok items
  | .null => .error nullReference
  | value => rt.collection value

def writeItems (write : Value α → m Bytes) : List (Value α) → m Bytes
  | [] => pure []
  | item :: items => do
    let head ← write item
    let tail ← writeItems write items
    return head ++ tail

def dictionaryFind? (entries : List (FieldName × Value α)) (key : FieldName) : Option (Value α) :=
  (entries.find? fun e => e.1 = key).map Prod.snd

/-- The key is looked up as it is, then in both other cases, the second made from the first. -/
def findObjectFieldName (rt : Runtime α) (name : FieldName)
    (value : List (FieldName × Value α)) : Option FieldName :=
  if (dictionaryFind? value name).isSome then some name
  else
    let name := rt.snakeCaseToPascalCase name
    if (dictionaryFind? value name).isSome then some name
    else
      let name := rt.pascalCaseToSnakeCase name
      if (dictionaryFind? value name).isSome then some name else none

def missingField (st : AbiStruct) (field : AbiField) : Exception :=
  ⟨.exception, "Missing ", [st.name, field.name, field.type]⟩

def fieldValue (rt : Runtime α) (st : AbiStruct) (field : AbiField) : Value α → Throwing (Value α)
  | .dictionary entries =>
    match findObjectFieldName rt field.name entries with
    | some fieldName =>
      if isNullOrWhiteSpace rt fieldName then .error (missingField st field)
      else
        match dictionaryFind? entries fieldName with
        | some value => .ok value
        | none => .error ⟨.keyNotFoundException, "", []⟩
    | none => .error (missingField st field)
  | value =>
    match rt.member value field.name with
    | some fieldValue => .ok fieldValue
    | none => .error (missingField st field)

def writeFields (rt : Runtime α) (write : Value α → TypeName → m Bytes) (st : AbiStruct)
    (value : Value α) : List AbiField → m Bytes
  | [] => pure []
  | field :: fields => do
    let var ← liftExcept (fieldValue rt st field value)
    let head ← write var field.type
    let tail ← writeFields rt write st value fields
    return head ++ tail

def writeBase (rt : Runtime α) (write : Value α → TypeName → m Bytes) (st : AbiStruct)
    (value : Value α) : m Bytes :=
  if isNullOrWhiteSpace rt st.base then pure [] else write value st.base

def writerNotFound : Exception := ⟨.exception, "Type supported writer not found.", []⟩

/-- The rest of `WriteAbiType`, after the optional. -/
def writeUnwrapped (rt : Runtime α) (abi : Abi) (writeType : Value α → TypeName → m Bytes)
    (writeStruct : Value α → AbiStruct → m Bytes) (getSerializer : m (Option (Writer α)))
    (value : Value α) (uwtype : TypeName) : m Bytes := do
  if isArray uwtype then
    let items ← liftExcept (asCollection rt value)
    let out ← writeItems (fun item => writeType item (arrayType uwtype)) items
    return writeVarUint32 items.length ++ out
  else
    match ← getSerializer with
    | some writer => liftExcept (writer value)
    | none =>
      match abi.struct? uwtype with
      | some abiStruct => writeStruct value abiStruct
      | none => throw writerNotFound

mutual

/-- The flag of an optional is written twice, and the type keeps its question mark: what
`Substring` returns is not used. -/
def writeAbiType (rt : Runtime α) (abi : Abi)
    (getSerializer : Nat → TypeName → m (Option (Writer α))) : Nat → Value α → TypeName → m Bytes
  | 0, _, _ => throw stackOverflow
  | depth + 1, value, type => do
    let uwtype ← liftExcept (unwrapTypeDef abi depth type)
    if isOptional uwtype && value.isNull then return [0, 0]
    else
      let out ← writeUnwrapped rt abi (writeAbiType rt abi getSerializer depth)
        (writeAbiStruct rt abi getSerializer depth) (getSerializer depth type) value uwtype
      return (if isOptional uwtype then [1, 1] else []) ++ out

def writeAbiStruct (rt : Runtime α) (abi : Abi)
    (getSerializer : Nat → TypeName → m (Option (Writer α))) : Nat → Value α → AbiStruct → m Bytes
  | 0, _, _ => throw stackOverflow
  | depth + 1, value, abiStruct => do
    if value.isNull then return []
    else
      let inherited ← writeBase rt (writeAbiType rt abi getSerializer depth) abiStruct value
      let own ← writeFields rt (writeAbiType rt abi getSerializer depth) abiStruct value
        abiStruct.fields
      return inherited ++ own

end

end Writing

section Reading

variable {m : Type → Type} [Monad m] [MonadExceptOf Exception m]

def indexOutOfRange : Exception := ⟨.indexOutOfRangeException, "", []⟩

def readByte (data : Bytes) (readIndex : Nat) : Throwing (UInt8 × Nat) :=
  match data[readIndex]? with
  | some b => .ok (b, readIndex + 1)
  | none => .error indexOutOfRange

/-- The loop of `ReadVarUint32` over the bytes that are left. A shift is taken modulo 32. -/
def readGroup (bit v readIndex : Nat) : Bytes → Throwing (Nat × Nat)
  | [] => .error indexOutOfRange
  | b :: data =>
    let v := v ||| ((b.toNat % 128) <<< (bit % 32)) % 2 ^ 32
    if 128 ≤ b.toNat then readGroup (bit + 7) v (readIndex + 1) data
    else .ok (v, readIndex + 1)

def readVarUint32 (data : Bytes) (readIndex : Nat) : Throwing (Nat × Nat) :=
  readGroup 0 0 readIndex (data.drop readIndex)

/-- `Convert.ToInt32` of a `uint`. -/
def convertToInt32 (v : Nat) : Throwing Nat :=
  if v < 2 ^ 31 then .ok v else .error ⟨.overflowException, "", []⟩

def readItems (read : Nat → m (Value α × Nat)) : Nat → Nat → m (List (Value α) × Nat)
  | 0, readIndex => pure ([], readIndex)
  | size + 1, readIndex => do
    let (item, readIndex) ← read readIndex
    let (items, readIndex) ← readItems read size readIndex
    return (item :: items, readIndex)

/-- The type a structure is read into: how an object of it is made, the cast of what was read
for the base, and how a field is set. -/
structure Target (α : Type) where
  create : Value α
  cast : Value α → Throwing (Value α)
  add : Value α → FieldName → Value α → Throwing (Value α)

def dictionaryTarget : Target α where
  create := .dictionary []
  cast
    | .null => .ok .null
    | .dictionary entries => .ok (.dictionary entries)
    | _ => .error ⟨.invalidCastException, "", []⟩
  add
    | .dictionary entries, name, value =>
      if (dictionaryFind? entries name).isSome then
        .error ⟨.argumentException, "An item with the same key has already been added.", []⟩
      else .ok (.dictionary (FlatMap.insertEntry name value entries))
    | _, _, _ => .error nullReference

def readFields (target : Target α) (read : TypeName → Nat → m (Value α × Nat)) :
    List AbiField → Value α → Nat → m (Value α × Nat)
  | [], value, readIndex => pure (value, readIndex)
  | field :: fields, value, readIndex => do
    let (abiValue, readIndex) ← read field.type readIndex
    let value ← liftExcept (target.add value field.name abiValue)
    readFields target read fields value readIndex

def readBase (rt : Runtime α) (target : Target α) (read : TypeName → Nat → m (Value α × Nat))
    (st : AbiStruct) (readIndex : Nat) : m (Value α × Nat) :=
  if isNullOrWhiteSpace rt st.base then pure (target.create, readIndex)
  else do
    let (value, readIndex) ← read st.base readIndex
    let value ← liftExcept (target.cast value)
    return (value, readIndex)

/-- The rest of `ReadAbiType`, after the optional. -/
def readUnwrapped (abi : Abi) (readType : TypeName → Nat → m (Value α × Nat))
    (readStruct : AbiStruct → Nat → m (Value α × Nat)) (getSerializer : m (Option (Reader α)))
    (data : Bytes) (uwtype : TypeName) (readIndex : Nat) : m (Value α × Nat) := do
  if isArray uwtype then
    let (v, readIndex) ← liftExcept (readVarUint32 data readIndex)
    let size ← liftExcept (convertToInt32 v)
    let (items, readIndex) ← readItems (readType (arrayType uwtype)) size readIndex
    return (.list items, readIndex)
  else
    match ← getSerializer with
    | some reader => liftExcept (reader data readIndex)
    | none =>
      match abi.struct? uwtype with
      | some abiStruct => readStruct abiStruct readIndex
      | none => throw writerNotFound

mutual

def readAbiType (rt : Runtime α) (abi : Abi)
    (getSerializer : Nat → TypeName → m (Option (Reader α))) (data : Bytes) :
    Nat → TypeName → Nat → m (Value α × Nat)
  | 0, _, _ => throw stackOverflow
  | depth + 1, type, readIndex => do
    let uwtype ← liftExcept (unwrapTypeDef abi depth type)
    let readUnwrapped := readUnwrapped abi (readAbiType rt abi getSerializer data depth)
      (readAbiStruct rt abi getSerializer data depth dictionaryTarget)
      (getSerializer depth type) data uwtype
    if isOptional uwtype then
      let (opt, readIndex) ← liftExcept (readByte data readIndex)
      if opt = 0 then return (.null, readIndex) else readUnwrapped readIndex
    else readUnwrapped readIndex

def readAbiStruct (rt : Runtime α) (abi : Abi)
    (getSerializer : Nat → TypeName → m (Option (Reader α))) (data : Bytes) :
    Nat → Target α → AbiStruct → Nat → m (Value α × Nat)
  | 0, _, _, _ => throw stackOverflow
  | depth + 1, target, abiStruct, readIndex => do
    let (value, readIndex) ← readBase rt target (readAbiType rt abi getSerializer data depth)
      abiStruct readIndex
    if value.isNull then throw nullReference
    else
      readFields target (readAbiType rt abi getSerializer data depth) abiStruct.fields value
        readIndex

end

/-- A type of the runtime, as `ReadType` looks at it. The name of the reader of a primitive type
is its own or that of an attribute; a member of a class comes with how it is set. -/
inductive NetType (α : Type) where
  | collection (item : NetType α)
  | optional (type : NetType α)
  | primitive (readerName : TypeName)
  | record (value : Value α)
      (members : List (NetType α × (Value α → Value α → Throwing (Value α))))

def readMembers (read : NetType α → Nat → Throwing (Value α × Nat)) :
    List (NetType α × (Value α → Value α → Throwing (Value α))) → Value α → Nat →
      Throwing (Value α × Nat)
  | [], value, readIndex => .ok (value, readIndex)
  | (type, set) :: members, value, readIndex => do
    let (memberValue, readIndex) ← read type readIndex
    let value ← set value memberValue
    readMembers read members value readIndex

/-- `ReadType` looks up readers and caches none. -/
def readType (typeReaders : Serializers (Reader α)) (data : Bytes) :
    Nat → NetType α → Nat → Throwing (Value α × Nat)
  | 0, _, _ => .error stackOverflow
  | depth + 1, .collection item, readIndex => do
    let (v, readIndex) ← readVarUint32 data readIndex
    let size ← convertToInt32 v
    let (items, readIndex) ← readItems (readType typeReaders data depth item) size readIndex
    return (.list items, readIndex)
  | depth + 1, .optional type, readIndex => do
    let (opt, readIndex) ← readByte data readIndex
    if opt = 1 then readType typeReaders data depth type readIndex else return (.null, readIndex)
  | _ + 1, .primitive readerName, readIndex =>
    match typeReaders.find? readerName with
    | some reader => reader data readIndex
    | none => .error ⟨.keyNotFoundException, "", [readerName]⟩
  | depth + 1, .record value members, readIndex =>
    readMembers (readType typeReaders data depth) members value readIndex

end Reading

/-- The calls of a provider that write and read data. Packing and unpacking a transaction makes
such calls, one for each action and one for each ABI. -/
inductive Call (α : Type) where
  | serializeActionData (name : List Char) (data : Value α) (abi : Abi)
  | deserializeStructData (structType : TypeName) (data : Bytes) (abi : Abi) (target : Target α)
  | deserializeType (type : NetType α) (data : Bytes)

inductive Result (α : Type) where
  | bytes (data : Bytes)
  | value (value : Value α)

section Calls

variable {m : Type → Type} [Monad m] [MonadExceptOf Exception m]

def serializeActionData (rt : Runtime α) (abi : Abi)
    (getSerializer : Nat → TypeName → m (Option (Writer α))) (depth : Nat) (name : List Char)
    (data : Value α) : m Bytes :=
  match abi.actions.find? fun aa => aa.name = name with
  | none => throw ⟨.argumentException, "action name {0} not found on abi.", [name]⟩
  | some abiAction =>
    match abi.struct? abiAction.type with
    | none => throw ⟨.argumentException, "struct type {0} not found on abi.", [abiAction.type]⟩
    | some abiStruct => writeAbiStruct rt abi getSerializer depth data abiStruct

def deserializeStructData (rt : Runtime α) (abi : Abi)
    (getSerializer : Nat → TypeName → m (Option (Reader α))) (depth : Nat) (structType : TypeName)
    (data : Bytes) (target : Target α) : m (Value α) := do
  match abi.struct? structType with
  | none => throw ⟨.invalidOperationException, "Sequence contains no matching element", []⟩
  | some abiStruct =>
    let (value, _) ← readAbiStruct rt abi getSerializer data depth target abiStruct 0
    return value

end Calls

/-- A call on a provider: its result and the provider it leaves. -/
def AbiSerializationProvider.perform (rt : Runtime α) (depth : Nat)
    (p : AbiSerializationProvider α) : Call α → Throwing (Result α) × AbiSerializationProvider α
  | .serializeActionData name data abi =>
    let (r, typeWriters) := (serializeActionData rt abi (getTypeSerializerAndCache abi) depth name
      data).run p.typeWriters
    (r.map .bytes, { p with typeWriters })
  | .deserializeStructData structType data abi target =>
    let (r, typeReaders) := (deserializeStructData rt abi (getTypeSerializerAndCache abi) depth
      structType data target).run p.typeReaders
    (r.map .value, { p with typeReaders })
  | .deserializeType type data =>
    ((readType p.typeReaders data depth type 0).map fun r => .value r.1, p)

def AbiSerializationProvider.performAll (rt : Runtime α) (depth : Nat) :
    AbiSerializationProvider α → List (Call α) → List (Throwing (Result α))
  | _, [] => []
  | p, call :: calls =>
    let (r, p) := p.perform rt depth call
    r :: p.performAll rt depth calls

end DreamChain.DrmSharp
