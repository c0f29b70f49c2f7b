import DreamChain.DrmSharp.AbiSerialization
import DreamChain.Library.CachedRun

/-!
What a provider remembers. The dictionaries take up every typedef that was resolved, under its
name alone, and are shared by the ABIs of all calls. As long as no name that an earlier ABI
resolved is met in a later one that resolves it otherwise, a call gives what it gives on a new
provider.
-/

namespace DreamChain.DrmSharp
open Library AbiSerializationProvider List

variable {α S : Type} {target : Target α}

/-- The typedefs of an ABI lead from a name to the serializer of a built-in type. -/
inductive Resolves (initial : Serializers S) (abi : Abi) : TypeName → S → Prop
  | builtIn {type serializer} (h : initial.find? type = some serializer) :
      Resolves initial abi type serializer
  | typeDef {type abiTypeDef serializer}
      (hnone : initial.find? type = none) (htypeDef : abi.typeDef? type = some abiTypeDef)
      (h : Resolves initial abi abiTypeDef.type serializer) : Resolves initial abi type serializer

/-- The names a call with an ABI may look up: those of fields, bases and typedefs, and of the
elements of arrays. -/
inductive Mentioned (abi : Abi) : TypeName → Prop
  | field {st field} (hst : st ∈ abi.structs) (hfield : field ∈ st.fields) :
      Mentioned abi field.type
  | base {st} (hst : st ∈ abi.structs) : Mentioned abi st.base
  | target {abiTypeDef} (h : abiTypeDef ∈ abi.types) : Mentioned abi abiTypeDef.type
  | element {type uwtype depth} (h : Mentioned abi type)
      (hunwrap : unwrapTypeDef abi depth type = .ok uwtype) (harray : isArray uwtype = true) :
      Mentioned abi (arrayType uwtype)

def resolveSerializer (initial : Serializers S) (abi : Abi) : Nat → TypeName → Throwing (Option S)
  | 0, _ => .error stackOverflow
  | depth + 1, type =>
    match initial.find? type with
    | some nativeSerializer => .ok (some nativeSerializer)
    | none =>
      match abi.typeDef? type with
      | none => .ok none
      | some abiTypeDef => resolveSerializer initial abi depth abiTypeDef.type

section Lookup

variable {initial : Serializers S} {abi : Abi}

variable {depth : Nat} {type : TypeName} {abiTypeDef : AbiType}

variable {serializer : S} {uwtype : TypeName} {d : Serializers S} {before : Serializers S}

theorem resolves_of_resolveSerializer
    (h : resolveSerializer initial abi depth type = .ok (some serializer)) :
    Resolves initial abi type serializer := by
  induction depth generalizing type with
  | zero => cases h
  | succ _ ih =>
    rw [resolveSerializer] at h
    cases hfind : initial.find? type with
    | some =>
      simp only [hfind] at h
      cases h
      exact .builtIn hfind
    | none =>
      simp only [hfind] at h
      cases htypeDef : abi.typeDef? type with
      | none =>
        simp only [htypeDef] at h
        cases h
      | some =>
        simp only [htypeDef] at h
        exact .typeDef hfind htypeDef (ih h)

theorem unwrapTypeDef_succ (htypeDef : abi.typeDef? type = some abiTypeDef)
    (hne : abiTypeDef.type ≠ type) (h : unwrapTypeDef abi depth type = .ok uwtype) :
    ∃ d, depth = d + 1 ∧ unwrapTypeDef abi d abiTypeDef.type = .ok uwtype := by
  cases depth with
  | zero => cases h
  | succ depth =>
    rw [unwrapTypeDef, htypeDef] at h
    simp only [if_pos hne] at h
    exact ⟨depth, rfl, h⟩

theorem resolveSerializer_of_resolves (h : Resolves initial abi type serializer)
    (hunwrap : unwrapTypeDef abi depth type = .ok uwtype) :
    resolveSerializer initial abi depth type = .ok (some serializer) := by
  induction h generalizing depth with
  | builtIn hfind =>
    cases depth with
    | zero => cases hunwrap
    | succ => rw [resolveSerializer, hfind]
  | @typeDef type abiTypeDef _ hnone htypeDef _ ih =>
    by_cases hself : abiTypeDef.type = type
    · rw [hself] at ih
      exact ih hunwrap
    · obtain ⟨d, rfl, hrest⟩ := unwrapTypeDef_succ htypeDef hself hunwrap
      rw [resolveSerializer, hnone, htypeDef]
      exact ih hrest

/-- A dictionary that has the built-in types, and for a name the ABI mentions nothing but what
the ABI resolves it to. -/
structure Coherent (initial : Serializers S) (abi : Abi) (before d : Serializers S) : Prop where
  builtIn : ∀ type serializer, initial.find? type = some serializer →
    d.find? type = some serializer
  mentioned : ∀ type serializer, Mentioned abi type → d.find? type = some serializer →
    Resolves initial abi type serializer
  origin : ∀ type serializer, d.find? type = some serializer →
    before.find? type = some serializer ∨ Resolves initial abi type serializer

theorem Coherent.insert (h : Coherent initial abi before d)
    (hnone : initial.find? type = none) (hresolves : Resolves initial abi type serializer) :
    Coherent initial abi before (d.insert type serializer) where
  builtIn t s ht := by
    have hne : type ≠ t := by
      rintro rfl
      rw [hnone] at ht
      cases ht
    rw [FlatMap.find?_insert_of_ne _ _ hne, h.builtIn t s ht]
  mentioned t s hmentioned hfind := by
    rw [FlatMap.find?_insert] at hfind
    split at hfind
    · rename_i heq
      cases hfind
      exact heq ▸ hresolves
    · exact h.mentioned t s hmentioned hfind
  origin t s hfind := by
    rw [FlatMap.find?_insert] at hfind
    split at hfind
    · rename_i heq
      cases hfind
      exact .inr (heq ▸ hresolves)
    · exact h.origin t s hfind

/-- What the lookup does with the dictionary at hand. -/
theorem run_getTypeSerializerAndCache (depth : Nat) (type : TypeName) (d : Serializers S) :
    (getTypeSerializerAndCache abi (depth + 1) type : Caching S (Option S)).run d =
      match d.find? type with
      | some nativeSerializer => (.ok (some nativeSerializer), d)
      | none =>
        match abi.typeDef? type with
        | none => (.ok none, d)
        | some abiTypeDef =>
          match (getTypeSerializerAndCache abi depth abiTypeDef.type :
            Caching S (Option S)).run d with
          | (.ok none, d') => (.ok none, d')
          | (.ok (some serializer), d') => (.ok (some serializer), d'.insert type serializer)
          | (.error e, d') => (.error e, d') := by
  show (match d.find? type with
    | some nativeSerializer => (pure (some nativeSerializer) : Caching S (Option S))
    | none => _).run d = _
  cases d.find? type with
  | some => rfl
  | none =>
    cases abi.typeDef? type with
    | none => rfl
    | some abiTypeDef =>
      dsimp only
      rw [Simulates.run_bind]
      cases (getTypeSerializerAndCache abi depth abiTypeDef.type :
          Caching S (Option S)).run d with
      | mk r =>
        cases r with
        | error => rfl
        | ok found => cases found <;> rfl

/-- A typedef of a name to itself is followed until the stack overflows. -/
theorem run_getTypeSerializerAndCache_self (hnone : d.find? type = none)
    (htypeDef : abi.typeDef? type = some abiTypeDef) (hself : abiTypeDef.type = type) :
    (getTypeSerializerAndCache abi depth type : Caching S (Option S)).run d =
      (.error stackOverflow, d) := by
  induction depth with
  | zero => rfl
  | succ _ ih =>
    rw [run_getTypeSerializerAndCache, hnone, htypeDef]
    simp only [hself, ih]

theorem resolveSerializer_self (hnone : initial.find? type = none)
    (htypeDef : abi.typeDef? type = some abiTypeDef) (hself : abiTypeDef.type = type) :
    resolveSerializer initial abi depth type = .error stackOverflow := by
  induction depth with
  | zero => rfl
  | succ _ ih =>
    rw [resolveSerializer, hnone, htypeDef]
    simp only [hself, ih]

theorem mem_of_typeDef? (h : abi.typeDef? type = some abiTypeDef) :
    abiTypeDef ∈ abi.types := mem_of_find?_eq_some h

theorem simulates_lookup (hmentioned : Mentioned abi type)
    (hunwrap : unwrapTypeDef abi depth type = .ok uwtype) :
    Simulates (Coherent initial abi before) (getTypeSerializerAndCache abi depth type)
      (resolveSerializer initial abi depth type) := by
  induction depth generalizing type with
  | zero => cases hunwrap
  | succ depth ih =>
    intro d hd
    rw [run_getTypeSerializerAndCache]
    cases hfind : d.find? type with
    | some serializer =>
      have hresolves := hd.mentioned type serializer hmentioned hfind
      rw [resolveSerializer_of_resolves hresolves hunwrap]
      exact ⟨rfl, hd⟩
    | none =>
      have hnone : initial.find? type = none := by
        cases hinitial : initial.find? type with
        | none => rfl
        | some serializer =>
          rw [hd.builtIn type serializer hinitial] at hfind
          cases hfind
      cases htypeDef : abi.typeDef? type with
      | none =>
        rw [resolveSerializer, hnone, htypeDef]
        exact ⟨rfl, hd⟩
      | some abiTypeDef =>
        by_cases hself : abiTypeDef.type = type
        · rw [resolveSerializer_self hnone htypeDef hself]
          dsimp only
          rw [hself, run_getTypeSerializerAndCache_self hfind htypeDef hself]
          exact ⟨rfl, hd⟩
        · obtain ⟨_, hdepth, hrest⟩ := unwrapTypeDef_succ htypeDef hself hunwrap
          cases hdepth
          obtain ⟨hresult, hkept⟩ := ih (.target (mem_of_typeDef? htypeDef)) hrest d hd
          rw [resolveSerializer, hnone, htypeDef]
          dsimp only
          rw [← hresult]
          cases hrun : (getTypeSerializerAndCache abi depth abiTypeDef.type :
              Caching S (Option S)).run d with
          | mk r =>
            rw [hrun] at hresult hkept
            cases r with
            | error => exact ⟨rfl, hkept⟩
            | ok found =>
              cases found with
              | none => exact ⟨rfl, hkept⟩
              | some =>
                have hresolves := resolves_of_resolveSerializer hresult.symm
                exact ⟨rfl, hkept.insert hnone (.typeDef hnone htypeDef hresolves)⟩

end Lookup

section Functions

variable {rt : Runtime α} {abi : Abi}

variable {β : Type} {fields : List AbiField} {st : AbiStruct}

theorem liftExcept_eq (x : Throwing β) : liftExcept x = x := by
  cases x <;> rfl

theorem simulates_liftExcept {C : Serializers S → Prop} (x : Throwing β) :
    Simulates C (liftExcept x : Caching S β) (liftExcept x) := by
  cases x with
  | ok b => exact .pure b
  | error e => exact .throw e

theorem mem_of_struct? {name : TypeName} (h : abi.struct? name = some st) :
    st ∈ abi.structs := mem_of_find?_eq_some h

section Writers

variable {initial before : Serializers (Writer α)}

variable {C : Serializers S → Prop}

theorem simulates_writeItems {write : Value α → Caching S Bytes}
    {write' : Value α → Throwing Bytes} (h : ∀ item, Simulates C (write item) (write' item))
    (items : List (Value α)) : Simulates C (writeItems write items) (writeItems write' items) := by
  induction items with
  | nil => exact .pure _
  | cons item _ ih => exact (h item).bind fun _ _ => ih.bind fun _ _ => .pure _

theorem simulates_writeFields {write : Value α → TypeName → Caching S Bytes}
    {write' : Value α → TypeName → Throwing Bytes} {value : Value α}
    (h : ∀ field ∈ fields, ∀ var, Simulates C (write var field.type) (write' var field.type)) :
    Simulates C (writeFields rt write st value fields) (writeFields rt write' st value fields) := by
  induction fields with
  | nil => exact .pure _
  | cons field _ ih =>
    refine (simulates_liftExcept _).bind fun var _ => ?_
    refine (h field mem_cons_self var).bind fun _ _ => ?_
    exact (ih fun f hf => h f (mem_cons_of_mem _ hf)).bind fun _ _ => .pure _

/-- Writing with a coherent dictionary gives what it gives without one. The depth is that of
both computations. -/
theorem simulates_writers (depth : Nat) :
    (∀ value type, Mentioned abi type → Simulates (Coherent initial abi before)
      (writeAbiType rt abi (getTypeSerializerAndCache abi) depth value type)
      (writeAbiType rt abi (resolveSerializer initial abi) depth value type)) ∧
    ∀ value st, st ∈ abi.structs → Simulates (Coherent initial abi before)
      (writeAbiStruct rt abi (getTypeSerializerAndCache abi) depth value st)
      (writeAbiStruct rt abi (resolveSerializer initial abi) depth value st) := by
  induction depth with
  | zero =>
    exact ⟨fun _ _ _ => .throw _, fun _ _ _ => .throw _⟩
  | succ _ ih =>
    obtain ⟨ihType, ihStruct⟩ := ih
    constructor
    · intro value _ hmentioned
      refine (simulates_liftExcept _).bind fun uwtype hunwrap => ?_
      rw [liftExcept_eq] at hunwrap
      refine .ite (fun _ => .pure _) fun _ => ?_
      refine Simulates.bind ?_ fun _ _ => .pure _
      refine .ite (fun harray => ?_) fun _ => ?_
      · refine (simulates_liftExcept _).bind fun items _ => ?_
        refine (simulates_writeItems (fun item => ?_) items).bind fun _ _ => .pure _
        exact ihType item _ (.element hmentioned hunwrap harray)
      · refine (simulates_lookup hmentioned hunwrap).bind fun found _ => ?_
        cases found with
        | some => exact simulates_liftExcept _
        | none =>
          cases hstruct : abi.struct? uwtype with
          | some st =>
            exact ihStruct value st (mem_of_struct? hstruct)
          | none => exact .throw _
    · intro value _ hst
      refine .ite (fun _ => .pure _) fun _ => ?_
      refine Simulates.bind ?_ fun _ _ => ?_
      · exact .ite (fun _ => .pure _) fun _ => ihType value _ (.base hst)
      · exact (simulates_writeFields fun field hfield var =>
          ihType var _ (.field hst hfield)).bind fun _ _ => .pure _

end Writers

section Readers

variable {initial before : Serializers (Reader α)} {data : Bytes}

variable {C : Serializers S → Prop}

theorem simulates_readItems {read : Nat → Caching S (Value α × Nat)}
    {read' : Nat → Throwing (Value α × Nat)}
    (h : ∀ readIndex, Simulates C (read readIndex) (read' readIndex)) (size readIndex : Nat) :
    Simulates C (readItems read size readIndex) (readItems read' size readIndex) := by
  induction size generalizing readIndex with
  | zero => exact .pure _
  | succ _ ih => exact (h readIndex).bind fun r _ => (ih r.2).bind fun _ _ => .pure _

theorem simulates_readFields {read : TypeName → Nat → Caching S (Value α × Nat)}
    {read' : TypeName → Nat → Throwing (Value α × Nat)} (h : ∀ field ∈ fields, ∀ readIndex,
      Simulates C (read field.type readIndex) (read' field.type readIndex)) (value : Value α)
    (readIndex : Nat) : Simulates C (readFields target read fields value readIndex)
      (readFields target read' fields value readIndex) := by
  induction fields generalizing value readIndex with
  | nil => exact .pure _
  | cons field _ ih =>
    refine (h field mem_cons_self readIndex).bind fun r _ => ?_
    refine (simulates_liftExcept _).bind fun value _ => ?_
    exact ih (fun f hf => h f (mem_cons_of_mem _ hf)) value r.2

theorem simulates_readers (depth : Nat) :
    (∀ type readIndex, Mentioned abi type → Simulates (Coherent initial abi before)
      (readAbiType rt abi (getTypeSerializerAndCache abi) data depth type readIndex)
      (readAbiType rt abi (resolveSerializer initial abi) data depth type readIndex)) ∧
    ∀ target st readIndex, st ∈ abi.structs → Simulates (Coherent initial abi before)
      (readAbiStruct rt abi (getTypeSerializerAndCache abi) data depth target st readIndex)
      (readAbiStruct rt abi (resolveSerializer initial abi) data depth target st readIndex) := by
  induction depth with
  | zero =>
    exact ⟨fun _ _ _ => .throw _, fun _ _ _ _ => .throw _⟩
  | succ depth ih =>
    obtain ⟨ihType, ihStruct⟩ := ih
    constructor
    · intro type readIndex hmentioned
      refine (simulates_liftExcept _).bind fun uwtype hunwrap => ?_
      rw [liftExcept_eq] at hunwrap
      have hrest : ∀ readIndex, Simulates (Coherent initial abi before)
          (readUnwrapped abi (readAbiType rt abi (getTypeSerializerAndCache abi) data depth)
            (readAbiStruct rt abi (getTypeSerializerAndCache abi) data depth dictionaryTarget)
            (getTypeSerializerAndCache abi depth type) data uwtype readIndex)
          (readUnwrapped abi (readAbiType rt abi (resolveSerializer initial abi) data depth)
            (readAbiStruct rt abi (resolveSerializer initial abi) data depth dictionaryTarget)
            (resolveSerializer initial abi depth type) data uwtype readIndex) := by
        intro readIndex
        refine .ite (fun harray => ?_) fun _ => ?_
        · refine (simulates_liftExcept _).bind fun count _ => ?_
          refine (simulates_liftExcept _).bind fun size _ => ?_
          refine (simulates_readItems (fun readIndex => ?_) size count.2).bind fun _ _ => .pure _
          exact ihType _ readIndex (.element hmentioned hunwrap harray)
        · refine (simulates_lookup hmentioned hunwrap).bind fun found _ => ?_
          cases found with
          | some => exact simulates_liftExcept _
          | none =>
            cases hstruct : abi.struct? uwtype with
            | some st =>
              exact ihStruct _ st readIndex (mem_of_struct? hstruct)
            | none => exact .throw _
      refine .ite (fun _ => ?_) fun _ => hrest readIndex
      exact (simulates_liftExcept _).bind fun opt _ =>
        .ite (fun _ => .pure _) fun _ => hrest opt.2
    · intro _ _ readIndex hst
      refine Simulates.bind ?_ fun r _ => ?_
      · refine .ite (fun _ => .pure _) fun _ => ?_
        refine (ihType _ readIndex (.base hst)).bind fun r _ => ?_
        exact (simulates_liftExcept _).bind fun _ _ => .pure _
      · refine .ite (fun _ => .throw _) fun _ => ?_
        exact simulates_readFields (fun field hfield readIndex =>
          ihType _ readIndex (.field hst hfield)) r.1 r.2

end Readers

theorem simulates_serializeActionData {initial before : Serializers (Writer α)} (depth : Nat)
    (name : List Char) (value : Value α) : Simulates (Coherent initial abi before)
      (serializeActionData rt abi (getTypeSerializerAndCache abi) depth name value)
      (serializeActionData rt abi (resolveSerializer initial abi) depth name value) := by
  rw [serializeActionData, serializeActionData]
  split
  · exact .throw _
  · split
    · exact .throw _
    · rename_i st hst
      exact (simulates_writers depth).2 value st (mem_of_struct? hst)

theorem simulates_deserializeStructData {initial before : Serializers (Reader α)} (depth : Nat)
    (structType : TypeName) (data : Bytes) (target : Target α) :
    Simulates (Coherent initial abi before)
      (deserializeStructData rt abi (getTypeSerializerAndCache abi) depth structType data target)
      (deserializeStructData rt abi (resolveSerializer initial abi) depth structType data
        target) := by
  rw [deserializeStructData, deserializeStructData]
  split
  · exact .throw _
  · rename_i st hst
    exact ((simulates_readers depth).2 target st 0 (mem_of_struct? hst)).bind fun _ _ => .pure _

end Functions

/-- The names of the readers `ReadType` looks up for a type. -/
inductive NetType.Reads : NetType α → TypeName → Prop
  | primitive {name} : Reads (.primitive name) name
  | collection {item name} (h : Reads item name) :
      Reads (.collection item) name
  | optional {type name} (h : Reads type name) :
      Reads (.optional type) name
  | record {value members member name}
      (hmember : member ∈ members) (h : Reads member.1 name) : Reads (.record value members) name

theorem readType_congr {readers readers' : Serializers (Reader α)} {data : Bytes} {depth : Nat}
    {type : NetType α} (h : ∀ name, type.Reads name → readers.find? name = readers'.find? name) :
    readType readers data depth type = readType readers' data depth type := by
  induction depth generalizing type with
  | zero => rfl
  | succ depth ih =>
    funext readIndex
    cases type with
    | collection =>
      simp only [readType]
      rw [ih fun name hname => h name (.collection hname)]
    | optional =>
      simp only [readType]
      rw [ih fun name hname => h name (.optional hname)]
    | primitive name =>
      simp only [readType]
      rw [h name .primitive]
    | record value members =>
      simp only [readType]
      have hmembers : ∀ member ∈ members, readType readers data depth member.1 =
          readType readers' data depth member.1 := fun member hmember =>
        ih fun name hname => h name (.record hmember hname)
      clear h
      induction members generalizing value readIndex with
      | nil => rfl
      | cons member _ ihMembers =>
        simp only [readMembers]
        rw [hmembers member mem_cons_self]
        refine bind_congr fun r => bind_congr fun value => ?_
        exact ihMembers r.2 value fun other hother =>
          hmembers other (mem_cons_of_mem _ hother)

namespace Call

def MentionsWriter : Call α → TypeName → Prop
  | .serializeActionData _ _ abi, type => Mentioned abi type
  | _, _ => False

def MentionsReader : Call α → TypeName → Prop
  | .deserializeStructData _ _ abi _, type => Mentioned abi type
  | .deserializeType netType _, type => netType.Reads type
  | _, _ => False

def ResolvesWriter (rt : Runtime α) : Call α → TypeName → Writer α → Prop
  | .serializeActionData _ _ abi, type, writer =>
    Resolves (initialSerializers rt.writer) abi type writer
  | _, type, writer => (initialSerializers rt.writer).find? type = some writer

def ResolvesReader (rt : Runtime α) : Call α → TypeName → Reader α → Prop
  | .deserializeStructData _ _ abi _, type, reader =>
    Resolves (initialSerializers rt.reader) abi type reader
  | _, type, reader => (initialSerializers rt.reader).find? type = some reader

/-- What the earlier of two calls resolves and the later one mentions stands for the same in
both. -/
def Consistent (rt : Runtime α) (earlier later : Call α) : Prop :=
  (∀ type writer, earlier.ResolvesWriter rt type writer → later.MentionsWriter type →
    later.ResolvesWriter rt type writer) ∧
  ∀ type reader, earlier.ResolvesReader rt type reader → later.MentionsReader type →
    later.ResolvesReader rt type reader

end Call

theorem exists_mem_cons_of_mem {P : Call α → Prop} {done : List (Call α)} (call : Call α)
    (h : ∃ earlier ∈ done, P earlier) : ∃ earlier ∈ call :: done, P earlier := by
  obtain ⟨earlier, hmem, hearlier⟩ := h
  exact ⟨earlier, mem_cons_of_mem call hmem, hearlier⟩

/-- A provider after some calls: the built-in types are there, and what else there is was
resolved in one of the calls. -/
structure Remembers (rt : Runtime α) (done : List (Call α)) (p : AbiSerializationProvider α) :
    Prop where
  builtInWriters : ∀ type writer, (initialSerializers rt.writer).find? type = some writer →
    p.typeWriters.find? type = some writer
  builtInReaders : ∀ type reader, (initialSerializers rt.reader).find? type = some reader →
    p.typeReaders.find? type = some reader
  writers : ∀ type writer, p.typeWriters.find? type = some writer →
    (initialSerializers rt.writer).find? type = some writer ∨
      ∃ call ∈ done, call.ResolvesWriter rt type writer
  readers : ∀ type reader, p.typeReaders.find? type = some reader →
    (initialSerializers rt.reader).find? type = some reader ∨
      ∃ call ∈ done, call.ResolvesReader rt type reader

theorem remembers_new (rt : Runtime α) : Remembers rt [] (.new rt) :=
  ⟨fun _ _ h => h, fun _ _ h => h, fun _ _ h => .inl h, fun _ _ h => .inl h⟩

namespace Remembers

variable {rt : Runtime α} {done : List (Call α)} {p : AbiSerializationProvider α} {abi : Abi}

section

variable (h : Remembers rt done p)
include h

theorem coherent_writers {name value} (hconsistent : ∀ earlier ∈ done,
      earlier.Consistent rt (.serializeActionData name value abi)) :
    Coherent (initialSerializers rt.writer) abi p.typeWriters p.typeWriters where
  builtIn := h.builtInWriters
  mentioned type writer hmentioned hfind := by
    obtain hbuiltIn | ⟨earlier, hmem, hresolves⟩ := h.writers type writer hfind
    · exact .builtIn hbuiltIn
    · exact (hconsistent earlier hmem).1 type writer hresolves hmentioned
  origin _ _ hfind := .inl hfind

theorem coherent_readers {structType data} (hconsistent : ∀ earlier ∈ done,
      earlier.Consistent rt (.deserializeStructData structType data abi target)) :
    Coherent (initialSerializers rt.reader) abi p.typeReaders p.typeReaders where
  builtIn := h.builtInReaders
  mentioned type reader hmentioned hfind := by
    obtain hbuiltIn | ⟨earlier, hmem, hresolves⟩ := h.readers type reader hfind
    · exact .builtIn hbuiltIn
    · exact (hconsistent earlier hmem).2 type reader hresolves hmentioned
  origin _ _ hfind := .inl hfind

theorem perform {depth call} (hconsistent : ∀ earlier ∈ done, earlier.Consistent rt call) :
    (p.perform rt depth call).1 =
      ((new rt).perform rt depth call).1 ∧
    Remembers rt (call :: done) (p.perform rt depth call).2 := by
  have hnew := remembers_new rt
  have hnone : ∀ earlier ∈ ([] : List (Call α)), earlier.Consistent rt call := nofun
  cases call with
  | serializeActionData name value abi =>
    have hsimulates : ∀ before, Simulates (Coherent (initialSerializers rt.writer) abi before)
        (serializeActionData rt abi (getTypeSerializerAndCache abi) depth name value)
        (serializeActionData rt abi (resolveSerializer (initialSerializers rt.writer) abi) depth
          name value) := fun _ => simulates_serializeActionData depth name value
    obtain ⟨hresult, hkept⟩ := hsimulates _ _ (h.coherent_writers hconsistent)
    obtain ⟨hfresh, _⟩ := hsimulates _ _ (hnew.coherent_writers hnone)
    refine ⟨congrArg (Except.map Result.bytes) (hresult.trans hfresh.symm), ?_⟩
    refine ⟨hkept.builtIn, h.builtInReaders, fun type writer hfind => ?_, fun type reader hfind =>
      (h.readers type reader hfind).imp_right (exists_mem_cons_of_mem _)⟩
    cases hkept.origin type writer hfind with
    | inl hbefore => exact (h.writers type writer hbefore).imp_right (exists_mem_cons_of_mem _)
    | inr hresolves => exact .inr ⟨_, mem_cons_self, hresolves⟩
  | deserializeStructData structType data abi target =>
    have hsimulates : ∀ before, Simulates (Coherent (initialSerializers rt.reader) abi before)
        (deserializeStructData rt abi (getTypeSerializerAndCache abi) depth structType data target)
        (deserializeStructData rt abi (resolveSerializer (initialSerializers rt.reader) abi) depth
          structType data target) :=
      fun _ => simulates_deserializeStructData depth structType data target
    obtain ⟨hresult, hkept⟩ := hsimulates _ _ (h.coherent_readers hconsistent)
    obtain ⟨hfresh, _⟩ := hsimulates _ _ (hnew.coherent_readers hnone)
    refine ⟨congrArg (Except.map Result.value) (hresult.trans hfresh.symm), ?_⟩
    refine ⟨h.builtInWriters, hkept.builtIn, fun type writer hfind =>
      (h.writers type writer hfind).imp_right (exists_mem_cons_of_mem _), fun type reader hfind =>
      ?_⟩
    cases hkept.origin type reader hfind with
    | inl hbefore => exact (h.readers type reader hbefore).imp_right (exists_mem_cons_of_mem _)
    | inr hresolves => exact .inr ⟨_, mem_cons_self, hresolves⟩
  | deserializeType type =>
    have hreaders : ∀ name, type.Reads name →
        p.typeReaders.find? name = (initialSerializers rt.reader).find? name := by
      intro name hname
      cases hfind : p.typeReaders.find? name with
      | some reader =>
        obtain hbuiltIn | ⟨earlier, hmem, hresolves⟩ := h.readers name reader hfind
        · exact hbuiltIn.symm
        · exact ((hconsistent earlier hmem).2 name reader hresolves hname).symm
      | none =>
        cases hbuiltIn : (initialSerializers rt.reader).find? name with
        | none => rfl
        | some reader =>
          rw [h.builtInReaders name reader hbuiltIn] at hfind
          cases hfind
    refine ⟨?_, h.builtInWriters, h.builtInReaders, fun type writer hfind =>
      (h.writers type writer hfind).imp_right (exists_mem_cons_of_mem _), fun type reader hfind =>
      (h.readers type reader hfind).imp_right (exists_mem_cons_of_mem _)⟩
    simp only [AbiSerializationProvider.perform]
    rw [readType_congr hreaders]
    rfl

theorem performAll {depth calls}
    (hdone : ∀ earlier ∈ done, ∀ call ∈ calls, earlier.Consistent rt call)
    (hcalls : calls.Pairwise (Call.Consistent rt)) : p.performAll rt depth calls =
      calls.map fun call => ((new rt).perform rt depth call).1 := by
  induction calls generalizing done p with
  | nil => rfl
  | cons call _ ih =>
    obtain ⟨hfirst, hothers⟩ := pairwise_cons.mp hcalls
    have hperform : ∀ earlier ∈ done, earlier.Consistent rt call := fun earlier hmem =>
      hdone earlier hmem call mem_cons_self
    obtain ⟨hresult, hkept⟩ := h.perform hperform
    refine congrArg₂ cons hresult (ih hkept (fun earlier hmem later hlater => ?_) hothers)
    cases hmem with
    | head => exact hfirst later hlater
    | tail _ hmem => exact hdone earlier hmem later (mem_cons_of_mem _ hlater)

end

end Remembers

/-- If any two calls agree on the names both have to do with, every call gives what it gives on a
new provider. -/
theorem performAll_eq_new (rt : Runtime α) (depth : Nat) (calls : List (Call α))
    (hconsistent : calls.Pairwise (Call.Consistent rt)) : (new rt).performAll rt depth calls =
      calls.map fun call => ((new rt).perform rt depth call).1 :=
  (remembers_new rt).performAll nofun hconsistent

/-- Numbers with the writers and readers of two types; the others throw. -/
def numberRuntime : Runtime Nat where
  writer name
    | .primitive n =>
      if name = "uint8".toList then .ok [UInt8.ofNat n]
      else if name = "uint16".toList then .ok [UInt8.ofNat n, UInt8.ofNat (n / 256)]
      else .error ⟨.invalidCastException, "", []⟩
    | _ => .error ⟨.invalidCastException, "", []⟩
  reader name data readIndex :=
    match data[readIndex]?, data[readIndex + 1]? with
    | some b, some c =>
      if name = "uint16".toList then .ok (.primitive (b.toNat + 256 * c.toNat), readIndex + 2)
      else .ok (.primitive b.toNat, readIndex + 1)
    | some b, none =>
      if name = "uint8".toList then .ok (.primitive b.toNat, readIndex + 1)
      else .error ⟨.argumentException, "", []⟩
    | none, _ => .error indexOutOfRange
  collection _ := .error ⟨.invalidCastException, "", []⟩
  member _ _ := none
  snakeCaseToPascalCase name := name
  pascalCaseToSnakeCase name := name
  isWhiteSpace := Char.isWhitespace

/-- A contract with one action, whose field is of a typedef for the given type. -/
def amountAbi (type : String) : Abi where
  types := [⟨"amount".toList, type.toList⟩]
  structs := [⟨"pay".toList, [], [⟨"x".toList, "amount".toList⟩]⟩]
  actions := [⟨"pay".toList, "pay".toList⟩]

def payCall (type : String) (n : Nat) : Call Nat :=
  .serializeActionData "pay".toList (.dictionary [("x".toList, .primitive n)]) (amountAbi type)

/-- Two actions of one contract; the second finds the typedef in the dictionary. -/
theorem performAll_eq_new_pay : (new numberRuntime).performAll numberRuntime 9
      [payCall "uint16" 5, payCall "uint16" 7] =
      [payCall "uint16" 5, payCall "uint16" 7].map fun call =>
        ((new numberRuntime).perform numberRuntime 9 call).1 :=
  performAll_eq_new numberRuntime 9 _ (pairwise_pair.mpr
    ⟨fun _ _ hresolves _ => hresolves, fun _ _ hresolves _ => hresolves⟩)

/-- The second contract's number is written with the writer of the first one's. -/
theorem performAll_remembers : (new numberRuntime).performAll numberRuntime 9
      [payCall "uint8" 5, payCall "uint16" 5] = [.ok (.bytes [5]), .ok (.bytes [5])] ∧
    ((new numberRuntime).perform numberRuntime 9 (payCall "uint16" 5)).1 =
      .ok (.bytes [5, 0]) :=
  ⟨rfl, rfl⟩

end DreamChain.DrmSharp
