import DreamChain.Chain.AbiBuiltIns
import DreamChain.Library.ExceptLoop

/-!
What the decoder reads, the encoder writes, and the decoder reads it again. The parts of a value
are the values the encoder is called on below it, each with the type and the permission to leave
extensions out that it is called with. Two conditions on the parts describe what the encoder is
able to write: one on missing extensions, one on the types.
-/

namespace DreamChain
open Library List FlatMap

namespace VariantObject

variable {obj : VariantObject} {key : FieldName} {var : Variant}

def keys (obj : VariantObject) : List FieldName := obj.map Prod.fst

theorem find?_eq_none : obj.find? key = none ↔ key ∉ obj.keys := by
  rw [find?, Option.map_eq_none_iff, List.find?_eq_none, keys, List.mem_map]
  exact ⟨fun h ⟨e, he, hkey⟩ => h e he (by simpa using hkey),
    fun h e he hkey => h ⟨e, he, by simpa using hkey⟩⟩

theorem find?_append (obj more : VariantObject) (key : FieldName) :
    find? (obj ++ more) key = (find? obj key).or (find? more key) := by
  simp [find?, Option.map_or]

theorem find?_append_of_notMem {more : VariantObject} (h : key ∉ obj.keys) :
    find? (obj ++ more) key = find? more key := by
  rw [find?_append, find?_eq_none.mpr h, Option.none_or]

theorem set_of_notMem (h : key ∉ obj.keys) : obj.set key var = obj ++ [(key, var)] := by
  induction obj with
  | nil => rfl
  | cons e rest ih =>
    have hne : e.1 ≠ key := fun he => h (he ▸ mem_cons_self)
    have hrest : key ∉ VariantObject.keys rest := fun hm => h (mem_cons_of_mem _ hm)
    rw [set, if_neg hne, ih hrest, cons_append]

end VariantObject

namespace AbiSerializer

variable {s : AbiSerializer}

/-- No name at which a resolution ends is defined as another name. -/
def Resolved (s : AbiSerializer) : Prop :=
  ∀ type, s.typedefs.find? (s.resolveType type) = none

variable {type : TypeName}

theorem find?_resolveLoop {origin t lookups typesSeen}
    (h : s.followTypedefs origin lookups typesSeen t = .ok ()) :
    s.typedefs.find? (s.resolveLoop type lookups t) = none := by
  induction lookups generalizing typesSeen t with
  | zero => cases h
  | succ _ ih =>
    rw [followTypedefs] at h
    rw [resolveLoop]
    cases hfind : s.typedefs.find? t with
    | none => exact hfind
    | some =>
      rw [hfind] at h
      obtain ⟨_, _, hrest⟩ := bind_eq_ok.mp h
      exact ih hrest

theorem resolved_of_validate (h : s.validate = .ok ()) : s.Resolved := by
  intro type
  obtain ⟨_, hchains, _⟩ := bind_eq_ok.mp h
  rw [resolveType]
  cases hfind : s.typedefs.find? type with
  | none => exact hfind
  | some t =>
    have hentry := (s.typedefs.mem_entries_iff type t).mpr hfind
    exact find?_resolveLoop (forM_eq_ok.mp hchains _ hentry)

theorem addTypedef_builtInTypes {s' td}
    (h : s.addTypedef td = .ok s') : s'.builtInTypes = s.builtInTypes := by
  obtain ⟨_, _, h⟩ := bind_eq_ok.mp h
  obtain ⟨_, _, h⟩ := bind_eq_ok.mp h
  obtain ⟨_, _, h⟩ := bind_eq_ok.mp h
  obtain ⟨_, _, h⟩ := bind_eq_ok.mp h
  cases h
  rfl

theorem setAbi_eq_ok {s' abi} (h : s.setAbi abi = .ok s') :
    s'.builtInTypes = s.builtInTypes ∧ s'.validate = .ok () ∧
      s'.variants = abi.variants.foldl (fun m v => m.insert v.name v) .empty := by
  obtain ⟨_, _, h⟩ := bind_eq_ok.mp h
  obtain ⟨t, htypes, h⟩ := bind_eq_ok.mp h
  have hbuiltIn : t.builtInTypes = s.builtInTypes :=
    foldlM_ok_induction (I := fun t => t.builtInTypes = s.builtInTypes)
      (fun _ _ _ _ ht hadd => (addTypedef_builtInTypes hadd).trans ht) rfl htypes
  simp only [bind_eq_ok] at h
  obtain ⟨_, _, _, _, _, _, _, _, _, _, _, _, _, hvalid, h⟩ := h
  cases h
  exact ⟨hbuiltIn, hvalid, rfl⟩

namespace Resolved

variable (hs : s.Resolved)
include hs

theorem resolveType_resolveType (type : TypeName) :
    s.resolveType (s.resolveType type) = s.resolveType type := by
  rw [resolveType, hs type]

theorem binaryToVariantWithin_resolveType (scopes : Nat) (type : TypeName) :
    s.binaryToVariantWithin scopes (s.resolveType type) = s.binaryToVariantWithin scopes type := by
  cases scopes with
  | zero => rfl
  | succ =>
    simp only [binaryToVariantWithin, hs.resolveType_resolveType type]

end Resolved

variable {stream : Bytes}

theorem survives_element {read written v rest} (h : unpackElement read stream = .ok (v, rest))
    (hvalue : ∀ stream rest, read stream = .ok (v, rest) → Survives read written false v) :
    Survives (unpackElement read) written false v := by
  obtain ⟨⟨w, _⟩, hread, h⟩ := bind_eq_ok.mp h
  obtain ⟨u, hnull, h⟩ := bind_eq_ok.mp h
  cases h
  obtain ⟨out, hout, hne, hagain⟩ := hvalue stream _ hread
  refine ⟨out, hout, hne, fun rest hrest => ?_⟩
  exact bind_eq_ok.mpr ⟨(v, rest), hagain rest hrest, bind_eq_ok.mpr ⟨u, hnull, rfl⟩⟩

variable {vo : VariantObject}

section Fields

variable {read : TypeName → Decoder} {write : Bool → TypeName → Encoder}
  {fields : List FieldDef} {encountered : Bool} {stream rest : Bytes} {obj obj' : VariantObject}

def names (fields : List FieldDef) : List FieldName := fields.map FieldDef.name

theorem fieldType_eq (field : FieldDef) :
    (if isBinExtension field.type then removeBinExtension field.type else field.type) =
      removeBinExtension field.type := by
  by_cases h : isBinExtension field.type
  · rw [if_pos h]
  · rw [if_neg h, removeBinExtension, if_neg h]

theorem unpackFields_cons {field : FieldDef} (hstream : stream ≠ []) :
    unpackFields read (field :: fields) encountered stream obj =
      (read (removeBinExtension field.type) stream >>= fun r =>
        unpackFields read fields (encountered || isBinExtension field.type) r.2
          (obj.set field.name r.1)) := by
  rw [unpackFields]
  simp only [if_neg hstream, fieldType_eq]

theorem unpackFields_nil_stream : unpackFields read fields encountered [] obj = .ok (obj', rest) ↔
      obj' = obj ∧ rest = [] ∧ ∀ field ∈ fields, isBinExtension field.type = true := by
  induction fields generalizing encountered with
  | nil =>
    constructor
    · intro h
      cases h
      exact ⟨rfl, rfl, nofun⟩
    · rintro ⟨rfl, rfl, _⟩
      rfl
  | cons field _ ih =>
    rw [unpackFields, forall_mem_cons]
    simp only [if_true]
    by_cases hext : isBinExtension field.type
    · rw [if_pos hext, ih]
      simp [hext]
    · rw [if_neg hext]
      refine iff_of_false (fun h => ?_) fun h => hext h.2.2.1
      split at h <;> cases h

theorem fresh_set {field : FieldDef} (hnames : (names (field :: fields)).Nodup)
    (hfresh : ∀ name ∈ names (field :: fields), name ∉ obj.keys) (v : Variant) :
    ∀ name ∈ names fields, name ∉ (obj.set field.name v).keys := by
  intro name hname hmem
  rw [VariantObject.set_of_notMem (hfresh _ mem_cons_self), VariantObject.keys,
    map_append, mem_append] at hmem
  cases hmem with
  | inl hold => exact hfresh name (mem_cons_of_mem _ hname) hold
  | inr hnew =>
    obtain rfl : name = field.name := mem_singleton.mp hnew
    exact (nodup_cons.mp hnames).1 hname

theorem unpackFields_append (h : unpackFields read fields encountered stream obj = .ok (obj', rest))
    (hnames : (names fields).Nodup) (hfresh : ∀ name ∈ names fields, name ∉ obj.keys) :
    ∃ own, obj' = obj ++ own ∧ ∀ name ∈ own.keys, name ∈ names fields := by
  induction fields generalizing encountered stream obj with
  | nil =>
    cases h
    exact ⟨[], (append_nil _).symm, nofun⟩
  | cons field _ ih =>
    by_cases hstream : stream = []
    · subst hstream
      obtain ⟨rfl, _, _⟩ := unpackFields_nil_stream.mp h
      exact ⟨[], (append_nil _).symm, nofun⟩
    · rw [unpackFields_cons hstream] at h
      obtain ⟨⟨v, _⟩, _, h⟩ := bind_eq_ok.mp h
      have hset : obj.set field.name v = obj ++ [(field.name, v)] :=
        VariantObject.set_of_notMem (hfresh field.name mem_cons_self)
      obtain ⟨own, howns, hown⟩ := ih h (nodup_cons.mp hnames).2 (fresh_set hnames hfresh v)
      refine ⟨(field.name, v) :: own, ?_, fun name hname => ?_⟩
      · rw [howns, hset, append_assoc, singleton_append]
      · cases hname with
        | head => exact mem_cons_self
        | tail _ hname => exact mem_cons_of_mem _ (hown name hname)

theorem packFields_of_missing {disallow : Bool}
    (hfields : ∀ field ∈ fields, isBinExtension field.type = true)
    (hmissing : ∀ name ∈ names fields, vo.find? name = none) :
    packFields write true vo fields disallow = .ok [] := by
  induction fields generalizing disallow with
  | nil => rfl
  | cons field _ ih =>
    have hfind : vo.find? field.name = none := hmissing _ mem_cons_self
    have hext : isBinExtension field.type = true := hfields _ mem_cons_self
    simp only [packFields, hfind, hext]
    exact ih (fun f hf => hfields f (mem_cons_of_mem _ hf))
      fun name hname => hmissing name (mem_cons_of_mem _ hname)

/-- The object written may hold more than the fields at hand: those of structs derived from
this one. -/
theorem survives_fields {extensionsAllowed : Bool}
    (h : unpackFields read fields encountered stream obj = .ok (obj', rest))
    (hnames : (names fields).Nodup) (hfresh : ∀ name ∈ names fields, name ∉ obj.keys)
    (hagrees : ∀ name ∈ names fields, vo.find? name = obj'.find? name)
    (hallowed : ∀ name ∈ names fields, vo.find? name = none → extensionsAllowed = true)
    (hvalue : ∀ field later, (field :: later) <:+ fields → ∀ v, vo.find? field.name = some v →
      ∀ stream rest, read (removeBinExtension field.type) stream = .ok (v, rest) →
        Survives (read (removeBinExtension field.type))
          (write (extensionsAllowed && later.isEmpty) (removeBinExtension field.type) v)
          (extensionsAllowed && later.isEmpty) v) :
    ∃ out, packFields write extensionsAllowed vo fields false = .ok out ∧
      (obj' ≠ obj → out ≠ []) ∧
      ∀ encountered rest, (extensionsAllowed = true → rest = []) →
        unpackFields read fields encountered (out ++ rest) obj = .ok (obj', rest) := by
  induction fields generalizing encountered stream obj with
  | nil =>
    cases h
    exact ⟨[], rfl, fun h => absurd rfl h, fun _ _ _ => rfl⟩
  | cons field fields ih =>
    have hhead : field.name ∈ names (field :: fields) := mem_cons_self
    by_cases hstream : stream = []
    · subst hstream
      obtain ⟨rfl, _, hext⟩ := unpackFields_nil_stream.mp h
      have hmissing : ∀ name ∈ names (field :: fields), vo.find? name = none := fun name hname =>
        (hagrees name hname).trans (VariantObject.find?_eq_none.mpr (hfresh name hname))
      obtain rfl := hallowed _ hhead (hmissing _ hhead)
      refine ⟨[], packFields_of_missing hext hmissing, fun h => absurd rfl h, ?_⟩
      intro encountered rest hrest
      rw [hrest rfl]
      exact unpackFields_nil_stream.mpr ⟨rfl, rfl, hext⟩
    · have hnodup := (nodup_cons.mp hnames).2
      rw [unpackFields_cons hstream] at h
      obtain ⟨⟨v, stream'⟩, hread, h⟩ := bind_eq_ok.mp h
      have hset : obj.set field.name v = obj ++ [(field.name, v)] :=
        VariantObject.set_of_notMem (hfresh _ hhead)
      have hfresh' := fresh_set hnames hfresh v
      obtain ⟨_, rfl, _⟩ := unpackFields_append h hnodup hfresh'
      have hfind : vo.find? field.name = some v := by
        rw [hagrees _ hhead, hset, append_assoc,
          VariantObject.find?_append_of_notMem (hfresh _ hhead)]
        simp [VariantObject.find?]
      obtain ⟨out, hout, hne, hagain⟩ :=
        hvalue field fields (suffix_refl _) v hfind stream stream' hread
      obtain ⟨tail, htail, _, htails⟩ := ih h hnodup hfresh'
        (fun name hname => hagrees name (mem_cons_of_mem _ hname))
        (fun name hname => hallowed name (mem_cons_of_mem _ hname))
        (fun f later hsuffix => hvalue f later (hsuffix.trans (suffix_cons _ _)))
      refine ⟨out ++ tail, ?_, fun _ hnil => hne (append_eq_nil_iff.mp hnil).1, ?_⟩
      · simp only [packFields, hfind]
        exact bind_eq_ok.mpr ⟨out, hout, bind_eq_ok.mpr ⟨tail, htail, rfl⟩⟩
      · intro _ rest hrest
        rw [append_assoc, unpackFields_cons fun hnil =>
          hne (append_eq_nil_iff.mp hnil).1]
        refine bind_eq_ok.mpr ⟨(v, tail ++ rest), hagain _ fun hlast => ?_, htails _ rest hrest⟩
        -- the permission is passed on to the last field only, after which nothing is written
        obtain ⟨hallow, hlater⟩ := Bool.and_eq_true_iff.mp hlast
        obtain rfl := isEmpty_iff.mp hlater
        cases htail
        exact hrest hallow

end Fields

structure IsStruct (s : AbiSerializer) (type : TypeName) (st : StructDef) : Prop where
  notBuiltIn : s.builtInTypes.find? (fundamentalType type) = none
  notArray : isArray type = false
  notOptional : isOptional type = false
  notVariant : s.variants.find? type = none
  found : s.structs.find? type = some st

def Extends (s : AbiSerializer) (st base : StructDef) : Prop :=
  st.base ≠ [] ∧ s.structs.find? (s.resolveType st.base) = some base

structure DistinctFieldNames (s : AbiSerializer) : Prop where
  own : ∀ type st, s.structs.find? type = some st → (names st.fields).Nodup
  inherited : ∀ type st base, s.structs.find? type = some st →
    Relation.TransGen (Extends s) st base → (names st.fields).Disjoint (names base.fields)

def BuiltInsRoundTrip (s : AbiSerializer) : Prop :=
  ∀ type btype, s.builtInTypes.find? type = some btype → btype.RoundTrips

structure Node where
  extensionsAllowed : Bool
  type : TypeName
  value : Variant

/-- The values directly below a value, with the permission the encoder passes on: none below an
array and for a base, for a field only that of the last one. -/
inductive Part (s : AbiSerializer) : Node → Node → Prop
  | element {allowed type vars var}
      (hbuiltIn : s.builtInTypes.find? (fundamentalType (s.resolveType type)) = none)
      (harray : isArray (s.resolveType type) = true) (hvar : var ∈ vars) :
      Part s ⟨allowed, type, .array vars⟩ ⟨false, fundamentalType (s.resolveType type), var⟩
  | alternative {allowed type t d var}
      (hbuiltIn : s.builtInTypes.find? (fundamentalType (s.resolveType type)) = none)
      (harray : isArray (s.resolveType type) = false)
      (hvariant : s.variants.find? (s.resolveType type) = some d) :
      Part s ⟨allowed, type, .array [.string t, var]⟩ ⟨allowed, t, var⟩
  | base {allowed type st obj}
      (hstruct : s.IsStruct (s.resolveType type) st) (hbase : st.base ≠ []) :
      Part s ⟨allowed, type, .object obj⟩ ⟨false, s.resolveType st.base, .object obj⟩
  | field {allowed : Bool} {type : TypeName} {st : StructDef} {obj : VariantObject}
      {field : FieldDef} {later : List FieldDef} {var : Variant}
      (hstruct : s.IsStruct (s.resolveType type) st) (hfield : (field :: later) <:+ st.fields)
      (hvar : obj.find? field.name = some var) :
      Part s ⟨allowed, type, .object obj⟩
        ⟨allowed && later.isEmpty, removeBinExtension field.type, var⟩

def Node.LacksOnlyAllowed (s : AbiSerializer) (node : Node) : Prop :=
  ∀ st (obj : VariantObject), s.IsStruct (s.resolveType node.type) st →
    node.value = .object obj →
    ∀ name ∈ names st.fields, obj.find? name = none → node.extensionsAllowed = true

/-- Not an optional of a type that is not built-in; and a struct whose base is not shadowed by a
built-in type, an array, an optional or a variant of the same name. -/
def Node.Supported (s : AbiSerializer) (node : Node) : Prop :=
  (isOptional (s.resolveType node.type) = true →
    s.builtInTypes.find? (fundamentalType (s.resolveType node.type)) ≠ none) ∧
  ∀ st, s.IsStruct (s.resolveType node.type) st → st.base ≠ [] →
    ∃ base, s.IsStruct (s.resolveType st.base) base

/-- Both conditions, for a value and everything below it. -/
def Covered (s : AbiSerializer) (node : Node) : Prop :=
  ∀ part, Relation.ReflTransGen (Part s) node part →
    part.LacksOnlyAllowed s ∧ part.Supported s

theorem Covered.part {node part : Node} (h : s.Covered node) (hpart : Part s node part) :
    s.Covered part :=
  fun other hother => h other (Relation.ReflTransGen.head hpart hother)

theorem Part.notBuiltIn {node part : Node} (h : Part s node part) :
    s.builtInTypes.find? (fundamentalType (s.resolveType node.type)) = none := by
  cases h with
  | element hbuiltIn => exact hbuiltIn
  | alternative hbuiltIn => exact hbuiltIn
  | base hstruct _ | field hstruct _ _ => exact hstruct.notBuiltIn

theorem covered_of_builtIn {node : Node}
    (h : s.builtInTypes.find? (fundamentalType (s.resolveType node.type)) ≠ none) :
    s.Covered node := by
  intro _ hpart
  obtain rfl | ⟨_, hfirst, _⟩ := Relation.ReflTransGen.cases_head hpart
  · exact ⟨fun _ _ hstruct => absurd hstruct.notBuiltIn h, fun _ => h,
      fun _ hstruct => absurd hstruct.notBuiltIn h⟩
  · exact absurd hfirst.notBuiltIn h

theorem Covered.resolveType {allowed v} (h : s.Covered ⟨allowed, type, v⟩)
    (hs : s.Resolved) : s.Covered ⟨allowed, s.resolveType type, v⟩ := by
  have hidem := hs.resolveType_resolveType type
  intro other hother
  obtain rfl | ⟨part, hpart, hother⟩ := Relation.ReflTransGen.cases_head hother
  · have hself := h _ .refl
    unfold Node.LacksOnlyAllowed Node.Supported at hself ⊢
    rwa [hidem]
  · have hpart' : Part s ⟨allowed, type, v⟩ part := by
      cases hpart with
      | element hbuiltIn harray hvar =>
        rw [hidem] at hbuiltIn harray ⊢
        exact .element hbuiltIn harray hvar
      | alternative hbuiltIn harray hvariant =>
        rw [hidem] at hbuiltIn harray hvariant
        exact .alternative hbuiltIn harray hvariant
      | base hstruct hbase =>
        rw [hidem] at hstruct
        exact .base hstruct hbase
      | field hstruct hfield hvar =>
        rw [hidem] at hstruct
        exact .field hstruct hfield hvar
    exact h.part hpart' other hother

variable {st : StructDef} {scopes : Nat}

theorem variantToBinaryWithin_of_struct {allowed : Bool} (h : s.IsStruct (s.resolveType type) st) :
    s.variantToBinaryWithin (scopes + 1) allowed type (.object vo) = ((
      if st.base = [] then .ok []
      else s.variantToBinaryWithin scopes false (s.resolveType st.base) (.object vo)) >>=
        fun inherited => packFields (s.variantToBinaryWithin scopes) allowed vo st.fields false >>=
          fun own => .ok (inherited ++ own)) := by
  simp only [variantToBinaryWithin, h.notBuiltIn, h.notArray, h.notVariant, h.found]
  by_cases hbase : st.base = [] <;> simp only [hbase] <;> rfl

variable {obj : VariantObject}

theorem structFromBinary_of_found (h : s.structs.find? type = some st) :
    s.structFromBinary (scopes + 1) type stream obj = ((
      if st.base = [] then .ok (obj, stream)
      else s.structFromBinary scopes (s.resolveType st.base) stream obj) >>= fun r =>
        unpackFields (fun t => s.binaryToVariantWithin scopes (s.resolveType t)) st.fields false
          r.2 r.1) := by
  rw [structFromBinary, h]
  by_cases hbase : st.base = [] <;> simp only [hbase, if_true, if_false]

theorem exists_struct_of_structFromBinary {rest obj'} (h : s.structFromBinary scopes type stream obj = .ok (obj', rest)) :
    ∃ st, s.structs.find? type = some st := by
  cases scopes with
  | zero => cases h
  | succ =>
    cases hfind : s.structs.find? type with
    | none =>
      rw [structFromBinary, hfind] at h
      cases h
    | some st => exact ⟨st, rfl⟩

theorem mem_keys_structFromBinary (hnames : s.DistinctFieldNames)
    {rest : Bytes} (hfind : s.structs.find? type = some st)
    (h : s.structFromBinary scopes type stream [] = .ok (obj, rest)) :
    ∀ name ∈ obj.keys, ∃ base, Relation.ReflTransGen (Extends s) st base ∧
      name ∈ names base.fields := by
  induction scopes generalizing type st obj rest with
  | zero => cases h
  | succ _ ih =>
    rw [structFromBinary_of_found hfind] at h
    obtain ⟨⟨inherited, _⟩, hbase, hfields⟩ := bind_eq_ok.mp h
    have hinherited : ∀ name ∈ inherited.keys, ∃ base, Relation.TransGen (Extends s) st base ∧
        name ∈ names base.fields := by
      split at hbase
      · cases hbase
        exact nofun
      · rename_i hne
        obtain ⟨base, hfound⟩ := exists_struct_of_structFromBinary hbase
        intro name hname
        obtain ⟨origin, horigin, hmem⟩ := ih hfound hbase name hname
        exact ⟨origin, .head' ⟨hne, hfound⟩ horigin, hmem⟩
    have hfresh : ∀ name ∈ names st.fields, name ∉ inherited.keys := by
      intro name hname hmem
      obtain ⟨base, hbase, hbaseName⟩ := hinherited name hmem
      exact hnames.inherited type st base hfind hbase hname hbaseName
    obtain ⟨own, rfl, hown⟩ := unpackFields_append hfields (hnames.own type st hfind) hfresh
    intro name hname
    rw [VariantObject.keys, map_append, mem_append] at hname
    cases hname with
    | inl hname =>
      obtain ⟨base, hbase, hmem⟩ := hinherited name hname
      exact ⟨base, hbase.to_reflTransGen, hmem⟩
    | inr hname => exact ⟨st, .refl, hown name hname⟩

def ValuesSurvive (s : AbiSerializer) (scopes : Nat) : Prop :=
  ∀ type stream v rest, s.binaryToVariantWithin scopes type stream = .ok (v, rest) →
    ∀ allowed, s.Covered ⟨allowed, type, v⟩ → ∀ more, scopes ≤ more →
      Survives (s.binaryToVariantWithin scopes type)
        (s.variantToBinaryWithin more allowed type v) allowed v

/-- The object that is written may belong to a struct that inherits from the one that was
read. -/
def StructsSurvive (s : AbiSerializer) (scopes : Nat) : Prop :=
  ∀ type st stream (obj : VariantObject) rest, s.IsStruct type st → s.resolveType type = type →
    s.structFromBinary scopes type stream [] = .ok (obj, rest) →
    ∀ allowed (vo : VariantObject), s.Covered ⟨allowed, type, .object vo⟩ →
    (∀ base, Relation.ReflTransGen (Extends s) st base → ∀ name ∈ names base.fields,
      vo.find? name = obj.find? name) →
    ∀ more, scopes ≤ more → ∃ out,
      s.variantToBinaryWithin more allowed type (.object vo) = .ok out ∧ (obj ≠ [] → out ≠ []) ∧
      ∀ rest, (allowed = true → rest = []) →
        s.structFromBinary scopes type (out ++ rest) [] = .ok (obj, rest)

section Step

variable (hs : s.Resolved) (hbuiltIns : s.BuiltInsRoundTrip) (hnames : s.DistinctFieldNames)
  {scopes : Nat} (hvalues : s.ValuesSurvive scopes) (hstructs : s.StructsSurvive scopes)

include hs hnames hvalues hstructs in
theorem structsSurvive_succ : s.StructsSurvive (scopes + 1) := by
  intro type st stream _ rest hstruct hresolved h allowed vo hcovered hagrees more hmore
  obtain ⟨m, rfl⟩ : ∃ m, more = m + 1 := ⟨more - 1, by omega⟩
  have hm : scopes ≤ m := by omega
  have hstruct' : s.IsStruct (s.resolveType type) st := hresolved.symm ▸ hstruct
  have hfind := hstruct.found
  rw [structFromBinary_of_found hfind] at h
  obtain ⟨⟨inherited, stream'⟩, hbase, hfields⟩ := bind_eq_ok.mp h
  have hfresh : ∀ name ∈ names st.fields, name ∉ VariantObject.keys inherited := by
    split at hbase
    · cases hbase
      exact nofun
    · rename_i hne
      obtain ⟨base, hfound⟩ := exists_struct_of_structFromBinary hbase
      intro name hname hmem
      obtain ⟨origin, horigin, horiginName⟩ :=
        mem_keys_structFromBinary hnames hfound hbase name hmem
      exact hnames.inherited type st origin hfind (.head' ⟨hne, hfound⟩ horigin) hname horiginName
  have hnodup := hnames.own type st hfind
  obtain ⟨own, rfl, hown⟩ := unpackFields_append hfields hnodup hfresh
  -- the inherited part: the fields of this struct are none of those of its bases
  have hinherited : ∃ out,
      (if st.base = [] then .ok []
        else s.variantToBinaryWithin m false (s.resolveType st.base) (.object vo)) = .ok out ∧
      (inherited ≠ [] → out ≠ []) ∧
      ∀ rest, (if st.base = [] then .ok ([], out ++ rest)
        else s.structFromBinary scopes (s.resolveType st.base) (out ++ rest) []) =
          .ok (inherited, rest) := by
    by_cases hne : st.base = []
    · simp only [if_pos hne] at hbase ⊢
      cases hbase
      exact ⟨[], rfl, fun h => absurd rfl h, fun _ => rfl⟩
    · simp only [if_neg hne] at hbase ⊢
      obtain ⟨base, hbaseStruct⟩ := (hcovered _ .refl).2.2 st hstruct' hne
      have hextends : Extends s st base := ⟨hne, hbaseStruct.found⟩
      obtain ⟨out, hout, hnotEmpty, hagain⟩ := hstructs _ base stream inherited stream' hbaseStruct
        (hs.resolveType_resolveType _) hbase false vo (hcovered.part (.base hstruct' hne))
        (fun origin horigin name hname => by
          have hchain : Relation.TransGen (Extends s) st origin := .head' hextends horigin
          have hnotOwn : name ∉ VariantObject.keys own := fun hmem =>
            hnames.inherited type st origin hfind hchain (hown name hmem) hname
          rw [hagrees origin hchain.to_reflTransGen name hname, VariantObject.find?_append,
            VariantObject.find?_eq_none.mpr hnotOwn, Option.or_none]) m hm
      exact ⟨out, hout, hnotEmpty, fun rest => hagain rest nofun⟩
  obtain ⟨outBase, houtBase, hbaseNotEmpty, hbaseAgain⟩ := hinherited
  have hallowed : ∀ name ∈ names st.fields, vo.find? name = none → allowed = true :=
    (hcovered _ .refl).1 st vo hstruct' rfl
  have hownValues : ∀ field later, (field :: later) <:+ st.fields → ∀ v,
      vo.find? field.name = some v → ∀ stream rest,
      s.binaryToVariantWithin scopes (s.resolveType (removeBinExtension field.type)) stream =
        .ok (v, rest) →
      Survives (s.binaryToVariantWithin scopes (s.resolveType (removeBinExtension field.type)))
        (s.variantToBinaryWithin m (allowed && later.isEmpty) (removeBinExtension field.type) v)
        (allowed && later.isEmpty) v := by
    intro field _ hsuffix v hv _ rest hread
    rw [hs.binaryToVariantWithin_resolveType] at hread ⊢
    exact hvalues _ _ _ _ hread _ (hcovered.part (.field hstruct' hsuffix hv)) m hm
  obtain ⟨outOwn, houtOwn, hownNotEmpty, hownAgain⟩ :=
    survives_fields hfields hnodup hfresh (hagrees st .refl) hallowed hownValues
  refine ⟨outBase ++ outOwn, ?_, fun hobj hnil => ?_, fun rest hrest => ?_⟩
  · rw [variantToBinaryWithin_of_struct hstruct']
    exact bind_eq_ok.mpr ⟨outBase, houtBase, bind_eq_ok.mpr ⟨outOwn, houtOwn, rfl⟩⟩
  · obtain ⟨hbaseNil, hownNil⟩ := append_eq_nil_iff.mp hnil
    have hinheritedNil : inherited = [] := by_contra fun hne => hbaseNotEmpty hne hbaseNil
    have hownEq : inherited ++ own = inherited := by_contra fun hne => hownNotEmpty hne hownNil
    exact hobj (hownEq.trans hinheritedNil)
  · rw [structFromBinary_of_found hfind, append_assoc]
    exact bind_eq_ok.mpr ⟨(inherited, outOwn ++ rest), hbaseAgain _, hownAgain _ rest hrest⟩

variable {type : TypeName} {stream rest : Bytes} {v : Variant} {allowed : Bool} {m : Nat}
  (h : s.binaryToVariantWithin (scopes + 1) type stream = .ok (v, rest))
  (hcovered : s.Covered ⟨allowed, type, v⟩) (hm : scopes ≤ m)

include hbuiltIns h in
theorem survives_builtIn {btype : BuiltInType}
    (hbuiltIn : s.builtInTypes.find? (fundamentalType (s.resolveType type)) = some btype) :
    Survives (s.binaryToVariantWithin (scopes + 1) type)
      (s.variantToBinaryWithin (m + 1) allowed type v) allowed v := by
  simp only [binaryToVariantWithin, hbuiltIn] at h
  obtain ⟨out, hout, hne, hagain⟩ :=
    (hbuiltIns _ btype hbuiltIn).again _ _ _ _ _ (rethrow_eq_ok.mp h)
  refine ⟨out, ?_, hne, fun rest _ => ?_⟩
  · simp only [variantToBinaryWithin, hbuiltIn]
    exact hout
  · simp only [binaryToVariantWithin, hbuiltIn]
    exact rethrow_eq_ok.mpr (hagain rest nofun)

variable (hbuiltIn : s.builtInTypes.find? (fundamentalType (s.resolveType type)) = none)

include hvalues h hcovered hm hbuiltIn in
theorem survives_array (harray : isArray (s.resolveType type) = true) :
    Survives (s.binaryToVariantWithin (scopes + 1) type)
      (s.variantToBinaryWithin (m + 1) allowed type v) allowed v := by
  simp only [binaryToVariantWithin, hbuiltIn, if_pos harray] at h
  simp only [bind_eq_ok] at h
  obtain ⟨⟨size, _⟩, hsize, ⟨vars, _⟩, hvars, u, hlength, h⟩ := h
  cases h
  have hlt : size < 2 ^ 32 := unpackUnsignedInt_lt (rethrow_eq_ok.mp hsize)
  obtain ⟨out, hout, hagain⟩ := survives_sequence hvars fun w hw stream rest hread =>
    survives_element hread fun stream rest hread =>
      hvalues _ _ _ _ hread false (hcovered.part (.element hbuiltIn harray hw)) m hm
  refine ⟨packUnsignedInt vars.length ++ out, ?_, ?_, fun rest _ => ?_⟩
  · simp only [variantToBinaryWithin, hbuiltIn, if_pos harray]
    exact bind_eq_ok.mpr ⟨out, hout, rfl⟩
  · exact fun hnil => packUnsignedInt_ne_nil _ (append_eq_nil_iff.mp hnil).1
  · simp only [binaryToVariantWithin, hbuiltIn, if_pos harray, append_assoc,
      length_unpackSequence hvars]
    refine bind_eq_ok.mpr ⟨(size, out ++ rest), ?_, ?_⟩
    · exact rethrow_eq_ok.mpr (unpackUnsignedInt_packUnsignedInt hlt _)
    · exact bind_eq_ok.mpr ⟨(vars, rest), hagain rest, bind_eq_ok.mpr ⟨u, hlength, rfl⟩⟩

variable (harray : isArray (s.resolveType type) = false)
  (hoptional : isOptional (s.resolveType type) = false)

theorem exists_idxOf? {types : List TypeName} {t : TypeName} {select : Nat}
    (h : types[select]? = some t) :
    ∃ i, types.idxOf? t = some i ∧ types[i]? = some t ∧ i ≤ select := by
  obtain ⟨hselect, ht⟩ := List.getElem?_eq_some_iff.mp h
  obtain ⟨i, hi⟩ := Option.isSome_iff_exists.mp (List.isSome_idxOf?.mpr (List.mem_of_getElem? h))
  obtain ⟨hlt, hti, hfirst⟩ := List.idxOf?_eq_some_iff.mp hi
  refine ⟨i, hi, List.getElem?_eq_some_iff.mpr ⟨hlt, hti⟩, ?_⟩
  exact Nat.le_of_not_lt fun hbefore => hfirst select hbefore ht

include hvalues h hcovered hm hbuiltIn harray hoptional in
theorem survives_alternative {d : VariantDef}
    (hvariant : s.variants.find? (s.resolveType type) = some d) :
    Survives (s.binaryToVariantWithin (scopes + 1) type)
      (s.variantToBinaryWithin (m + 1) allowed type v) allowed v := by
  simp only [binaryToVariantWithin, hbuiltIn, harray, hoptional, hvariant] at h
  obtain ⟨⟨select, _⟩, hselect, h⟩ := bind_eq_ok.mp h
  cases ht : d.types[select]? with
  | none =>
    simp only [ht] at h
    cases h
  | some =>
    simp only [ht] at h
    obtain ⟨⟨var, _⟩, hread, h⟩ := bind_eq_ok.mp h
    cases h
    obtain ⟨out, hout, _, hagain⟩ := hvalues _ _ _ _ hread allowed
      (hcovered.part (.alternative hbuiltIn harray hvariant)) m hm
    -- the first alternative of this type need not be the one that was read
    obtain ⟨i, hi, hti, hle⟩ := exists_idxOf? ht
    have hlt : i < 2 ^ 32 :=
      Nat.lt_of_le_of_lt hle (unpackUnsignedInt_lt (rethrow_eq_ok.mp hselect))
    refine ⟨packUnsignedInt i ++ out, ?_, ?_, fun rest hrest => ?_⟩
    · simp only [variantToBinaryWithin, hbuiltIn, harray, hvariant, hi]
      exact bind_eq_ok.mpr ⟨out, hout, rfl⟩
    · exact fun hnil => packUnsignedInt_ne_nil _ (append_eq_nil_iff.mp hnil).1
    · simp only [binaryToVariantWithin, hbuiltIn, harray, hoptional, hvariant,
        append_assoc]
      refine bind_eq_ok.mpr ⟨(i, out ++ rest), ?_, ?_⟩
      · exact rethrow_eq_ok.mpr (unpackUnsignedInt_packUnsignedInt hlt _)
      · simp only [hti]
        exact bind_eq_ok.mpr ⟨(var, rest), hagain rest hrest, rfl⟩

include hs hstructs h hcovered hm hbuiltIn harray hoptional in
theorem survives_object (hvariant : s.variants.find? (s.resolveType type) = none) :
    Survives (s.binaryToVariantWithin (scopes + 1) type)
      (s.variantToBinaryWithin (m + 1) allowed type v) allowed v := by
  simp only [binaryToVariantWithin, hbuiltIn, harray, hoptional, hvariant] at h
  obtain ⟨⟨mvo, stream'⟩, hread, h⟩ := bind_eq_ok.mp h
  obtain ⟨u, hnotEmpty, h⟩ := bind_eq_ok.mp h
  cases h
  obtain ⟨st, hfound⟩ := exists_struct_of_structFromBinary hread
  have hstruct : s.IsStruct (s.resolveType type) st :=
    ⟨hbuiltIn, harray, hoptional, hvariant, hfound⟩
  have hidem := hs.resolveType_resolveType type
  obtain ⟨out, hout, hne, hagain⟩ := hstructs _ st stream mvo stream' hstruct hidem hread allowed
    mvo (hcovered.resolveType hs) (fun _ _ _ _ => rfl) (m + 1) (by omega)
  refine ⟨out, ?_, ?_, fun rest hrest => ?_⟩
  · rwa [variantToBinaryWithin_of_struct (hidem.symm ▸ hstruct),
      ← variantToBinaryWithin_of_struct hstruct] at hout
  · exact hne (ne_nil_of_length_pos (abiAssert_eq_ok.mp hnotEmpty))
  · simp only [binaryToVariantWithin, hbuiltIn, harray, hoptional, hvariant]
    exact bind_eq_ok.mpr ⟨(mvo, rest), hagain rest hrest, bind_eq_ok.mpr ⟨u, hnotEmpty, rfl⟩⟩

end Step

/-- The scopes the source counts are what the induction is on. -/
theorem survive (hs : s.Resolved) (hbuiltIns : s.BuiltInsRoundTrip) (hnames : s.DistinctFieldNames)
    (scopes : Nat) : s.ValuesSurvive scopes ∧ s.StructsSurvive scopes := by
  induction scopes with
  | zero => exact ⟨fun _ _ _ _ h => (nomatch h), fun _ _ _ _ _ _ _ h => (nomatch h)⟩
  | succ scopes ih =>
    refine ⟨?_, structsSurvive_succ hs hnames ih.1 ih.2⟩
    intro type _ v _ h _ hcovered more hmore
    obtain ⟨m, rfl⟩ : ∃ m, more = m + 1 := ⟨more - 1, by omega⟩
    have hm : scopes ≤ m := by omega
    cases hbuiltIn : s.builtInTypes.find? (fundamentalType (s.resolveType type)) with
    | some => exact survives_builtIn hbuiltIns h hbuiltIn
    | none =>
      cases harray : isArray (s.resolveType type) with
      | true => exact survives_array ih.1 h hcovered hm hbuiltIn harray
      | false =>
        have hoptional : isOptional (s.resolveType type) = false :=
          Bool.eq_false_iff.mpr fun hoptional =>
            (hcovered _ .refl).2.1 hoptional hbuiltIn
        cases hvariant : s.variants.find? (s.resolveType type) with
        | some =>
          exact survives_alternative ih.1 h hcovered hm hbuiltIn harray hoptional hvariant
        | none =>
          exact survives_object hs ih.2 h hcovered hm hbuiltIn harray hoptional hvariant

def int8Serializer : AbiSerializer where
  builtInTypes := empty.insert "int8".toList int8Type
  asBytes _ := .error ⟨.badCastException, "Invalid cast from type '${type}' to string", []⟩

theorem int8Serializer_roundTrips : int8Serializer.BuiltInsRoundTrip := by
  intro _ _ hfind
  rw [int8Serializer, find?_insert] at hfind
  split at hfind
  · cases hfind
    exact int8Type_roundTrips
  · cases hfind

def extensionStruct : StructDef :=
  ⟨"s".toList, [], [⟨"a".toList, "int8".toList⟩, ⟨"b".toList, "int8$".toList⟩]⟩

def derivedStruct : StructDef := ⟨"d".toList, "s".toList, []⟩

def outerStruct : StructDef :=
  ⟨"o".toList, [], [⟨"x".toList, "s".toList⟩, ⟨"y".toList, "int8$".toList⟩]⟩

def extensionAbi : AbiDef where
  version := "eosio::abi/1.1".toList
  structs := [extensionStruct, derivedStruct, outerStruct]

def extensionSerializer : AbiSerializer :=
  { int8Serializer with
    structs := ((empty.insert "s".toList extensionStruct).insert "d".toList
      derivedStruct).insert "o".toList outerStruct }

theorem mem_of_find?_extensionSerializer (h : extensionSerializer.structs.find? type = some st) :
    st = extensionStruct ∨ st = derivedStruct ∨ st = outerStruct := by
  simp only [extensionSerializer, find?_insert] at h
  split at h
  · exact .inr (.inr (Option.some.inj h).symm)
  · split at h
    · exact .inr (.inl (Option.some.inj h).symm)
    · split at h
      · exact .inl (Option.some.inj h).symm
      · cases h

theorem extensionSerializer_distinct : extensionSerializer.DistinctFieldNames where
  own type st h := by
    obtain rfl | rfl | rfl := mem_of_find?_extensionSerializer h <;> decide
  inherited type st base h hextends := by
    obtain ⟨_, ⟨hne, _⟩, _⟩ := Relation.TransGen.head'_iff.mp hextends
    obtain rfl | rfl | rfl := mem_of_find?_extensionSerializer h
    · exact absurd rfl hne
    · exact nofun
    · exact absurd rfl hne

theorem extensionSerializer_covered (obj : VariantObject) :
    extensionSerializer.Covered ⟨true, "s".toList, .object obj⟩ := by
  have hfound : ∀ st, extensionSerializer.IsStruct (extensionSerializer.resolveType "s".toList) st →
      st = extensionStruct := fun st hstruct => (Option.some.inj hstruct.found).symm
  intro part hpart
  obtain rfl | ⟨_, hfirst, hrest⟩ := Relation.ReflTransGen.cases_head hpart
  · refine ⟨fun _ _ _ _ _ _ _ => rfl, fun h => (nomatch h), fun st hstruct hne => ?_⟩
    exact absurd (congrArg StructDef.base (hfound st hstruct)) hne
  · refine covered_of_builtIn ?_ part hrest
    cases hfirst with
    | base hstruct hne => exact absurd (congrArg StructDef.base (hfound _ hstruct)) hne
    | field hstruct hfield =>
      rw [hfound _ hstruct] at hfield
      have hmem := hfield.subset mem_cons_self
      fin_cases hmem <;> exact nofun

theorem int8Type_unpack_zeros {n : Nat} (hn : n ≤ maxNumArrayElements) :
    int8Type.unpack true false (packUnsignedInt n ++ replicate n 0) =
      .ok (.array (replicate n (.int64 0)), []) := by
  have hlt : n < 2 ^ 32 := Nat.lt_of_le_of_lt hn (by decide)
  have helements : ∀ n, unpackSequence unpackInt8 n (replicate n 0) =
      .ok (replicate n (.int64 0), []) := by
    intro n
    induction n with
    | zero => rfl
    | succ n ih => exact bind_eq_ok.mpr ⟨_, rfl, bind_eq_ok.mpr ⟨_, ih, rfl⟩⟩
  exact bind_eq_ok.mpr ⟨_, unpackUnsignedInt_packUnsignedInt hlt _,
    bind_eq_ok.mpr ⟨(), abiAssert_eq_ok.mpr hn, bind_eq_ok.mpr ⟨_, helements n, rfl⟩⟩⟩

theorem int8Type_pack_zeros {n : Nat} (hn : n ≤ maxNumArrayElements) :
    int8Type.pack (.array (replicate n (.int64 0))) true false =
      .ok (packUnsignedInt n ++ replicate n 0) := by
  have helements : ∀ n, packSequence packInt8 (replicate n (.int64 0)) = .ok (replicate n 0) := by
    intro n
    induction n with
    | zero => rfl
    | succ n ih => exact bind_eq_ok.mpr ⟨[0], rfl, bind_eq_ok.mpr ⟨_, ih, rfl⟩⟩
  refine bind_eq_ok.mpr ⟨(), abiAssert_eq_ok.mpr ?_, bind_eq_ok.mpr ⟨_, helements n, ?_⟩⟩
  · rwa [length_replicate]
  · rw [length_replicate]
    rfl

/-- What is decoded from a whole byte string is encoded again, unless the output does not fit
into the buffer, and decoding the output gives the same value. -/
theorem variantToBinary_binaryToVariant {s₀ s : AbiSerializer} {abi : AbiDef}
    (haccepted : s₀.setAbi abi = .ok s) (hbuiltIns : s₀.BuiltInsRoundTrip)
    (hnames : s.DistinctFieldNames) {type : TypeName} {binary : Bytes} {v : Variant}
    (htype : s.isTypeWithin (maxScopes - 1) type = .ok true)
    (hdecoded : s.binaryToVariant type binary = .ok (v, []))
    (hlacks : ∀ part, Relation.ReflTransGen (Part s) ⟨true, type, v⟩ part →
      part.LacksOnlyAllowed s)
    (hsupported : ∀ part, Relation.ReflTransGen (Part s) ⟨true, type, v⟩ part →
      part.Supported s) :
    (∃ out, s.variantToBinary type v = .ok out ∧ s.binaryToVariant type out = .ok (v, [])) ∨
      s.variantToBinary type v = .error datastreamRangeError := by
  obtain ⟨hbuiltInTypes, hvalid, _⟩ := setAbi_eq_ok haccepted
  have hbuiltIns' : s.BuiltInsRoundTrip := fun type btype hfind =>
    hbuiltIns type btype (hbuiltInTypes ▸ hfind)
  obtain ⟨out, hout, _, hagain⟩ := (survive (resolved_of_validate hvalid) hbuiltIns' hnames
    (maxScopes - 1)).1 type binary v [] hdecoded true
    (fun part hpart => ⟨hlacks part hpart, hsupported part hpart⟩) (maxScopes - 1) (Nat.le_refl _)
  have hagain' : s.binaryToVariant type out = .ok (v, []) := by
    rw [← append_nil out]
    exact hagain [] fun _ => rfl
  have hwritten : s.variantToBinary type v =
      (abiAssert (out.length ≤ bufferSize) datastreamRangeError >>= fun _ => .ok out) := by
    rw [variantToBinary, htype]
    simp only [hout]
    rfl
  by_cases hfits : out.length ≤ bufferSize
  · rw [abiAssert, if_pos hfits] at hwritten
    exact .inl ⟨out, hwritten, hagain'⟩
  · rw [abiAssert, if_neg hfits] at hwritten
    exact .inr hwritten

/-- Values that are decoded and not encoded: an extension is missing in an element of an array,
in a base and in a field that is not the last one; and an encoding is longer than the buffer. -/
theorem decoded_not_encoded : int8Serializer.BuiltInsRoundTrip ∧
    int8Serializer.setAbi extensionAbi = .ok extensionSerializer ∧
    extensionSerializer.DistinctFieldNames ∧
    (extensionSerializer.isType "s[]".toList = .ok true ∧
      extensionSerializer.binaryToVariant "s[]".toList [1, 5] =
        .ok (.array [.object [("a".toList, .int64 5)]], []) ∧
      extensionSerializer.variantToBinary "s[]".toList
        (.array [.object [("a".toList, .int64 5)]]) = .error (missingField "b".toList)) ∧
    (extensionSerializer.isType "d".toList = .ok true ∧
      extensionSerializer.binaryToVariant "d".toList [5] =
        .ok (.object [("a".toList, .int64 5)], []) ∧
      extensionSerializer.variantToBinary "d".toList (.object [("a".toList, .int64 5)]) =
        .error (missingField "b".toList)) ∧
    (extensionSerializer.isType "o".toList = .ok true ∧
      extensionSerializer.binaryToVariant "o".toList [5] =
        .ok (.object [("x".toList, .object [("a".toList, .int64 5)])], []) ∧
      extensionSerializer.variantToBinary "o".toList
        (.object [("x".toList, .object [("a".toList, .int64 5)])]) =
        .error (missingField "b".toList)) ∧
    (extensionSerializer.isType "int8[]".toList = .ok true ∧
      extensionSerializer.binaryToVariant "int8[]".toList
        (packUnsignedInt bufferSize ++ replicate bufferSize 0) =
        .ok (.array (replicate bufferSize (.int64 0)), []) ∧
      extensionSerializer.variantToBinary "int8[]".toList
        (.array (replicate bufferSize (.int64 0))) = .error datastreamRangeError) := by
  have hlong : ¬ (packUnsignedInt bufferSize ++ replicate bufferSize 0).length ≤ bufferSize := by
    rw [length_append, length_replicate]
    have hpos := length_pos_iff.mpr (packUnsignedInt_ne_nil bufferSize)
    omega
  have hread : ∀ binary, extensionSerializer.binaryToVariant "int8[]".toList binary =
      rethrow (int8Type.unpack true false binary)
        ⟨.unpackException, "Unable to unpack ${class} type '${type}' while processing '${p}'",
          "int8".toList⟩ := fun _ => rfl
  have hwritten : ∀ var, extensionSerializer.variantToBinary "int8[]".toList var =
      (int8Type.pack var true false >>= fun out =>
        abiAssert (out.length ≤ bufferSize) datastreamRangeError >>= fun _ => .ok out) :=
    fun _ => rfl
  refine ⟨int8Serializer_roundTrips, rfl, extensionSerializer_distinct, ⟨rfl, rfl, rfl⟩,
    ⟨rfl, rfl, rfl⟩, ⟨rfl, rfl, rfl⟩, rfl, ?_, ?_⟩
  · rw [hread, int8Type_unpack_zeros (Nat.le_refl bufferSize)]
    rfl
  · rw [hwritten, int8Type_pack_zeros (Nat.le_refl bufferSize)]
    exact bind_eq_error.mpr (.inr ⟨_, rfl, bind_eq_error.mpr (.inl (if_neg hlong))⟩)

/-- Below nothing but the struct itself, the extension may be missing. -/
theorem variantToBinary_binaryToVariant_missing :
    extensionSerializer.binaryToVariant "s".toList [1] =
      .ok (.object [("a".toList, .int64 1)], []) ∧
    ((∃ out, extensionSerializer.variantToBinary "s".toList
        (.object [("a".toList, .int64 1)]) = .ok out ∧
      extensionSerializer.binaryToVariant "s".toList out =
        .ok (.object [("a".toList, .int64 1)], [])) ∨
      extensionSerializer.variantToBinary "s".toList (.object [("a".toList, .int64 1)]) =
        .error datastreamRangeError) :=
  have haccepted : int8Serializer.setAbi extensionAbi = .ok extensionSerializer := rfl
  have hdecoded : extensionSerializer.binaryToVariant "s".toList [1] =
      .ok (.object [("a".toList, .int64 1)], []) := rfl
  ⟨hdecoded, variantToBinary_binaryToVariant haccepted int8Serializer_roundTrips
    extensionSerializer_distinct rfl hdecoded
    (fun part hpart => (extensionSerializer_covered _ part hpart).1)
    (fun part hpart => (extensionSerializer_covered _ part hpart).2)⟩

end AbiSerializer

end DreamChain
