import DreamChain.Chain.AbiRoundTrip

/-!
What the encoder writes, the decoder reads, and the value read is encoded to the same bytes. The
value need not be the one that was encoded: a struct may be given as an array, with more items
than it has fields or with extensions missing at its end. The decoder enters more scopes than the
encoder, so it may fail for the depth of a value; it also refuses null in an array and a struct
without any field.
-/

namespace DreamChain
open Library List VariantObject

/-- A codec reads what it writes, and writes what it then has read to the same bytes. Null is
read only for an optional that was null. -/
def BuiltInType.Repacks (btype : BuiltInType) : Prop :=
  ∀ isArray isOptional v out, btype.pack v isArray isOptional = .ok out → out ≠ [] ∧
    ∃ v', btype.pack v' isArray isOptional = .ok out ∧
      (v'.isNull = true → isOptional = true ∧ v.isNull = true) ∧
      ∀ rest, btype.unpack isArray isOptional (out ++ rest) = .ok (v', rest)

/-- What was written is read with one of the errors, or to a result with the property; unless
extensions may be missing at the end, any bytes may follow. -/
def ReadsBack {α : Type} (errors : List AbiException)
    (read : Bytes → AbiResult (α × Bytes)) (extensionsAllowed : Bool) (out : Bytes)
    (P : α → Prop) : Prop :=
  (∃ e ∈ errors, ∀ rest, (extensionsAllowed = true → rest = []) →
    read (out ++ rest) = .error e) ∨
  ∃ a, P a ∧ ∀ rest, (extensionsAllowed = true → rest = []) → read (out ++ rest) = .ok (a, rest)

namespace ReadsBack

variable {α β : Type} {errors : List AbiException} {allowed : Bool} {out : Bytes}
  {read : Bytes → AbiResult (α × Bytes)} {P : α → Prop} {Q : β → Prop}

theorem of_ok {a : α} (ha : P a) : ReadsBack errors (fun stream => .ok (a, stream)) allowed [] P :=
  .inr ⟨a, ha, fun _ _ => rfl⟩

theorem imp {P' : α → Prop} (h : ReadsBack errors read allowed out P) (himp : ∀ a, P a → P' a) :
    ReadsBack errors read allowed out P' := by
  cases h with
  | inl hfails => exact .inl hfails
  | inr hreads =>
    obtain ⟨a, ha, hreads⟩ := hreads
    exact .inr ⟨a, himp a ha, hreads⟩

theorem congr {read' : Bytes → AbiResult (α × Bytes)}
    (h : ReadsBack errors read allowed out P) (hread : ∀ rest, read' (out ++ rest) =
      read (out ++ rest)) : ReadsBack errors read' allowed out P := by
  simpa only [ReadsBack, hread] using h

variable {g : α → Bytes → AbiResult (β × Bytes)}

/-- Reading goes on with what the first reader leaves. If extensions may be missing at the end of
the first part, nothing was written after it. -/
theorem bind {first tail} (h : ReadsBack errors read first out P)
    (hnext : ∀ a, P a → ReadsBack errors (g a) allowed tail Q)
    (hlast : first = true → allowed = true ∧ tail = []) :
    ReadsBack errors (fun stream => read stream >>= fun r => g r.1 r.2) allowed (out ++ tail)
      Q := by
  have hfirst : ∀ rest, (allowed = true → rest = []) → first = true → tail ++ rest = [] := by
    intro rest hrest hf
    obtain ⟨hallowed, rfl⟩ := hlast hf
    exact hrest hallowed
  cases h with
  | inl hfails =>
    obtain ⟨e, he, hfails⟩ := hfails
    refine .inl ⟨e, he, fun rest hrest => bind_eq_error.mpr (.inl ?_)⟩
    rw [append_assoc]
    exact hfails _ (hfirst rest hrest)
  | inr hreads =>
    obtain ⟨a, ha, hreads⟩ := hreads
    have hread : ∀ rest, (allowed = true → rest = []) →
        read (out ++ tail ++ rest) = .ok (a, tail ++ rest) := by
      intro rest hrest
      rw [append_assoc]
      exact hreads _ (hfirst rest hrest)
    cases hnext a ha with
    | inl hfails =>
      obtain ⟨e, he, hfails⟩ := hfails
      refine .inl ⟨e, he, fun rest hrest => ?_⟩
      exact bind_eq_error.mpr (.inr ⟨_, hread rest hrest, hfails rest hrest⟩)
    | inr hagain =>
      obtain ⟨b, hb, hagain⟩ := hagain
      refine .inr ⟨b, hb, fun rest hrest => ?_⟩
      exact bind_eq_ok.mpr ⟨_, hread rest hrest, hagain rest hrest⟩

theorem allow (h : ReadsBack errors read false out P) (allowed : Bool) :
    ReadsBack errors read allowed out P := by
  cases h with
  | inl hfails =>
    obtain ⟨e, he, hfails⟩ := hfails
    exact .inl ⟨e, he, fun rest _ => hfails rest nofun⟩
  | inr hreads =>
    obtain ⟨a, ha, hreads⟩ := hreads
    exact .inr ⟨a, ha, fun rest _ => hreads rest nofun⟩

theorem andThen (h : ReadsBack errors read allowed out P)
    (hg : ∀ a, P a → ∃ b, Q b ∧ ∀ stream, g a stream = .ok (b, stream)) :
    ReadsBack errors (fun stream => read stream >>= fun r => g r.1 r.2) allowed out Q := by
  rw [← append_nil out]
  refine h.bind (fun a ha => ?_) fun hallowed => ⟨hallowed, rfl⟩
  obtain ⟨b, hb, hok⟩ := hg a ha
  exact .inr ⟨b, hb, fun rest _ => hok rest⟩

end ReadsBack

theorem readsBack_unsignedInt (errors : List AbiException) {n : Nat} (hn : n < 2 ^ 32)
    (e : AbiException) : ReadsBack errors (fun stream => rethrow (unpackUnsignedInt stream) e) false
      (packUnsignedInt n) fun m => m = n :=
  .inr ⟨n, rfl, fun rest _ => rethrow_eq_ok.mpr (unpackUnsignedInt_packUnsignedInt hn rest)⟩

variable {out : Bytes} {allowed : Bool} {var : Variant}

namespace AbiSerializer

section Sequences

variable {errors : List AbiException} {write : Encoder} {read : Decoder}

variable {vars : List Variant}

theorem packSequence_cons
    (h : packSequence write (var :: vars) = .ok out) : ∃ head tail, write var = .ok head ∧
      packSequence write vars = .ok tail ∧ out = head ++ tail := by
  obtain ⟨head, hhead, h⟩ := bind_eq_ok.mp h
  obtain ⟨tail, htail, h⟩ := bind_eq_ok.mp h
  cases h
  exact ⟨head, tail, hhead, htail, rfl⟩

theorem length_le_of_packSequence (h : packSequence write vars = .ok out)
    (hne : ∀ var ∈ vars, ∀ head, write var = .ok head → head.length ≤ out.length → head ≠ []) :
    vars.length ≤ out.length := by
  induction vars generalizing out with
  | nil => exact Nat.zero_le _
  | cons var _ ih =>
    obtain ⟨head, _, hhead, htail, rfl⟩ := packSequence_cons h
    simp only [length_append, length_cons] at hne ⊢
    have hpos := length_pos_iff.mpr (hne var mem_cons_self head hhead (by omega))
    have hrest := ih htail fun w hw head hhead hle =>
      hne w (mem_cons_of_mem var hw) head hhead (by omega)
    omega

theorem readsBack_sequence (h : packSequence write vars = .ok out)
    (hvalue : ∀ var ∈ vars, ∀ head, write var = .ok head → head.length ≤ out.length →
      ReadsBack errors read false head fun v => write v = .ok head) :
    ReadsBack errors (unpackSequence read vars.length) false out fun vars' =>
      vars'.length = vars.length ∧ packSequence write vars' = .ok out := by
  induction vars generalizing out with
  | nil =>
    cases h
    exact .of_ok ⟨rfl, rfl⟩
  | cons var vars ih =>
    obtain ⟨head, tail, hhead, htail, rfl⟩ := packSequence_cons h
    simp only [length_append] at hvalue
    have hfirst := hvalue var mem_cons_self head hhead (by omega)
    have hothers := ih htail fun w hw head hhead hle =>
      hvalue w (mem_cons_of_mem var hw) head hhead (by omega)
    refine hfirst.bind (g := fun v stream => unpackSequence read vars.length stream >>= fun r =>
      .ok (v :: r.1, r.2)) (fun v hv => ?_) nofun
    refine hothers.andThen
      fun vars' hvars' => ⟨v :: vars', ⟨congrArg Nat.succ hvars'.1, ?_⟩, fun _ => rfl⟩
    exact bind_eq_ok.mpr ⟨head, hv, bind_eq_ok.mpr ⟨tail, hvars'.2, rfl⟩⟩

theorem readsBack_element {P : Variant → Prop}
    (h : ReadsBack errors read false out fun v => P v ∧ v.isNull = false) :
    ReadsBack errors (unpackElement read) false out P := by
  refine h.andThen (g := fun v stream => abiAssert (!v.isNull)
    ⟨.unpackException, "Invalid packed array '${p}'", []⟩ >>= fun _ => .ok (v, stream))
    fun v hv => ⟨v, hv.1, fun stream => ?_⟩
  exact bind_eq_ok.mpr ⟨(), abiAssert_eq_ok.mpr (by simp [hv.2]), rfl⟩

def sizeMismatch : AbiException :=
  ⟨.unpackException,
    "packed size does not match unpacked array size, packed size ${p} actual size ${a}", []⟩

/-- What the decoder does with the size of an array. -/
def readArray (read : Decoder) (size : Nat)
    (stream : Bytes) : AbiResult (Variant × Bytes) :=
  unpackSequence (unpackElement read) size stream >>= fun r =>
    abiAssert (r.1.length = size) sizeMismatch >>= fun _ => .ok (.array r.1, r.2)

theorem readsBack_readArray (h : packSequence write vars = .ok out)
    (hvalue : ∀ var ∈ vars, ∀ head, write var = .ok head → head.length ≤ out.length →
      ReadsBack errors (unpackElement read) false head fun v => write v = .ok head) :
    ReadsBack errors (readArray read vars.length) false out fun v => ∃ vars', v = .array vars' ∧
      vars'.length = vars.length ∧ packSequence write vars' = .ok out := by
  refine (readsBack_sequence h hvalue).andThen (g := fun vars' stream =>
    abiAssert (vars'.length = vars.length) sizeMismatch >>= fun _ =>
      .ok (Variant.array vars', stream)) ?_
  intro vars' hvars'
  refine ⟨.array vars', ⟨vars', rfl, hvars'⟩, fun stream => ?_⟩
  exact bind_eq_ok.mpr ⟨(), abiAssert_eq_ok.mpr hvars'.1, rfl⟩

/-- What the decoder does with the tag of a variant. -/
def readAlternative (read : TypeName → Decoder)
    (types : List TypeName) (select : Nat) (stream : Bytes) : AbiResult (Variant × Bytes) :=
  match types[select]? with
  | none => .error ⟨.unpackException, "Unpacked invalid tag (${select}) for variant '${p}'", []⟩
  | some t => read t stream >>= fun r => .ok (.array [.string t, r.1], r.2)

theorem readsBack_readAlternative {types : List TypeName} {select : Nat} {t : TypeName}
    {P : Variant → Prop} {read : TypeName → Decoder}
    (hselect : types[select]? = some t) (h : ReadsBack errors (read t) allowed out P) :
    ReadsBack errors (readAlternative read types select) allowed out fun v =>
      ∃ item, v = .array [.string t, item] ∧ P item := by
  have hread : readAlternative read types select = fun stream =>
      read t stream >>= fun r => .ok (.array [.string t, r.1], r.2) := by
    funext stream
    rw [readAlternative, hselect]
  rw [hread]
  exact h.andThen (g := fun item stream => .ok (Variant.array [.string t, item], stream))
    fun item hitem => ⟨.array [.string t, item], ⟨item, rfl, hitem⟩, fun _ => rfl⟩

end Sequences

end AbiSerializer

section PackUnpack

variable {unpackOne : Decoder} {packOne : Encoder}

theorem packUnpack_repacks (hone : ∀ v out, packOne v = .ok out → out ≠ [] ∧
      ReadsBack [] unpackOne false out fun v' => packOne v' = .ok out ∧ v'.isNull = false) :
    (packUnpack unpackOne packOne).Repacks := by
  intro isArray isOptional v out h
  cases isArray with
  | true =>
    cases v with
    | array vars =>
      obtain ⟨u, hmax, h⟩ := bind_eq_ok.mp h
      obtain ⟨elements, helements, h⟩ := bind_eq_ok.mp h
      cases h
      have hlength : vars.length < 2 ^ 32 :=
        Nat.lt_of_le_of_lt (abiAssert_eq_ok.mp hmax) (by decide)
      obtain ⟨_, hnone, _⟩ | ⟨vars', ⟨hvarsLength, hvars'⟩, hread⟩ :=
        AbiSerializer.readsBack_sequence helements fun var _ head hhead _ =>
          (hone var head hhead).2.imp fun _ hv => hv.1
      · cases hnone
      refine ⟨fun hnil => packUnsignedInt_ne_nil _ (List.append_eq_nil_iff.mp hnil).1,
        .array vars', ?_, nofun, fun rest => ?_⟩
      · rw [← hvarsLength] at hmax ⊢
        exact bind_eq_ok.mpr ⟨u, hmax, bind_eq_ok.mpr ⟨elements, hvars', rfl⟩⟩
      · rw [append_assoc]
        have hcount := unpackUnsignedInt_packUnsignedInt hlength (elements ++ rest)
        exact bind_eq_ok.mpr ⟨_, hcount, bind_eq_ok.mpr ⟨(), abiAssert_eq_ok.mpr
          (abiAssert_eq_ok.mp hmax), bind_eq_ok.mpr ⟨_, hread rest nofun, rfl⟩⟩⟩
    | _ => cases h
  | false =>
    cases isOptional with
    | true =>
      by_cases hnull : v.isNull = true
      · simp only [packUnpack, hnull] at h
        cases h
        refine ⟨cons_ne_nil _ _, v, ?_, fun _ => ⟨rfl, hnull⟩, fun rest => ?_⟩
        · simp only [packUnpack, hnull, Bool.false_eq_true, if_false, if_true]
        · cases v with
          | null => rfl
          | _ => cases hnull
      · simp only [packUnpack, hnull] at h
        obtain ⟨one, hout, h⟩ := bind_eq_ok.mp h
        cases h
        obtain ⟨_, ⟨_, hnone, _⟩ | ⟨v', ⟨hv', hnotNull⟩, hread⟩⟩ := hone v one hout
        · cases hnone
        refine ⟨cons_ne_nil _ _, v', ?_, fun h => absurd h (by simp [hnotNull]),
          fun rest => hread rest nofun⟩
        simp only [packUnpack, hnotNull]
        exact bind_eq_ok.mpr ⟨one, hv', rfl⟩
    | false =>
      obtain ⟨hne, ⟨_, hnone, _⟩ | ⟨v', ⟨hv', hnotNull⟩, hread⟩⟩ := hone v out h
      · cases hnone
      exact ⟨hne, v', hv', fun h => absurd h (by simp [hnotNull]),
        fun rest => hread rest nofun⟩

theorem int8Type_repacks : int8Type.Repacks := by
  refine packUnpack_repacks fun v out h => ?_
  obtain ⟨i, -, h⟩ := bind_eq_ok.mp h
  cases h
  refine ⟨cons_ne_nil _ _, .inr ⟨.int64 (Int8.ofInt i).toInt, ⟨?_, rfl⟩, fun rest _ => ?_⟩⟩
  · have hsame : Int8.ofInt (Int8.ofInt i).toInt = Int8.ofInt i := Int8.ofInt_toInt _
    refine bind_eq_ok.mpr ⟨_, rfl, ?_⟩
    rw [hsame]
    rfl
  · simp [unpackInt8]

end PackUnpack

namespace AbiSerializer

section Fields

/-- The fields of a struct that are written, each with its value; those missing at the end are
extensions. -/
inductive FieldsWritten (write : Bool → TypeName → Encoder)
    (extensionsAllowed : Bool) : List FieldDef → List (FieldDef × Variant) → Bytes → Prop
  | missing {fields} (hextensions : ∀ field ∈ fields, isBinExtension field.type = true)
      (hallowed : fields ≠ [] → extensionsAllowed = true) :
      FieldsWritten write extensionsAllowed fields [] []
  | present {field fields entries var head tail}
      (hhead : write (extensionsAllowed && fields.isEmpty) (removeBinExtension field.type) var =
        .ok head)
      (htail : FieldsWritten write extensionsAllowed fields entries tail) :
      FieldsWritten write extensionsAllowed (field :: fields) ((field, var) :: entries)
        (head ++ tail)

def toObject (entries : List (FieldDef × Variant)) : VariantObject :=
  entries.map fun e => (e.1.name, e.2)

variable {errors : List AbiException} {allowed : Bool} {fields : List FieldDef}
  {entries : List (FieldDef × Variant)} {out : Bytes} {vo : VariantObject}
  {write : Bool → TypeName → Encoder}
  {read : TypeName → Decoder}

theorem packFields_disallow (h : packFields write allowed vo fields true = .ok out) :
    out = [] ∧ (∀ field ∈ fields, isBinExtension field.type = true) ∧
      ∀ name ∈ names fields, vo.find? name = none := by
  induction fields with
  | nil =>
    cases h
    exact ⟨rfl, nofun, nofun⟩
  | cons field _ ih =>
    rw [packFields] at h
    cases hfind : vo.find? field.name with
    | some =>
      simp only [hfind] at h
      cases h
    | none =>
      simp only [hfind] at h
      by_cases hext : (isBinExtension field.type && allowed) = true
      · rw [if_pos hext] at h
        obtain ⟨hout, hothers, hnames⟩ := ih h
        exact ⟨hout, forall_mem_cons.mpr ⟨(Bool.and_eq_true_iff.mp hext).1, hothers⟩,
          forall_mem_cons.mpr ⟨hfind, hnames⟩⟩
      · rw [if_neg hext] at h
        cases h

theorem fieldsWritten_of_packFields (h : packFields write allowed vo fields false = .ok out) :
    ∃ entries, FieldsWritten write allowed fields entries out ∧
      (∀ e ∈ entries, vo.find? e.1.name = some e.2) ∧
      (entries = [] → ∀ name ∈ names fields, vo.find? name = none) := by
  induction fields generalizing out with
  | nil =>
    cases h
    exact ⟨[], .missing (forall_mem_nil _) (fun h => absurd rfl h), forall_mem_nil _,
      fun _ => forall_mem_nil _⟩
  | cons field _ ih =>
    rw [packFields] at h
    cases hfind : vo.find? field.name with
    | some var =>
      simp only [hfind] at h
      obtain ⟨head, hhead, h⟩ := bind_eq_ok.mp h
      obtain ⟨_, htail, h⟩ := bind_eq_ok.mp h
      cases h
      obtain ⟨entries, hwritten, hvalues, _⟩ := ih htail
      exact ⟨(field, var) :: entries, .present hhead hwritten,
        forall_mem_cons.mpr ⟨hfind, hvalues⟩, fun hnil => absurd hnil (cons_ne_nil _ _)⟩
    | none =>
      simp only [hfind] at h
      by_cases hext : (isBinExtension field.type && allowed) = true
      · rw [if_pos hext] at h
        obtain ⟨hextension, hallowed⟩ := Bool.and_eq_true_iff.mp hext
        obtain ⟨rfl, hothers, hnames⟩ := packFields_disallow h
        exact ⟨[], .missing (forall_mem_cons.mpr ⟨hextension, hothers⟩) fun _ => hallowed,
          forall_mem_nil _, fun _ => forall_mem_cons.mpr ⟨hfind, hnames⟩⟩
      · rw [if_neg hext] at h
        cases h

/-- The loop over the items stops at the first missing one; what follows it is not looked at. -/
theorem fieldsWritten_of_packItems {va : List Variant}
    (h : packItems write allowed fields va = .ok out)
    (hmissing : ∀ field ∈ fields.drop va.length, isBinExtension field.type = true) :
    FieldsWritten write allowed fields (fields.zip va) out := by
  induction fields generalizing va out with
  | nil =>
    cases h
    exact .missing nofun fun h => absurd rfl h
  | cons field _ ih =>
    cases va with
    | nil =>
      rw [packItems] at h
      by_cases hext : (isBinExtension field.type && allowed) = true
      · rw [if_pos hext] at h
        cases h
        exact .missing hmissing fun _ => (Bool.and_eq_true_iff.mp hext).2
      · rw [if_neg hext] at h
        cases h
    | cons =>
      obtain ⟨head, hhead, h⟩ := bind_eq_ok.mp h
      obtain ⟨_, htail, h⟩ := bind_eq_ok.mp h
      cases h
      exact .present hhead (ih htail hmissing)

theorem FieldsWritten.eq_nil (h : FieldsWritten write allowed fields [] out) : out = [] := by
  cases h
  rfl

theorem FieldsWritten.packFields (h : FieldsWritten write allowed fields entries out)
    (hnames : (names fields).Nodup)
    (hagrees : ∀ name ∈ names fields, vo.find? name = (toObject entries).find? name) :
    packFields write allowed vo fields false = .ok out := by
  induction h with
  | @missing fields hextensions hallowed =>
    cases fields with
    | nil => rfl
    | cons field fields =>
      obtain rfl := hallowed (cons_ne_nil _ _)
      exact packFields_of_missing hextensions hagrees
  | @present field fields entries var head tail hhead _ ih =>
    obtain ⟨hnew, hnodup⟩ := nodup_cons.mp hnames
    have hfind : vo.find? field.name = some var := by
      rw [hagrees _ mem_cons_self]
      simp [toObject, VariantObject.find?]
    have hothers : ∀ name ∈ names fields, vo.find? name = (toObject entries).find? name := by
      intro name hname
      have hne : field.name ≠ name := fun heq => hnew (heq ▸ hname)
      rw [hagrees _ (mem_cons_of_mem _ hname)]
      simp [toObject, VariantObject.find?, hne]
    simp only [AbiSerializer.packFields, hfind]
    exact bind_eq_ok.mpr ⟨head, hhead, bind_eq_ok.mpr ⟨tail, ih hnodup hothers, rfl⟩⟩

def FieldReadsBack (errors : List AbiException) (read : TypeName → Decoder)
    (write : Bool → TypeName → Encoder) (allowed : Bool) (type : TypeName) (head : Bytes) : Prop :=
  head ≠ [] ∧ ReadsBack errors (read type) allowed head fun v => write allowed type v = .ok head

section

variable (h : FieldsWritten write allowed fields entries out)
include h

theorem FieldsWritten.readsBack {obj encountered}
    (hnames : (names fields).Nodup) (hfresh : ∀ name ∈ names fields, name ∉ obj.keys)
    (hvalue : ∀ field later, (field :: later) <:+ fields → ∀ var, (field, var) ∈ entries →
      ∀ head, write (allowed && later.isEmpty) (removeBinExtension field.type) var = .ok head →
        head.length ≤ out.length → FieldReadsBack errors read write (allowed && later.isEmpty)
          (removeBinExtension field.type) head) :
    ReadsBack errors (fun stream => unpackFields read fields encountered stream obj) allowed out
      fun obj' => ∃ entries', obj' = obj ++ toObject entries' ∧
        FieldsWritten write allowed fields entries' out := by
  induction h generalizing obj encountered with
  | @missing fields hextensions hallowed =>
    refine .inr ⟨obj, ⟨[], (append_nil _).symm, .missing hextensions hallowed⟩, ?_⟩
    intro rest hrest
    cases fields with
    | nil => rfl
    | cons field fields =>
      rw [hrest (hallowed (cons_ne_nil _ _))]
      exact unpackFields_nil_stream.mpr ⟨rfl, rfl, hextensions⟩
  | @present field fields _ var head _ hhead htail ih =>
    simp only [length_append] at hvalue
    obtain ⟨hne, hfirst⟩ := hvalue field fields (suffix_refl _) var mem_cons_self head
      hhead (by omega)
    refine ReadsBack.congr (hfirst.bind (g := fun v stream => unpackFields read fields
      (encountered || isBinExtension field.type) stream (obj.set field.name v)) (fun v hv => ?_)
      fun hlast => ?_) fun rest => ?_
    · have hset : obj.set field.name v = obj ++ [(field.name, v)] :=
        set_of_notMem (hfresh _ mem_cons_self)
      refine (ih (nodup_cons.mp hnames).2 (fresh_set hnames hfresh v)
        fun f later hsuffix w hw head hhead hle => hvalue f later
          (hsuffix.trans (suffix_cons _ _)) w (mem_cons_of_mem _ hw) head hhead
          (by omega)).imp ?_
      rintro _ ⟨entries', rfl, hwritten⟩
      refine ⟨(field, v) :: entries', ?_, .present hv hwritten⟩
      rw [hset, append_assoc]
      rfl
    · obtain ⟨hallowed, hlater⟩ := Bool.and_eq_true_iff.mp hlast
      obtain rfl := isEmpty_iff.mp hlater
      cases htail
      exact ⟨hallowed, rfl⟩
    · refine unpackFields_cons fun hnil => hne ?_
      rw [append_assoc] at hnil
      exact (List.append_eq_nil_iff.mp hnil).1

theorem FieldsWritten.ne_nil (hentries : entries ≠ [])
    (hvalue : ∀ field later, (field :: later) <:+ fields → ∀ var, (field, var) ∈ entries →
      ∀ head, write (allowed && later.isEmpty) (removeBinExtension field.type) var = .ok head →
        head.length ≤ out.length → FieldReadsBack errors read write (allowed && later.isEmpty)
          (removeBinExtension field.type) head) : out ≠ [] := by
  cases h with
  | missing => exact absurd rfl hentries
  | @present field fields _ var head _ hhead =>
    intro hnil
    obtain ⟨hne, _⟩ := hvalue field fields (suffix_refl _) var mem_cons_self head hhead
      (by rw [length_append]; omega)
    exact hne (List.append_eq_nil_iff.mp hnil).1

theorem FieldsWritten.mem_names : ∀ name ∈ (toObject entries).keys, name ∈ names fields := by
  induction h with
  | missing => exact nofun
  | present _ _ ih =>
    intro name hname
    cases hname with
    | head => exact mem_cons_self
    | tail _ hname => exact mem_cons_of_mem _ (ih name hname)

end

end Fields

variable {s : AbiSerializer}

/-- How the encoder comes to a value. -/
inductive Role where
  | value
  | element
  | base
deriving DecidableEq

structure Place where
  role : Role
  node : Node

/-- The values directly below a value, with those of a struct given as an array. -/
inductive PlacedPart (s : AbiSerializer) : Place → Place → Prop
  | element {role allowed type vars var}
      (hbuiltIn : s.builtInTypes.find? (fundamentalType (s.resolveType type)) = none)
      (harray : isArray (s.resolveType type) = true) (hvar : var ∈ vars) :
      PlacedPart s ⟨role, allowed, type, .array vars⟩
        ⟨.element, false, fundamentalType (s.resolveType type), var⟩
  | alternative {role allowed type t d var}
      (hbuiltIn : s.builtInTypes.find? (fundamentalType (s.resolveType type)) = none)
      (harray : isArray (s.resolveType type) = false)
      (hvariant : s.variants.find? (s.resolveType type) = some d) :
      PlacedPart s ⟨role, allowed, type, .array [.string t, var]⟩ ⟨.value, allowed, t, var⟩
  | base {role allowed type st obj}
      (hstruct : s.IsStruct (s.resolveType type) st) (hbase : st.base ≠ []) :
      PlacedPart s ⟨role, allowed, type, .object obj⟩
        ⟨.base, false, s.resolveType st.base, .object obj⟩
  | field {role : Role} {allowed : Bool} {type : TypeName} {st : StructDef} {obj : VariantObject}
      {field : FieldDef} {later : List FieldDef} {var : Variant}
      (hstruct : s.IsStruct (s.resolveType type) st) (hfield : (field :: later) <:+ st.fields)
      (hvar : obj.find? field.name = some var) :
      PlacedPart s ⟨role, allowed, type, .object obj⟩
        ⟨.value, allowed && later.isEmpty, removeBinExtension field.type, var⟩
  | item {role allowed type st va field later var}
      (hstruct : s.IsStruct (s.resolveType type) st) (hfield : (field :: later) <:+ st.fields)
      (hvar : (field, var) ∈ st.fields.zip va) :
      PlacedPart s ⟨role, allowed, type, .array va⟩
        ⟨.value, allowed && later.isEmpty, removeBinExtension field.type, var⟩

def SomeFieldGiven (s : AbiSerializer) (st : StructDef) (obj : VariantObject) : Prop :=
  ∃ base, Relation.ReflTransGen (Extends s) st base ∧
    ∃ name ∈ names base.fields, obj.find? name ≠ none

/-- What the decoder is able to read once it is written: no optional in an array is null, no
value is a struct without a field, and an array given for a struct lacks nothing but
extensions. Two conditions are on names: one that ends like an optional is of a built-in type,
and no base has the name of a built-in type. -/
structure Place.Decodable (s : AbiSerializer) (place : Place) : Prop where
  optionalBuiltIn : isOptional (s.resolveType place.node.type) = true →
    s.builtInTypes.find? (fundamentalType (s.resolveType place.node.type)) ≠ none
  baseNotBuiltIn : ∀ st, s.IsStruct (s.resolveType place.node.type) st → st.base ≠ [] →
    s.builtInTypes.find? (fundamentalType (s.resolveType st.base)) = none
  notNull : place.role = .element → isOptional (s.resolveType place.node.type) = true →
    place.node.value.isNull = false
  objectNotEmpty : place.role ≠ .base → ∀ st obj, s.IsStruct (s.resolveType place.node.type) st →
    place.node.value = .object obj → s.SomeFieldGiven st obj
  itemsNotEmpty : ∀ st va, s.IsStruct (s.resolveType place.node.type) st →
    place.node.value = .array va → st.fields.zip va ≠ []
  itemsMissing : ∀ st va, s.IsStruct (s.resolveType place.node.type) st →
    place.node.value = .array va → ∀ field ∈ st.fields.drop va.length,
      isBinExtension field.type = true

def Writable (s : AbiSerializer) (place : Place) : Prop :=
  ∀ part, Relation.ReflTransGen (PlacedPart s) place part → part.Decodable s

variable {place : Place}

theorem Writable.part {part : Place} (h : s.Writable place) (hpart : PlacedPart s place part) :
    s.Writable part :=
  fun other hother => h other (Relation.ReflTransGen.head hpart hother)

theorem Writable.decodable (h : s.Writable place) : place.Decodable s := h _ .refl

theorem writable_of_builtIn (hrole : place.role ≠ .element)
    (h : s.builtInTypes.find? (fundamentalType (s.resolveType place.node.type)) ≠ none) :
    s.Writable place := by
  intro _ hpart
  obtain rfl | ⟨_, hfirst, _⟩ := Relation.ReflTransGen.cases_head hpart
  · exact ⟨fun _ => h, fun _ hstruct => absurd hstruct.notBuiltIn h,
      fun helement => absurd helement hrole, fun _ _ _ hstruct => absurd hstruct.notBuiltIn h,
      fun _ _ hstruct => absurd hstruct.notBuiltIn h,
      fun _ _ hstruct => absurd hstruct.notBuiltIn h⟩
  · refine absurd ?_ h
    cases hfirst with
    | element hbuiltIn => exact hbuiltIn
    | alternative hbuiltIn => exact hbuiltIn
    | base hstruct _ | field hstruct _ _ | item hstruct _ _ => exact hstruct.notBuiltIn

def BuiltInsRepack (s : AbiSerializer) : Prop :=
  ∀ type btype, s.builtInTypes.find? type = some btype → btype.Repacks

/-- The bytes written for a value are read within a number of scopes, if they suffice, and what
is read is written to the same bytes. -/
def ReadsBackWithin (s : AbiSerializer) (scopes : Nat) (allowed : Bool) (type : TypeName)
    (var : Variant) (out : Bytes) (more : Nat) : Prop :=
  ReadsBack [recursionDepthExceeded] (s.binaryToVariantWithin more type) allowed out fun v =>
    s.variantToBinaryWithin scopes allowed type v = .ok out ∧
      (v.isNull = true → isOptional (s.resolveType type) = true ∧ var.isNull = true)

def ValuesReadBack (s : AbiSerializer) (scopes : Nat) : Prop :=
  ∀ role allowed type var out, role ≠ Role.base →
    s.variantToBinaryWithin scopes allowed type var = .ok out → out.length < 2 ^ 32 →
    s.Writable ⟨role, allowed, type, var⟩ →
    out ≠ [] ∧ ∀ more, s.ReadsBackWithin scopes allowed type var out more

/-- An object with fields of some structs; every object with the same fields of these structs is
written to the same bytes. -/
structure Rewrites (InChain : StructDef → Prop)
    (writeObject : VariantObject → AbiResult Bytes) (out : Bytes)
    (obj : VariantObject) : Prop where
  notEmpty : obj = [] → out = []
  mem_names : ∀ name ∈ obj.keys, ∃ base, InChain base ∧ name ∈ names base.fields
  again : ∀ vo : VariantObject, (∀ base, InChain base → ∀ name ∈ names base.fields,
    vo.find? name = obj.find? name) → writeObject vo = .ok out

def ObjectsReadBack (s : AbiSerializer) (scopes : Nat) : Prop :=
  ∀ role allowed type st (vo : VariantObject) out, s.IsStruct (s.resolveType type) st →
    s.variantToBinaryWithin scopes allowed type (.object vo) = .ok out → out.length < 2 ^ 32 →
    s.Writable ⟨role, allowed, type, .object vo⟩ → (s.SomeFieldGiven st vo → out ≠ []) ∧ ∀ more,
      ReadsBack [recursionDepthExceeded]
        (fun stream => s.structFromBinary more (s.resolveType type) stream []) allowed out
        (Rewrites (Relation.ReflTransGen (Extends s) st)
          (fun vo => s.variantToBinaryWithin scopes allowed type (.object vo)) out)

variable {type : TypeName} {d : VariantDef}

theorem isStruct_of_object {scopes vo}
    (hbuiltIn : s.builtInTypes.find? (fundamentalType (s.resolveType type)) = none)
    (hoptional : isOptional (s.resolveType type) = false)
    (h : s.variantToBinaryWithin scopes allowed type (.object vo) = .ok out) :
    ∃ st, s.IsStruct (s.resolveType type) st := by
  cases scopes with
  | zero => cases h
  | succ =>
    cases harray : isArray (s.resolveType type) with
    | true =>
      simp only [variantToBinaryWithin, hbuiltIn, harray] at h
      cases h
    | false =>
      cases hvariant : s.variants.find? (s.resolveType type) with
      | some =>
        simp only [variantToBinaryWithin, hbuiltIn, harray, hvariant] at h
        cases h
      | none =>
        cases hfound : s.structs.find? (s.resolveType type) with
        | none =>
          simp only [variantToBinaryWithin, hbuiltIn, harray, hvariant, hfound] at h
          cases h
        | some st => exact ⟨st, hbuiltIn, harray, hoptional, hvariant, hfound⟩

theorem readsBack_zero {α : Type} {read : Bytes → AbiResult (α × Bytes)}
    {P : α → Prop} (h : ∀ stream, read stream = .error recursionDepthExceeded) :
    ReadsBack [recursionDepthExceeded] read allowed out P :=
  .inl ⟨_, mem_cons_self, fun _ _ => h _⟩

section WriteStep

variable (hs : s.Resolved) (hbuiltIns : s.BuiltInsRepack) (hnames : s.DistinctFieldNames)
  (hvariants : ∀ type d, s.variants.find? type = some d → d.types.length ≤ 2 ^ 32)
  {scopes : Nat} (hvalues : s.ValuesReadBack scopes) (hobjects : s.ObjectsReadBack scopes)

def BaseReadsBack (s : AbiSerializer) (scopes : Nat) (st : StructDef) (out : Bytes) : Prop :=
  ∀ more, ReadsBack [recursionDepthExceeded] (fun stream =>
      if st.base = [] then .ok ([], stream)
      else s.structFromBinary more (s.resolveType st.base) stream []) false out
    (Rewrites (Relation.TransGen (Extends s) st) (fun vo => if st.base = [] then .ok []
      else s.variantToBinaryWithin scopes false (s.resolveType st.base) (.object vo)) out)

variable {st : StructDef}

theorem baseReadsBack_nil (hbase : st.base = []) : s.BaseReadsBack scopes st [] := by
  intro _
  simp only [if_pos hbase]
  exact .of_ok ⟨fun _ => rfl, nofun, fun _ _ => rfl⟩

include hs hobjects in
theorem inheritedReadsBack {role : Role} {vo : VariantObject}
    (hstruct : s.IsStruct (s.resolveType type) st) (h : (if st.base = [] then .ok []
      else s.variantToBinaryWithin scopes false (s.resolveType st.base) (.object vo)) = .ok out)
    (hsize : out.length < 2 ^ 32) (hwritable : s.Writable ⟨role, allowed, type, .object vo⟩) :
    (∀ base, Relation.TransGen (Extends s) st base → ∀ name ∈ names base.fields,
      vo.find? name ≠ none → out ≠ []) ∧ s.BaseReadsBack scopes st out := by
  by_cases hbase : st.base = []
  · rw [if_pos hbase] at h
    cases h
    refine ⟨fun base hextends => ?_, baseReadsBack_nil hbase⟩
    obtain ⟨_, hfirst, _⟩ := Relation.TransGen.head'_iff.mp hextends
    exact absurd hbase hfirst.1
  · simp only [BaseReadsBack, if_neg hbase] at h ⊢
    have hidem := hs.resolveType_resolveType st.base
    have hpart := hwritable.part (.base hstruct hbase)
    have hnotBuiltIn := hwritable.decodable.baseNotBuiltIn st hstruct hbase
    have hnotOptional := hpart.decodable.optionalBuiltIn
    simp only [hidem] at hnotOptional
    obtain ⟨base, hbaseStruct⟩ := isStruct_of_object (hidem.symm ▸ hnotBuiltIn)
      (hidem.symm ▸ Bool.eq_false_iff.mpr fun h => hnotOptional h hnotBuiltIn) h
    rw [hidem] at hbaseStruct
    have hextends : Extends s st base := ⟨hbase, hbaseStruct.found⟩
    have hunique : ∀ origin, Relation.TransGen (Extends s) st origin →
        Relation.ReflTransGen (Extends s) base origin := by
      intro origin horigin
      obtain ⟨other, hother, hrest⟩ := Relation.TransGen.head'_iff.mp horigin
      obtain rfl : base = other := Option.some.inj (hextends.2.symm.trans hother.2)
      exact hrest
    obtain ⟨hne, hread⟩ := hobjects .base false _ base vo out (hidem.symm ▸ hbaseStruct) h hsize
      hpart
    refine ⟨fun origin horigin name hname hfind => hne ⟨origin, hunique _ horigin, name, hname,
      hfind⟩, fun more => ?_⟩
    rw [hidem] at hread
    refine (hread more).imp fun obj hobj => ⟨hobj.notEmpty, fun name hname => ?_, fun vo hvo =>
      hobj.again vo fun origin horigin => hvo origin (.head' hextends horigin)⟩
    obtain ⟨origin, horigin, hmem⟩ := hobj.mem_names name hname
    exact ⟨origin, .head' hextends horigin, hmem⟩

include hs hvalues in
theorem fieldReadsBack {head : Bytes}
    (h : s.variantToBinaryWithin scopes allowed type var = .ok head) (hsize : head.length < 2 ^ 32)
    (hwritable : s.Writable ⟨.value, allowed, type, var⟩) (more : Nat) :
    FieldReadsBack [recursionDepthExceeded]
      (fun t => s.binaryToVariantWithin more (s.resolveType t)) (s.variantToBinaryWithin scopes)
      allowed type head := by
  obtain ⟨hne, hread⟩ := hvalues .value allowed type var head nofun h hsize hwritable
  refine ⟨hne, ?_⟩
  simp only [hs.binaryToVariantWithin_resolveType]
  exact (hread more).imp fun v hv => hv.1

def EntriesReadBack (s : AbiSerializer) (scopes : Nat) (allowed : Bool) (fields : List FieldDef)
    (entries : List (FieldDef × Variant)) (out : Bytes) : Prop :=
  ∀ more field later, (field :: later) <:+ fields → ∀ var, (field, var) ∈ entries →
    ∀ head, s.variantToBinaryWithin scopes (allowed && later.isEmpty)
      (removeBinExtension field.type) var = .ok head → head.length ≤ out.length →
    FieldReadsBack [recursionDepthExceeded]
      (fun t => s.binaryToVariantWithin more (s.resolveType t)) (s.variantToBinaryWithin scopes)
      (allowed && later.isEmpty) (removeBinExtension field.type) head

include hnames in
theorem structReadsBack {entries outBase outOwn}
    (hstruct : s.IsStruct (s.resolveType type) st) (hbase : s.BaseReadsBack scopes st outBase)
    (hwritten : FieldsWritten (s.variantToBinaryWithin scopes) allowed st.fields entries outOwn)
    (hvalue : s.EntriesReadBack scopes allowed st.fields entries outOwn) (more : Nat) :
    ReadsBack [recursionDepthExceeded]
      (fun stream => s.structFromBinary more (s.resolveType type) stream []) allowed
      (outBase ++ outOwn)
      (Rewrites (Relation.ReflTransGen (Extends s) st) (fun vo =>
        s.variantToBinaryWithin (scopes + 1) allowed type (.object vo)) (outBase ++ outOwn)) := by
  cases more with
  | zero => exact readsBack_zero fun _ => by rw [structFromBinary]
  | succ more =>
    have hfind := hstruct.found
    refine ReadsBack.congr ((hbase more).bind (g := fun obj stream => unpackFields (fun t =>
      s.binaryToVariantWithin more (s.resolveType t)) st.fields false stream obj)
      (fun inherited hinherited => ?_) (absurd · Bool.false_ne_true))
      fun rest => structFromBinary_of_found hfind
    have hnodup := hnames.own _ st hfind
    have hfresh : ∀ name ∈ names st.fields, name ∉ keys inherited := by
      intro name hname hmem
      obtain ⟨base, hextends, hbaseName⟩ := hinherited.mem_names name hmem
      exact hnames.inherited _ st base hfind hextends hname hbaseName
    refine (hwritten.readsBack hnodup hfresh (hvalue more)).imp ?_
    rintro _ ⟨entries', rfl, hagain⟩
    have hownNames := hagain.mem_names
    constructor
    · intro hnil
      obtain ⟨hinheritedNil, hownNil⟩ := List.append_eq_nil_iff.mp hnil
      obtain rfl := map_eq_nil_iff.mp hownNil
      rw [hinherited.notEmpty hinheritedNil, hagain.eq_nil, append_nil]
    · intro name hname
      rw [VariantObject.keys, map_append, mem_append] at hname
      cases hname with
      | inl hname =>
        obtain ⟨base, hextends, hmem⟩ := hinherited.mem_names name hname
        exact ⟨base, hextends.to_reflTransGen, hmem⟩
      | inr hname => exact ⟨st, .refl, hownNames name hname⟩
    · intro vo hagrees
      have hbaseAgrees : ∀ base, Relation.TransGen (Extends s) st base →
          ∀ name ∈ names base.fields, vo.find? name = inherited.find? name := by
        intro base hextends name hname
        have hnotOwn : name ∉ (toObject entries').keys := fun hmem =>
          hnames.inherited _ st base hfind hextends (hownNames name hmem) hname
        rw [hagrees base hextends.to_reflTransGen name hname, VariantObject.find?_append,
          VariantObject.find?_eq_none.mpr hnotOwn, Option.or_none]
      have hownAgrees : ∀ name ∈ names st.fields,
          vo.find? name = (toObject entries').find? name := by
        intro name hname
        rw [hagrees st .refl name hname,
          find?_append_of_notMem (hfresh name hname)]
      rw [variantToBinaryWithin_of_struct hstruct]
      exact bind_eq_ok.mpr ⟨outBase, hinherited.again vo hbaseAgrees,
        bind_eq_ok.mpr ⟨outOwn, hagain.packFields hnodup hownAgrees, rfl⟩⟩

include hs hnames hvalues hobjects in
theorem objectsReadBack_succ : s.ObjectsReadBack (scopes + 1) := by
  intro _ allowed _ st _ _ hstruct h hsize hwritable
  rw [variantToBinaryWithin_of_struct hstruct] at h
  simp only [bind_eq_ok] at h
  obtain ⟨_, hbase, outOwn, hown, h⟩ := h
  cases h
  rw [length_append] at hsize
  obtain ⟨hbaseNe, hbaseRead⟩ :=
    inheritedReadsBack hs hobjects hstruct hbase (by omega) hwritable
  obtain ⟨entries, hwritten, hentries, hmissing⟩ := fieldsWritten_of_packFields hown
  have hvalue : s.EntriesReadBack scopes allowed st.fields entries outOwn := by
    intro more field _ hsuffix _ hvar head hhead hle
    exact fieldReadsBack hs hvalues hhead (by omega)
      (hwritable.part (.field hstruct hsuffix (hentries _ hvar))) more
  refine ⟨?_, structReadsBack hnames hstruct hbaseRead hwritten hvalue⟩
  rintro ⟨base, hchain, name, hname, hgiven⟩ hnil
  obtain ⟨hbaseNil, hownNil⟩ := List.append_eq_nil_iff.mp hnil
  obtain rfl | hextends := Relation.reflTransGen_iff_eq_or_transGen.mp hchain
  · exact hwritten.ne_nil (fun hempty => hgiven (hmissing hempty name hname)) (hvalue 0) hownNil
  · exact hbaseNe base hextends name hname hgiven hbaseNil

variable {role : Role} {allowed : Bool} {type : TypeName} {var : Variant} {out : Bytes}
  (h : s.variantToBinaryWithin (scopes + 1) allowed type var = .ok out)
  (hsize : out.length < 2 ^ 32) (hwritable : s.Writable ⟨role, allowed, type, var⟩)

include hbuiltIns h in
theorem readsBack_builtIn {btype : BuiltInType}
    (hbuiltIn : s.builtInTypes.find? (fundamentalType (s.resolveType type)) = some btype) :
    out ≠ [] ∧ ∀ more, s.ReadsBackWithin (scopes + 1) allowed type var out (more + 1) := by
  simp only [variantToBinaryWithin, hbuiltIn] at h
  obtain ⟨hne, v, hv, hnull, hread⟩ := hbuiltIns _ btype hbuiltIn _ _ _ _ h
  refine ⟨hne, fun more => .inr ⟨v, ⟨?_, hnull⟩, fun rest _ => ?_⟩⟩
  · simp only [variantToBinaryWithin, hbuiltIn]
    exact hv
  · simp only [binaryToVariantWithin, hbuiltIn]
    exact rethrow_eq_ok.mpr (hread rest)

variable (hbuiltIn : s.builtInTypes.find? (fundamentalType (s.resolveType type)) = none)

include hvalues h hsize hwritable hbuiltIn in
theorem readsBack_array (harray : isArray (s.resolveType type) = true) :
    out ≠ [] ∧ ∀ more, s.ReadsBackWithin (scopes + 1) allowed type var out (more + 1) := by
  simp only [variantToBinaryWithin, hbuiltIn, if_pos harray] at h
  cases var with
  | array vars =>
    obtain ⟨elements, helements, h⟩ := bind_eq_ok.mp h
    cases h
    rw [length_append] at hsize
    have helement : ∀ var ∈ vars, ∀ head, s.variantToBinaryWithin scopes false
        (fundamentalType (s.resolveType type)) var = .ok head → head.length ≤ elements.length →
        head ≠ [] ∧ ∀ more, ReadsBack [recursionDepthExceeded]
          (unpackElement (s.binaryToVariantWithin more (fundamentalType (s.resolveType type))))
          false head fun v => s.variantToBinaryWithin scopes false
            (fundamentalType (s.resolveType type)) v = .ok head := by
      intro var hvar head hhead hle
      have hpart := hwritable.part (.element hbuiltIn harray hvar)
      obtain ⟨hne, hread⟩ := hvalues .element false _ var head (by decide) hhead (by omega) hpart
      refine ⟨hne, fun more => readsBack_element ((hread more).imp fun v hv => ⟨hv.1, ?_⟩)⟩
      -- null is read only if null was given, which is not so in an array
      refine Bool.eq_false_iff.mpr fun hnull => ?_
      obtain ⟨hoptional, hvarNull⟩ := hv.2 hnull
      exact Bool.eq_false_iff.mp (hpart.decodable.notNull rfl hoptional) hvarNull
    have hlength := length_le_of_packSequence helements fun var hvar head hhead hle =>
      (helement var hvar head hhead hle).1
    refine ⟨fun hnil => packUnsignedInt_ne_nil _ (List.append_eq_nil_iff.mp hnil).1,
      fun more => ?_⟩
    have hread := readsBack_readArray helements fun var hvar head hhead hle =>
      (helement var hvar head hhead hle).2 more
    have hcount := readsBack_unsignedInt [recursionDepthExceeded]
      (Nat.lt_of_le_of_lt hlength (by omega : elements.length < 2 ^ 32))
      ⟨.unpackException, "Unable to unpack size of array '${p}'", []⟩
    refine ReadsBack.congr (hcount.bind (g := readArray
      (s.binaryToVariantWithin more (fundamentalType (s.resolveType type))))
      (fun size hsizeEq => ?_) (absurd · Bool.false_ne_true)) fun rest => ?_
    · subst hsizeEq
      refine (hread.allow allowed).imp ?_
      rintro _ ⟨_, rfl, hvarsLength, hvars'⟩
      refine ⟨?_, (absurd · Bool.false_ne_true)⟩
      simp only [variantToBinaryWithin, hbuiltIn, if_pos harray, hvarsLength]
      exact bind_eq_ok.mpr ⟨elements, hvars', rfl⟩
    · simp only [binaryToVariantWithin, hbuiltIn, if_pos harray]
      rfl
  | _ => cases h

variable (harray : isArray (s.resolveType type) = false)
  (hoptional : isOptional (s.resolveType type) = false)

include hvariants hvalues h hsize hwritable hbuiltIn harray hoptional in
theorem readsBack_alternative (hvariant : s.variants.find? (s.resolveType type) = some d) :
    out ≠ [] ∧ ∀ more, s.ReadsBackWithin (scopes + 1) allowed type var out (more + 1) := by
  obtain ⟨t, item, i, tail, rfl, hi, htail, rfl⟩ : ∃ t item i tail,
      var = .array [.string t, item] ∧ d.types.idxOf? t = some i ∧
      s.variantToBinaryWithin scopes allowed t item = .ok tail ∧
      out = packUnsignedInt i ++ tail := by
    simp only [variantToBinaryWithin, hbuiltIn, harray, hvariant, Bool.false_eq_true,
      if_false] at h
    split at h
    · rename_i t item
      cases hi : d.types.idxOf? t with
      | none =>
        simp only [hi] at h
        cases h
      | some i =>
        simp only [hi] at h
        obtain ⟨tail, htail, h⟩ := bind_eq_ok.mp h
        cases h
        exact ⟨t, item, i, tail, rfl, hi, htail, rfl⟩
    · cases h
    · cases h
  rw [length_append] at hsize
  obtain ⟨hlt, hti, _⟩ := List.idxOf?_eq_some_iff.mp hi
  have hselect : d.types[i]? = some t := List.getElem?_eq_some_iff.mpr ⟨hlt, hti⟩
  obtain ⟨_, hread⟩ := hvalues .value allowed t item tail (by decide) htail (by omega)
    (hwritable.part (.alternative hbuiltIn harray hvariant))
  refine ⟨fun hnil => packUnsignedInt_ne_nil _ (List.append_eq_nil_iff.mp hnil).1, fun more => ?_⟩
  have htag := readsBack_unsignedInt [recursionDepthExceeded]
    (Nat.lt_of_lt_of_le hlt (hvariants _ d hvariant))
    ⟨.unpackException, "Unable to unpack tag of variant '${p}'", []⟩
  refine ReadsBack.congr (htag.bind (g := readAlternative (s.binaryToVariantWithin more) d.types)
    (fun select hselectEq => ?_) (absurd · Bool.false_ne_true)) fun rest => ?_
  · subst hselectEq
    refine (readsBack_readAlternative hselect (hread more)).imp ?_
    rintro _ ⟨v, rfl, hv⟩
    refine ⟨?_, (absurd · Bool.false_ne_true)⟩
    simp only [variantToBinaryWithin, hbuiltIn, harray, hvariant, hi]
    exact bind_eq_ok.mpr ⟨tail, hv.1, rfl⟩
  · simp only [binaryToVariantWithin, hbuiltIn, harray, hoptional, hvariant]
    rfl

variable (hvariant : s.variants.find? (s.resolveType type) = none)

include hbuiltIn harray hoptional hvariant in
theorem readsBack_struct {more : Nat} (hne : out ≠ []) (hread : ReadsBack [recursionDepthExceeded]
      (fun stream => s.structFromBinary more (s.resolveType type) stream []) allowed out
      (Rewrites (Relation.ReflTransGen (Extends s) st)
        (fun vo => s.variantToBinaryWithin (scopes + 1) allowed type (.object vo)) out)) :
    s.ReadsBackWithin (scopes + 1) allowed type var out (more + 1) := by
  refine ReadsBack.congr (hread.andThen (g := fun obj stream => abiAssert (0 < obj.length)
    ⟨.unpackException, "Unable to unpack '${p}' from stream", []⟩ >>= fun _ =>
      .ok (Variant.object obj, stream)) fun obj hobj => ?_) fun rest => ?_
  · have hpos : 0 < obj.length := length_pos_iff.mpr fun hnil => hne (hobj.notEmpty hnil)
    refine ⟨.object obj, ⟨hobj.again obj fun _ _ _ _ => rfl, nofun⟩, fun stream => ?_⟩
    exact bind_eq_ok.mpr ⟨(), abiAssert_eq_ok.mpr hpos, rfl⟩
  · simp only [binaryToVariantWithin, hbuiltIn, harray, hoptional, hvariant]
    rfl

include hs hnames hvalues hobjects h hsize hwritable hbuiltIn harray hoptional hvariant in
theorem readsBack_fieldsOf (hrole : role ≠ .base) :
    out ≠ [] ∧ ∀ more, s.ReadsBackWithin (scopes + 1) allowed type var out (more + 1) := by
  cases hfound : s.structs.find? (s.resolveType type) with
  | none =>
    simp only [variantToBinaryWithin, hbuiltIn, harray, hvariant, hfound] at h
    cases h
  | some st =>
    have hstruct : s.IsStruct (s.resolveType type) st :=
      ⟨hbuiltIn, harray, hoptional, hvariant, hfound⟩
    cases var with
    | object vo =>
      obtain ⟨hne, hread⟩ := objectsReadBack_succ hs hnames hvalues hobjects role allowed type
        st vo out hstruct h hsize hwritable
      have hout := hne (hwritable.decodable.objectNotEmpty hrole st vo hstruct rfl)
      exact ⟨hout, fun more => readsBack_struct hbuiltIn harray hoptional hvariant hout
        (hread more)⟩
    | array va =>
      simp only [variantToBinaryWithin, hbuiltIn, harray, hvariant, hfound] at h
      obtain ⟨_, hbase, h⟩ := bind_eq_ok.mp h
      have hnoBase : st.base = [] := abiAssert_eq_ok.mp hbase
      have hwritten := fieldsWritten_of_packItems h
        (hwritable.decodable.itemsMissing st va hstruct rfl)
      have hvalue : s.EntriesReadBack scopes allowed st.fields (st.fields.zip va) out := by
        intro more _ _ hsuffix _ hvar head hhead hle
        exact fieldReadsBack hs hvalues hhead (by omega)
          (hwritable.part (.item hstruct hsuffix hvar)) more
      have hout := hwritten.ne_nil (hwritable.decodable.itemsNotEmpty st va hstruct rfl) (hvalue 0)
      have hread := structReadsBack hnames hstruct (baseReadsBack_nil hnoBase) hwritten hvalue
      exact ⟨hout, fun more => readsBack_struct hbuiltIn harray hoptional hvariant hout
        (hread more)⟩
    | _ =>
      simp only [variantToBinaryWithin, hbuiltIn, harray, hvariant, hfound] at h
      cases h

end WriteStep

/-- The scopes of the encoder are what the induction is on; those of the decoder are any. -/
theorem readBack (hs : s.Resolved) (hbuiltIns : s.BuiltInsRepack) (hnames : s.DistinctFieldNames)
    (hvariants : ∀ type d, s.variants.find? type = some d → d.types.length ≤ 2 ^ 32)
    (scopes : Nat) : s.ValuesReadBack scopes ∧ s.ObjectsReadBack scopes := by
  induction scopes with
  | zero => exact ⟨fun _ _ _ _ _ _ h => (nomatch h), fun _ _ _ _ _ _ _ h => (nomatch h)⟩
  | succ scopes ih =>
    refine ⟨?_, objectsReadBack_succ hs hnames ih.1 ih.2⟩
    intro _ allowed type var out hrole h hsize hwritable
    have hstep : out ≠ [] ∧
        ∀ more, s.ReadsBackWithin (scopes + 1) allowed type var out (more + 1) := by
      cases hbuiltIn : s.builtInTypes.find? (fundamentalType (s.resolveType type)) with
      | some => exact readsBack_builtIn hbuiltIns h hbuiltIn
      | none =>
        cases harray : isArray (s.resolveType type) with
        | true => exact readsBack_array ih.1 h hsize hwritable hbuiltIn harray
        | false =>
          have hoptional : isOptional (s.resolveType type) = false :=
            Bool.eq_false_iff.mpr fun hoptional =>
              hwritable.decodable.optionalBuiltIn hoptional hbuiltIn
          cases hvariant : s.variants.find? (s.resolveType type) with
          | some =>
            exact readsBack_alternative hvariants ih.1 h hsize hwritable hbuiltIn harray
              hoptional hvariant
          | none =>
            exact readsBack_fieldsOf hs hnames ih.1 ih.2 h hsize hwritable hbuiltIn harray
              hoptional hvariant hrole
    refine ⟨hstep.1, fun more => ?_⟩
    cases more with
    | zero => exact readsBack_zero fun _ => by rw [binaryToVariantWithin]
    | succ more => exact hstep.2 more

theorem mem_of_find?_variants {variants : List VariantDef} {m : FlatMap TypeName VariantDef}
    (h : (variants.foldl (fun m v => m.insert v.name v) m).find? type = some d) :
    d ∈ variants ∨ m.find? type = some d := by
  induction variants generalizing m with
  | nil => exact .inr h
  | cons v _ ih =>
    cases ih h with
    | inl hmem => exact .inl (mem_cons_of_mem v hmem)
    | inr hfind =>
      rw [FlatMap.find?_insert] at hfind
      split at hfind
      · cases hfind
        exact .inl mem_cons_self
      · exact .inr hfind

theorem variantToBinary_eq (htype : s.isTypeWithin (maxScopes - 1) type = .ok true) :
    s.variantToBinary type var = (s.variantToBinaryWithin (maxScopes - 1) true type var >>=
      fun out => abiAssert (out.length ≤ bufferSize) datastreamRangeError >>= fun _ => .ok out) := by
  rw [variantToBinary, htype]
  rfl

/-- What is encoded is decoded from all of the bytes, unless it is too deep for the decoder, and
encoding the value decoded gives the same bytes. -/
theorem binaryToVariant_variantToBinary {s₀ s : AbiSerializer} {abi : AbiDef}
    (haccepted : s₀.setAbi abi = .ok s) (hbuiltIns : s₀.BuiltInsRepack)
    (hnames : s.DistinctFieldNames) (hvariants : ∀ d ∈ abi.variants, d.types.length ≤ 2 ^ 32)
    {type : TypeName} {var : Variant} {binary : Bytes}
    (htype : s.isTypeWithin (maxScopes - 1) type = .ok true)
    (hencoded : s.variantToBinary type var = .ok binary)
    (hdecodable : ∀ place, Relation.ReflTransGen (PlacedPart s) ⟨.value, true, type, var⟩ place →
      place.Decodable s) : s.binaryToVariant type binary = .error recursionDepthExceeded ∨
      ∃ v, s.binaryToVariant type binary = .ok (v, []) ∧
        s.variantToBinary type v = .ok binary := by
  obtain ⟨hbuiltInTypes, hvalid, hvariantMap⟩ := setAbi_eq_ok haccepted
  have hbuiltIns' : s.BuiltInsRepack := fun type btype hfind =>
    hbuiltIns type btype (hbuiltInTypes ▸ hfind)
  have hvariants' : ∀ type d, s.variants.find? type = some d → d.types.length ≤ 2 ^ 32 := by
    intro type d hfind
    rw [hvariantMap] at hfind
    exact hvariants d ((mem_of_find?_variants hfind).resolve_right (Option.some_ne_none _).symm)
  rw [variantToBinary_eq htype] at hencoded
  simp only [bind_eq_ok] at hencoded
  obtain ⟨_, hout, u, hfits, hencoded⟩ := hencoded
  cases hencoded
  have hsize : binary.length < 2 ^ 32 :=
    Nat.lt_of_le_of_lt (abiAssert_eq_ok.mp hfits) (by decide)
  obtain ⟨_, hread⟩ := (readBack (resolved_of_validate hvalid) hbuiltIns' hnames hvariants'
    (maxScopes - 1)).1 .value true type var binary (by decide) hout hsize hdecodable
  cases hread (maxScopes - 1) with
  | inl hfails =>
    obtain ⟨e, he, hfails⟩ := hfails
    obtain rfl := mem_singleton.mp he
    refine .inl ?_
    rw [← append_nil binary]
    exact hfails [] fun _ => rfl
  | inr hreads =>
    obtain ⟨v, ⟨hv, _⟩, hreads⟩ := hreads
    refine .inr ⟨v, ?_, ?_⟩
    · rw [← append_nil binary]
      exact hreads [] fun _ => rfl
    · rw [variantToBinary_eq htype]
      exact bind_eq_ok.mpr ⟨binary, hv, bind_eq_ok.mpr ⟨u, hfits, rfl⟩⟩

theorem int8Serializer_repacks : int8Serializer.BuiltInsRepack := by
  intro _ _ hfind
  rw [int8Serializer, FlatMap.find?_insert] at hfind
  split at hfind
  · cases hfind
    exact int8Type_repacks
  · cases hfind

theorem extensionSerializer_decodable (place : Place)
    (hplace : Relation.ReflTransGen (PlacedPart extensionSerializer)
      ⟨.value, true, "s".toList, .array [.int64 5]⟩ place) : place.Decodable extensionSerializer := by
  have hfound : ∀ st, extensionSerializer.IsStruct (extensionSerializer.resolveType "s".toList) st →
      st = extensionStruct := fun st hstruct => (Option.some.inj hstruct.found).symm
  obtain rfl | ⟨_, hfirst, hrest⟩ := Relation.ReflTransGen.cases_head hplace
  · refine ⟨fun h => (nomatch h), fun st hstruct hne => ?_, nofun, nofun, ?_, ?_⟩
    · exact absurd (congrArg StructDef.base (hfound st hstruct)) hne
    · rintro st va hstruct ⟨⟩
      rw [hfound st hstruct]
      exact cons_ne_nil _ _
    · rintro st - hstruct ⟨⟩ _ hfield
      rw [hfound st hstruct] at hfield
      obtain rfl := mem_singleton.mp hfield
      rfl
  · cases hfirst with
    | element _ harray => cases harray
    | item hstruct hfield =>
      have hrole : Role.value ≠ .element := nofun
      refine writable_of_builtIn hrole ?_ place hrest
      rw [hfound _ hstruct] at hfield
      have hmem := hfield.subset mem_cons_self
      fin_cases hmem <;> exact nofun

/-- An array of fewer items than the struct has fields is decoded to an object. -/
theorem binaryToVariant_variantToBinary_items :
    extensionSerializer.variantToBinary "s".toList (.array [.int64 5]) = .ok [5] ∧
    (extensionSerializer.binaryToVariant "s".toList [5] = .error recursionDepthExceeded ∨
      ∃ v, extensionSerializer.binaryToVariant "s".toList [5] = .ok (v, []) ∧
        extensionSerializer.variantToBinary "s".toList v = .ok [5]) :=
  have haccepted : int8Serializer.setAbi extensionAbi = .ok extensionSerializer := rfl
  have hencoded : extensionSerializer.variantToBinary "s".toList (.array [.int64 5]) =
      .ok [5] := rfl
  ⟨hencoded, binaryToVariant_variantToBinary haccepted int8Serializer_repacks
    extensionSerializer_distinct (fun _ h => absurd h not_mem_nil) rfl hencoded
    extensionSerializer_decodable⟩

def emptyStruct : StructDef := ⟨"e".toList, [], []⟩

def twiceStruct : StructDef :=
  ⟨"q".toList, [], [⟨"a".toList, "int8".toList⟩, ⟨"a".toList, "int8".toList⟩]⟩

def middleStruct : StructDef :=
  ⟨"m".toList, [], [⟨"a".toList, "int8".toList⟩, ⟨"b".toList, "int8$".toList⟩,
    ⟨"c".toList, "int8".toList⟩]⟩

def nestedStruct : StructDef := ⟨"r".toList, [], [⟨"n".toList, "r[]".toList⟩]⟩

def optionalStruct : StructDef := ⟨"e?".toList, [], [⟨"a".toList, "int8".toList⟩]⟩

def encodingAbi : AbiDef where
  version := "eosio::abi/1.1".toList
  types := [⟨"oint".toList, "int8?".toList⟩]
  structs := [emptyStruct, twiceStruct, middleStruct, nestedStruct, optionalStruct]

def encodingSerializer : AbiSerializer :=
  { int8Serializer with
    typedefs := FlatMap.empty.insert "oint".toList "int8?".toList
    structs := encodingAbi.structs.foldl (fun m st => m.insert st.name st) .empty }

def nestedObject : Nat → Variant
  | 0 => .object [("n".toList, .array [])]
  | n + 1 => .object [("n".toList, .array [nestedObject n])]

/-- Values that are encoded and not decoded: null in an array, a struct without fields, a value
too deep for the decoder, items that stop before a field that is not an extension, and a struct
that is named like an optional. With two fields of one name the value decoded has other bytes. -/
theorem encoded_not_decoded : int8Serializer.BuiltInsRepack ∧
    int8Serializer.setAbi encodingAbi = .ok encodingSerializer ∧
    (encodingSerializer.isType "oint[]".toList = .ok true ∧
      encodingSerializer.variantToBinary "oint[]".toList (.array [.null]) = .ok [1, 0] ∧
      encodingSerializer.binaryToVariant "oint[]".toList [1, 0] =
        .error ⟨.unpackException, "Invalid packed array '${p}'", []⟩) ∧
    (encodingSerializer.isType "e".toList = .ok true ∧
      encodingSerializer.variantToBinary "e".toList (.object []) = .ok [] ∧
      encodingSerializer.binaryToVariant "e".toList [] =
        .error ⟨.unpackException, "Unable to unpack '${p}' from stream", []⟩) ∧
    (encodingSerializer.isType "r".toList = .ok true ∧
      encodingSerializer.variantToBinary "r".toList (nestedObject 10) =
        .ok (replicate 10 1 ++ [0]) ∧
      encodingSerializer.binaryToVariant "r".toList (replicate 10 1 ++ [0]) =
        .error recursionDepthExceeded) ∧
    (encodingSerializer.isType "m".toList = .ok true ∧
      encodingSerializer.variantToBinary "m".toList (.array [.int64 1]) = .ok [1] ∧
      encodingSerializer.binaryToVariant "m".toList [1] =
        .error (withoutExtensionDesignation "c".toList)) ∧
    (encodingSerializer.isType "e?".toList = .ok true ∧
      encodingSerializer.variantToBinary "e?".toList (.object [("a".toList, .int64 0)]) = .ok [0] ∧
      encodingSerializer.binaryToVariant "e?".toList [0] = .ok (.null, []) ∧
      encodingSerializer.variantToBinary "e?".toList .null = .error ⟨.packException,
        "Unexpected input encountered while processing struct '${p}'", []⟩) ∧
    (encodingSerializer.isType "q".toList = .ok true ∧
      encodingSerializer.variantToBinary "q".toList (.array [.int64 1, .int64 2]) = .ok [1, 2] ∧
      encodingSerializer.binaryToVariant "q".toList [1, 2] =
        .ok (.object [("a".toList, .int64 2)], []) ∧
      encodingSerializer.variantToBinary "q".toList (.object [("a".toList, .int64 2)]) =
        .ok [2, 2]) :=
  ⟨int8Serializer_repacks, rfl, ⟨rfl, rfl, rfl⟩, ⟨rfl, rfl, rfl⟩, ⟨rfl, rfl, rfl⟩, ⟨rfl, rfl, rfl⟩,
    ⟨rfl, rfl, rfl, rfl⟩, ⟨rfl, rfl, rfl, rfl⟩⟩

end AbiSerializer

end DreamChain
