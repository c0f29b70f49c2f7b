import DreamChain.Chain.Types
import DreamChain.Library.ExceptLoop

/-!
The protocol features a node knows and the manager of the activated ones. The manager keeps the
activations in a vector. The builtin features among them form a list, the newest first, which is
threaded through an array with one entry for each builtin feature.

When blocks are popped the manager goes back. It is then in the state in which the activations
that are left would have brought it.
-/

namespace DreamChain
open Library List

inductive BuiltinProtocolFeature where
  | preactivateFeature
  | onlyLinkToExistingPermission
  | replaceDeferred
  | noDuplicateDeferredId
  | fixLinkauthRestriction
  | disallowEmptyProducerSchedule
  | restrictActionToSelf
  | onlyBillFirstAuthorizer
  | forwardSetcode
  | getSender
  | ramRestrictions
deriving DecidableEq, Repr

namespace BuiltinProtocolFeature

def index : BuiltinProtocolFeature → Nat
  | preactivateFeature => 0
  | onlyLinkToExistingPermission => 1
  | replaceDeferred => 2
  | noDuplicateDeferredId => 3
  | fixLinkauthRestriction => 4
  | disallowEmptyProducerSchedule => 5
  | restrictActionToSelf => 6
  | onlyBillFirstAuthorizer => 7
  | forwardSetcode => 8
  | getSender => 9
  | ramRestrictions => 10

theorem index_lt (f : BuiltinProtocolFeature) : f.index < 11 := by
  cases f <;> decide

theorem index_injective : Function.Injective index := by
  intro f g h
  cases f <;> cases g <;> first | rfl | cases h

end BuiltinProtocolFeature

/-- A feature without its digest, under which the set of features stores it. -/
structure ProtocolFeature where
  dependencies : FlatSet := .empty
  earliestAllowedActivationTime : Int := 0
  preactivationRequired : Bool := false
  enabled : Bool := false
  builtinFeature : Option BuiltinProtocolFeature := none
deriving DecidableEq

structure ProtocolFeatureSet where
  recognizedProtocolFeatures : FlatMap DigestType ProtocolFeature := .empty
  /-- The digests of builtin features by their number. -/
  recognizedBuiltinProtocolFeatures : List (Option DigestType) := []

namespace ProtocolFeatureSet

def find? (pfs : ProtocolFeatureSet) (featureDigest : DigestType) : Option ProtocolFeature :=
  pfs.recognizedProtocolFeatures.find? featureDigest

def builtin? (pfs : ProtocolFeatureSet) (featureDigest : DigestType) :
    Option BuiltinProtocolFeature :=
  (pfs.find? featureDigest).bind ProtocolFeature.builtinFeature

end ProtocolFeatureSet

structure ProtocolFeatureEntry where
  featureDigest : DigestType
  activationBlockNum : Nat
deriving DecidableEq, Repr

namespace BuiltinProtocolFeatureEntry

def noPrevious : Nat := 2 ^ 64 - 1

def notActive : Nat := 2 ^ 32 - 1

end BuiltinProtocolFeatureEntry

open BuiltinProtocolFeatureEntry

structure BuiltinProtocolFeatureEntry where
  previous : Nat := noPrevious
  activationBlockNum : Nat := notActive
deriving DecidableEq, Repr

structure ProtocolFeatureManager where
  protocolFeatureSet : ProtocolFeatureSet
  activatedProtocolFeatures : List ProtocolFeatureEntry := []
  builtinProtocolFeatures : List BuiltinProtocolFeatureEntry
  headOfBuiltinActivationList : Nat := noPrevious
  initialized : Bool := false

namespace ProtocolFeatureManager

def ofSet (pfs : ProtocolFeatureSet) : ProtocolFeatureManager :=
  { protocolFeatureSet := pfs
    builtinProtocolFeatures := replicate pfs.recognizedBuiltinProtocolFeatures.length {} }

def isBuiltinActivated (m : ProtocolFeatureManager) (featureCodename : BuiltinProtocolFeature)
    (currentBlockNum : Nat) : Bool :=
  match m.builtinProtocolFeatures[featureCodename.index]? with
  | none => false
  | some e => decide (e.activationBlockNum ≤ currentBlockNum)

def checkLastActivation (m : ProtocolFeatureManager) (currentBlockNum : Nat) : Fallible Unit :=
  match m.activatedProtocolFeatures.getLast? with
  | none => .ok ()
  | some last => eosAssert (last.activationBlockNum ≤ currentBlockNum) .protocolFeatureException
      "last protocol feature activation block num is ${last_activation_block_num} yet attempting to activate protocol feature with a current block num of ${current_block_num}protocol features is ${last_activation_block_num}"

def record (m : ProtocolFeatureManager) (featureDigest : DigestType) (indx currentBlockNum : Nat) :
    ProtocolFeatureManager :=
  { m with
    activatedProtocolFeatures := m.activatedProtocolFeatures ++ [⟨featureDigest, currentBlockNum⟩]
    builtinProtocolFeatures :=
      m.builtinProtocolFeatures.set indx ⟨m.headOfBuiltinActivationList, currentBlockNum⟩
    headOfBuiltinActivationList := indx }

def activateFeature (m : ProtocolFeatureManager) (featureDigest : DigestType)
    (currentBlockNum : Nat) : Fallible ProtocolFeatureManager := do
  eosAssert (m.initialized = true) .protocolFeatureException
    "protocol_feature_manager is not yet initialized"
  match m.protocolFeatureSet.find? featureDigest with
  | none => .error ⟨.protocolFeatureException, "unrecognized protocol feature digest: ${digest}"⟩
  | some f =>
    m.checkLastActivation currentBlockNum
    match f.builtinFeature with
    | none => .error ⟨.protocolFeatureException,
        "invariant failure: encountered non-builtin protocol feature which is not yet supported"⟩
    | some codename =>
      match m.builtinProtocolFeatures[codename.index]? with
      | none => .error ⟨.protocolFeatureException,
          "invariant failure while trying to activate feature with digest '${digest}': unsupported builtin_protocol_feature_t ${codename}"⟩
      | some e =>
        eosAssert (e.activationBlockNum = notActive) .protocolFeatureException
          "cannot activate already activated builtin feature with digest: ${digest}"
        return m.record featureDigest codename.index currentBlockNum

def init (m : ProtocolFeatureManager) (activatedProtocolFeatures : List ProtocolFeatureEntry) :
    Fallible ProtocolFeatureManager := do
  eosAssert (m.initialized = false) .protocolFeatureException
    "cannot initialize protocol_feature_manager twice"
  activatedProtocolFeatures.foldlM (fun m f => m.activateFeature f.featureDigest f.activationBlockNum)
    { m with initialized := true }

/-- The loop along the list of builtin features. The first argument bounds its rounds. -/
def popBuiltin (blockNum : Nat) : Nat → List BuiltinProtocolFeatureEntry → Nat →
    Fallible (List BuiltinProtocolFeatureEntry × Nat)
  | 0, _, _ => .error ⟨.undefinedBehavior, "the list of builtin features does not end"⟩
  | rounds + 1, entries, head =>
    if head = noPrevious then .ok (entries, head)
    else
      match entries[head]? with
      | none => .error ⟨.undefinedBehavior, "access beyond the end of a vector"⟩
      | some e =>
        if e.activationBlockNum ≤ blockNum then .ok (entries, head)
        else popBuiltin blockNum rounds (entries.set head {}) e.previous

def poppedBlocksTo (m : ProtocolFeatureManager) (blockNum : Nat) :
    Fallible ProtocolFeatureManager := do
  eosAssert (m.initialized = true) .protocolFeatureException
    "protocol_feature_manager is not yet initialized"
  let popped ← popBuiltin blockNum (m.builtinProtocolFeatures.length + 1) m.builtinProtocolFeatures
    m.headOfBuiltinActivationList
  return { m with
    activatedProtocolFeatures :=
      m.activatedProtocolFeatures.rdropWhile (fun e => blockNum < e.activationBlockNum)
    builtinProtocolFeatures := popped.1
    headOfBuiltinActivationList := popped.2 }

end ProtocolFeatureManager

/-- What is done with an initialized manager. -/
inductive FeatureOperation where
  | activateFeature (featureDigest : DigestType) (currentBlockNum : Nat)
  | poppedBlocksTo (blockNum : Nat)

namespace FeatureOperation

def apply (m : ProtocolFeatureManager) : FeatureOperation → Fallible ProtocolFeatureManager
  | activateFeature featureDigest currentBlockNum => m.activateFeature featureDigest currentBlockNum
  | poppedBlocksTo blockNum => m.poppedBlocksTo blockNum

def surviving (l : List ProtocolFeatureEntry) : FeatureOperation → List ProtocolFeatureEntry
  | activateFeature featureDigest currentBlockNum => l ++ [⟨featureDigest, currentBlockNum⟩]
  | poppedBlocksTo blockNum => l.filter (fun e => e.activationBlockNum ≤ blockNum)

/-- The number of a block, which is not the one reserved for features that are not active. -/
def WithBlockNum : FeatureOperation → Prop
  | activateFeature _ currentBlockNum => currentBlockNum < notActive
  | poppedBlocksTo blockNum => blockNum < notActive

end FeatureOperation

/-- The indices reached from `head` along the previous pointers of entries. -/
inductive Linked (entries : List BuiltinProtocolFeatureEntry) : Nat → List Nat → Prop
  | nil : Linked entries noPrevious []
  | cons {i e l} (hne : i ≠ noPrevious)
      (he : entries[i]? = some e) (h : Linked entries e.previous l) : Linked entries i (i :: l)

theorem Linked.set {entries : List BuiltinProtocolFeatureEntry} {head indx : Nat} {l : List Nat}
    (h : Linked entries head l) (hindx : indx ∉ l) (e : BuiltinProtocolFeatureEntry) :
    Linked (entries.set indx e) head l := by
  induction h with
  | nil => exact .nil
  | cons hne he _ ih =>
    obtain ⟨hne', hrest⟩ := not_or.mp (mt mem_cons.mpr hindx)
    exact .cons hne ((getElem?_set_ne hne').trans he) (ih hrest)

namespace ProtocolFeatureManager

variable {pfs : ProtocolFeatureSet} {m m' : ProtocolFeatureManager}
  {l : List ProtocolFeatureEntry} {e : ProtocolFeatureEntry}

variable {currentBlockNum blockNum : Nat} {entry : BuiltinProtocolFeatureEntry}
  {codename : BuiltinProtocolFeature}

theorem checkLastActivation_ok {u : Unit} : m.checkLastActivation currentBlockNum = .ok u ↔
      ∀ last ∈ m.activatedProtocolFeatures.getLast?, last.activationBlockNum ≤ currentBlockNum := by
  rw [checkLastActivation]
  split
  · rename_i hnone
    simp [hnone]
  · rename_i last hlast
    simp [hlast, eosAssert_eq_ok]

theorem activateFeature_ok {featureDigest : DigestType} :
    m.activateFeature featureDigest currentBlockNum = .ok m' ↔
      m.initialized = true ∧ (∀ last ∈ m.activatedProtocolFeatures.getLast?,
        last.activationBlockNum ≤ currentBlockNum) ∧
      ∃ codename entry, m.protocolFeatureSet.builtin? featureDigest = some codename ∧
        m.builtinProtocolFeatures[codename.index]? = some entry ∧
        entry.activationBlockNum = notActive ∧
        m' = m.record featureDigest codename.index currentBlockNum := by
  simp only [activateFeature, bind_eq_ok, eosAssert_eq_ok, ProtocolFeatureSet.builtin?]
  cases hfind : m.protocolFeatureSet.find? featureDigest with
  | none => simp
  | some f =>
    dsimp only [Option.bind_some]
    cases hbuiltin : f.builtinFeature with
    | none => simp [bind_eq_ok]
    | some codename =>
      cases hentry : m.builtinProtocolFeatures[codename.index]? with
      | none => simp [bind_eq_ok, hentry]
      | some entry =>
        simp only [bind_eq_ok, hentry, checkLastActivation_ok, eosAssert_eq_ok]
        constructor
        · rintro ⟨-, hinit, -, hlast, -, hinactive, hok⟩
          cases hok
          exact ⟨hinit, hlast, codename, entry, rfl, hentry, hinactive, rfl⟩
        · rintro ⟨hinit, hlast, codename', entry', hbuiltin', hentry', hinactive, rfl⟩
          cases hbuiltin'
          cases hentry.symm.trans hentry'
          exact ⟨(), hinit, (), hlast, (), hinactive, rfl⟩

/-- A manager right after the activations of a list were read. -/
def Replays (pfs : ProtocolFeatureSet) (l : List ProtocolFeatureEntry) (m : ProtocolFeatureManager) :
    Prop :=
  (ofSet pfs).init l = .ok m

theorem replays_nil : Replays pfs [] m ↔ m = { ofSet pfs with initialized := true } := by
  constructor
  · intro h
    cases h
    rfl
  · rintro rfl
    rfl

theorem replays_concat : Replays pfs (l ++ [e]) m' ↔ ∃ m, Replays pfs l m ∧
    m.activateFeature e.featureDigest e.activationBlockNum = .ok m' := by
  have hinit (l : List ProtocolFeatureEntry) : (ofSet pfs).init l =
      l.foldlM (fun m f => m.activateFeature f.featureDigest f.activationBlockNum)
        { ofSet pfs with initialized := true } := rfl
  simp only [Replays, hinit, foldlM_append, foldlM_cons, foldlM_nil, bind_pure,
    bind_eq_ok]

/-- The place of an activation in the array of builtin features. -/
def place? (pfs : ProtocolFeatureSet) (e : ProtocolFeatureEntry) : Option Nat :=
  (pfs.builtin? e.featureDigest).map BuiltinProtocolFeature.index

structure Represents (pfs : ProtocolFeatureSet) (l : List ProtocolFeatureEntry)
    (m : ProtocolFeatureManager) : Prop where
  initialized_eq : m.initialized = true
  set_eq : m.protocolFeatureSet = pfs
  activated_eq : m.activatedProtocolFeatures = l
  ordered : l.Pairwise fun e e' => e.activationBlockNum ≤ e'.activationBlockNum
  nodup : (l.filterMap (place? pfs)).Nodup
  linked : Linked m.builtinProtocolFeatures m.headOfBuiltinActivationList
    (l.filterMap (place? pfs)).reverse
  active : ∀ e ∈ l, ∃ i previous, place? pfs e = some i ∧
    m.builtinProtocolFeatures[i]? = some ⟨previous, e.activationBlockNum⟩
  inactive : ∀ i entry, m.builtinProtocolFeatures[i]? = some entry → entry = {} ∨
    ∃ e ∈ l, place? pfs e = some i ∧ entry.activationBlockNum = e.activationBlockNum

theorem represents_nil : Represents pfs [] { ofSet pfs with initialized := true } where
  initialized_eq := rfl
  set_eq := rfl
  activated_eq := rfl
  ordered := .nil
  nodup := .nil
  linked := .nil
  active := nofun
  inactive i entry h := by
    obtain ⟨hlt, h⟩ := List.getElem?_eq_some_iff.mp h
    exact .inl (h.symm.trans (List.getElem_replicate hlt))

theorem le_of_getLast (h : l.Pairwise fun e e' => e.activationBlockNum ≤ e'.activationBlockNum)
    (hlast : ∀ last ∈ l.getLast?, last.activationBlockNum ≤ blockNum) :
    ∀ e ∈ l, e.activationBlockNum ≤ blockNum := by
  intro e he
  obtain rfl | ⟨init, last, rfl⟩ := eq_nil_or_concat l
  · cases he
  · rw [concat_eq_append] at he h hlast
    have hle : last.activationBlockNum ≤ blockNum := hlast last (by simp)
    cases mem_append.mp he with
    | inl hinit => exact ((pairwise_append.mp h).2.2 e hinit last mem_cons_self).trans hle
    | inr hend =>
      cases mem_singleton.mp hend
      exact hle

theorem Represents.free {i : Nat} (h : Represents pfs l m)
    (hnums : ∀ e ∈ l, e.activationBlockNum < notActive)
    (hentry : m.builtinProtocolFeatures[i]? = some entry)
    (hinactive : entry.activationBlockNum = notActive) :
    entry = {} ∧ i ∉ l.filterMap (place? pfs) := by
  constructor
  · obtain hblank | ⟨e, he, -, heq⟩ := h.inactive i entry hentry
    · exact hblank
    · exact absurd (heq.symm.trans hinactive) (hnums e he).ne
  · intro hmem
    obtain ⟨e, he, hplace⟩ := mem_filterMap.mp hmem
    obtain ⟨j, previous, hplace', hj⟩ := h.active e he
    cases hplace.symm.trans hplace'
    cases hentry.symm.trans hj
    exact absurd hinactive (hnums e he).ne

theorem Represents.record (h : Represents pfs l m)
    (hnums : ∀ e ∈ l, e.activationBlockNum < notActive)
    (hlast : ∀ last ∈ m.activatedProtocolFeatures.getLast?,
      last.activationBlockNum ≤ e.activationBlockNum)
    (hbuiltin : pfs.builtin? e.featureDigest = some codename)
    (hentry : m.builtinProtocolFeatures[codename.index]? = some entry)
    (hinactive : entry.activationBlockNum = notActive) :
    Represents pfs (l ++ [e]) (m.record e.featureDigest codename.index e.activationBlockNum) := by
  have hplace : place? pfs e = some codename.index := by rw [place?, hbuiltin, Option.map_some]
  have hplaces : (l ++ [e]).filterMap (place? pfs) =
      l.filterMap (place? pfs) ++ [codename.index] := by
    rw [filterMap_append, filterMap_cons_some hplace, filterMap_nil]
  obtain ⟨hblank, hfree⟩ := h.free hnums hentry hinactive
  have hlt : codename.index < m.builtinProtocolFeatures.length :=
    (List.getElem?_eq_some_iff.mp hentry).1
  have hself : (m.record e.featureDigest codename.index e.activationBlockNum).builtinProtocolFeatures[
      codename.index]? = some ⟨m.headOfBuiltinActivationList, e.activationBlockNum⟩ :=
    List.getElem?_set_self hlt
  refine ⟨h.initialized_eq, h.set_eq, ?_, ?_, ?_, ?_, ?_, ?_⟩
  · exact congrArg (· ++ [e]) h.activated_eq
  · rw [pairwise_append]
    refine ⟨h.ordered, pairwise_singleton _ _, fun e₁ he₁ e₂ he₂ => ?_⟩
    cases mem_singleton.mp he₂
    exact le_of_getLast h.ordered (h.activated_eq ▸ hlast) e₁ he₁
  · rw [hplaces, nodup_append]
    refine ⟨h.nodup, nodup_singleton _, fun i hi j hj => ?_⟩
    cases mem_singleton.mp hj
    exact ne_of_mem_of_not_mem hi hfree
  · rw [hplaces, reverse_concat]
    have hne : codename.index ≠ noPrevious := by
      have hindex := codename.index_lt
      simp only [noPrevious]
      omega
    exact .cons hne hself (h.linked.set (mt mem_reverse.mp hfree) _)
  · intro e' he'
    cases mem_append.mp he' with
    | inl hold =>
      obtain ⟨i, previous, hi, hentry'⟩ := h.active e' hold
      have hne : codename.index ≠ i :=
        fun heq => hfree (heq ▸ mem_filterMap.mpr ⟨e', hold, hi⟩)
      exact ⟨i, previous, hi, (getElem?_set_ne hne).trans hentry'⟩
    | inr hnew =>
      cases mem_singleton.mp hnew
      exact ⟨codename.index, _, hplace, hself⟩
  · intro i entry' hentry'
    by_cases hi : codename.index = i
    · subst hi
      cases hself.symm.trans hentry'
      exact .inr ⟨e, mem_append_right _ mem_cons_self, hplace, rfl⟩
    · refine (h.inactive i entry' ((getElem?_set_ne hi).symm.trans hentry')).imp id ?_
      rintro ⟨e', he', hplace', heq⟩
      exact ⟨e', mem_append_left _ he', hplace', heq⟩

theorem Replays.represents (h : Replays pfs l m)
    (hnums : ∀ e ∈ l, e.activationBlockNum < notActive) : Represents pfs l m := by
  induction l using reverseRecOn generalizing m with
  | nil =>
    cases replays_nil.mp h
    exact represents_nil
  | append_singleton l e ih =>
    obtain ⟨m₁, hbefore, hactivate⟩ := replays_concat.mp h
    have hnums' : ∀ e ∈ l, e.activationBlockNum < notActive :=
      fun e' he' => hnums e' (mem_append_left _ he')
    have hrep := ih hbefore hnums'
    obtain ⟨-, hlast, codename, entry, hbuiltin, hentry, hinactive, rfl⟩ :=
      activateFeature_ok.mp hactivate
    exact hrep.record hnums' hlast (hrep.set_eq ▸ hbuiltin) hentry hinactive

theorem Represents.length_le (h : Represents pfs l m) : l.length ≤ m.builtinProtocolFeatures.length := by
  have hlength : (l.filterMap (place? pfs)).length = l.length := by
    rw [filterMap_length_eq_length]
    intro e he
    obtain ⟨i, _, hi, -⟩ := h.active e he
    rw [hi, Option.isSome_some]
  have hsubset : l.filterMap (place? pfs) ⊆ range m.builtinProtocolFeatures.length := by
    intro i hi
    obtain ⟨e, he, hplace⟩ := mem_filterMap.mp hi
    obtain ⟨j, previous, hj, hentry⟩ := h.active e he
    cases hplace.symm.trans hj
    exact List.mem_range.mpr (List.getElem?_eq_some_iff.mp hentry).1
  rw [← hlength, ← @List.length_range m.builtinProtocolFeatures.length]
  exact (List.Nodup.subperm h.nodup hsubset).length_le

theorem rdropWhile_eq_filter (blockNum : Nat)
    (h : l.Pairwise fun e e' => e.activationBlockNum ≤ e'.activationBlockNum) :
    l.rdropWhile (fun e => blockNum < e.activationBlockNum) =
      l.filter (fun e => e.activationBlockNum ≤ blockNum) := by
  induction l using reverseRecOn with
  | nil => rfl
  | append_singleton l e ih =>
    obtain ⟨hl, -, hle⟩ := pairwise_append.mp h
    by_cases hlt : blockNum < e.activationBlockNum
    · rw [rdropWhile_concat_pos _ _ _ (by simpa using hlt), ih hl]
      simp [hlt]
    · rw [rdropWhile_concat_neg _ _ _ (by simpa using hlt)]
      refine (filter_eq_self.mpr fun e' he' => decide_eq_true ?_).symm
      cases mem_append.mp he' with
      | inl hold => exact (hle e' hold e mem_cons_self).trans (not_lt.mp hlt)
      | inr hnew =>
        cases mem_singleton.mp hnew
        exact not_lt.mp hlt

/-- A round of the loop right after an activation leaves it or takes it back. -/
theorem popBuiltin_record (featureDigest : DigestType) (currentBlockNum blockNum rounds : Nat)
    (hblank : m.builtinProtocolFeatures[codename.index]? = some {}) :
    popBuiltin blockNum (rounds + 1)
        (m.record featureDigest codename.index currentBlockNum).builtinProtocolFeatures codename.index =
      if currentBlockNum ≤ blockNum then
        .ok ((m.record featureDigest codename.index currentBlockNum).builtinProtocolFeatures,
          codename.index)
      else popBuiltin blockNum rounds m.builtinProtocolFeatures m.headOfBuiltinActivationList := by
  have hne : codename.index ≠ noPrevious := by
    have hindex := codename.index_lt
    simp only [noPrevious]
    omega
  obtain ⟨hlt, hvalue⟩ := List.getElem?_eq_some_iff.mp hblank
  have hself : (m.builtinProtocolFeatures.set codename.index
      ⟨m.headOfBuiltinActivationList, currentBlockNum⟩)[codename.index]? =
        some ⟨m.headOfBuiltinActivationList, currentBlockNum⟩ := List.getElem?_set_self hlt
  have hback : (m.builtinProtocolFeatures.set codename.index
      ⟨m.headOfBuiltinActivationList, currentBlockNum⟩).set codename.index {} =
        m.builtinProtocolFeatures := by
    rw [set_set, ← hvalue, set_getElem_self]
  simp only [record, popBuiltin, if_neg hne, hself, hback]

/-- Along the list of builtin features the loop takes back the activations above the block. -/
theorem Replays.popBuiltin (h : Replays pfs l m) (hnums : ∀ e ∈ l, e.activationBlockNum < notActive)
    (blockNum : Nat) {rounds : Nat} (hrounds : l.length < rounds) :
    ∃ m₂, Replays pfs (l.filter (fun e => e.activationBlockNum ≤ blockNum)) m₂ ∧
      popBuiltin blockNum rounds m.builtinProtocolFeatures m.headOfBuiltinActivationList =
        .ok (m₂.builtinProtocolFeatures, m₂.headOfBuiltinActivationList) := by
  induction l using reverseRecOn generalizing m rounds with
  | nil =>
    cases replays_nil.mp h
    obtain ⟨rounds, rfl⟩ := Nat.exists_eq_add_of_lt hrounds
    exact ⟨_, replays_nil.mpr rfl, if_pos rfl⟩
  | append_singleton l e ih =>
    obtain ⟨m₁, hbefore, hactivate⟩ := replays_concat.mp h
    have hnums' : ∀ e ∈ l, e.activationBlockNum < notActive :=
      fun e' he' => hnums e' (mem_append_left _ he')
    have hrep := hbefore.represents hnums'
    obtain ⟨-, hlast, codename, entry, -, hentry, hinactive, rfl⟩ :=
      activateFeature_ok.mp hactivate
    have hblank := (hrep.free hnums' hentry hinactive).1 ▸ hentry
    rw [length_append, length_singleton] at hrounds
    obtain ⟨rounds, rfl⟩ : ∃ r, rounds = r + 1 := ⟨rounds - 1, by omega⟩
    have hround := popBuiltin_record e.featureDigest e.activationBlockNum blockNum rounds hblank
    by_cases hle : e.activationBlockNum ≤ blockNum
    · have hall : (l ++ [e]).filter (fun e => e.activationBlockNum ≤ blockNum) = l ++ [e] := by
        rw [← rdropWhile_eq_filter blockNum (h.represents hnums).ordered]
        exact rdropWhile_concat_neg _ _ _ (by simpa using hle)
      rw [hall]
      exact ⟨_, h, hround.trans (if_pos hle)⟩
    · obtain ⟨m₂, hleft, hpop⟩ := ih hbefore hnums' (Nat.lt_of_succ_lt_succ hrounds)
      have hrest : (l ++ [e]).filter (fun e => e.activationBlockNum ≤ blockNum) =
          l.filter (fun e => e.activationBlockNum ≤ blockNum) := by
        simp [hle]
      rw [hrest]
      exact ⟨m₂, hleft, (hround.trans (if_neg hle)).trans hpop⟩

theorem Replays.poppedBlocksTo (h : Replays pfs l m)
    (hnums : ∀ e ∈ l, e.activationBlockNum < notActive) (blockNum : Nat) :
    ∃ m₂, m.poppedBlocksTo blockNum = .ok m₂ ∧
      Replays pfs (l.filter (fun e => e.activationBlockNum ≤ blockNum)) m₂ := by
  have hrep := h.represents hnums
  obtain ⟨m₂, hleft, hpop⟩ := h.popBuiltin hnums blockNum (Nat.lt_succ_of_le hrep.length_le)
  have hrep₂ := hleft.represents fun e he => hnums e (mem_of_mem_filter he)
  refine ⟨m₂, ?_, hleft⟩
  simp only [ProtocolFeatureManager.poppedBlocksTo, bind_eq_ok, eosAssert_eq_ok]
  refine ⟨(), hrep.initialized_eq, _, hpop, ?_⟩
  rw [hrep.activated_eq, rdropWhile_eq_filter blockNum hrep.ordered, ← hrep₂.activated_eq,
    hrep.set_eq, ← hrep₂.set_eq, hrep.initialized_eq, ← hrep₂.initialized_eq]
  rfl

theorem Represents.isBuiltinActivated_iff (h : Represents pfs l m)
    (featureCodename : BuiltinProtocolFeature) (hnum : blockNum < notActive) :
    m.isBuiltinActivated featureCodename blockNum = true ↔
      ∃ e ∈ l, pfs.builtin? e.featureDigest = some featureCodename ∧
        e.activationBlockNum ≤ blockNum := by
  have hplace (e : ProtocolFeatureEntry) : place? pfs e = some featureCodename.index ↔
      pfs.builtin? e.featureDigest = some featureCodename := by
    rw [place?, Option.map_eq_some_iff]
    constructor
    · rintro ⟨codename, hcodename, heq⟩
      rw [hcodename, BuiltinProtocolFeature.index_injective heq]
    · exact fun hbuiltin => ⟨_, hbuiltin, rfl⟩
  rw [isBuiltinActivated]
  constructor
  · intro hactive
    split at hactive
    · cases hactive
    · rename_i entry hentry
      have hle := of_decide_eq_true hactive
      obtain hblank | ⟨e, he, hi, heq⟩ := h.inactive _ _ hentry
      · rw [hblank] at hle
        exact absurd hnum (not_lt.mpr hle)
      · exact ⟨e, he, (hplace e).mp hi, heq ▸ hle⟩
  · rintro ⟨e, he, hbuiltin, hle⟩
    obtain ⟨i, previous, hi, hentry⟩ := h.active e he
    cases hi.symm.trans ((hplace e).mpr hbuiltin)
    rw [hentry]
    exact decide_eq_true hle

end ProtocolFeatureManager

open ProtocolFeatureManager

section Rollback

variable {pfs : ProtocolFeatureSet} {m m' m₀ : ProtocolFeatureManager}
  {l start : List ProtocolFeatureEntry}

variable {op : FeatureOperation}

theorem FeatureOperation.surviving_lt (hop : op.WithBlockNum)
    (hnums : ∀ e ∈ l, e.activationBlockNum < notActive) :
    ∀ e ∈ op.surviving l, e.activationBlockNum < notActive := by
  cases op with
  | activateFeature featureDigest currentBlockNum =>
    intro e he
    cases mem_append.mp he with
    | inl hold => exact hnums e hold
    | inr hnew =>
      cases mem_singleton.mp hnew
      exact hop
  | poppedBlocksTo blockNum => exact fun e he => hnums e (mem_of_mem_filter he)

theorem FeatureOperation.apply_replays (hnums : ∀ e ∈ l, e.activationBlockNum < notActive)
    (h : Replays pfs l m) (hok : op.apply m = .ok m') : Replays pfs (op.surviving l) m' := by
  cases op with
  | activateFeature featureDigest currentBlockNum => exact replays_concat.mpr ⟨m, h, hok⟩
  | poppedBlocksTo blockNum =>
    obtain ⟨m₂, hpop, hleft⟩ := h.poppedBlocksTo hnums blockNum
    cases hpop.symm.trans hok
    exact hleft

theorem replays_run {operations : List FeatureOperation}
    (hnums : ∀ e ∈ start, e.activationBlockNum < notActive)
    (hops : ∀ op ∈ operations, op.WithBlockNum) (h : Replays pfs start m₀)
    (hrun : operations.foldlM FeatureOperation.apply m₀ = .ok m) :
    (∀ e ∈ operations.foldl FeatureOperation.surviving start, e.activationBlockNum < notActive) ∧
      Replays pfs (operations.foldl FeatureOperation.surviving start) m := by
  induction operations generalizing start m₀ with
  | nil =>
    cases hrun
    exact ⟨hnums, h⟩
  | cons op rest ih =>
    obtain ⟨hop, hrest⟩ := forall_mem_cons.mp hops
    obtain ⟨m₁, hfirst, hrun⟩ := foldlM_cons_ok.mp hrun
    exact ih (FeatureOperation.surviving_lt hop hnums) hrest
      (FeatureOperation.apply_replays hnums h hfirst) hrun

end Rollback

/-- The manager after any activations and pops is the one that only reads the activations that
are left. Its parts represent these, and blocks can be popped from it again. -/
theorem feature_rollback {pfs : ProtocolFeatureSet} {start : List ProtocolFeatureEntry}
    {m₀ m : ProtocolFeatureManager} {operations : List FeatureOperation}
    (hinit : (ofSet pfs).init start = .ok m₀)
    (hnums : ∀ e ∈ start, e.activationBlockNum < notActive)
    (hops : ∀ op ∈ operations, op.WithBlockNum)
    (hrun : operations.foldlM FeatureOperation.apply m₀ = .ok m) :
    ∃ left, left = operations.foldl FeatureOperation.surviving start ∧
      (ofSet pfs).init left = .ok m ∧
      m.activatedProtocolFeatures = left ∧
      Linked m.builtinProtocolFeatures m.headOfBuiltinActivationList
        (left.filterMap (place? pfs)).reverse ∧
      left.reverse.Pairwise (fun e e' => e'.activationBlockNum ≤ e.activationBlockNum) ∧
      (∀ f blockNum, blockNum < notActive → (m.isBuiltinActivated f blockNum = true ↔
        ∃ e ∈ left, pfs.builtin? e.featureDigest = some f ∧ e.activationBlockNum ≤ blockNum)) ∧
      ∀ blockNum, ∃ m', m.poppedBlocksTo blockNum = .ok m' := by
  obtain ⟨hnums', hleft⟩ := replays_run hnums hops hinit hrun
  have hrep := hleft.represents hnums'
  refine ⟨_, rfl, hleft, hrep.activated_eq, hrep.linked, pairwise_reverse.mpr hrep.ordered,
    fun f blockNum hnum => hrep.isBuiltinActivated_iff f hnum, fun blockNum => ?_⟩
  obtain ⟨m', hpop, -⟩ := hleft.poppedBlocksTo hnums' blockNum
  exact ⟨m', hpop⟩

def twoFeatures : ProtocolFeatureSet where
  recognizedProtocolFeatures :=
    (FlatMap.empty.insert {} { builtinFeature := some .preactivateFeature }).insert { hash0 := 1 }
      { builtinFeature := some .onlyLinkToExistingPermission }
  recognizedBuiltinProtocolFeatures := [some {}, some { hash0 := 1 }]

/-- A feature is activated in block 7, which is popped, and again in block 8 of the other fork. -/
theorem feature_rollback_reactivated : ∃ m₀ m,
    (ofSet twoFeatures).init [⟨{}, 5⟩] = .ok m₀ ∧
      [FeatureOperation.activateFeature { hash0 := 1 } 7, .poppedBlocksTo 6,
        .activateFeature { hash0 := 1 } 8].foldlM FeatureOperation.apply m₀ = .ok m ∧
      (ofSet twoFeatures).init [⟨{}, 5⟩, ⟨{ hash0 := 1 }, 8⟩] = .ok m := by
  obtain ⟨m₀, hinit, m, hrun⟩ : ∃ m₀, (ofSet twoFeatures).init [⟨{}, 5⟩] = .ok m₀ ∧ ∃ m,
      [FeatureOperation.activateFeature { hash0 := 1 } 7, .poppedBlocksTo 6,
        .activateFeature { hash0 := 1 } 8].foldlM FeatureOperation.apply m₀ = .ok m :=
    ⟨_, rfl, _, rfl⟩
  have hnums : ∀ e ∈ [(⟨{}, 5⟩ : ProtocolFeatureEntry)], e.activationBlockNum < notActive := by decide
  have hops : ∀ op ∈ [FeatureOperation.activateFeature { hash0 := 1 } 7, .poppedBlocksTo 6,
      .activateFeature { hash0 := 1 } 8], op.WithBlockNum := by
    simp [FeatureOperation.WithBlockNum, notActive]
  obtain ⟨left, rfl, hleft, -⟩ := feature_rollback hinit hnums hops hrun
  exact ⟨m₀, m, hinit, hrun, hleft⟩

end DreamChain
