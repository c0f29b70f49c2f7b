import DreamChain.Chain.BlockProduction
import DreamChain.Chain.Deduplication
import DreamChain.Chain.ProtocolFeatures

/-!
The activation of protocol features along a chain. Contracts preactivate features. The header of
a block lists the features to activate at its start. The list is checked against the features that
are active after the parent when the header is accepted, or before the block is produced, and
against the preactivated features when the block is applied.

A node keeps the activated features in the header state, in the protocol state of the database
and in the manager. They agree, and each law of activation follows from the checks of one of the
functions.
-/

namespace DreamChain
open Library List FlatMap

namespace ProtocolFeatureSet

inductive Recognized where
  | unrecognized
  | disabled
  | tooEarly
  | ready
deriving DecidableEq, Repr

def isRecognized (pfs : ProtocolFeatureSet) (featureDigest : DigestType) (now : Int) : Recognized :=
  match pfs.find? featureDigest with
  | none => .unrecognized
  | some f =>
    if f.enabled = false then .disabled
    else if now < f.earliestAllowedActivationTime then .tooEarly
    else .ready

def getProtocolFeature (pfs : ProtocolFeatureSet) (featureDigest : DigestType) :
    Fallible ProtocolFeature :=
  match pfs.find? featureDigest with
  | none => .error ⟨.protocolFeatureException, "unrecognized protocol feature with digest: ${digest}"⟩
  | some f => .ok f

def validateDependencies (pfs : ProtocolFeatureSet) (featureDigest : DigestType)
    (validator : DigestType → Bool) : Bool :=
  match pfs.find? featureDigest with
  | none => false
  | some f => f.dependencies.keys.all validator

/-- The exceptions for features that can not be used, thrown with one of several types. -/
def checkReady (type : ExceptionType) : Recognized → Fallible Unit
  | .unrecognized => .error ⟨type, "protocol feature with digest '${digest}' is unrecognized"⟩
  | .disabled => .error ⟨type, "protocol feature with digest '${digest}' is disabled"⟩
  | .tooEarly => .error ⟨type, "${timestamp} is too early for the earliest allowed activation time of the protocol feature with digest '${digest}'"⟩
  | .ready => .ok ()

def checkFeatures (pfs : ProtocolFeatureSet) (now : Int) (active : FlatSet) :
    List DigestType → List DigestType → Fallible Unit
  | _, [] => .ok ()
  | passed, f :: rest => do
    checkReady .protocolFeatureException (pfs.isRecognized f now)
    eosAssert (f ∉ active.keys) .protocolFeatureException
      "protocol feature with digest '${digest}' has already been activated"
    eosAssert (pfs.validateDependencies f (fun d => d ∈ active.keys ∨ d ∈ passed) = true)
      .protocolFeatureException
      "not all dependencies of protocol feature with digest '${digest}' have been activated"
    checkFeatures pfs now active (passed ++ [f]) rest

def checkProtocolFeatures (pfs : ProtocolFeatureSet) : FeatureValidator :=
  fun timestamp currentlyActivatedProtocolFeatures newProtocolFeatures =>
    pfs.checkFeatures timestamp.toTimePoint currentlyActivatedProtocolFeatures [] newProtocolFeatures

end ProtocolFeatureSet

structure ProtocolStateObject where
  activatedProtocolFeatures : List ProtocolFeatureEntry := []
  preactivatedProtocolFeatures : List DigestType := []
deriving DecidableEq, Repr

structure ActivationLoop where
  /-- Which preactivated and new features have been activated. -/
  activatedProtocolFeatures : FlatMap DigestType Bool
  numPreactivatedFeaturesThatHaveActivated : Nat := 0
  manager : ProtocolFeatureManager

namespace ActivationLoop

/-- Marks a feature as activated. It must have been preactivated if it requires that. -/
def mark (st : ActivationLoop) (featureDigest : DigestType) (f : ProtocolFeature) :
    Fallible ActivationLoop :=
  match st.activatedProtocolFeatures.find? featureDigest with
  | none => do
    eosAssert (f.preactivationRequired = false) .protocolFeatureException
      "attempted to activate protocol feature without prior required preactivation: ${digest}"
    return { st with
      activatedProtocolFeatures := st.activatedProtocolFeatures.insert featureDigest true }
  | some activated => do
    eosAssert (activated = false) .blockValidateException
      "attempted duplicate activation within a single block: ${digest}"
    return { st with
      activatedProtocolFeatures := st.activatedProtocolFeatures.insert featureDigest true
      numPreactivatedFeaturesThatHaveActivated :=
        st.numPreactivatedFeaturesThatHaveActivated + 1 }

/-- The handlers of builtin features write parts of the state that are not modelled here. -/
def trigger (handlers : BuiltinProtocolFeature → Fallible Unit) (f : ProtocolFeature) :
    Fallible Unit :=
  match f.builtinFeature with
  | none => .ok ()
  | some codename => handlers codename

def activate (handlers : BuiltinProtocolFeature → Fallible Unit) (blockNum : Nat)
    (st : ActivationLoop) (featureDigest : DigestType) : Fallible ActivationLoop := do
  let f ← st.manager.protocolFeatureSet.getProtocolFeature featureDigest
  let st ← st.mark featureDigest f
  trigger handlers f
  let manager ← st.manager.activateFeature featureDigest blockNum
  return { st with manager }

end ActivationLoop

def activateFeatures (handlers : BuiltinProtocolFeature → Fallible Unit) (blockNum : Nat)
    (newProtocolFeatureActivations : List DigestType) (pso : ProtocolStateObject)
    (manager : ProtocolFeatureManager) : Fallible (ProtocolStateObject × ProtocolFeatureManager) :=
  let numPreactivatedProtocolFeatures := pso.preactivatedProtocolFeatures.length
  if 0 < newProtocolFeatureActivations.length then do
    let st ← newProtocolFeatureActivations.foldlM (ActivationLoop.activate handlers blockNum)
      { activatedProtocolFeatures :=
          insertAll .empty (pso.preactivatedProtocolFeatures.map fun d => (d, false))
        manager }
    eosAssert (numPreactivatedProtocolFeatures = 0 ∨
        st.numPreactivatedFeaturesThatHaveActivated = numPreactivatedProtocolFeatures)
      .blockValidateException
      "There are pre-activated protocol features that were not activated at the start of this block"
    return ({
      activatedProtocolFeatures := pso.activatedProtocolFeatures ++
        newProtocolFeatureActivations.map fun d => ⟨d, blockNum⟩
      preactivatedProtocolFeatures := [] }, st.manager)
  else do
    eosAssert (numPreactivatedProtocolFeatures = 0) .blockValidateException
      "There are pre-activated protocol features that were not activated at the start of this block"
    return (pso, manager)

structure PreactivationContext where
  protocolFeatureSet : ProtocolFeatureSet
  pendingBlockTime : Int
  isProducingBlock : Bool
  prevActivatedProtocolFeatures : FlatSet
  newProtocolFeatureActivations : List DigestType

namespace PreactivationContext

/-- All the new activations have been made when transactions run. -/
def isProtocolFeatureActivated (ctx : PreactivationContext) (featureDigest : DigestType) : Bool :=
  featureDigest ∈ ctx.prevActivatedProtocolFeatures.keys ∨
    featureDigest ∈ ctx.newProtocolFeatureActivations

def preactivateFeature (ctx : PreactivationContext) (pso : ProtocolStateObject)
    (featureDigest : DigestType) : Fallible ProtocolStateObject := do
  ProtocolFeatureSet.checkReady
    (if ctx.isProducingBlock then .subjectiveBlockProductionException
      else .protocolFeatureBadBlockException)
    (ctx.protocolFeatureSet.isRecognized featureDigest ctx.pendingBlockTime)
  eosAssert (ctx.isProtocolFeatureActivated featureDigest = false) .protocolFeatureException
    "protocol feature with digest '${digest}' is already activated"
  eosAssert (featureDigest ∉ pso.preactivatedProtocolFeatures) .protocolFeatureException
    "protocol feature with digest '${digest}' is already pre-activated"
  eosAssert (ctx.protocolFeatureSet.validateDependencies featureDigest
      (fun d => ctx.isProtocolFeatureActivated d || decide (d ∈ pso.preactivatedProtocolFeatures)) =
        true) .protocolFeatureException
    "not all dependencies of protocol feature with digest '${digest}' have been activated or pre-activated"
  return { pso with
    preactivatedProtocolFeatures := pso.preactivatedProtocolFeatures ++ [featureDigest] }

end PreactivationContext

/-- The calls of `preactivate_feature` in one execution of a transaction, and whether it fails for
another reason. -/
structure FeatureTransaction where
  calls : List DigestType
  fails : Bool := false

/-- A failed transaction leaves no trace, unless its exception rejects the block. The second
component is what the transaction has preactivated. -/
def FeatureTransaction.run (ctx : PreactivationContext) (pso : ProtocolStateObject)
    (t : FeatureTransaction) : Fallible (ProtocolStateObject × List DigestType) :=
  match t.calls.foldlM ctx.preactivateFeature pso with
  | .ok pso' => if t.fails then .ok (pso, []) else .ok (pso', t.calls)
  | .error e => if e.type = .protocolFeatureBadBlockException then .error e else .ok (pso, [])

def runTransactions (ctx : PreactivationContext) :
    ProtocolStateObject → List FeatureTransaction → Fallible (ProtocolStateObject × List DigestType)
  | pso, [] => .ok (pso, [])
  | pso, t :: rest => do
    let first ← t.run ctx pso
    let later ← runTransactions ctx first.1 rest
    return (later.1, first.2 ++ later.2)

structure FeatureState where
  header : BlockHeaderState
  protocolState : ProtocolStateObject := {}
  manager : ProtocolFeatureManager
  /-- What was preactivated in the block. -/
  preactivated : List DigestType := []

/-- What happens while a block is applied. -/
structure BlockExecution where
  handlers : BuiltinProtocolFeature → Fallible Unit := fun _ => .ok ()
  transactions : List FeatureTransaction := []

def BlockHeaderState.getNewProtocolFeatureActivations (s : BlockHeaderState) : List DigestType :=
  s.headerExts.head?.getD []

namespace FeatureState

def execute (s : FeatureState) (p : PendingBlockHeaderState)
    (newProtocolFeatureActivations : List DigestType) (isProducingBlock : Bool) (x : BlockExecution) :
    Fallible (ProtocolFeatureManager × ProtocolStateObject × List DigestType) := do
  let started ← activateFeatures x.handlers p.blockNum newProtocolFeatureActivations s.protocolState
    s.manager
  let ctx : PreactivationContext := ⟨started.2.protocolFeatureSet, p.timestamp.toTimePoint,
    isProducingBlock, p.prevActivatedProtocolFeatures, newProtocolFeatureActivations⟩
  let finished ← runTransactions ctx started.1 x.transactions
  return (started.2, finished)

def receiveBlock (P : Primitives) (s : FeatureState) (h : BlockHeader) (x : BlockExecution) :
    Fallible FeatureState := do
  let p ← s.header.next P h.timestamp h.confirmed
  let header ← p.finishNext P s.manager.protocolFeatureSet.checkProtocolFeatures h
  let applied ← s.execute p header.getNewProtocolFeatureActivations false x
  return ⟨header, applied.2.1, applied.1, applied.2.2⟩

/-- The check of `validate_protocol_features`, made when there are new features. -/
def validateProtocolFeatures (s : FeatureState) (newProtocolFeatureActivations : List DigestType) :
    Fallible Unit :=
  if 0 < newProtocolFeatureActivations.length then
    s.manager.protocolFeatureSet.checkProtocolFeatures s.header.header.timestamp
      s.header.activatedProtocolFeatures newProtocolFeatureActivations
  else .ok ()

/-- A block is started, executed and completed on top of the chain. -/
def produceBlock (P : Primitives) (s : FeatureState) (when : BlockTimestamp) (confirmed : Nat)
    (newProtocolFeatureActivations : List DigestType) (transactionMroot actionMroot : DigestType)
    (newProducers : Option ProducerScheduleType) (x : BlockExecution) : Fallible FeatureState := do
  s.validateProtocolFeatures newProtocolFeatureActivations
  let p ← s.header.next P when confirmed
  let applied ← s.execute p newProtocolFeatureActivations true x
  let header ← p.finishNext P (fun _ _ _ => .ok ())
    (p.makeBlockHeader P transactionMroot actionMroot newProducers newProtocolFeatureActivations)
  return ⟨header, applied.2.1, applied.1, applied.2.2⟩

/-- A block with the features it activates comes on top of the chain. -/
inductive NextBlock (P : Primitives) (s : FeatureState) : List DigestType → FeatureState → Prop
  | received {s'} (h : BlockHeader) (x : BlockExecution)
      (hok : s.receiveBlock P h x = .ok s') :
      NextBlock P s s'.header.getNewProtocolFeatureActivations s'
  | produced {s'} (when : BlockTimestamp) (confirmed : Nat)
      (newProtocolFeatureActivations : List DigestType) (transactionMroot actionMroot : DigestType)
      (newProducers : Option ProducerScheduleType) (x : BlockExecution)
      (hok : s.produceBlock P when confirmed newProtocolFeatureActivations transactionMroot
        actionMroot newProducers x = .ok s') :
      NextBlock P s newProtocolFeatureActivations s'

/-- The node at the start of the chain. -/
def genesis (P : Primitives) (pfs : ProtocolFeatureSet) (genesis : GenesisState) : FeatureState where
  header := genesisHeaderState P genesis
  manager := { ProtocolFeatureManager.ofSet pfs with initialized := true }

inductive Chain (P : Primitives) (pfs : ProtocolFeatureSet) (g : GenesisState) : FeatureState → Prop
  | genesis : Chain P pfs g (genesis P pfs g)
  | block {s s' new} (h : Chain P pfs g s)
      (hnext : NextBlock P s new s') : Chain P pfs g s'

def activatedDigests (s : FeatureState) : List DigestType :=
  s.protocolState.activatedProtocolFeatures.map ProtocolFeatureEntry.featureDigest

end FeatureState

/-- Each feature of a list is known, and its dependencies come before it, in the list or in the
features before the list. -/
def DependenciesBefore (pfs : ProtocolFeatureSet) : List DigestType → List DigestType → Prop
  | _, [] => True
  | earlier, d :: rest =>
    (∃ f, pfs.find? d = some f ∧ ∀ dependency ∈ f.dependencies.keys, dependency ∈ earlier) ∧
      DependenciesBefore pfs (earlier ++ [d]) rest

variable {new : List DigestType} {featureDigest : DigestType}

section Dependencies

variable {pfs : ProtocolFeatureSet} {earlier earlier' l l' : List DigestType}

theorem DependenciesBefore.mono (h : DependenciesBefore pfs earlier l) (hsub : earlier ⊆ earlier') :
    DependenciesBefore pfs earlier' l := by
  induction l generalizing earlier earlier' with
  | nil => trivial
  | cons d _ ih =>
    obtain ⟨⟨f, hf, hdeps⟩, hrest⟩ := h
    exact ⟨⟨f, hf, fun dependency hmem => hsub (hdeps dependency hmem)⟩,
      ih hrest (append_subset.mpr
        ⟨subset_append_of_subset_left _ hsub, subset_append_right _ _⟩)⟩

theorem dependenciesBefore_append : DependenciesBefore pfs earlier (l ++ l') ↔
    DependenciesBefore pfs earlier l ∧ DependenciesBefore pfs (earlier ++ l) l' := by
  induction l generalizing earlier with
  | nil => simp [DependenciesBefore]
  | cons d _ ih =>
    simp only [cons_append, DependenciesBefore, ih, and_assoc, append_assoc,
      nil_append]

theorem DependenciesBefore.split {l₁ l₂ d} (h : DependenciesBefore pfs [] (l₁ ++ d :: l₂)) :
    ∃ f, pfs.find? d = some f ∧ ∀ dependency ∈ f.dependencies.keys, dependency ∈ l₁ := by
  exact (dependenciesBefore_append.mp h).2.1

variable {now : Int} {u : Unit}

theorem isRecognized_ready {type : ExceptionType}
    (h : ProtocolFeatureSet.checkReady type (pfs.isRecognized featureDigest now) = .ok u) :
    ∃ f, pfs.find? featureDigest = some f := by
  rw [ProtocolFeatureSet.isRecognized] at h
  cases hfind : pfs.find? featureDigest with
  | none =>
    rw [hfind] at h
    cases h
  | some f => exact ⟨f, rfl⟩

theorem checkFeatures_ok {active passed} (h : pfs.checkFeatures now active passed new = .ok u) :
    (∀ d ∈ new, d ∉ active.keys) ∧ DependenciesBefore pfs (active.keys ++ passed) new := by
  induction new generalizing passed with
  | nil => exact ⟨nofun, trivial⟩
  | cons d _ ih =>
    simp only [ProtocolFeatureSet.checkFeatures, bind_eq_ok, eosAssert_eq_ok] at h
    obtain ⟨_, hready, _, hfresh, _, hdeps, hrest⟩ := h
    obtain ⟨f, hf⟩ := isRecognized_ready hready
    obtain ⟨hfreshRest, hdepsRest⟩ := ih hrest
    refine ⟨forall_mem_cons.mpr ⟨hfresh, hfreshRest⟩, ⟨f, hf, ?_⟩, ?_⟩
    · rw [ProtocolFeatureSet.validateDependencies, hf] at hdeps
      intro dependency hmem
      exact mem_append.mpr (of_decide_eq_true (all_eq_true.mp hdeps dependency hmem))
    · rw [append_assoc]
      exact hdepsRest

end Dependencies

section Activation

variable {pfs : ProtocolFeatureSet} {handlers : BuiltinProtocolFeature → Fallible Unit}
  {blockNum : Nat}

structure ActivationLoop.Passed (pre : List DigestType) (m : ProtocolFeatureManager) (blockNum : Nat)
    (done : List DigestType) (st : ActivationLoop) : Prop where
  find?_iff : ∀ d activated, st.activatedProtocolFeatures.find? d = some activated ↔
    (activated = true ∧ d ∈ done) ∨ (activated = false ∧ d ∈ pre ∧ d ∉ done)
  count_eq : st.numPreactivatedFeaturesThatHaveActivated = (done.filter (· ∈ pre)).length
  nodup : done.Nodup
  required : ∀ d ∈ done, ∀ f, m.protocolFeatureSet.find? d = some f →
    f.preactivationRequired = true → d ∈ pre
  set_eq : st.manager.protocolFeatureSet = m.protocolFeatureSet
  activated_eq : st.manager.activatedProtocolFeatures =
    m.activatedProtocolFeatures ++ done.map fun d => ⟨d, blockNum⟩

theorem ActivationLoop.passed_start (pre : List DigestType) (m : ProtocolFeatureManager) :
    ActivationLoop.Passed pre m blockNum []
      { activatedProtocolFeatures := insertAll .empty (pre.map fun d => (d, false))
        manager := m } := by
  refine ⟨fun d activated => ?_, rfl, .nil, nofun, rfl, (append_nil _).symm⟩
  rw [find?_insertAll_map]
  by_cases hd : d ∈ pre <;> simp [hd]

variable {pre done : List DigestType} {m : ProtocolFeatureManager} {st : ActivationLoop}

variable {st' : ActivationLoop} {d : DigestType} {f : ProtocolFeature}

theorem ActivationLoop.Passed.mark (h : ActivationLoop.Passed pre m blockNum done st)
    (hok : st.mark d f = .ok st') :
    d ∉ done ∧ st'.activatedProtocolFeatures = st.activatedProtocolFeatures.insert d true ∧
      st'.manager = st.manager ∧
      ((d ∈ pre ∧ st'.numPreactivatedFeaturesThatHaveActivated =
          st.numPreactivatedFeaturesThatHaveActivated + 1) ∨
        (d ∉ pre ∧ f.preactivationRequired = false ∧ st'.numPreactivatedFeaturesThatHaveActivated =
          st.numPreactivatedFeaturesThatHaveActivated)) := by
  rw [ActivationLoop.mark] at hok
  split at hok
  · rename_i hnone
    simp only [bind_eq_ok, eosAssert_eq_ok] at hok
    obtain ⟨_, hrequired, hok⟩ := hok
    cases hok
    have hdone : d ∉ done := fun hmem =>
      absurd ((h.find?_iff d true).mpr (.inl ⟨rfl, hmem⟩)) (hnone ▸ (Option.some_ne_none _).symm)
    have hpre : d ∉ pre := fun hmem =>
      absurd ((h.find?_iff d false).mpr (.inr ⟨rfl, hmem, hdone⟩))
        (hnone ▸ (Option.some_ne_none _).symm)
    exact ⟨hdone, rfl, rfl, .inr ⟨hpre, hrequired, rfl⟩⟩
  · rename_i hsome
    simp only [bind_eq_ok, eosAssert_eq_ok] at hok
    obtain ⟨_, rfl, hok⟩ := hok
    cases hok
    cases (h.find?_iff d false).mp hsome with
    | inl htrue => cases htrue.1
    | inr hfalse => exact ⟨hfalse.2.2, rfl, rfl, .inl ⟨hfalse.2.1, rfl⟩⟩

theorem getProtocolFeature_ok
    (h : pfs.getProtocolFeature featureDigest = .ok f) : pfs.find? featureDigest = some f := by
  rw [ProtocolFeatureSet.getProtocolFeature] at h
  split at h
  · cases h
  · rename_i hf
    cases h
    exact hf

section

variable (h : ActivationLoop.Passed pre m blockNum done st)
include h

theorem ActivationLoop.Passed.activate (hok : st.activate handlers blockNum d = .ok st') :
    ActivationLoop.Passed pre m blockNum (done ++ [d]) st' := by
  simp only [ActivationLoop.activate, bind_eq_ok] at hok
  obtain ⟨f, hf, _, hmark, _, -, manager, hactivate, hok⟩ := hok
  cases hok
  obtain ⟨hnew, hmap, hmanager, hcases⟩ := h.mark hmark
  have hf' := h.set_eq ▸ getProtocolFeature_ok hf
  rw [hmanager] at hactivate
  obtain ⟨-, -, -, -, -, -, -, rfl⟩ :=
    ProtocolFeatureManager.activateFeature_ok.mp hactivate
  refine ⟨fun d' activated => ?_, ?_, ?_, ?_, h.set_eq, ?_⟩
  · rw [hmap, find?_insert]
    by_cases hd : d = d'
    · subst hd
      cases activated <;> simp
    · rw [if_neg hd, h.find?_iff]
      simp [Ne.symm hd]
  · cases hcases with
    | inl hpre => simp [hpre.2, h.count_eq, hpre.1]
    | inr hother => simp [hother.2.2, h.count_eq, hother.1]
  · exact nodup_append.mpr ⟨h.nodup, nodup_singleton d, fun a ha b hb =>
      mem_singleton.mp hb ▸ ne_of_mem_of_not_mem ha hnew⟩
  · intro d' hd' f' hfind hrequired
    cases mem_append.mp hd' with
    | inl hold => exact h.required d' hold f' hfind hrequired
    | inr hlast =>
      cases mem_singleton.mp hlast
      cases hf'.symm.trans hfind
      cases hcases with
      | inl hpre => exact hpre.1
      | inr hother => exact absurd (hrequired.symm.trans hother.2.1) (by decide)
  · change st.manager.activatedProtocolFeatures ++ [⟨d, blockNum⟩] = _
    rw [h.activated_eq, map_append, append_assoc]
    rfl

theorem ActivationLoop.Passed.run
    (hok : new.foldlM (ActivationLoop.activate handlers blockNum) st = .ok st') :
    ActivationLoop.Passed pre m blockNum (done ++ new) st' := by
  induction new generalizing done st with
  | nil =>
    cases hok
    rw [append_nil]
    exact h
  | cons d _ ih =>
    obtain ⟨_, hfirst, hrest⟩ := foldlM_cons_ok.mp hok
    rw [append_cons]
    exact ih (h.activate hfirst) hrest

theorem ActivationLoop.Passed.complete
    (hcount : pre.length = 0 ∨ st.numPreactivatedFeaturesThatHaveActivated = pre.length) :
    pre ⊆ done := by
  cases hcount with
  | inl hzero =>
    rw [length_eq_zero_iff.mp hzero]
    exact nil_subset _
  | inr hcount =>
    have hsub : done.filter (· ∈ pre) ⊆ pre := fun d hd => of_decide_eq_true (mem_filter.mp hd).2
    have hperm := (List.Nodup.subperm (h.nodup.filter _) hsub).perm_of_length_le
      (hcount.symm.trans h.count_eq).le
    exact fun d hd => mem_of_mem_filter (hperm.mem_iff.mpr hd)

end

theorem activateFeatures_ok {pso result}
    (hok : activateFeatures handlers blockNum new pso m = .ok result) :
    result.1 = ⟨pso.activatedProtocolFeatures ++ new.map fun d => ⟨d, blockNum⟩, []⟩ ∧
      result.2.protocolFeatureSet = m.protocolFeatureSet ∧
      result.2.activatedProtocolFeatures =
        m.activatedProtocolFeatures ++ (new.map fun d => ⟨d, blockNum⟩) ∧
      new.Nodup ∧ pso.preactivatedProtocolFeatures ⊆ new ∧
      ∀ d ∈ new, ∀ f, m.protocolFeatureSet.find? d = some f → f.preactivationRequired = true →
        d ∈ pso.preactivatedProtocolFeatures := by
  rw [activateFeatures] at hok
  split at hok
  · simp only [bind_eq_ok, eosAssert_eq_ok] at hok
    obtain ⟨_, hloop, _, hcount, hok⟩ := hok
    cases hok
    have hpassed := (ActivationLoop.passed_start pso.preactivatedProtocolFeatures m).run hloop
    exact ⟨rfl, hpassed.set_eq, hpassed.activated_eq, hpassed.nodup, hpassed.complete hcount,
      hpassed.required⟩
  · rename_i hempty
    simp only [bind_eq_ok, eosAssert_eq_ok] at hok
    obtain ⟨_, hnone, hok⟩ := hok
    cases hok
    cases eq_nil_of_length_eq_zero (Nat.eq_zero_of_not_pos hempty)
    have hpre := eq_nil_of_length_eq_zero hnone
    refine ⟨?_, rfl, (append_nil _).symm, .nil, ?_, forall_mem_nil _⟩
    · rw [map_nil, append_nil, ← hpre]
    · rw [hpre]
      exact nil_subset _

end Activation

section Transactions

variable {ctx : PreactivationContext} {pso pso' : ProtocolStateObject}

theorem preactivateFeature_ok {d : DigestType} (hok : ctx.preactivateFeature pso d = .ok pso') :
    pso' = { pso with preactivatedProtocolFeatures := pso.preactivatedProtocolFeatures ++ [d] } := by
  simp only [PreactivationContext.preactivateFeature, bind_eq_ok] at hok
  obtain ⟨_, -, _, -, _, -, _, -, hok⟩ := hok
  cases hok
  rfl

theorem foldlM_preactivateFeature_ok {calls : List DigestType}
    (hok : calls.foldlM ctx.preactivateFeature pso = .ok pso') :
    pso' = { pso with preactivatedProtocolFeatures := pso.preactivatedProtocolFeatures ++ calls } := by
  induction calls generalizing pso with
  | nil =>
    cases hok
    rw [append_nil]
  | cons d _ ih =>
    obtain ⟨_, hfirst, hrest⟩ := foldlM_cons_ok.mp hok
    cases preactivateFeature_ok hfirst
    rw [ih hrest, append_assoc]
    rfl

variable {result : ProtocolStateObject × List DigestType}

theorem FeatureTransaction.run_ok {t : FeatureTransaction} (hok : t.run ctx pso = .ok result) :
    result.1 = { pso with
      preactivatedProtocolFeatures := pso.preactivatedProtocolFeatures ++ result.2 } := by
  rw [FeatureTransaction.run] at hok
  split at hok
  · rename_i hcalls
    split at hok
    · cases hok
      rw [append_nil]
    · cases hok
      exact foldlM_preactivateFeature_ok hcalls
  · split at hok
    · cases hok
    · cases hok
      rw [append_nil]

theorem runTransactions_ok {transactions : List FeatureTransaction}
    (hok : runTransactions ctx pso transactions = .ok result) : result.1 = { pso with
      preactivatedProtocolFeatures := pso.preactivatedProtocolFeatures ++ result.2 } := by
  induction transactions generalizing pso result with
  | nil =>
    cases hok
    rw [append_nil]
  | cons t _ ih =>
    simp only [runTransactions, bind_eq_ok] at hok
    obtain ⟨_, hfirst, _, hlater, hok⟩ := hok
    cases hok
    have hrest := ih hlater
    rw [FeatureTransaction.run_ok hfirst] at hrest
    rw [hrest, append_assoc]

end Transactions

section Headers

variable {P : Primitives} {validator : FeatureValidator} {p : PendingBlockHeaderState}
  {h : BlockHeader} {s s' : BlockHeaderState}

theorem mem_protocolFeatureActivationSet {orig result additional}
    (hok : protocolFeatureActivationSet orig additional = .ok result) (d : DigestType) :
    d ∈ result.keys ↔ d ∈ orig.keys ∨ d ∈ additional := by
  simp only [protocolFeatureActivationSet, bind_eq_ok] at hok
  obtain ⟨_, -, hok⟩ := hok
  cases hok
  have hfold : additional.foldl (fun s d => s.insert d ()) orig =
      orig.insertAll (additional.map fun d => (d, ())) := by
    rw [insertAll, foldl_map]
  rw [hfold, mem_keys_iff, mem_keys_iff, find?_insertAll_map]
  by_cases hd : d ∈ additional <;> simp [hd]

theorem finishNext_features (hok : p.finishNext P validator h = .ok s') :
    (∀ d, d ∈ s'.activatedProtocolFeatures.keys ↔
      d ∈ p.prevActivatedProtocolFeatures.keys ∨ d ∈ s'.getNewProtocolFeatureActivations) ∧
      s'.blockNum = p.blockNum ∧
      (s'.getNewProtocolFeatureActivations = [] ∨ validator p.timestamp
        p.prevActivatedProtocolFeatures s'.getNewProtocolFeatureActivations = .ok ()) := by
  simp only [PendingBlockHeaderState.finishNext, bind_eq_ok] at hok
  obtain ⟨_, -, exts, -, _, hfeatures, hok⟩ := hok
  cases hok
  cases exts with
  | nil =>
    cases hfeatures
    exact ⟨fun d => by simp [BlockHeaderState.getNewProtocolFeatureActivations], rfl, .inl rfl⟩
  | cons =>
    simp only [PendingBlockHeaderState.activateFeatures, bind_eq_ok] at hfeatures
    obtain ⟨_, hvalid, hset⟩ := hfeatures
    exact ⟨mem_protocolFeatureActivationSet hset, rfl, .inr hvalid⟩

def Primitives.UnpacksFeatures (P : Primitives) : Prop :=
  ∀ l r, P.unpackProtocolFeatures (P.packProtocolFeatures l) = .ok r → r = l

theorem finishNext_makeBlockHeader (hP : P.UnpacksFeatures) {transactionMroot actionMroot : DigestType}
    {newProducers : Option ProducerScheduleType} (hok : p.finishNext P validator
      (p.makeBlockHeader P transactionMroot actionMroot newProducers new) = .ok s') :
    s'.getNewProtocolFeatureActivations = new := by
  simp only [PendingBlockHeaderState.finishNext, bind_eq_ok] at hok
  obtain ⟨_, -, _, hexts, _, -, hok⟩ := hok
  cases hok
  rw [BlockHeader.validateAndExtractHeaderExtensions, PendingBlockHeaderState.makeBlockHeader] at hexts
  cases new with
  | nil =>
    cases hexts
    rfl
  | cons d rest =>
    have hlength : 0 < (d :: rest).length := Nat.succ_pos _
    simp only [if_pos hlength, BlockHeader.extractExtensions, if_true, bind_eq_ok,
      ProtocolFeatureActivation.unpack] at hexts
    obtain ⟨_, -, _, ⟨r, hunpack, _, -, hactivation⟩, _, -, _, -, hexts⟩ := hexts
    cases hactivation
    cases hexts
    exact hP _ _ hunpack

theorem prevActivatedProtocolFeatures_of_next {when confirmed}
    (hok : s.next P when confirmed = .ok p) :
    p.prevActivatedProtocolFeatures = s.activatedProtocolFeatures := by
  obtain ⟨-, -, -, -, rfl⟩ := next_ok hok
  rfl

end Headers

namespace FeatureState

variable {P : Primitives} {pfs : ProtocolFeatureSet} {g : GenesisState} {s s' : FeatureState}
  {new : List DigestType}

structure Activates (pfs : ProtocolFeatureSet) (s : FeatureState) (new : List DigestType)
    (s' : FeatureState) : Prop where
  activated_eq : s'.protocolState.activatedProtocolFeatures =
    s.protocolState.activatedProtocolFeatures ++ new.map fun d => ⟨d, s'.header.blockNum⟩
  nodup : new.Nodup
  fresh : ∀ d ∈ new, d ∉ s.header.activatedProtocolFeatures.keys
  dependencies : DependenciesBefore pfs s.header.activatedProtocolFeatures.keys new
  /-- A feature that requires it was preactivated. -/
  required : ∀ d ∈ new, ∀ f, pfs.find? d = some f → f.preactivationRequired = true →
    d ∈ s.protocolState.preactivatedProtocolFeatures
  /-- All preactivated features are activated. -/
  complete : s.protocolState.preactivatedProtocolFeatures ⊆ new
  preactivated_eq : s'.protocolState.preactivatedProtocolFeatures = s'.preactivated
  header_iff : ∀ d, d ∈ s'.header.activatedProtocolFeatures.keys ↔
    d ∈ s.header.activatedProtocolFeatures.keys ∨ d ∈ new
  manager_eq : s'.manager.activatedProtocolFeatures =
    s.manager.activatedProtocolFeatures ++ new.map fun d => ⟨d, s'.header.blockNum⟩
  set_eq : s'.manager.protocolFeatureSet = s.manager.protocolFeatureSet

theorem execute_activates {p isProducingBlock x applied header} (hok : s.execute p new isProducingBlock x = .ok applied)
    (hnum : header.blockNum = p.blockNum)
    (hheader : ∀ d, d ∈ header.activatedProtocolFeatures.keys ↔
      d ∈ s.header.activatedProtocolFeatures.keys ∨ d ∈ new)
    (hcheck : (∀ d ∈ new, d ∉ s.header.activatedProtocolFeatures.keys) ∧
      DependenciesBefore s.manager.protocolFeatureSet s.header.activatedProtocolFeatures.keys new) :
    Activates s.manager.protocolFeatureSet s new ⟨header, applied.2.1, applied.1, applied.2.2⟩ := by
  simp only [execute, bind_eq_ok] at hok
  obtain ⟨_, hstart, _, hrun, hok⟩ := hok
  cases hok
  obtain ⟨hpso, hset, hmanager, hnodup, hcomplete, hrequired⟩ := activateFeatures_ok hstart
  have hfinished := runTransactions_ok hrun
  rw [hpso, ← hnum] at hfinished
  rw [← hnum] at hmanager
  refine ⟨?_, hnodup, hcheck.1, hcheck.2, hrequired, hcomplete, ?_, hheader, hmanager, hset⟩
  · exact congrArg ProtocolStateObject.activatedProtocolFeatures hfinished
  · exact congrArg ProtocolStateObject.preactivatedProtocolFeatures hfinished

theorem checked_of_ok (timestamp : BlockTimestamp) {active : FlatSet}
    (h : new = [] ∨ pfs.checkProtocolFeatures timestamp active new = .ok ()) :
    (∀ d ∈ new, d ∉ active.keys) ∧ DependenciesBefore pfs active.keys new := by
  cases h with
  | inl hnil =>
    cases hnil
    exact ⟨nofun, trivial⟩
  | inr hok =>
    obtain ⟨hfresh, hdeps⟩ := checkFeatures_ok hok
    rw [append_nil] at hdeps
    exact ⟨hfresh, hdeps⟩

theorem NextBlock.activates (hP : P.UnpacksFeatures) (h : NextBlock P s new s') :
    Activates s.manager.protocolFeatureSet s new s' := by
  cases h with
  | received h x hok =>
    simp only [receiveBlock, bind_eq_ok] at hok
    obtain ⟨p, hnext, header, hfinish, applied, hexecute, hok⟩ := hok
    cases hok
    obtain ⟨hheader, hnum, hvalid⟩ := finishNext_features hfinish
    rw [prevActivatedProtocolFeatures_of_next hnext] at hheader hvalid
    exact execute_activates hexecute hnum hheader (checked_of_ok p.timestamp hvalid)
  | produced _ _ _ _ _ _ x hok =>
    simp only [produceBlock, bind_eq_ok] at hok
    obtain ⟨_, hvalid, p, hnext, _, hexecute, header, hfinish, hok⟩ := hok
    cases hok
    obtain ⟨hheader, hnum, -⟩ := finishNext_features hfinish
    rw [prevActivatedProtocolFeatures_of_next hnext, finishNext_makeBlockHeader hP hfinish] at hheader
    refine execute_activates hexecute hnum hheader (checked_of_ok s.header.header.timestamp ?_)
    rw [validateProtocolFeatures] at hvalid
    split at hvalid
    · exact .inr hvalid
    · rename_i hempty
      exact .inl (eq_nil_of_length_eq_zero (Nat.eq_zero_of_not_pos hempty))

/-- What holds of a node along a chain. -/
structure Lawful (pfs : ProtocolFeatureSet) (s : FeatureState) : Prop where
  nodup : s.activatedDigests.Nodup
  dependencies : DependenciesBefore pfs [] s.activatedDigests
  preactivated_eq : s.protocolState.preactivatedProtocolFeatures = s.preactivated
  header_iff : ∀ d, d ∈ s.header.activatedProtocolFeatures.keys ↔ d ∈ s.activatedDigests
  manager_eq : s.manager.activatedProtocolFeatures = s.protocolState.activatedProtocolFeatures
  set_eq : s.manager.protocolFeatureSet = pfs

theorem lawful_genesis : Lawful pfs (genesis P pfs g) :=
  ⟨.nil, trivial, rfl, fun _ => Iff.rfl, rfl, rfl⟩

theorem Lawful.next (h : Lawful pfs s) (ha : Activates pfs s new s') : Lawful pfs s' := by
  have hdigests : s'.activatedDigests = s.activatedDigests ++ new := by
    rw [activatedDigests, ha.activated_eq, map_append, map_map]
    exact congrArg (s.activatedDigests ++ ·) (map_id _)
  refine ⟨?_, ?_, ha.preactivated_eq, fun d => ?_, ?_, ha.set_eq.trans h.set_eq⟩
  · rw [hdigests, nodup_append]
    exact ⟨h.nodup, ha.nodup, fun d hd d' hd' heq =>
      ha.fresh d' hd' ((h.header_iff d').mpr (heq ▸ hd))⟩
  · rw [hdigests, dependenciesBefore_append]
    exact ⟨h.dependencies, ha.dependencies.mono fun d hd => (h.header_iff d).mp hd⟩
  · rw [ha.header_iff, h.header_iff, hdigests, mem_append]
  · rw [ha.manager_eq, ha.activated_eq, h.manager_eq]

theorem Chain.lawful (hP : P.UnpacksFeatures) (h : Chain P pfs g s) : Lawful pfs s := by
  induction h with
  | genesis => exact lawful_genesis
  | block _ hnext ih => exact ih.next (ih.set_eq ▸ hnext.activates hP)

end FeatureState

/-- Along every chain the activated features are distinct and come after their dependencies. A
block activates the features preactivated in its parent, and a feature that requires it only if
it was preactivated there. -/
theorem feature_activation_lawful {P : Primitives} {pfs : ProtocolFeatureSet} {g : GenesisState}
    {s s' : FeatureState} {new : List DigestType} (hP : P.UnpacksFeatures)
    (h : FeatureState.Chain P pfs g s) (hnext : s.NextBlock P new s') :
    s'.protocolState.activatedProtocolFeatures =
        s.protocolState.activatedProtocolFeatures ++ (new.map fun d => ⟨d, s'.header.blockNum⟩) ∧
      s'.activatedDigests.Nodup ∧
      (∀ l₁ d l₂, s'.activatedDigests = l₁ ++ d :: l₂ → ∃ f, pfs.find? d = some f ∧
        ∀ dependency ∈ f.dependencies.keys, dependency ∈ l₁) ∧
      (∀ d ∈ new, ∀ f, pfs.find? d = some f → f.preactivationRequired = true →
        d ∈ s.protocolState.preactivatedProtocolFeatures) ∧
      s.protocolState.preactivatedProtocolFeatures = s.preactivated ∧
      (∀ d ∈ s.preactivated, d ∈ new) ∧
      (∀ d, d ∈ s'.header.activatedProtocolFeatures.keys ↔ d ∈ s'.activatedDigests) ∧
      s'.manager.activatedProtocolFeatures = s'.protocolState.activatedProtocolFeatures := by
  have hlawful := h.lawful hP
  have ha := hlawful.set_eq ▸ hnext.activates hP
  have hlawful' := hlawful.next ha
  refine ⟨ha.activated_eq, hlawful'.nodup, fun l₁ d l₂ heq => ?_, ha.required,
    hlawful.preactivated_eq, fun d hd => ?_, hlawful'.header_iff, hlawful'.manager_eq⟩
  · have hdeps := hlawful'.dependencies
    rw [heq] at hdeps
    exact hdeps.split
  · rw [← hlawful.preactivated_eq] at hd
    exact ha.complete hd

def guardedFeature : DigestType := { hash0 := 1 }

def guardedFeatures : ProtocolFeatureSet where
  recognizedProtocolFeatures := empty.insert guardedFeature
    { preactivationRequired := true, enabled := true, builtinFeature := some .preactivateFeature }
  recognizedBuiltinProtocolFeatures := [some guardedFeature]

/-- The codec knows the list of this feature alone. -/
def guardedPrimitives : Primitives :=
  { runPrimitives with
    packProtocolFeatures := fun l => if l = [guardedFeature] then [1] else []
    unpackProtocolFeatures := fun data =>
      if data = [1] then .ok [guardedFeature] else .error ⟨.other 0, "unknown data"⟩ }

theorem guardedPrimitives_unpacks : guardedPrimitives.UnpacksFeatures := by
  intro l r h
  by_cases hl : l = [guardedFeature]
  · subst hl
    cases h
    rfl
  · simp [guardedPrimitives, hl] at h

/-- The feature is preactivated in one block and activated in the next. -/
theorem feature_activation_guarded : ∃ s s', FeatureState.Chain guardedPrimitives guardedFeatures {} s ∧
    s.NextBlock guardedPrimitives [guardedFeature] s' ∧ s.preactivated = [guardedFeature] ∧
    s'.activatedDigests.Nodup ∧
    (∀ d ∈ s.preactivated, d ∈ [guardedFeature]) := by
  let s₁ := FeatureState.genesis guardedPrimitives guardedFeatures {}
  obtain ⟨s, hs, hpre, s', hs'⟩ : ∃ s, s₁.produceBlock guardedPrimitives ⟨1⟩ 0 [] {} {} none
      { transactions := [{ calls := [guardedFeature] }] } = .ok s ∧
        s.preactivated = [guardedFeature] ∧ ∃ s',
          s.produceBlock guardedPrimitives ⟨2⟩ 0 [guardedFeature] {} {} none {} = .ok s' := by
    decide +kernel
  have hchain : FeatureState.Chain guardedPrimitives guardedFeatures {} s :=
    .block .genesis (.produced _ _ _ _ _ _ _ hs)
  have hnext : s.NextBlock guardedPrimitives [guardedFeature] s' := .produced _ _ _ _ _ _ _ hs'
  obtain ⟨-, hnodup, -, -, -, hall, -⟩ :=
    feature_activation_lawful guardedPrimitives_unpacks hchain hnext
  exact ⟨s, s', hchain, hnext, hpre, hnodup, hall⟩

end DreamChain
