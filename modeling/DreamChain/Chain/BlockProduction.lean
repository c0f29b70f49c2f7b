import DreamChain.Chain.HeaderChain

/-!
Production of blocks on top of a header state: `start_block` asks for the next pending
state, the header is made from that state, and the same checks run on it as on a
received one. A produced header therefore satisfies every comparison with the pending
state; what can still fail is the slot, the double-confirm check, the new schedule and
the features.

Chains built here are chains in the sense of `HeaderChain`, so concrete runs can be
evaluated and then used as chains.
-/

namespace DreamChain
open Library PendingBlockHeaderState List

structure BlockInputs where
  when : BlockTimestamp := {}
  confirmed : Nat := 0
  transactionMroot : DigestType := {}
  actionMroot : DigestType := {}
  newProducers : Option ProducerScheduleType := none
  newProtocolFeatureActivations : List DigestType := []
deriving DecidableEq, Inhabited

def BlockInputs.WellTyped (i : BlockInputs) : Prop := i.when.slot < 2 ^ 32 ∧ i.confirmed < 2 ^ 16

instance (i : BlockInputs) : Decidable i.WellTyped :=
  inferInstanceAs (Decidable (_ ∧ _))

def PendingBlockHeaderState.header (P : Primitives) (p : PendingBlockHeaderState)
    (i : BlockInputs) : BlockHeader :=
  p.makeBlockHeader P i.transactionMroot i.actionMroot i.newProducers
    i.newProtocolFeatureActivations

namespace BlockHeaderState

def produce (P : Primitives) (validator : FeatureValidator) (s : BlockHeaderState)
    (i : BlockInputs) : Fallible BlockHeaderState := do
  let pending ← s.next P i.when i.confirmed
  pending.finishNext P validator (pending.header P i)

/-- Produces one block per element and collects the links, newest first. -/
def produceAll (P : Primitives) (validator : FeatureValidator) :
    List Link → BlockHeaderState → List BlockInputs → Fallible (List Link × BlockHeaderState)
  | links, s, [] => .ok (links, s)
  | links, s, i :: rest => do
    let s' ← s.produce P validator i
    produceAll P validator (⟨s, s'⟩ :: links) s' rest

end BlockHeaderState

/-- Digests that keep the blocks of a short run apart. -/
def runPrimitives : Primitives where
  headerDigest h := ⟨h.previous.hash1, h.timestamp.slot, h.producer, h.confirmed⟩
  scheduleDigest s := ⟨s.version, s.producers.length, 0, 0⟩
  pairDigest a b := ⟨a.hash0, a.hash1, b.hash0, b.hash1⟩
  packProtocolFeatures _ := []
  unpackProtocolFeatures _ := .ok []

variable {P : Primitives} {validator : FeatureValidator} {s s' : BlockHeaderState}
  {i : BlockInputs}

theorem produce_extends (hi : i.WellTyped) (h : s.produce P validator i = .ok s') :
    Extends P s s' := by
  simp only [BlockHeaderState.produce, bind_eq_ok] at h
  obtain ⟨pending, hnext, hfinish⟩ := h
  exact ⟨i.when, i.confirmed, validator, pending, _, hi.1, hi.2, hnext, hfinish⟩

variable {inputs : List BlockInputs} {links links' : List Link} {tip : BlockHeaderState}

theorem produceAll_chain {genesis : GenesisState} (hs : HeaderChain P genesis links s)
    (hinputs : ∀ i ∈ inputs, i.WellTyped)
    (h : s.produceAll P validator links inputs = .ok (links', tip)) :
    HeaderChain P genesis links' tip := by
  induction inputs generalizing links s with
  | nil =>
    cases h
    exact hs
  | cons i rest ih =>
    simp only [BlockHeaderState.produceAll, bind_eq_ok] at h
    obtain ⟨s', hproduce, hrest⟩ := h
    have hstep := produce_extends (hinputs i mem_cons_self) hproduce
    exact ih (.extend hs hstep) (fun j hj => hinputs j (mem_cons_of_mem _ hj)) hrest

theorem produce_newProducers (h : s.produce P validator i = .ok s') :
    s'.header.newProducers = i.newProducers := by
  simp only [BlockHeaderState.produce, bind_eq_ok] at h
  obtain ⟨pending, _, hfinish⟩ := h
  rw [(finishNext_ok hfinish).2.2.1]
  rfl

theorem produceAll_schedulesValid (hlinks : SchedulesValid links)
    (hinputs : ∀ i ∈ inputs, ∀ schedule ∈ i.newProducers, schedule.Valid)
    (h : s.produceAll P validator links inputs = .ok (links', tip)) :
    SchedulesValid links' ∧ links'.length = links.length + inputs.length := by
  induction inputs generalizing links s with
  | nil =>
    cases h
    exact ⟨hlinks, rfl⟩
  | cons i rest ih =>
    simp only [BlockHeaderState.produceAll, bind_eq_ok] at h
    obtain ⟨s', hproduce, hrest⟩ := h
    have hvalid : SchedulesValid (⟨s, s'⟩ :: links) := by
      refine schedulesValid_cons.mpr ⟨?_, hlinks⟩
      intro schedule hsome
      rw [produce_newProducers hproduce] at hsome
      exact hinputs i mem_cons_self schedule hsome
    have htail := ih hvalid (fun j hj => hinputs j (mem_cons_of_mem _ hj)) hrest
    rw [length_cons] at htail
    rw [length_cons]
    exact ⟨htail.1, by omega⟩

/-- Blocks produced on top of a genesis state without further validation of features. -/
def runFromGenesis (inputs : List BlockInputs) : Fallible (List Link × BlockHeaderState) :=
  (genesisHeaderState runPrimitives {}).produceAll runPrimitives (fun _ _ _ => .ok ()) [] inputs

/-- A run that can be evaluated is a chain with what the evaluation shows of its links. -/
theorem exists_run (inputs : List BlockInputs) (p : List Link → Prop)
    (hinputs : ∀ i ∈ inputs, i.WellTyped ∧ ∀ schedule ∈ i.newProducers, schedule.Valid)
    (h : ∃ r, runFromGenesis inputs = .ok r ∧ p r.1) :
    ∃ links tip, HeaderChain runPrimitives {} links tip ∧ SchedulesValid links ∧
      links.length = inputs.length ∧ p links := by
  obtain ⟨⟨links, tip⟩, hrun, hp⟩ := h
  have hchain := produceAll_chain .genesis (fun i hi => (hinputs i hi).1) hrun
  obtain ⟨hvalid, hlength⟩ := produceAll_schedulesValid schedulesValid_nil
    (fun i hi => (hinputs i hi).2) hrun
  rw [length_nil, Nat.zero_add] at hlength
  exact ⟨links, tip, hchain, hvalid, hlength, hp⟩

theorem checkHeader_header (p : PendingBlockHeaderState)
    (hnew : ∀ newProducers, i.newProducers = some newProducers →
      p.checkNewProducers newProducers = .ok ()) : p.checkHeader (p.header P i) = .ok () := by
  simp only [checkHeader, header,
    makeBlockHeader]
  cases hi : i.newProducers with
  | none => rfl
  | some newProducers => exact hnew newProducers hi

theorem finishNext_header (validator : FeatureValidator) (p : PendingBlockHeaderState)
    (hnew : ∀ newProducers, i.newProducers = some newProducers →
      p.checkNewProducers newProducers = .ok ())
    (hfeatures : i.newProtocolFeatureActivations = []) :
    ∃ s', p.finishNext P validator (p.header P i) = .ok s' ∧ s'.header = p.header P i := by
  have hexts : (p.header P i).validateAndExtractHeaderExtensions P = .ok [] := by
    simp only [header,
      hfeatures]
    rfl
  cases hfinish : p.finishNext P validator (p.header P i) with
  | ok s' => exact ⟨s', rfl, (finishNext_ok hfinish).2.2.1⟩
  | error e =>
    simp only [finishNext, checkHeader_header p hnew, hexts] at hfinish
    cases hfinish

theorem exists_extends (hi : i.WellTyped) {t : BlockTimestamp} {prokey : ProducerKey}
    (ht : s.nextTimestamp i.when = .ok t) (hprokey : s.getScheduledProducer t = some prokey)
    (hcheck : s.checkDoubleConfirm prokey.producerName i.confirmed = .ok ())
    (hnew : ∀ newProducers, i.newProducers = some newProducers →
      (s.nextPending P prokey t i.confirmed).checkNewProducers newProducers = .ok ())
    (hfeatures : i.newProtocolFeatureActivations = []) :
    ∃ s', Extends P s s' ∧ s'.header.producer = prokey.producerName ∧
      s'.header.confirmed = i.confirmed ∧ s'.header.newProducers = i.newProducers := by
  obtain ⟨s', hfinish, hheader⟩ := finishNext_header (fun _ _ _ => .ok ())
    (s.nextPending P prokey t i.confirmed) hnew hfeatures
  have hnext : s.next P i.when i.confirmed = .ok (s.nextPending P prokey t i.confirmed) := by
    simp only [BlockHeaderState.next, ht, bind, Except.bind, hprokey, hcheck]
    rfl
  refine ⟨s', ⟨i.when, i.confirmed, _, _, _, hi.1, hi.2, hnext, hfinish⟩, ?_⟩
  rw [hheader]
  exact ⟨rfl, rfl, rfl⟩

end DreamChain
