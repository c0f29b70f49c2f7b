import DreamChain.Chain.BlockOrigin
import DreamChain.Chain.ForkSwitch
import DreamChain.Library.Run

/-!
The producer plugin on top of a controller: production rounds, incoming blocks, and the watermark
of each configured producer, which keeps the node from signing twice in its name. Clocks, pauses
and what makes the chain refuse to start a block are given with each round. Transactions and
timers are left out: a block may be produced, aborted or superseded at any time.
-/

namespace DreamChain
open Library FlatMap

inductive PendingBlockMode where
  | producing
  | speculating
deriving DecidableEq

/-- What a round finds besides the chain. The pending block time is later than that of the head
and so not the default timestamp. -/
structure Round where
  blockTime : BlockTimestamp
  blockTime_ne : blockTime ≠ {}
  productionEnabled : Bool := true
  pauseProduction : Bool := false
  irreversibleBlockTooOld : Bool := false
  headBlockTooOld : Bool := false
  startFails : Bool := false

structure ProducerPlugin (σ : Type) where
  chain : Controller σ
  producers : List AccountName
  signatureProviders : List PublicKeyType
  producerWatermarks : FlatMap AccountName Nat := .empty
  pendingBlockMode : PendingBlockMode := .speculating
  pending : Option PendingBlockHeaderState := none
  /-- The blocks added to the fork database since start-up, the latest first, each with whether
  this node produced and committed it. -/
  history : List (BlockState × Bool) := []

inductive PluginEvent where
  | incomingBlock (existing : Bool) (block : SignedBlock) (r : Round)
  | productionLoop (r : Round)
  | produceBlock (body : SignedBlock) (features : List DigestType) (r : Round)
  | abortBlock

/-- The block state for which `push_block` emits `accepted_block_header`. -/
def Controller.receivedState {σ : Type} (P : Primitives) (validator : FeatureValidator)
    (c : Controller σ) (b : SignedBlock) : Option BlockState :=
  match c.createBlockState P validator b with
  | .error _ => none
  | .ok bsp => if (c.addToForkDb bsp).2.isOk then some bsp else none

def Controller.producedState {σ : Type} (X : Execution σ) (P : Primitives)
    (validator : FeatureValidator) (c : Controller σ) (block : SignedBlock) : Option BlockState :=
  match c.completeBlock P validator block with
  | .error _ => none
  | .ok bsp => if (X.run c.db.state bsp).isOk ∧ (c.addToForkDb bsp).2.isOk then some bsp else none

namespace ProducerPlugin

variable {σ : Type} (X : Execution σ) (P : Primitives) (validator : FeatureValidator)
  (p : ProducerPlugin σ)

def considerNewWatermark (producer : AccountName) (blockNum : Nat) : ProducerPlugin σ :=
  { p with producerWatermarks :=
      match p.producerWatermarks.find? producer with
      | some watermark => p.producerWatermarks.insert producer (max watermark blockNum)
      | none =>
        if producer ∈ p.producers then p.producerWatermarks.insert producer blockNum
        else p.producerWatermarks }

def onBlockHeader (bsp : BlockState) : ProducerPlugin σ :=
  p.considerNewWatermark bsp.header.producer bsp.blockNum

def record (bsp : BlockState) (committed : Bool) : ProducerPlugin σ :=
  { p with history := (bsp, committed) :: p.history }

def blocksToConfirm (head : BlockState) (watermark : Option Nat) : Nat :=
  let unconfirmed := match watermark with
    | some watermark =>
      if watermark < head.blockNum then min 65535 (head.blockNum - watermark) else 0
    | none => 0
  min unconfirmed (subU32 head.blockNum head.dposIrreversibleBlocknum)

local instance : LawfulBEq PublicKeyType := List.instLawfulBEq

def roundMode (r : Round) (scheduled : ProducerKey) (watermark : Option Nat) : PendingBlockMode :=
  if r.productionEnabled = false then .speculating
  else if scheduled.producerName ∉ p.producers then .speculating
  else if scheduled.blockSigningKey ∉ p.signatureProviders then .speculating
  else if r.pauseProduction = true then .speculating
  else if r.irreversibleBlockTooOld = true then .speculating
  else if watermark.any fun w => u32 (p.chain.head.blockNum + 1) ≤ w then .speculating
  else .producing

/-- An empty schedule makes the source divide by zero. -/
def startBlock (r : Round) : ProducerPlugin σ :=
  if p.chain.readMode = .readOnly then p
  else
    match p.chain.head.getScheduledProducer r.blockTime with
    | none => p
    | some scheduled =>
      let watermark := p.producerWatermarks.find? scheduled.producerName
      let mode := p.roundMode r scheduled watermark
      if mode = .speculating ∧ r.headBlockTooOld = true then { p with pendingBlockMode := mode }
      else if r.startFails then { p with pendingBlockMode := mode, pending := none }
      else
        let confirmed := if mode = .producing then blocksToConfirm p.chain.head watermark else 0
        match p.chain.head.next P r.blockTime confirmed with
        | .error _ => { p with pendingBlockMode := mode, pending := none }
        | .ok pending =>
          let mode := if pending.blockSigningKey = scheduled.blockSigningKey then mode
            else .speculating
          { p with pendingBlockMode := mode, pending := some pending }

/-- A block that is already known is ignored. -/
def onIncomingBlock (existing : Bool) (b : SignedBlock) (r : Round) : ProducerPlugin σ :=
  if existing then p
  else
    let announced := match p.chain.receivedState P validator b with
      | some bsp => (p.record bsp false).onBlockHeader bsp
      | none => p
    startBlock P { announced with
      chain := (p.chain.receiveBlock X P validator b).1, pending := none } r

def assembleBlock (pending : PendingBlockHeaderState) (body : SignedBlock)
    (features : List DigestType) : SignedBlock :=
  let header := pending.makeBlockHeader P body.transactionMroot body.actionMroot body.newProducers
    features
  { body with toBlockHeader := header }

/-- `finalize_block` and `commit_block`, which announces the block once it is marked valid. -/
def signBlock (block : SignedBlock) : ProducerPlugin σ :=
  let result := p.chain.produceBlock X P validator block
  let announced := match p.chain.producedState X P validator block with
    | some bsp =>
      let recorded := p.record bsp result.2.isOk
      if ((p.chain.addToForkDb bsp).1.markValid bsp).2.isOk then recorded.onBlockHeader bsp
      else recorded
    | none => p
  { announced with chain := result.1 }

/-- Whatever becomes of the block, it is no longer pending afterwards and the loop goes on. -/
def maybeProduceBlock (body : SignedBlock) (features : List DigestType) (r : Round) :
    ProducerPlugin σ :=
  let produced := match p.pendingBlockMode, p.pending with
    | .producing, some pending =>
      if pending.blockSigningKey ∈ p.signatureProviders then
        p.signBlock X P validator (assembleBlock P pending body features)
      else p
    | _, _ => p
  startBlock P { produced with pending := none } r

def handle : PluginEvent → ProducerPlugin σ
  | .incomingBlock existing b r => p.onIncomingBlock X P validator existing b r
  | .productionLoop r => p.startBlock P r
  | .produceBlock body features r => p.maybeProduceBlock X P validator body features r
  | .abortBlock => { p with pending := none }

end ProducerPlugin

abbrev PluginRun {σ : Type} (X : Execution σ) (P : Primitives) (validator : FeatureValidator)
    (c : Controller σ) (producers : List AccountName) (signatureProviders : List PublicKeyType)
    (l : List (Transition (ProducerPlugin σ) PluginEvent)) (p : ProducerPlugin σ) : Prop :=
  Run (fun p e p' => p' = p.handle X P validator e)
    { chain := c, producers, signatureProviders } l p

/-- The numbers a block speaks for: its own and those it confirms. -/
def BlockState.confirmedRange (b : BlockState) : Finset Nat :=
  Finset.Icc (b.blockNum - b.header.confirmed) b.blockNum

/-- A block produced here is no second signature: an earlier block of its producer is outside of
its range, and if that was produced here too, its number is lower and the ranges are disjoint. -/
def NoDoubleSign (later earlier : BlockState × Bool) : Prop :=
  later.2 = true → later.1.header.producer = earlier.1.header.producer →
    earlier.1.blockNum ∉ later.1.confirmedRange ∧
      (earlier.2 = true → earlier.1.blockNum < later.1.blockNum ∧
        Disjoint earlier.1.confirmedRange later.1.confirmedRange)

theorem noDoubleSign_of_lt {later earlier : BlockState × Bool}
    (h : later.1.header.producer = earlier.1.header.producer →
      earlier.1.blockNum < later.1.blockNum - later.1.header.confirmed) :
    NoDoubleSign later earlier := by
  intro _ hproducer
  have hlt := h hproducer
  refine ⟨fun hmem => ?_, fun _ => ⟨by omega, Finset.disjoint_left.mpr fun n hn hn' => ?_⟩⟩
  · have hle := (Finset.mem_Icc.mp hmem).1
    omega
  · have hupper := (Finset.mem_Icc.mp hn).2
    have hlower := (Finset.mem_Icc.mp hn').1
    omega

variable {s : BlockHeaderState} {t : BlockTimestamp} {confirmed : Nat}
  {pending : PendingBlockHeaderState} {header : BlockHeader}

variable {P : Primitives}

theorem next_of_ne (ht : t ≠ {}) (h : s.next P t confirmed = .ok pending) :
    ∃ prokey, s.getScheduledProducer t = some prokey ∧
      pending = s.nextPending P prokey t confirmed := by
  simp only [BlockHeaderState.next, BlockHeaderState.nextTimestamp, if_pos ht, bind_eq_ok] at h
  obtain ⟨t', ⟨_, _, hsame⟩, h⟩ := h
  cases hsame
  cases hp : s.getScheduledProducer t with
  | none => simp [hp] at h
  | some prokey =>
    simp only [hp, bind_eq_ok] at h
    obtain ⟨_, _, hpending⟩ := h
    exact ⟨prokey, rfl, by cases hpending; rfl⟩

theorem finished_eq {validator : FeatureValidator}
    (h : pending.finishNext P validator header = .ok s) :
    s.blockNum = pending.blockNum ∧ s.header.producer = pending.producer ∧
      s.header.confirmed = pending.confirmed := by
  obtain ⟨hcheck, hcommon, rfl, _⟩ := PendingBlockHeaderState.finishNext_ok h
  obtain ⟨hconfirmed, hproducer, _⟩ := PendingBlockHeaderState.checkHeader_ok hcheck
  exact ⟨congrArg (·.blockNum) hcommon, hproducer, hconfirmed⟩

theorem finished_lt {validator s'} (hnext : s.next P t confirmed = .ok pending)
    (h : pending.finishNext P validator header = .ok s') : s'.blockNum < 2 ^ 32 := by
  obtain ⟨prokey, _, t', _, rfl⟩ := next_ok hnext
  rw [(finished_eq h).1]
  exact Nat.mod_lt _ (Nat.two_pow_pos 32)

namespace Controller

variable {σ : Type} {X : Execution σ} {P : Primitives} {validator : FeatureValidator}
  {c : Controller σ} {block : SignedBlock} {n : BlockState}

theorem createBlockState_lt (h : c.createBlockState P validator block = .ok n) :
    n.blockNum < 2 ^ 32 := by
  simp only [createBlockState, bind_eq_ok] at h
  obtain ⟨_, _, h⟩ := h
  split at h
  · cases h
  · simp only [BlockState.ofSigned, bind_eq_ok] at h
    obtain ⟨pending, hnext, state, hfinish, hn⟩ := h
    cases hn
    exact finished_lt hnext hfinish

theorem completeBlock_ok (h : c.completeBlock P validator block = .ok n) :
    ∃ pending, c.head.next P block.timestamp block.confirmed = .ok pending ∧
      pending.finishNext P validator block.toBlockHeader = .ok n.toBlockHeaderState := by
  simp only [completeBlock, BlockState.ofPending, bind_eq_ok] at h
  obtain ⟨pending, hnext, state, hfinish, hn⟩ := h
  cases hn
  exact ⟨pending, hnext, hfinish⟩

theorem markValid_push_isOk (db : ForkDatabase) (n : BlockState) :
    ((db.push n).markValid n).isOk = true := by
  have hfound : ((db.push n).getBlock n.id).isNone = false := by
    simp [ForkDatabase.getBlock, ForkDatabase.push]
  unfold ForkDatabase.markValid
  split
  · rfl
  · rw [hfound]
    simp only [Bool.false_eq_true, if_false]
    split <;> rfl

theorem producedState_some (h : c.producedState X P validator block = some n) :
    c.completeBlock P validator block = .ok n ∧
      ((c.addToForkDb n).1.markValid n).2.isOk = true := by
  unfold producedState at h
  split at h
  · cases h
  case h_2 bsp hcomplete =>
    split at h
    case isFalse => cases h
    case isTrue hadded =>
      cases h
      refine ⟨hcomplete, ?_⟩
      obtain ⟨e, he⟩ | hpushed := addToForkDb_cases c n
      · rw [he] at hadded
        cases hadded.2
      · have hmarked := markValid_push_isOk c.forkDb n
        rw [hpushed.2, markValid]
        split
        · rfl
        case h_2 e he =>
          rw [he] at hmarked
          cases hmarked

end Controller

namespace ProducerPlugin

variable {σ : Type} {X : Execution σ} {P : Primitives} {validator : FeatureValidator}
  {p : ProducerPlugin σ}

def Covers (p : ProducerPlugin σ) (b : BlockState) : Prop :=
  b.header.producer ∈ p.producers →
    ∃ w, p.producerWatermarks.find? b.header.producer = some w ∧ b.blockNum ≤ w

structure Watched (P : Primitives) (p : ProducerPlugin σ) : Prop where
  typed : p.chain.AllStates fun b => b.blockNum < 2 ^ 32
  covered : ∀ x ∈ p.history, p.Covers x.1
  separate : p.history.Pairwise NoDoubleSign
  ready : p.pendingBlockMode = .producing → ∀ pending, p.pending = some pending →
    p.chain.head.next P pending.timestamp pending.confirmed = .ok pending ∧
      ∀ x ∈ p.history, x.1.header.producer = pending.producer →
        x.1.blockNum < pending.blockNum - pending.confirmed

theorem covers_onBlockHeader (b : BlockState) : (p.onBlockHeader b).Covers b := by
  intro (hconfigured : b.header.producer ∈ p.producers)
  simp only [onBlockHeader, considerNewWatermark]
  split
  · exact ⟨_, find?_insert_self .., le_max_right ..⟩
  · rw [if_pos hconfigured]
    exact ⟨_, find?_insert_self .., le_rfl⟩

theorem Covers.onBlockHeader {b : BlockState} (h : p.Covers b) (b' : BlockState) :
    (p.onBlockHeader b').Covers b := by
  by_cases hsame : b'.header.producer = b.header.producer
  case neg =>
    intro hconfigured
    obtain ⟨w, hw, hle⟩ := h hconfigured
    refine ⟨w, ?_, hle⟩
    simp only [ProducerPlugin.onBlockHeader, considerNewWatermark]
    split
    · rw [find?_insert_of_ne _ _ hsame, hw]
    · split
      · rw [find?_insert_of_ne _ _ hsame, hw]
      · exact hw
  case pos =>
    intro hconfigured
    obtain ⟨w, hw, hle⟩ := h hconfigured
    refine ⟨max w b'.blockNum, ?_, hle.trans (le_max_left ..)⟩
    simp only [ProducerPlugin.onBlockHeader, considerNewWatermark, hsame, hw,
      find?_insert_self]

theorem roundMode_producing {r scheduled watermark}
    (h : p.roundMode r scheduled watermark = .producing) : scheduled.producerName ∈ p.producers ∧
      ∀ w, watermark = some w → w < u32 (p.chain.head.blockNum + 1) := by
  simp only [roundMode, ite_eq_iff, reduceCtorEq, and_false, false_or] at h
  obtain ⟨_, hconfigured, _, _, _, hfree⟩ := h
  refine ⟨not_not.mp hconfigured, fun w hw => ?_⟩
  subst hw
  simpa [Option.any_some] using hfree

theorem lt_sub_blocksToConfirm {head w} (htyped : head.blockNum < 2 ^ 32)
    (hw : w < u32 (head.blockNum + 1)) :
    w < u32 (head.blockNum + 1) - blocksToConfirm head (some w) := by
  have hconfirm : blocksToConfirm head (some w) ≤ head.blockNum - w := by
    unfold blocksToConfirm
    simp only
    split <;> omega
  simp only [u32] at hw ⊢
  omega

namespace Watched

section

variable (h : p.Watched P)
include h

/-- A round starts a block for a configured producer only above everything that the node has seen
of that producer. -/
theorem startBlock (r : Round) : (p.startBlock P r).Watched P := by
  unfold ProducerPlugin.startBlock
  split
  · exact h
  cases hscheduled : p.chain.head.getScheduledProducer r.blockTime with
  | none => exact h
  | some scheduled =>
    simp only
    split
    case isTrue hwait => exact ⟨h.typed, h.covered, h.separate, fun hmode => by simp_all⟩
    split
    · exact ⟨h.typed, h.covered, h.separate, nofun⟩
    split
    · exact ⟨h.typed, h.covered, h.separate, nofun⟩
    case h_2 pending hnext =>
      refine ⟨h.typed, h.covered, h.separate, fun hmode pending' hpending' => ?_⟩
      cases hpending'
      have hproducing : p.roundMode r scheduled
          (p.producerWatermarks.find? scheduled.producerName) = .producing := by
        split at hmode
        · exact hmode
        · cases hmode
      obtain ⟨hconfigured, hfree⟩ := roundMode_producing hproducing
      rw [if_pos hproducing] at hnext
      obtain ⟨prokey, hprokey, rfl⟩ := next_of_ne r.blockTime_ne hnext
      cases hscheduled.symm.trans hprokey
      refine ⟨hnext, fun x hx hproducer => ?_⟩
      obtain ⟨w, hw, hle⟩ := h.covered x hx (hproducer ▸ hconfigured)
      rw [hproducer] at hw
      have hlt := lt_sub_blocksToConfirm h.typed.head (hfree w hw)
      rw [← hw] at hlt
      exact hle.trans_lt hlt

theorem announce {c : Controller σ} (hc : c.AllStates fun b => b.blockNum < 2 ^ 32)
    {bsp : BlockState} {committed : Bool}
    (hnew : committed = true → ∀ x ∈ p.history, x.1.header.producer = bsp.header.producer →
      x.1.blockNum < bsp.blockNum - bsp.header.confirmed) :
    Watched P { (p.record bsp committed).onBlockHeader bsp with chain := c, pending := none } := by
  refine ⟨hc, ?_, ?_, nofun⟩
  · refine List.forall_mem_cons.mpr ⟨?_, fun x hx => ?_⟩
    · exact covers_onBlockHeader (p := p.record bsp committed) bsp
    · exact Covers.onBlockHeader (p := p.record bsp committed) (h.covered x hx) bsp
  · refine List.pairwise_cons.mpr ⟨fun x hx hcommitted => ?_, h.separate⟩
    exact noDoubleSign_of_lt (fun hsame => hnew hcommitted x hx hsame.symm) hcommitted

theorem idle {c : Controller σ} (hc : c.AllStates fun b => b.blockNum < 2 ^ 32) :
    Watched P { p with chain := c, pending := none } :=
  ⟨hc, h.covered, h.separate, nofun⟩

theorem onIncomingBlock (existing : Bool) (b : SignedBlock) (r : Round) :
    (p.onIncomingBlock X P validator existing b r).Watched P := by
  have hc : (p.chain.receiveBlock X P validator b).1.AllStates fun b => b.blockNum < 2 ^ 32 := by
    exact h.typed.receiveBlock (fun _ _ hb => hb) fun n hn => Controller.createBlockState_lt hn
  unfold ProducerPlugin.onIncomingBlock
  split
  · exact h
  · refine startBlock ?_ r
    cases p.chain.receivedState P validator b with
    | none => exact h.idle hc
    | some bsp => exact h.announce hc nofun

/-- The block that is signed has the number, the producer and the confirmations of the pending
block, which were above the watermark. -/
theorem signBlock {pending : PendingBlockHeaderState} (hmode : p.pendingBlockMode = .producing)
    (hpending : p.pending = some pending) (body : SignedBlock) (features : List DigestType) :
    Watched P { p.signBlock X P validator (assembleBlock P pending body features) with
      pending := none } := by
  obtain ⟨hnext, hfree⟩ := h.ready hmode pending hpending
  generalize hblock : assembleBlock P pending body features = block
  have hc : (p.chain.produceBlock X P validator block).1.AllStates fun b => b.blockNum < 2 ^ 32 := by
    refine h.typed.produceBlock (fun _ _ hb => hb) fun n hn => ?_
    obtain ⟨pending, hnext, hfinish⟩ := Controller.completeBlock_ok hn
    exact finished_lt hnext hfinish
  unfold ProducerPlugin.signBlock
  cases hadded : p.chain.producedState X P validator block with
  | none => exact h.idle hc
  | some bsp =>
    obtain ⟨hcomplete, hmarked⟩ := Controller.producedState_some hadded
    simp only [hmarked]
    refine h.announce hc fun _ x hx hproducer => ?_
    obtain ⟨pending', hnext', hfinish⟩ := Controller.completeBlock_ok hcomplete
    subst hblock
    cases hnext.symm.trans hnext'
    obtain ⟨hnum, hsigner, hconfirmed⟩ := finished_eq hfinish
    rw [hnum, hconfirmed]
    exact hfree x hx (hproducer.trans hsigner)

theorem maybeProduceBlock (body : SignedBlock) (features : List DigestType) (r : Round) :
    (p.maybeProduceBlock X P validator body features r).Watched P := by
  refine startBlock ?_ r
  split
  case h_1 pending hmode hpending =>
    split
    · exact h.signBlock hmode hpending body features
    · exact h.idle h.typed
  case h_2 => exact h.idle h.typed

theorem handle (e : PluginEvent) : (p.handle X P validator e).Watched P := by
  cases e with
  | incomingBlock existing b r => exact h.onIncomingBlock existing b r
  | productionLoop r => exact h.startBlock r
  | produceBlock body features r => exact h.maybeProduceBlock body features r
  | abortBlock => exact h.idle h.typed

end

end Watched

end ProducerPlugin

/-- In every run since start-up, a block that the node produces and commits is above all blocks of
its producer that were added before, and so are the blocks it confirms. -/
theorem honest_producers_noDoubleSign {σ : Type} {X : Execution σ} {P : Primitives}
    {validator : FeatureValidator} {c : Controller σ} {producers : List AccountName}
    {signatureProviders : List PublicKeyType} {p : ProducerPlugin σ}
    {l : List (Transition (ProducerPlugin σ) PluginEvent)}
    (htyped : c.AllStates fun b => b.blockNum < 2 ^ 32)
    (h : PluginRun X P validator c producers signatureProviders l p) :
    p.history.Pairwise NoDoubleSign := by
  have hwatched : p.Watched P := by
    induction h with
    | start => exact ⟨htyped, nofun, .nil, nofun⟩
    | next _ hstep ih => exact hstep ▸ ih.handle _
  exact hwatched.separate

def sampleRound (slot : Nat) : Round := ⟨⟨slot + 1⟩, nofun, true, false, false, false, false⟩

def samplePlugin : ProducerPlugin (List Nat) :=
  { chain := sampleStart, producers := [config.systemAccountName], signatureProviders := [[]] }

def sampleHandle (p : ProducerPlugin (List Nat)) (slot : Nat) : ProducerPlugin (List Nat) :=
  p.handle (refusing []) runPrimitives (fun _ _ _ => .ok ()) (.produceBlock {} [] (sampleRound slot))

/-- A node that starts to produce, and produces two blocks. -/
theorem honest_producers_samplePlugin : let p := [0, 1, 2].foldl sampleHandle samplePlugin
    p.history.map (fun x => (x.1.blockNum, x.2)) = [(3, true), (2, true)] ∧
      p.history.Pairwise NoDoubleSign := by
  refine ⟨by decide +kernel, ?_⟩
  have htyped : sampleStart.AllStates fun b => b.blockNum < 2 ^ 32 :=
    ⟨⟨by decide +kernel, by decide +kernel, by decide +kernel⟩, by decide +kernel⟩
  have hrun : PluginRun (refusing []) runPrimitives (fun _ _ _ => .ok ()) sampleStart
      [config.systemAccountName] [[]] _ ([0, 1, 2].foldl sampleHandle samplePlugin) :=
    .next (a := .produceBlock {} [] (sampleRound 2)) (.next (a := .produceBlock {} []
      (sampleRound 1)) (.next (a := .produceBlock {} [] (sampleRound 0)) .start rfl) rfl) rfl
  exact honest_producers_noDoubleSign htyped hrun

end DreamChain
