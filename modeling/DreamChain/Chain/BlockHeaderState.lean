import DreamChain.Chain.Merkle
import DreamChain.Library.OrderStatistic

/-!
Header states and their transition: `next` builds the pending state of the block
after a given one and `finishNext` completes it with a header. The state a block
gets is separated from the checks that guard it, so that each step below is an
assertion list followed by one record.

Signatures are outside this file: `finish_next` adds only the comparison of the
signing key to `_finish_next`.
-/

namespace DreamChain
open Library

structure BlockHeaderStateCommon where
  blockNum : Nat := 0
  dposProposedIrreversibleBlocknum : Nat := 0
  dposIrreversibleBlocknum : Nat := 0
  activeSchedule : ProducerScheduleType := {}
  blockrootMerkle : IncrementalMerkle := {}
  producerToLastProduced : FlatMap AccountName Nat := .empty
  producerToLastImpliedIrb : FlatMap AccountName Nat := .empty
  blockSigningKey : PublicKeyType := []
  confirmCount : List Nat := []
deriving DecidableEq, Inhabited

structure ScheduleInfo where
  scheduleLibNum : Nat := 0
  scheduleHash : DigestType := {}
  schedule : ProducerScheduleType := {}
deriving DecidableEq, Inhabited

structure PendingBlockHeaderState extends BlockHeaderStateCommon where
  prevActivatedProtocolFeatures : FlatSet := .empty
  prevPendingSchedule : ScheduleInfo := {}
  wasPendingPromoted : Bool := false
  previous : BlockIdType := {}
  producer : AccountName := 0
  timestamp : BlockTimestamp := {}
  activeScheduleVersion : Nat := 0
  confirmed : Nat := 1
deriving DecidableEq, Inhabited

structure BlockHeaderState extends BlockHeaderStateCommon where
  id : BlockIdType := {}
  header : BlockHeader := {}
  pendingSchedule : ScheduleInfo := {}
  activatedProtocolFeatures : FlatSet := .empty
  headerExts : List (List DigestType) := []
deriving DecidableEq, Inhabited

/-- The callback that checks the protocol features a header activates. -/
abbrev FeatureValidator :=
  BlockTimestamp → FlatSet → List DigestType → Fallible Unit

/-- The confirmations a block needs: more than two thirds of the producers. -/
def requiredConfs (numActiveProducers : Nat) : Nat := u32 (numActiveProducers * 2 / 3) + 1

/-- The window with the counter of the new block, shifted by one when it is full. -/
def growConfirmCount (confirmCount : List Nat) (requiredConfs : Nat) : List Nat :=
  if confirmCount.length < config.maximumTrackedDposConfirmations then
    confirmCount ++ [u8 requiredConfs]
  else
    confirmCount.tail ++ [u8 requiredConfs]

/-- The confirmation loop. The first argument is `i + 1` for the index `i` about to be
decremented, the second the number of blocks still to confirm. -/
def confirmBlocks (blockNum : Nat) : Nat → Nat → List Nat → Nat → List Nat × Nat
  | 0, _, window, proposed => (window, proposed)
  | _, 0, window, proposed => (window, proposed)
  | i + 1, blocksToConfirm + 1, window, proposed =>
    let count := u8 (window.getD i 0 + 255)
    let window := window.set i count
    if count = 0 then
      let blockNumForI := subU32 blockNum (window.length - 1 - i)
      if i = window.length - 1 then ([], blockNumForI)
      else (window.drop (i + 1), blockNumForI)
    else
      confirmBlocks blockNum i blocksToConfirm window proposed

namespace BlockHeaderState

variable (s : BlockHeaderState)

/-- An empty schedule makes the source divide by zero; there is no producer then. -/
def getScheduledProducer (t : BlockTimestamp) : Option ProducerKey :=
  let index := t.slot % (s.activeSchedule.producers.length * config.producerRepetitions)
  s.activeSchedule.producers[index / config.producerRepetitions]?

def calcDposLastIrreversible (producerOfNextBlock : AccountName) : Nat :=
  let blocknums := s.producerToLastImpliedIrb.entries.map fun i =>
    if i.1 = producerOfNextBlock then s.dposProposedIrreversibleBlocknum else i.2
  if blocknums.length = 0 then 0
  else (nthElement blocknums ((blocknums.length - 1) / 3)).getD 0

/-- The loop that carries one of the two producer maps over to a new schedule: the
producer of the block gets `own`, a producer that stays keeps its value and a new one
starts at the last irreversible block. -/
def carryOver (producer : AccountName) (own lib : Nat) (old : FlatMap AccountName Nat)
    (producers : List ProducerKey) : FlatMap AccountName Nat :=
  producers.foldl
    (fun m pro =>
      if pro.producerName = producer then m.insert pro.producerName own
      else
        match old.find? pro.producerName with
        | some existing => m.insert pro.producerName existing
        | none => m.insert pro.producerName lib)
    .empty

def nextPending (P : Primitives) (s : BlockHeaderState) (prokey : ProducerKey)
    (when : BlockTimestamp) (numPrevBlocksToConfirm : Nat) : PendingBlockHeaderState :=
  let blockNum := u32 (s.blockNum + 1)
  let grown := growConfirmCount s.confirmCount
    (requiredConfs s.activeSchedule.producers.length)
  let confirmation := confirmBlocks blockNum grown.length (numPrevBlocksToConfirm + 1) grown
    s.dposProposedIrreversibleBlocknum
  let lib := s.calcDposLastIrreversible prokey.producerName
  let promoted := s.pendingSchedule.schedule.producers ≠ [] ∧
    s.pendingSchedule.scheduleLibNum ≤ lib
  { blockNum
    previous := s.id
    timestamp := when
    confirmed := numPrevBlocksToConfirm
    activeScheduleVersion := s.activeSchedule.version
    prevActivatedProtocolFeatures := s.activatedProtocolFeatures
    blockSigningKey := prokey.blockSigningKey
    producer := prokey.producerName
    blockrootMerkle := s.blockrootMerkle.append P s.id
    confirmCount := confirmation.1
    dposProposedIrreversibleBlocknum := confirmation.2
    dposIrreversibleBlocknum := lib
    prevPendingSchedule := s.pendingSchedule
    wasPendingPromoted := promoted
    activeSchedule := if promoted then s.pendingSchedule.schedule else s.activeSchedule
    producerToLastProduced :=
      if promoted then
        (carryOver prokey.producerName blockNum lib s.producerToLastProduced
          s.pendingSchedule.schedule.producers).insert prokey.producerName blockNum
      else s.producerToLastProduced.insert prokey.producerName blockNum
    producerToLastImpliedIrb :=
      if promoted then
        carryOver prokey.producerName s.dposProposedIrreversibleBlocknum lib
          s.producerToLastImpliedIrb s.pendingSchedule.schedule.producers
      else
        s.producerToLastImpliedIrb.insert prokey.producerName
          s.dposProposedIrreversibleBlocknum }

/-- The default timestamp asks for the slot after the one of the header. -/
def nextTimestamp (when : BlockTimestamp) : Fallible BlockTimestamp :=
  if when ≠ {} then do
    eosAssert (s.header.timestamp.slot < when.slot) .blockValidateException
      "next block must be in the future"
    return when
  else
    return ⟨u32 (s.header.timestamp.slot + 1)⟩

def checkDoubleConfirm (producer : AccountName)
    (numPrevBlocksToConfirm : Nat) : Fallible Unit :=
  match s.producerToLastProduced.find? producer with
  | some lastProduced =>
    eosAssert (lastProduced < subU32 (u32 (s.blockNum + 1)) numPrevBlocksToConfirm)
      .producerDoubleConfirm "producer ${prod} double-confirming known range"
  | none => .ok ()

def next (P : Primitives) (s : BlockHeaderState) (when : BlockTimestamp)
    (numPrevBlocksToConfirm : Nat) : Fallible PendingBlockHeaderState := do
  let when ← s.nextTimestamp when
  match s.getScheduledProducer when with
  | none => .error ⟨.undefinedBehavior, "division by the size of an empty schedule"⟩
  | some prokey =>
    s.checkDoubleConfirm prokey.producerName numPrevBlocksToConfirm
    return s.nextPending P prokey when numPrevBlocksToConfirm

end BlockHeaderState

namespace PendingBlockHeaderState

def makeBlockHeader (P : Primitives) (p : PendingBlockHeaderState)
    (transactionMroot actionMroot : DigestType) (newProducers : Option ProducerScheduleType)
    (newProtocolFeatureActivations : List DigestType) : BlockHeader :=
  { timestamp := p.timestamp
    producer := p.producer
    confirmed := p.confirmed
    previous := p.previous
    transactionMroot
    actionMroot
    scheduleVersion := p.activeScheduleVersion
    newProducers
    headerExtensions :=
      if 0 < newProtocolFeatureActivations.length then
        [(ProtocolFeatureActivation.extensionId,
          P.packProtocolFeatures newProtocolFeatureActivations)]
      else [] }

variable (p : PendingBlockHeaderState)

def checkNewProducers (newProducers : ProducerScheduleType) : Fallible Unit := do
  eosAssert (p.wasPendingPromoted = false) .producerScheduleException
    "cannot set pending producer schedule in the same block in which pending was promoted to active"
  eosAssert (newProducers.version = u32 (p.activeSchedule.version + 1)) .producerScheduleException
    "wrong producer schedule version specified"
  eosAssert (p.prevPendingSchedule.schedule.producers.length = 0) .producerScheduleException
    "cannot set new pending producers until last pending is confirmed"

def checkHeader (h : BlockHeader) : Fallible Unit := do
  eosAssert (h.timestamp = p.timestamp) .blockValidateException "timestamp mismatch"
  eosAssert (h.previous = p.previous) .unlinkableBlockException "previous mismatch"
  eosAssert (h.confirmed = p.confirmed) .blockValidateException "confirmed mismatch"
  eosAssert (h.producer = p.producer) .wrongProducer "wrong producer specified"
  eosAssert (h.scheduleVersion = p.activeScheduleVersion) .producerScheduleException
    "schedule_version in signed block is corrupted"
  match h.newProducers with
  | some newProducers => p.checkNewProducers newProducers
  | none => .ok ()

/-- The features active after the block; the callback sees the new ones first. -/
def activateFeatures (validator : FeatureValidator)
    (exts : List (List DigestType)) : Fallible FlatSet :=
  match exts with
  | newProtocolFeatures :: _ => do
    validator p.timestamp p.prevActivatedProtocolFeatures newProtocolFeatures
    protocolFeatureActivationSet p.prevActivatedProtocolFeatures newProtocolFeatures
  | [] => .ok p.prevActivatedProtocolFeatures

def nextPendingSchedule (P : Primitives) (p : PendingBlockHeaderState) (h : BlockHeader) :
    ScheduleInfo :=
  match h.newProducers with
  | some newProducers =>
    { schedule := newProducers
      scheduleHash := P.scheduleDigest newProducers
      scheduleLibNum := p.blockNum }
  | none =>
    { schedule :=
        if p.wasPendingPromoted then { version := p.prevPendingSchedule.schedule.version }
        else p.prevPendingSchedule.schedule
      scheduleHash := p.prevPendingSchedule.scheduleHash
      scheduleLibNum := p.prevPendingSchedule.scheduleLibNum }

def finishNext (P : Primitives) (validator : FeatureValidator) (p : PendingBlockHeaderState)
    (h : BlockHeader) : Fallible BlockHeaderState := do
  p.checkHeader h
  let exts ← h.validateAndExtractHeaderExtensions P
  let newActivatedProtocolFeatures ← p.activateFeatures validator exts
  return {
    toBlockHeaderStateCommon := p.toBlockHeaderStateCommon
    id := h.id P
    header := h
    headerExts := exts
    pendingSchedule := p.nextPendingSchedule P h
    activatedProtocolFeatures := newActivatedProtocolFeatures }

end PendingBlockHeaderState

structure GenesisState where
  initialKey : PublicKeyType := []
  initialTimestamp : BlockTimestamp := {}
  chainId : DigestType := {}
deriving DecidableEq, Repr, Inhabited

def genesisHeaderState (P : Primitives) (genesis : GenesisState) : BlockHeaderState :=
  let initialSchedule : ProducerScheduleType :=
    ⟨0, [⟨config.systemAccountName, genesis.initialKey⟩]⟩
  let header : BlockHeader :=
    { timestamp := genesis.initialTimestamp, actionMroot := genesis.chainId }
  { activeSchedule := initialSchedule
    pendingSchedule :=
      { schedule := initialSchedule, scheduleHash := P.scheduleDigest initialSchedule }
    header
    id := header.id P
    blockNum := header.blockNum }

end DreamChain
