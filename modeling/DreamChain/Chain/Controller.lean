import DreamChain.Chain.ForkDatabase
import DreamChain.Library.UndoStack

/-!
The part of the controller that moves the head of the chain: applying and popping blocks,
switching forks, logging irreversible blocks, receiving and producing blocks. Every method
returns the controller it leaves behind together with its exception, if it throws one.

What a block does to the chain state is a parameter, `Execution`, of which nothing is
assumed: it is a deterministic function of the state of the parent and the block. The chain
database is an undo stack. Signals, threads, resource limits and the in-memory copy of the
activated protocol features are left out.
-/

namespace DreamChain
open Library

inductive DbReadMode where
  | speculative
  | head
  | readOnly
  | irreversible
deriving DecidableEq, Repr

/-- The files of the block log, of which only the last block and the number of entries in
the index are read. -/
structure BlockLog where
  genesisWrittenToBlockLog : Bool := true
  firstBlockNum : Nat := 1
  entries : Nat := 0
  head : Option SignedBlock := none
deriving DecidableEq

def BlockLog.append (log : BlockLog) (b : SignedBlock) : Fallible BlockLog := do
  eosAssert (log.genesisWrittenToBlockLog = true) .blockLogAppendFail
    "Cannot append to block log until the genesis is first written"
  eosAssert (log.entries = subU32 b.blockNum log.firstBlockNum) .blockLogAppendFail
    "Append to index file occuring at wrong position."
  return { log with entries := log.entries + 1, head := some b }

/-- An exception thrown while a block is executed. -/
structure ExecutionError where
  code : Nat
  message : String := ""
deriving DecidableEq, Repr

def ExecutionError.toException (e : ExecutionError) : ChainException := ⟨.other e.code, e.message⟩

/-- What became of an input transaction: it was executed and its receipt was compared with
the one in the block, or it failed and was or was not taken off the unapplied ones. -/
inductive TrxResult (σ : Type) where
  | executed (state : σ) (receiptMatches : Except ExecutionError Unit)
  | failed (e : ExecutionError) (erased : Bool)

/-- The execution of blocks: `start_block`, the transactions in their order and
`finalize_block` with the comparison of the block id. -/
structure Execution (σ : Type) where
  startBlock : σ → BlockHeaderState → Except ExecutionError σ
  pushTransaction : σ → PackedTransaction → TrxResult σ
  pushScheduledTransaction : σ → DigestType → Except ExecutionError σ
  finalizeBlock : σ → BlockHeaderState → Except ExecutionError σ

abbrev UnappliedTransactions := FlatMap DigestType TransactionMetadata

def addUnapplied (unapplied : UnappliedTransactions) (trxs : List TransactionMetadata) :
    UnappliedTransactions :=
  trxs.foldl (fun u t => u.insert t.signedId t) unapplied

def eraseUnapplied (unapplied : UnappliedTransactions) (trxs : List TransactionMetadata) :
    UnappliedTransactions :=
  trxs.foldl (fun u t => u.erase t.signedId) unapplied

structure BlockInProgress (σ : Type) where
  state : σ
  pendingTrxMetas : List TransactionMetadata := []
  unapplied : UnappliedTransactions

namespace Execution

variable {σ : Type} (X : Execution σ)

def applyReceipt (bb : BlockInProgress σ) (receipt : TransactionReceipt) :
    BlockInProgress σ × Except ExecutionError Unit :=
  match receipt.trx with
  | .packed trx =>
    match X.pushTransaction bb.state trx with
    | .executed s receiptMatches =>
      ({ state := s
         pendingTrxMetas := bb.pendingTrxMetas ++ [.ofPacked trx]
         unapplied := bb.unapplied.erase trx.signedId }, receiptMatches)
    | .failed e erased =>
      ({ bb with unapplied :=
          if erased then bb.unapplied.erase trx.signedId else bb.unapplied }, .error e)
  | .transactionId id =>
    match X.pushScheduledTransaction bb.state id with
    | .ok s => ({ bb with state := s }, .ok ())
    | .error e => (bb, .error e)

def applyReceipts : List TransactionReceipt → BlockInProgress σ →
    BlockInProgress σ × Except ExecutionError Unit
  | [], bb => (bb, .ok ())
  | receipt :: rest, bb =>
    match X.applyReceipt bb receipt with
    | (bb, .ok _) => applyReceipts rest bb
    | (bb, .error e) => (bb, .error e)

def execute (s : σ) (b : BlockHeaderState) (receipts : List TransactionReceipt) :
    Except ExecutionError σ :=
  match X.startBlock s b with
  | .error e => .error e
  | .ok s =>
    let built := X.applyReceipts receipts { state := s, unapplied := .empty }
    match built.2 with
    | .error e => .error e
    | .ok _ => X.finalizeBlock built.1.state b

def run (s : σ) (b : BlockState) : Fallible σ :=
  match b.block with
  | none => .error ⟨.undefinedBehavior, "the block is a null pointer"⟩
  | some block => do
    eosAssert (block.blockExtensions = []) .blockValidateException "no supported block extensions"
    (X.execute s b.toBlockHeaderState block.transactions).mapError ExecutionError.toException

end Execution

structure Controller (σ : Type) where
  db : UndoStack σ
  /-- The database of reversible blocks: their numbers and the blocks, the latest first. -/
  reversibleBlocks : List (Nat × Option SignedBlock) := []
  blog : BlockLog
  head : BlockState
  forkDb : ForkDatabase
  readMode : DbReadMode := .speculative
  /-- Whether `replay_head_time` is set. -/
  replaying : Bool := false
  unapplied : UnappliedTransactions := .empty

namespace Controller

variable {σ : Type}

abbrev Result (σ : Type) := Controller σ × Fallible Unit

/-- A new chain: `initialize_blockchain_state`, the fork database reset to its head and the
block log that holds the genesis block. `state` is what `initialize_database` creates. -/
def initializeBlockchainState (P : Primitives) (genesis : GenesisState) (state : σ)
    (readMode : DbReadMode) : Controller σ :=
  let genheader := genesisHeaderState P genesis
  let block : SignedBlock := { toBlockHeader := genheader.header }
  { db := { state, revision := genheader.blockNum }
    blog := { entries := 1, head := some block }
    head := { toBlockHeaderState := genheader, block := some block }
    forkDb := ForkDatabase.reset genheader
    readMode }

/-- Goes on with `f` unless the first part threw. -/
def andThen (r : Result σ) (f : Controller σ → Result σ) : Result σ :=
  match r with
  | (c, .ok _) => f c
  | (c, .error e) => (c, .error e)

variable (c : Controller σ)

def headParent : Fallible BlockState :=
  match c.forkDb.getBlock (ForkDatabase.prev c.head) with
  | some b => .ok b
  | none => do
    eosAssert (c.forkDb.root.id = ForkDatabase.prev c.head) .blockValidateException
      "attempt to pop beyond last irreversible block"
    return c.forkDb.root

def popBlock : Result σ :=
  match c.headParent with
  | .error e => (c, .error e)
  | .ok prev =>
    let erased :=
      { c with reversibleBlocks := c.reversibleBlocks.filter fun r => r.1 ≠ c.head.blockNum }
    if c.readMode = .speculative ∧ c.head.block = none then
      (erased, .error ⟨.blockValidateException,
        "attempting to pop a block that was sparsely loaded from a snapshot"⟩)
    else
      ({ erased with
          unapplied := if c.readMode = .speculative then addUnapplied c.unapplied c.head.trxs
            else c.unapplied
          head := prev
          db := c.db.undo }, .ok ())

def popBlocks : Nat → Controller σ → Result σ
  | 0, c => (c, .ok ())
  | n + 1, c => andThen c.popBlock (popBlocks n)

/-- What `abort_block` leaves of a block that was being built. -/
def abortBlock (bb : BlockInProgress σ) : Controller σ :=
  { c with unapplied := if c.readMode = .speculative then
      addUnapplied bb.unapplied bb.pendingTrxMetas else bb.unapplied }

def createReversible (b : BlockState) : Fallible (List (Nat × Option SignedBlock)) :=
  if c.replaying = true ∨ c.readMode = .irreversible then .ok c.reversibleBlocks
  else if b.blockNum ∈ c.reversibleBlocks.map Prod.fst then
    .error ⟨.databaseException,
      "could not insert object, most likely a uniqueness constraint was violated"⟩
  else .ok ((b.blockNum, b.block) :: c.reversibleBlocks)

variable (X : Execution σ) (P : Primitives)

/-- `apply_block` with the `commit_block(false)` at its end. The completed block is that of `b`
and has its id. -/
def applyBlock (c : Controller σ) (b : BlockState) : Result σ :=
  match b.block with
  | none => (c, .error ⟨.undefinedBehavior, "the block is a null pointer"⟩)
  | some block =>
    let started : Fallible σ := do
      eosAssert (block.blockExtensions = []) .blockValidateException
        "no supported block extensions"
      eosAssert (c.db.revision = c.head.blockNum) .databaseException
        "db revision is not on par with head block"
      (X.startBlock c.db.state b.toBlockHeaderState).mapError ExecutionError.toException
    match started with
    | .error e => (c, .error e)
    | .ok s =>
      let built :=
        X.applyReceipts block.transactions { state := s, unapplied := c.unapplied }
      match built.2 with
      | .error e => (c.abortBlock built.1, .error e.toException)
      | .ok _ =>
        match X.finalizeBlock built.1.state b.toBlockHeaderState with
        | .error e => (c.abortBlock built.1, .error e.toException)
        | .ok s =>
          match c.createReversible b with
          | .error e => (c.abortBlock built.1, .error e)
          | .ok reversibleBlocks =>
            ({ c with db := c.db.push s, reversibleBlocks, unapplied := built.1.unapplied }, .ok ())

def markValid (c : Controller σ) (b : BlockState) : Result σ :=
  match c.forkDb.markValid b with
  | .ok forkDb => ({ c with forkDb }, .ok ())
  | .error e => (c, .error e)

/-- A block is applied, marked valid and made the head. The head is the block state in the
fork database, whose flag has just been set. -/
def applyAndMark (c : Controller σ) (b : BlockState) : Result σ :=
  andThen (c.applyBlock X b) fun c =>
    andThen (c.markValid b) fun c => ({ c with head := { b with validated := true } }, .ok ())

def logBlocks (c : Controller σ) (rootId : BlockIdType) :
    List BlockState → Controller σ × BlockIdType × Fallible Unit
  | [] => (c, rootId, .ok ())
  | b :: rest =>
    match if c.readMode = .irreversible then c.applyAndMark X b else (c, .ok ()) with
    | (c, .error e) => (c, rootId, .error e)
    | (c, .ok _) =>
      let committed := { c with db := c.db.commit b.blockNum }
      match b.block with
      | none => (committed, b.id, .error ⟨.undefinedBehavior, "the block is a null pointer"⟩)
      | some block =>
        match committed.blog.append block with
        | .error e => (committed, b.id, .error e)
        | .ok blog =>
          logBlocks
            { committed with
                blog
                reversibleBlocks := c.reversibleBlocks.filter fun r => b.blockNum < r.1 }
            b.id rest

def advanceRootTo (c : Controller σ) (rootId : BlockIdType) : Result σ :=
  if rootId ≠ c.forkDb.root.id then
    ({ c with forkDb := (c.forkDb.advanceRoot rootId).1 }, (c.forkDb.advanceRoot rootId).2)
  else (c, .ok ())

def libNum (c : Controller σ) : Nat :=
  match c.blog.head with
  | some logHead => logHead.blockNum
  | none => subU32 c.blog.firstBlockNum 1

def checkLogHead (c : Controller σ) : Fallible Unit :=
  match c.blog.head with
  | some logHead =>
    eosAssert (c.forkDb.root.id = logHead.id P) .forkDatabaseException
      "fork database root does not match block log head"
  | none =>
    eosAssert (c.forkDb.root.blockNum = c.libNum) .forkDatabaseException ("empty block log " ++
      "expects the first appended block to build off a block that is not the fork database root")

def logIrreversible (c : Controller σ) : Result σ :=
  match c.checkLogHead P with
  | .error e => (c, .error e)
  | .ok _ =>
    let forkHead := if c.readMode = .irreversible then c.forkDb.pendingHead else c.forkDb.head
    if forkHead.dposIrreversibleBlocknum ≤ c.libNum then (c, .ok ())
    else
      let branch := c.forkDb.fetchBranch forkHead.id forkHead.dposIrreversibleBlocknum
      match c.logBlocks X c.forkDb.root.id branch.reverse with
      | (c, rootId, .ok _) => c.advanceRootTo rootId
      | (c, rootId, .error e) => andThen (c.advanceRootTo rootId) fun c => (c, .error e)

/-- Both checks of the head against the branch that was left. On an empty branch the source
reads `back()` of an empty container. -/
def checkForkPoint (c : Controller σ) (branch : List BlockState) (message : String) :
    Fallible Unit :=
  match branch.getLast? with
  | some b => eosAssert (c.head.id = ForkDatabase.prev b) .forkDatabaseException message
  | none => .error ⟨.undefinedBehavior, "back() of an empty branch"⟩

/-- Applies the blocks of the old branch again, the oldest first. -/
def reapply (c : Controller σ) : List BlockState → Result σ
  | [] => (c, .ok ())
  | b :: rest => andThen (c.applyBlock X b) fun c => reapply { c with head := b } rest

/-- The way back when block `b` of the new branch threw `e` after `applied` blocks. -/
def switchBack (c : Controller σ) (oldBranch : List BlockState) (b : BlockState) (applied : Nat)
    (e : ChainException) : Result σ :=
  match c.forkDb.remove b.id with
  | .error e' => (c, .error e')
  | .ok forkDb =>
    andThen (popBlocks applied { c with forkDb }) fun c =>
      match c.checkForkPoint oldBranch
          "loss of sync between fork_db and chainbase during fork switch reversal" with
      | .error e' => (c, .error e')
      | .ok _ => andThen (c.reapply X oldBranch.reverse) fun c => (c, .error e)

/-- The loop over the new branch, the oldest block first. -/
def applyBranch (oldBranch : List BlockState) (c : Controller σ) (applied : Nat) :
    List BlockState → Result σ
  | [] => (c, .ok ())
  | b :: rest =>
    match c.applyAndMark X b with
    | (c, .ok _) => applyBranch oldBranch c (applied + 1) rest
    | (c, .error e) => c.switchBack X oldBranch b applied e

def popBranch (c : Controller σ) (oldBranch : List BlockState) : Result σ :=
  if oldBranch = [] then (c, .ok ())
  else
    andThen (popBlocks oldBranch.length c) fun c =>
      (c, c.checkForkPoint oldBranch
        "loss of sync between fork_db and chainbase during fork switch")

def switchForks (c : Controller σ) (newHead : BlockState) : Result σ :=
  match c.forkDb.fetchBranchFrom newHead.id c.head.id with
  | .error e => (c, .error e)
  | .ok (newBranch, oldBranch) =>
    andThen (c.popBranch oldBranch) fun c => applyBranch X oldBranch c 0 newBranch.reverse

def extendHead (c : Controller σ) (newHead : BlockState) : Result σ :=
  match c.applyAndMark X newHead with
  | (c, .ok _) => (c, .ok ())
  | (c, .error e) =>
    match c.forkDb.remove newHead.id with
    | .error e' => (c, .error e')
    | .ok forkDb => ({ c with forkDb }, .error e)

def maybeSwitchForks (c : Controller σ) (newHead : BlockState) : Result σ :=
  if ForkDatabase.prev newHead = c.head.id then
    andThen (c.extendHead X newHead) fun c => c.logIrreversible X P
  else if newHead.id ≠ c.head.id then
    andThen (c.switchForks X newHead) fun c => c.logIrreversible X P
  else (c, .ok ())

variable (validator : FeatureValidator)

def createBlockState (c : Controller σ) (b : SignedBlock) : Fallible BlockState := do
  eosAssert (c.forkDb.getBlock (b.id P) = none) .forkDatabaseException
    "we already know about this block: ${id}"
  match c.forkDb.getBlockHeader b.previous with
  | none => .error ⟨.unlinkableBlockException, "unlinkable block ${id}"⟩
  | some prev => BlockState.ofSigned P validator prev.toBlockHeaderState b

def addToForkDb (c : Controller σ) (bsp : BlockState) : Result σ :=
  match c.forkDb.add bsp false false fun _ _ _ => .ok () with
  | .ok forkDb => ({ c with forkDb }, .ok ())
  | .error e => (c, .error e)

def pushBlock (c : Controller σ) (bsp : BlockState) : Result σ :=
  andThen (c.addToForkDb bsp) fun c =>
    if c.readMode ≠ .irreversible then c.maybeSwitchForks X P c.forkDb.pendingHead
    else c.logIrreversible X P

def receiveBlock (c : Controller σ) (b : SignedBlock) : Result σ :=
  match c.createBlockState P validator b with
  | .ok bsp => c.pushBlock X P bsp
  | .error e => (c, .error e)

/-- `commit_block(true)`, with the session of the block already on the undo stack. -/
def commitBlock (c : Controller σ) (bsp : BlockState) : Result σ :=
  andThen (c.addToForkDb bsp) fun c =>
    andThen (c.markValid bsp) fun c =>
      let c := { c with head := c.forkDb.head }
      if bsp.id = c.head.id then
        match c.createReversible bsp with
        | .ok reversibleBlocks =>
          logIrreversible X P { c with reversibleBlocks }
        | .error e => (c, .error e)
      else (c, .error ⟨.forkDatabaseException,
        "committed block did not become the new head in fork database"⟩)

def completeBlock (c : Controller σ) (block : SignedBlock) : Fallible BlockState := do
  let pending ← c.head.next P block.timestamp block.confirmed
  BlockState.ofPending P validator pending block block.inputTransactions

/-- A block is produced on the head. If it cannot be completed it is aborted. -/
def produceBlock (c : Controller σ) (block : SignedBlock) : Result σ :=
  match c.completeBlock P validator block with
  | .error e => (c, .error e)
  | .ok bsp =>
    match X.run c.db.state bsp with
    | .error e => (c, .error e)
    | .ok s =>
      let unapplied := eraseUnapplied c.unapplied block.inputTransactions
      let pending := { c with db := c.db.push s, unapplied }
      match pending.commitBlock X P bsp with
      | (c, .ok _) => (c, .ok ())
      | (c, .error e) =>
        (abortBlock { c with db := c.db.undo }
          ⟨c.db.undo.state, block.inputTransactions, c.unapplied⟩, .error e)

end Controller

/-- The states of a controller that receives and produces blocks from the genesis on. `V` holds
of the header states of all blocks and `guard` of the states in which a block is received. -/
inductive ControllerRun {σ : Type} (X : Execution σ) (P : Primitives)
    (validator : FeatureValidator) (V : BlockHeaderState → Prop) (guard : Controller σ → Prop) :
    Controller σ → Prop
  | start (genesis : GenesisState) (state : σ) (readMode : DbReadMode) :
      V (genesisHeaderState P genesis) → readMode ≠ .irreversible →
        ControllerRun X P validator V guard
          (.initializeBlockchainState P genesis state readMode)
  | receive {c} (b : SignedBlock) : ControllerRun X P validator V guard c →
      guard c → (∀ n, c.createBlockState P validator b = .ok n → V n.toBlockHeaderState) →
        ControllerRun X P validator V guard (c.receiveBlock X P validator b).1
  | produce {c} (block : SignedBlock) : ControllerRun X P validator V guard c →
      (∀ n, c.completeBlock P validator block = .ok n → V n.toBlockHeaderState) →
        ControllerRun X P validator V guard (c.produceBlock X P validator block).1

end DreamChain
