import DreamChain.Chain.BlockState
import DreamChain.Library.Forest

/-!
The fork database: a flat index of block states, the root they build on and the head.
The index is a list in the order of insertion; the orders of the source's containers are
computed from it. Shared pointers are values here: a block state is changed only through
the index, and the head is always read back from it.

Loops over parents and children carry a bound on their steps. Where the source would not
end, the model reports undefined behaviour; that this does not happen on a tree is proved
with the invariant.
-/

namespace DreamChain
open Library

structure ForkDatabase where
  index : List BlockState := []
  root : BlockState
  head : BlockState
deriving DecidableEq

namespace ForkDatabase

def prev (b : BlockState) : BlockIdType := b.header.previous

variable (index : List BlockState)

def byLib : List BlockState :=
  index.insertionSort fun a b => a.byLibBlockNum ≤ b.byLibBlockNum

variable (db : ForkDatabase)

def getBlock (id : BlockIdType) : Option BlockState :=
  db.index.find? fun b => b.id = id

def getBlockHeader (id : BlockIdType) : Option BlockState :=
  if db.root.id = id then some db.root else db.getBlock id

def reset (rootBhs : BlockHeaderState) : ForkDatabase :=
  let root : BlockState := { toBlockHeaderState := rootBhs, validated := true }
  { root, head := root }

def rollbackHeadToRoot : ForkDatabase :=
  { db with index := db.index.map fun b => { b with validated := false }, head := db.root }

def validCandidate : Option BlockState :=
  (byLib index).head?.filter fun candidate => candidate.validated

def checkFeatures (validator : FeatureValidator) (n prevBh : BlockState) : Fallible Unit :=
  match n.headerExts with
  | newProtocolFeatures :: _ =>
    match validator n.header.timestamp prevBh.activatedProtocolFeatures newProtocolFeatures with
    | .ok _ => .ok ()
    | .error _ => .error ⟨.forkDatabaseException,
        "serialized fork database is incompatible with configured protocol features"⟩
  | [] => .ok ()

def push (n : BlockState) : ForkDatabase :=
  let index := db.index ++ [n]
  { db with index, head := (validCandidate index).getD db.head }

def insert (n : BlockState) (ignoreDuplicate : Bool) : Fallible ForkDatabase :=
  if (db.getBlock n.id).isSome then
    if ignoreDuplicate then .ok db
    else .error ⟨.forkDatabaseException, "duplicate block added"⟩
  else .ok (db.push n)

def add (n : BlockState) (ignoreDuplicate validate : Bool)
    (validator : FeatureValidator) : Fallible ForkDatabase :=
  match db.getBlockHeader (prev n) with
  | none => .error ⟨.unlinkableBlockException, "unlinkable block"⟩
  | some prevBh => do
    if validate then checkFeatures validator n prevBh
    db.insert n ignoreDuplicate

def setValid (id : BlockIdType) : List BlockState :=
  index.map fun b => if b.id = id then { b with validated := true } else b

def markValid (h : BlockState) : Fallible ForkDatabase :=
  if h.validated then .ok db
  else if (db.getBlock h.id).isNone then
    .error ⟨.forkDatabaseException, "block state not in fork database; cannot mark as valid"⟩
  else
    let index := setValid db.index h.id
    match (byLib index).head? with
    | some candidate =>
      .ok { db with index
                    head := if firstPreferred candidate.toBlockHeaderState
                        db.head.toBlockHeaderState then candidate else db.head }
    | none => .ok { db with index }

def childrenOf (id : BlockIdType) : List BlockIdType :=
  Forest.children (fun b : BlockState => b.id) prev db.index id

def remove (db : ForkDatabase) (id : BlockIdType) : Fallible ForkDatabase :=
  match Worklist.run db.childrenOf (fun x => x = db.head.id) (db.index.length + 1) [id] [] with
  | .done removeQueue => .ok { db with index := db.index.filter fun b => b.id ∉ removeQueue }
  | .stopped _ => .error ⟨.forkDatabaseException,
      "removing the block and its descendants would remove the current head block"⟩
  | .exhausted => .error ⟨.undefinedBehavior, "the parents of the blocks form a cycle"⟩

def blocksToRemove (db : ForkDatabase) : Nat → BlockState → Fallible (List BlockIdType)
  | 0, _ => .error ⟨.undefinedBehavior, "the parents of the blocks form a cycle"⟩
  | fuel + 1, b =>
    match db.getBlock (prev b) with
    | some p => do
      let rest ← db.blocksToRemove fuel p
      return prev b :: rest
    | none => do
      eosAssert (prev b = db.root.id) .forkDatabaseException
        "invariant violation: orphaned branch was present in forked database"
      return [prev b]

def removeAll (db : ForkDatabase) : List BlockIdType → ForkDatabase × Fallible Unit
  | [] => (db, .ok ())
  | id :: rest =>
    match db.remove id with
    | .ok db' => db'.removeAll rest
    | .error e => (db, .error e)

/-- The blocks erased before an exception stay erased, so the state is part of the result. -/
def advanceRoot (id : BlockIdType) : ForkDatabase × Fallible Unit :=
  match db.getBlock id with
  | none => (db, .error ⟨.forkDatabaseException,
      "cannot advance root to a block that does not exist in the fork database"⟩)
  | some newRoot =>
    if newRoot.validated then
      match db.blocksToRemove (db.index.length + 1) newRoot with
      | .error e => (db, .error e)
      | .ok ids =>
        let erased := { db with index := db.index.filter fun b => b.id ≠ id }
        match erased.removeAll ids with
        | (db', .ok _) => ({ db' with root := newRoot }, .ok ())
        | (db', .error e) => (db', .error e)
    else (db, .error ⟨.forkDatabaseException,
      "cannot advance root to a block that has not yet been validated"⟩)

def pendingHead : BlockState :=
  match (byLib db.index).find? fun b => !b.validated with
  | some b =>
    if firstPreferred b.toBlockHeaderState db.head.toBlockHeaderState then b else db.head
  | none => db.head

def fetchBranch (h : BlockIdType) (trimAfterBlockNum : Nat) : List BlockState :=
  (Forest.climb (fun b : BlockState => b.id) prev db.index db.index.length h).filter
    fun b => b.blockNum ≤ trimAfterBlockNum

def searchOnBranch (h : BlockIdType) (blockNum : Nat) : Option BlockState :=
  (Forest.climb (fun b : BlockState => b.id) prev db.index db.index.length h).find?
    fun b => b.blockNum = blockNum

def rootOrBlock (id : BlockIdType) : Fallible BlockState :=
  if id = db.root.id then .ok db.root
  else
    match db.getBlock id with
    | some b => .ok b
    | none => .error ⟨.forkDbBlockNotFound, "block ${id} does not exist"⟩

def requireBlock (id : BlockIdType) : Fallible BlockState :=
  match db.getBlock id with
  | some b => .ok b
  | none => .error ⟨.forkDbBlockNotFound, "block ${id} does not exist"⟩

/-- The two loops that bring one branch down to the height of the other. -/
def trimBranch (db : ForkDatabase) (blockNum : Nat) :
    Nat → BlockState → Fallible (List BlockState × BlockState)
  | 0, _ => .error ⟨.undefinedBehavior, "the parents of the blocks form a cycle"⟩
  | fuel + 1, b =>
    if blockNum < b.blockNum then do
      let p ← db.rootOrBlock (prev b)
      let (branch, last) ← db.trimBranch blockNum fuel p
      return (b :: branch, last)
    else return ([], b)

/-- The loop that follows both branches to a common parent. -/
def joinBranches (db : ForkDatabase) :
    Nat → BlockState → BlockState → Fallible (List BlockState × List BlockState)
  | 0, _, _ => .error ⟨.undefinedBehavior, "the parents of the blocks form a cycle"⟩
  | fuel + 1, first, second =>
    if prev first ≠ prev second then do
      let firstPrev ← db.requireBlock (prev first)
      let secondPrev ← db.requireBlock (prev second)
      let (firstBranch, secondBranch) ← db.joinBranches fuel firstPrev secondPrev
      return (first :: firstBranch, second :: secondBranch)
    else return ([first], [second])

def fetchBranchFrom (first second : BlockIdType) :
    Fallible (List BlockState × List BlockState) := do
  let firstBranch ← db.rootOrBlock first
  let secondBranch ← db.rootOrBlock second
  let (firstTrimmed, firstBranch) ←
    db.trimBranch secondBranch.blockNum (db.index.length + 1) firstBranch
  let (secondTrimmed, secondBranch) ←
    db.trimBranch firstBranch.blockNum (db.index.length + 1) secondBranch
  if firstBranch.id = secondBranch.id then return (firstTrimmed, secondTrimmed)
  else
    let (firstJoined, secondJoined) ←
      db.joinBranches (db.index.length + 1) firstBranch secondBranch
    return (firstTrimmed ++ firstJoined, secondTrimmed ++ secondJoined)

end ForkDatabase

end DreamChain
