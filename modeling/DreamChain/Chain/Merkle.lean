import DreamChain.Chain.Types

/-!
Merkle roots of lists of digests: of a whole list, and of a list that grows. The
incremental tree is carried by every block header state. Its number of nodes is a
64-bit counter, and the depth of the tree is computed from it with the bit
manipulations of the source.
-/

namespace DreamChain

def makeCanonicalLeft (val : DigestType) : DigestType :=
  { val with hash0 := val.hash0 &&& 0xFFFFFFFFFFFFFF7F }

def makeCanonicalRight (val : DigestType) : DigestType :=
  { val with hash0 := val.hash0 ||| 0x0000000000000080 }

variable (P : Primitives)

def hashCanonicalPair (l r : DigestType) : DigestType :=
  P.pairDigest (makeCanonicalLeft l) (makeCanonicalRight r)

def nextPowerOf2 (value : Nat) : Nat :=
  let value := u64 (value + (2 ^ 64 - 1))
  let value := value ||| value >>> 1
  let value := value ||| value >>> 2
  let value := value ||| value >>> 4
  let value := value ||| value >>> 8
  let value := value ||| value >>> 16
  let value := value ||| value >>> 32
  u64 (value + 1)

def clzPower2 (value : Nat) : Nat :=
  let lz := 64
  let lz := if value ≠ 0 then lz - 1 else lz
  let lz := if value &&& 0x00000000FFFFFFFF ≠ 0 then lz - 32 else lz
  let lz := if value &&& 0x0000FFFF0000FFFF ≠ 0 then lz - 16 else lz
  let lz := if value &&& 0x00FF00FF00FF00FF ≠ 0 then lz - 8 else lz
  let lz := if value &&& 0x0F0F0F0F0F0F0F0F ≠ 0 then lz - 4 else lz
  let lz := if value &&& 0x3333333333333333 ≠ 0 then lz - 2 else lz
  if value &&& 0x5555555555555555 ≠ 0 then lz - 1 else lz

def calcluateMaxDepth (nodeCount : Nat) : Nat :=
  if nodeCount = 0 then 0 else clzPower2 (nextPowerOf2 nodeCount) + 1

/-- The inner loop of `merkle`, which hashes the first pairs of a level in place. -/
def hashPairs (n : Nat) (ids : List DigestType) : List DigestType :=
  (List.range n).foldl (fun ids i =>
    ids.set i (hashCanonicalPair P (ids.getD (2 * i) default) (ids.getD (2 * i + 1) default))) ids

theorem hashPairs_succ (n : Nat) (ids : List DigestType) :
    hashPairs P (n + 1) ids = (hashPairs P n ids).set n
      (hashCanonicalPair P ((hashPairs P n ids).getD (2 * n) default)
        ((hashPairs P n ids).getD (2 * n + 1) default)) := by
  rw [hashPairs, List.range_succ, List.foldl_append]
  rfl

@[simp] theorem length_hashPairs (n : Nat) (ids : List DigestType) :
    (hashPairs P n ids).length = ids.length := by
  induction n with
  | zero => rfl
  | succ n ih => rw [hashPairs_succ, List.length_set, ih]

/-- One round of the outer loop of `merkle`: the last digest of an odd level is repeated, and
the vector is cut to half its size. -/
def merkleLevel (ids : List DigestType) : List DigestType :=
  let ids := if ids.length % 2 = 1 then ids ++ [ids.getLastD default] else ids
  (hashPairs P (ids.length / 2) ids).take (ids.length / 2)

theorem length_merkleLevel (ids : List DigestType) :
    (merkleLevel P ids).length = (ids.length + 1) / 2 := by
  simp only [merkleLevel, List.length_take, length_hashPairs]
  split
  · rw [List.length_append, List.length_singleton]
    omega
  · omega

/-- The outer loop of `merkle`. -/
def merkleLevels (P : Primitives) (ids : List DigestType) : List DigestType :=
  if 1 < ids.length then merkleLevels P (merkleLevel P ids) else ids
termination_by ids.length
decreasing_by
  rw [length_merkleLevel]
  omega

def merkle (ids : List DigestType) : DigestType :=
  if ids.length = 0 then default else (merkleLevels P ids).headD default

structure IncrementalMerkle where
  nodeCount : Nat := 0
  activeNodes : List DigestType := []
deriving DecidableEq, Repr, Inhabited

namespace IncrementalMerkle

/-- The collapse from the new node upwards. The arguments are the remaining depth, the
index on the level, the collapsed value, the unread active nodes, whether a partial node
was met, and the updated active nodes so far. -/
def collapse (P : Primitives) :
    Nat → Nat → DigestType → List DigestType → Bool → List DigestType → List DigestType
  | 0, _, top, _, _, updated => updated ++ [top]
  | depth + 1, index, top, active, isPartial, updated =>
    if index % 2 = 0 then
      collapse P depth (index / 2) (hashCanonicalPair P top top) active true
        (if isPartial then updated else updated ++ [top])
    else
      let leftValue := active.headD default
      collapse P depth (index / 2) (hashCanonicalPair P leftValue top) active.tail isPartial
        (if isPartial then updated ++ [leftValue] else updated)

def append (P : Primitives) (m : IncrementalMerkle) (digest : DigestType) : IncrementalMerkle :=
  let maxDepth := calcluateMaxDepth (u64 (m.nodeCount + 1))
  { nodeCount := u64 (m.nodeCount + 1)
    activeNodes := collapse P (maxDepth - 1) m.nodeCount digest m.activeNodes false [] }

def getRoot (m : IncrementalMerkle) : DigestType :=
  if 0 < m.nodeCount then m.activeNodes.getLastD default else default

end IncrementalMerkle

end DreamChain
