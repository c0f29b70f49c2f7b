import DreamChain.Chain.BlockHeaderState

/-!
Blocks with their transactions and the states the fork database keeps of them. A packed
transaction is known by its two digests; what it does when it is executed is outside this
file.

The transactions of a block state repeat those of its block, but not every constructor
fills them in.
-/

namespace DreamChain
open Library

structure PackedTransaction where
  id : DigestType
  signedId : DigestType
deriving DecidableEq, Repr, Inhabited

/-- A receipt holds an input transaction or the id of a deferred one. -/
inductive ReceiptTrx where
  | transactionId (id : DigestType)
  | packed (trx : PackedTransaction)
deriving DecidableEq, Repr, Inhabited

structure TransactionReceipt where
  trx : ReceiptTrx
deriving DecidableEq, Repr, Inhabited

structure TransactionMetadata where
  id : DigestType
  signedId : DigestType
deriving DecidableEq, Repr, Inhabited

def TransactionMetadata.ofPacked (trx : PackedTransaction) : TransactionMetadata :=
  ⟨trx.id, trx.signedId⟩

structure SignedBlock extends BlockHeader where
  transactions : List TransactionReceipt := []
  blockExtensions : List (Nat × List UInt8) := []
deriving DecidableEq, Repr, Inhabited

def SignedBlock.inputTransactions (b : SignedBlock) : List TransactionMetadata :=
  b.transactions.filterMap fun receipt =>
    match receipt.trx with
    | .packed trx => some (.ofPacked trx)
    | .transactionId _ => none

structure BlockState extends BlockHeaderState where
  block : Option SignedBlock := none
  validated : Bool := false
  trxs : List TransactionMetadata := []
deriving DecidableEq, Inhabited

namespace BlockState

def inputTransactions (b : BlockState) : List TransactionMetadata :=
  (b.block.map SignedBlock.inputTransactions).getD []

/-- The state of a received block, which is not given the transactions of the block. -/
def ofSigned (P : Primitives) (validator : FeatureValidator) (prev : BlockHeaderState)
    (b : SignedBlock) : Fallible BlockState := do
  let pending ← prev.next P b.timestamp b.confirmed
  let state ← pending.finishNext P validator b.toBlockHeader
  return { toBlockHeaderState := state, block := some b }

/-- The state of a block that was just built, with the transactions that were executed. -/
def ofPending (P : Primitives) (validator : FeatureValidator) (cur : PendingBlockHeaderState)
    (b : SignedBlock) (trxMetas : List TransactionMetadata) : Fallible BlockState := do
  let state ← cur.finishNext P validator b.toBlockHeader
  return { toBlockHeaderState := state, block := some b, trxs := trxMetas }

end BlockState

/-- A later last irreversible block comes first, then a higher block number. -/
def firstPreferred (lhs rhs : BlockHeaderState) : Prop :=
  rhs.dposIrreversibleBlocknum < lhs.dposIrreversibleBlocknum ∨
    (lhs.dposIrreversibleBlocknum = rhs.dposIrreversibleBlocknum ∧ rhs.blockNum < lhs.blockNum)

instance (lhs rhs : BlockHeaderState) : Decidable (firstPreferred lhs rhs) :=
  inferInstanceAs (Decidable (_ ∨ _))

theorem firstPreferred_trans {a b c : BlockHeaderState} (hab : firstPreferred a b)
    (hbc : firstPreferred b c) : firstPreferred a c := by
  simp only [firstPreferred] at *
  omega

theorem firstPreferred_irrefl (a : BlockHeaderState) : ¬ firstPreferred a a := by
  simp only [firstPreferred]
  omega

theorem not_firstPreferred_trans {a b c : BlockHeaderState} (hab : ¬ firstPreferred a b)
    (hbc : ¬ firstPreferred b c) : ¬ firstPreferred a c := by
  simp only [firstPreferred] at *
  omega

theorem not_firstPreferred_total (a b : BlockHeaderState) :
    ¬ firstPreferred a b ∨ ¬ firstPreferred b a := by
  simp only [firstPreferred]
  omega

/-- The order of the index: valid blocks first, then preferred ones, then smaller ids. -/
def BlockState.byLibBlockNum (b : BlockState) : Bool ×ₗ Natᵒᵈ ×ₗ Natᵒᵈ ×ₗ BlockIdType :=
  toLex (!b.validated, toLex (OrderDual.toDual b.dposIrreversibleBlocknum,
    toLex (OrderDual.toDual b.blockNum, b.id)))

theorem byLibBlockNum_le {a b : BlockState} (h : a.byLibBlockNum ≤ b.byLibBlockNum) :
    (b.validated = true → a.validated = true) ∧
      (a.validated = b.validated → ¬ firstPreferred b.toBlockHeaderState a.toBlockHeaderState) := by
  simp only [BlockState.byLibBlockNum, Prod.Lex.toLex_le_toLex, OrderDual.toDual_lt_toDual,
    OrderDual.toDual_inj] at h
  rcases h with h | ⟨hvalidated, h⟩
  · have hflags : a.validated = true ∧ b.validated = false := by
      revert h
      cases a.validated <;> cases b.validated <;> decide
    refine ⟨fun _ => hflags.1, fun hsame => ?_⟩
    rw [hflags.1, hflags.2] at hsame
    cases hsame
  · have hsame : a.validated = b.validated := by simpa using hvalidated
    refine ⟨fun hb => hsame.trans hb, fun _ => ?_⟩
    simp only [firstPreferred]
    omega

end DreamChain
