import DreamChain.Chain.Action

/-!
Replay protection. The ids of input transactions are recorded with their expiration in a table
without repetitions. When a block starts, the entries that expired before the time of the block
are removed. An input transaction is admitted when it has not expired at the time of the block,
so an id that was removed from the table can no longer come back.

The rest of the database is a parameter, with all that checks and executes transactions. That
code does not touch the table.
-/

namespace DreamChain
open Library List

def BlockTimestamp.toTimePoint (t : BlockTimestamp) : Int := (t.slot * 500 + 946684800000) * 1000

def timePointSec (seconds : Nat) : Int := seconds * 1000000

/-- Ids of input transactions with their expiration in seconds. -/
abbrev DedupeTable := FlatMap TransactionIdType Nat

section Table

def byExpiration (dedupe : DedupeTable) : List (TransactionIdType × Nat) :=
  dedupe.entries.insertionSort fun a b => a.2 ≤ b.2

/-- The loop takes entries off the front of the index by expiration. -/
def clearExpiredInputTransactions (now : Int) (dedupe : DedupeTable) : DedupeTable :=
  ((byExpiration dedupe).takeWhile fun e => timePointSec e.2 < now).foldl
    (fun dedupe e => dedupe.erase e.1) dedupe

def recordTransaction (id : TransactionIdType) (expire : Nat) (dedupe : DedupeTable) :
    Fallible DedupeTable :=
  if id ∈ dedupe.keys then .error ⟨.txDuplicate, "duplicate transaction ${id}"⟩
  else .ok (dedupe.insert id expire)

def validateExpiration (maxTransactionLifetime : Nat) (pendingBlockTime : Int) (trx : Transaction) :
    Fallible Unit := do
  eosAssert (pendingBlockTime ≤ timePointSec trx.expiration) .expiredTxException
    "transaction has expired, expiration is ${trx.expiration} and pending block time is ${pending_block_time}"
  eosAssert (timePointSec trx.expiration ≤ pendingBlockTime + timePointSec maxTransactionLifetime)
    .txExpTooFarException
    "Transaction expiration is too far in the future relative to the reference time of ${reference_time}, expiration is ${trx.expiration} and the maximum transaction lifetime is ${max_til_exp} seconds"

theorem find?_foldl_erase (l : List (TransactionIdType × Nat)) (dedupe : DedupeTable)
    (id : TransactionIdType) (expiration : Nat) :
    (l.foldl (fun dedupe e => dedupe.erase e.1) dedupe).find? id = some expiration ↔
      id ∉ l.map Prod.fst ∧ dedupe.find? id = some expiration := by
  induction l generalizing dedupe with
  | nil => simp
  | cons e rest ih =>
    rw [foldl_cons, ih, FlatMap.find?_erase_eq_some_iff, map_cons, mem_cons, not_or,
      ← and_assoc, and_comm (a := id ∉ rest.map Prod.fst), ne_comm]

/-- In the order of expirations, the entries that have expired come first. -/
theorem mem_takeWhile_expired {now : Int} {l : List (TransactionIdType × Nat)}
    (hsorted : l.Pairwise fun a b => a.2 ≤ b.2) (e : TransactionIdType × Nat) :
    e ∈ l.takeWhile (fun e => timePointSec e.2 < now) ↔ e ∈ l ∧ timePointSec e.2 < now := by
  induction l with
  | nil => simp
  | cons a rest ih =>
    rw [pairwise_cons] at hsorted
    by_cases ha : timePointSec a.2 < now
    · rw [takeWhile_cons_of_pos (by simpa using ha), mem_cons, mem_cons,
        ih hsorted.2, or_and_right]
      exact or_congr_left ⟨fun heq => ⟨heq, heq ▸ ha⟩, And.left⟩
    · rw [takeWhile_cons_of_neg (by simpa using ha)]
      refine iff_of_false not_mem_nil fun he => ?_
      cases mem_cons.mp he.1 with
      | inl heq => exact ha (heq ▸ he.2)
      | inr hmem =>
        have hle := hsorted.1 e hmem
        have hlt := he.2
        simp only [timePointSec] at ha hlt
        omega

theorem find?_clearExpired {now dedupe id expiration} :
    (clearExpiredInputTransactions now dedupe).find? id = some expiration ↔
      dedupe.find? id = some expiration ∧ now ≤ timePointSec expiration := by
  have hsorted : (byExpiration dedupe).Pairwise fun a b => a.2 ≤ b.2 :=
    pairwise_insertionSort _ _
  have hmem : ∀ e, e ∈ byExpiration dedupe ↔ e ∈ dedupe.entries := fun e =>
    (perm_insertionSort _ _).mem_iff
  rw [clearExpiredInputTransactions, find?_foldl_erase, and_comm]
  refine and_congr_right fun hfind => ?_
  rw [← Int.not_lt]
  refine not_congr ⟨fun hin => ?_, fun hlt => ?_⟩
  · obtain ⟨e, he, rfl⟩ := mem_map.mp hin
    obtain ⟨hentry, hlt⟩ := (mem_takeWhile_expired hsorted e).mp he
    have hfind' := (dedupe.mem_entries_iff e.1 e.2).mp ((hmem e).mp hentry)
    cases hfind.symm.trans hfind'
    exact hlt
  · refine mem_map.mpr ⟨(id, expiration), (mem_takeWhile_expired hsorted _).mpr ⟨?_, hlt⟩, rfl⟩
    exact (hmem _).mpr ((dedupe.mem_entries_iff _ _).mpr hfind)

end Table

section Blocks

/-- The rest of the database, and the code that works on it. -/
structure Processing (σ : Type) where
  transactionId : Transaction → TransactionIdType
  maxTransactionLifetime : σ → Nat
  /-- Features, schedules and the implicit transaction at the start of a block. -/
  startBlock : BlockTimestamp → σ → Fallible σ
  /-- The checks of an input transaction apart from its expiration, and `init`. -/
  initInput : Transaction → σ → Fallible σ
  /-- Authorization, actions and billing. -/
  execute : Transaction → σ → Fallible σ
  pushScheduledTransaction : TransactionIdType → σ → Fallible σ
  finalizeBlock : σ → Fallible σ

/-- Equal ids are ids of transactions with equal expiration: the id is a digest of the
transaction. -/
def Processing.IdsDetermineExpiration {σ : Type} (P : Processing σ) : Prop :=
  ∀ t t', P.transactionId t = P.transactionId t' → t.expiration = t'.expiration

structure LedgerState (σ : Type) where
  dedupe : DedupeTable
  rest : σ

inductive ReceiptTransaction where
  | packedTransaction (trx : Transaction)
  | transactionIdType (id : TransactionIdType)
deriving DecidableEq, Repr

structure LedgerBlock where
  timestamp : BlockTimestamp
  transactions : List ReceiptTransaction
deriving DecidableEq, Repr

variable {σ : Type} (P : Processing σ)

/-- `init_for_input_trx`, where no check is skipped and every transaction is recorded. -/
def initForInputTrx (pendingBlockTime : Int) (trx : Transaction) (s : LedgerState σ) :
    Fallible (LedgerState σ) := do
  validateExpiration (P.maxTransactionLifetime s.rest) pendingBlockTime trx
  let rest ← P.initInput trx s.rest
  let dedupe ← recordTransaction (P.transactionId trx) trx.expiration s.dedupe
  return ⟨dedupe, rest⟩

/-- `push_transaction` for an input transaction. One that fails is undone and the block with
it. -/
def pushInputTransaction (pendingBlockTime : Int) (trx : Transaction) (s : LedgerState σ) :
    Fallible (LedgerState σ) := do
  let s ← initForInputTrx P pendingBlockTime trx s
  let rest ← P.execute trx s.rest
  return { s with rest }

def startLedgerBlock (timestamp : BlockTimestamp) (s : LedgerState σ) :
    Fallible (LedgerState σ) := do
  let rest ← P.startBlock timestamp s.rest
  return ⟨clearExpiredInputTransactions timestamp.toTimePoint s.dedupe, rest⟩

def applyReceipts (pendingBlockTime : Int) :
    List ReceiptTransaction → LedgerState σ → Fallible (LedgerState σ)
  | [], s => .ok s
  | .packedTransaction trx :: receipts, s => do
    let s ← pushInputTransaction P pendingBlockTime trx s
    applyReceipts pendingBlockTime receipts s
  | .transactionIdType id :: receipts, s => do
    let rest ← P.pushScheduledTransaction id s.rest
    applyReceipts pendingBlockTime receipts { s with rest }

def applyLedgerBlock (b : LedgerBlock) (s : LedgerState σ) : Fallible (LedgerState σ) := do
  let s ← startLedgerBlock P b.timestamp s
  let s ← applyReceipts P b.timestamp.toTimePoint b.transactions s
  let rest ← P.finalizeBlock s.rest
  return { s with rest }

def applyLedger : List LedgerBlock → LedgerState σ → Fallible (LedgerState σ)
  | [], s => .ok s
  | b :: blocks, s => do
    let s ← applyLedgerBlock P b s
    applyLedger blocks s

def inputsOf (receipts : List ReceiptTransaction) : List Transaction :=
  receipts.filterMap fun
    | .packedTransaction trx => some trx
    | .transactionIdType _ => none

def chainInputs (blocks : List LedgerBlock) : List Transaction :=
  blocks.flatMap fun b => inputsOf b.transactions

/-- At this time, every transaction of the chain that has not expired is in the table, and no
id has been admitted twice. -/
structure Protected (now : Int) (included : List Transaction) (s : LedgerState σ) : Prop where
  recorded : ∀ t ∈ included, now ≤ timePointSec t.expiration →
    s.dedupe.find? (P.transactionId t) = some t.expiration
  nodup : (included.map P.transactionId).Nodup

variable {P} {now : Int} {included : List Transaction} {s s' : LedgerState σ} {trx : Transaction}

theorem Protected.startLedgerBlock {timestamp : BlockTimestamp} (h : Protected P now included s)
    (htime : now ≤ timestamp.toTimePoint) (hok : startLedgerBlock P timestamp s = .ok s') :
    Protected P timestamp.toTimePoint included s' := by
  simp only [DreamChain.startLedgerBlock, bind_eq_ok] at hok
  obtain ⟨rest, _, hok⟩ := hok
  cases hok
  refine ⟨fun t ht hlive => ?_, h.nodup⟩
  exact find?_clearExpired.mpr ⟨h.recorded t ht (htime.trans hlive), hlive⟩

theorem pushInputTransaction_ok
    (h : pushInputTransaction P now trx s = .ok s') : now ≤ timePointSec trx.expiration ∧
      P.transactionId trx ∉ s.dedupe.keys ∧
        s'.dedupe = s.dedupe.insert (P.transactionId trx) trx.expiration := by
  simp only [pushInputTransaction, initForInputTrx, validateExpiration, bind_eq_ok,
    eosAssert_eq_ok] at h
  obtain ⟨s₁, ⟨_, ⟨_, hlive, _⟩, _, _, dedupe, hrecord, hs₁⟩, _, _, hs'⟩ := h
  cases hs₁
  cases hs'
  rw [recordTransaction] at hrecord
  split at hrecord
  · cases hrecord
  · rename_i hnew
    cases hrecord
    exact ⟨hlive, hnew, rfl⟩

section

variable (hids : P.IdsDetermineExpiration) (h : Protected P now included s)
include hids h

/-- An id of an earlier transaction is refused: it would have the same expiration, and so it
would still be in the table. -/
theorem Protected.push (hok : pushInputTransaction P now trx s = .ok s') :
    Protected P now (included ++ [trx]) s' := by
  obtain ⟨hlive, hnew, hdedupe⟩ := pushInputTransaction_ok hok
  have hfresh : ∀ t ∈ included, P.transactionId t ≠ P.transactionId trx := by
    intro t ht heq
    have hrecorded := h.recorded t ht (hids t trx heq ▸ hlive)
    exact hnew (FlatMap.mem_keys_of_find? (heq ▸ hrecorded))
  constructor
  · intro t ht hlive'
    rw [hdedupe]
    cases mem_append.mp ht with
    | inl ht =>
      rw [FlatMap.find?_insert_of_ne _ _ (hfresh t ht).symm]
      exact h.recorded t ht hlive'
    | inr ht =>
      rw [mem_singleton.mp ht]
      exact FlatMap.find?_insert_self _ _ _
  · rw [map_append, map_singleton, ← concat_eq_append, nodup_concat]
    refine ⟨fun hmem => ?_, h.nodup⟩
    obtain ⟨t, ht, heq⟩ := mem_map.mp hmem
    exact hfresh t ht heq

theorem Protected.receipts {receipts : List ReceiptTransaction}
    (hok : applyReceipts P now receipts s = .ok s') :
    Protected P now (included ++ inputsOf receipts) s' := by
  induction receipts generalizing included s with
  | nil =>
    cases hok
    rw [inputsOf, filterMap_nil, append_nil]
    exact h
  | cons receipt rest ih =>
    cases receipt with
    | packedTransaction trx =>
      simp only [applyReceipts, bind_eq_ok] at hok
      obtain ⟨s₁, hpush, hrest⟩ := hok
      have hall := ih (h.push hids hpush) hrest
      rwa [append_assoc] at hall
    | transactionIdType id =>
      simp only [applyReceipts, bind_eq_ok] at hok
      obtain ⟨rest, _, hrest⟩ := hok
      exact ih (s := { s with rest }) ⟨h.recorded, h.nodup⟩ hrest

theorem Protected.block {b : LedgerBlock} (htime : now ≤ b.timestamp.toTimePoint)
    (hok : applyLedgerBlock P b s = .ok s') :
    Protected P b.timestamp.toTimePoint (included ++ inputsOf b.transactions) s' := by
  simp only [applyLedgerBlock, bind_eq_ok] at hok
  obtain ⟨s₁, hstart, s₂, hreceipts, rest, _, hok⟩ := hok
  cases hok
  have hall := (h.startLedgerBlock htime hstart).receipts hids hreceipts
  exact ⟨hall.recorded, hall.nodup⟩

theorem Protected.ledger {blocks : List LedgerBlock}
    (hnow : ∀ b ∈ blocks, now ≤ b.timestamp.toTimePoint)
    (htimes : blocks.Pairwise fun a b => a.timestamp.toTimePoint ≤ b.timestamp.toTimePoint)
    (hok : applyLedger P blocks s = .ok s') :
    ∃ now', Protected P now' (included ++ chainInputs blocks) s' ∧
      ∀ later, now ≤ later → (∀ b ∈ blocks, b.timestamp.toTimePoint ≤ later) → now' ≤ later := by
  induction blocks generalizing now included s with
  | nil =>
    cases hok
    refine ⟨now, ?_, fun later hlater _ => hlater⟩
    rw [chainInputs, flatMap_nil, append_nil]
    exact h
  | cons b rest ih =>
    rw [pairwise_cons] at htimes
    simp only [applyLedger, bind_eq_ok] at hok
    obtain ⟨s₁, hblock, hrest⟩ := hok
    have hfirst := h.block hids (hnow b mem_cons_self) hblock
    obtain ⟨now', hall, hlater⟩ := ih hfirst htimes.1 htimes.2 hrest
    refine ⟨now', ?_, fun later _ hbound => ?_⟩
    · rwa [append_assoc] at hall
    · exact hlater later (hbound b mem_cons_self) fun b hb =>
        hbound b (mem_cons_of_mem _ hb)

end

theorem toTimePoint_mono {t t' : BlockTimestamp} (h : t.slot ≤ t'.slot) :
    t.toTimePoint ≤ t'.toTimePoint := by
  simp only [BlockTimestamp.toTimePoint]
  omega

/-- No id is admitted twice, and at each point of each block the table holds the transactions
of the chain so far that have not expired at the time of the block. -/
theorem replay_protection (P : Processing σ) (hids : P.IdsDetermineExpiration)
    (blocks : List LedgerBlock) (htimes : (blocks.map fun b => b.timestamp.slot).Pairwise (· < ·))
    (s₀ s' : LedgerState σ) (hok : applyLedger P blocks s₀ = .ok s') :
    ((chainInputs blocks).map P.transactionId).Nodup ∧
      ∀ pre b post, blocks = pre ++ b :: post → ∀ done rest, b.transactions = done ++ rest →
        ∀ s₁ s₂ s₃, applyLedger P pre s₀ = .ok s₁ → startLedgerBlock P b.timestamp s₁ = .ok s₂ →
          applyReceipts P b.timestamp.toTimePoint done s₂ = .ok s₃ →
            ∀ t ∈ chainInputs pre ++ inputsOf done,
              b.timestamp.toTimePoint ≤ timePointSec t.expiration →
                s₃.dedupe.find? (P.transactionId t) = some t.expiration := by
  have hordered : ∀ {l : List LedgerBlock}, (l.map fun b => b.timestamp.slot).Pairwise (· < ·) →
      l.Pairwise fun a b => a.timestamp.toTimePoint ≤ b.timestamp.toTimePoint := fun hl =>
    (pairwise_map.mp hl).imp fun hlt => toTimePoint_mono (Nat.le_of_lt hlt)
  -- no block is before the epoch
  have hepoch : ∀ b : LedgerBlock, 0 ≤ b.timestamp.toTimePoint := fun b => by
    simp only [BlockTimestamp.toTimePoint]
    omega
  have hstart : Protected P 0 [] s₀ := ⟨nofun, nodup_nil⟩
  constructor
  · obtain ⟨_, hall, _⟩ := hstart.ledger hids (fun b _ => hepoch b) (hordered htimes) hok
    exact hall.nodup
  · intro pre b post hsplit done rest _ s₁ s₂ s₃ hpre hblock hdone t ht hlive
    rw [hsplit] at htimes
    have hall := pairwise_append.mp (hordered htimes)
    obtain ⟨now', hbefore, hlater⟩ := hstart.ledger hids (fun b _ => hepoch b) hall.1 hpre
    have hle := hlater b.timestamp.toTimePoint (hepoch b) fun a ha =>
      hall.2.2 a ha b mem_cons_self
    exact ((hbefore.startLedgerBlock hle hblock).receipts hids hdone).recorded t ht hlive

section Sample

def sampleProcessing : Processing Unit where
  transactionId t := ⟨t.expiration, 0, 0, 0⟩
  maxTransactionLifetime _ := 3600
  startBlock _ := .ok
  initInput _ := .ok
  execute _ := .ok
  pushScheduledTransaction _ := .ok
  finalizeBlock := .ok

def sampleFirstBlock : LedgerBlock where
  timestamp := ⟨10⟩
  transactions := [.packedTransaction { expiration := 946684805 },
    .packedTransaction { expiration := 946684900 }]

def sampleSecondBlock : LedgerBlock where
  timestamp := ⟨12⟩
  transactions := [.transactionIdType {}, .packedTransaction { expiration := 946684806 }]

/-- One of the two transactions of the first block has expired when the second one starts. -/
theorem replay_protection_secondBlock : ((chainInputs [sampleFirstBlock, sampleSecondBlock]).map
      sampleProcessing.transactionId).Nodup ∧
    ∀ s₁ s₂, applyLedger sampleProcessing [sampleFirstBlock] ⟨.empty, ()⟩ = .ok s₁ →
      startLedgerBlock sampleProcessing ⟨12⟩ s₁ = .ok s₂ →
        s₂.dedupe.find? ⟨946684900, 0, 0, 0⟩ = some 946684900 := by
  obtain ⟨s', hok⟩ : ∃ s', applyLedger sampleProcessing [sampleFirstBlock, sampleSecondBlock]
      ⟨.empty, ()⟩ = .ok s' := by
    decide +kernel
  have hids : sampleProcessing.IdsDetermineExpiration := fun t t' h => congrArg Sha256.hash0 h
  obtain ⟨hnodup, hrecorded⟩ := replay_protection sampleProcessing hids _ (by decide) _ _ hok
  refine ⟨hnodup, fun s₁ s₂ hfirst hsecond => ?_⟩
  exact hrecorded [sampleFirstBlock] sampleSecondBlock [] rfl [] _ rfl s₁ s₂ s₂ hfirst hsecond rfl
    { expiration := 946684900 } (by decide) (by decide)

end Sample

end Blocks

end DreamChain
