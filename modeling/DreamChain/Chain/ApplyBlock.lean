import DreamChain.Chain.Controller

/-!
What `apply_block` does, in terms of the effect of the block on the chain state. The outcome
of a block does not depend on the unapplied transactions; a block that runs pushes one
session, a block that throws leaves the controller as it was, up to the unapplied
transactions.
-/

namespace DreamChain
open Library

variable {block : SignedBlock}

namespace Execution

variable {σ : Type} {X : Execution σ}

variable {bb bb' : BlockInProgress σ}

theorem applyReceipt_congr (h : bb.state = bb'.state) (receipt : TransactionReceipt) :
    (X.applyReceipt bb receipt).2 = (X.applyReceipt bb' receipt).2 ∧
      (X.applyReceipt bb receipt).1.state = (X.applyReceipt bb' receipt).1.state := by
  simp only [applyReceipt, h]
  cases receipt.trx with
  | packed trx =>
    cases hresult : X.pushTransaction bb'.state trx with
    | executed s receiptMatches | failed e erased => simp only [hresult, and_self]
  | transactionId id =>
    cases hresult : X.pushScheduledTransaction bb'.state id with
    | ok s => simp only [hresult, and_self]
    | error e => simp only [hresult, h, and_self]

theorem applyReceipts_congr (h : bb.state = bb'.state) (receipts : List TransactionReceipt) :
    (X.applyReceipts receipts bb).2 = (X.applyReceipts receipts bb').2 ∧
      (X.applyReceipts receipts bb).1.state = (X.applyReceipts receipts bb').1.state := by
  induction receipts generalizing bb bb' with
  | nil => exact ⟨rfl, h⟩
  | cons receipt rest ih =>
    obtain ⟨hresult, hstate⟩ := applyReceipt_congr (X := X) h receipt
    simp only [applyReceipts]
    cases h₁ : X.applyReceipt bb receipt with
    | mk bb₁ r₁ =>
      cases h₂ : X.applyReceipt bb' receipt with
      | mk bb₂ r₂ =>
        rw [h₁, h₂] at hresult hstate
        subst hresult
        cases r₁ with
        | ok _ => exact ih hstate
        | error e => exact ⟨rfl, hstate⟩

theorem run_error_type {s b e}
    (hblock : b.block = some block) (h : X.run s b = .error e) : e.type ≠ .undefinedBehavior := by
  simp only [run, hblock, bind_eq_error] at h
  cases h with
  | inl hext =>
    rw [(eosAssert_eq_error.mp hext).2]
    exact nofun
  | inr h =>
    obtain ⟨_, _, h⟩ := h
    cases hexecute : X.execute s b.toBlockHeaderState block.transactions with
    | ok s' =>
      rw [hexecute] at h
      cases h
    | error e' =>
      rw [hexecute] at h
      cases h
      exact nofun

theorem execute_eq (s : σ) (b : BlockHeaderState) (receipts : List TransactionReceipt)
    (unapplied : UnappliedTransactions) : X.execute s b receipts =
      match X.startBlock s b with
      | .error e => .error e
      | .ok s =>
        let built := X.applyReceipts receipts { state := s, unapplied }
        match built.2 with
        | .error e => .error e
        | .ok _ => X.finalizeBlock built.1.state b := by
  rw [execute]
  cases X.startBlock s b with
  | error e => rfl
  | ok s₁ =>
    have hcongr := applyReceipts_congr (X := X)
      (show (⟨s₁, [], .empty⟩ : BlockInProgress σ).state = (⟨s₁, [], unapplied⟩ :
        BlockInProgress σ).state from rfl) receipts
    dsimp only
    rewrite [hcongr.1, hcongr.2]
    rfl

theorem applyReceipts_unapplied {receipts : List TransactionReceipt}
    (h : (X.applyReceipts receipts bb).2 = .ok ()) :
    (X.applyReceipts receipts bb).1.unapplied = eraseUnapplied bb.unapplied
      (SignedBlock.inputTransactions { transactions := receipts }) := by
  induction receipts generalizing bb with
  | nil => rfl
  | cons receipt rest ih =>
    cases receipt with
    | mk trx =>
      cases trx with
      | packed trx =>
        simp only [applyReceipts, applyReceipt] at h ⊢
        cases hresult : X.pushTransaction bb.state trx with
        | failed e erased =>
          rw [hresult] at h
          cases h
        | executed s receiptMatches =>
          simp only [hresult] at h ⊢
          cases receiptMatches with
          | error e => cases h
          | ok _ => exact ih h
      | transactionId id =>
        simp only [applyReceipts, applyReceipt] at h ⊢
        cases hresult : X.pushScheduledTransaction bb.state id with
        | error e =>
          rw [hresult] at h
          cases h
        | ok s =>
          simp only [hresult] at h ⊢
          exact ih h

end Execution

namespace Controller

variable {σ : Type} {X : Execution σ} {P : Primitives} {c c' : Controller σ} {b : BlockState}

section

variable (hrevision : c.db.revision = c.head.blockNum)
include hrevision

theorem applyBlock_run (hblock : b.block = some block) : ∃ unapplied, c.applyBlock X b =
      match X.run c.db.state b with
      | .error e => ({ c with unapplied }, .error e)
      | .ok s =>
        match c.createReversible b with
        | .error e => ({ c with unapplied }, .error e)
        | .ok reversibleBlocks => ({ c with
            db := c.db.push s
            reversibleBlocks
            unapplied := eraseUnapplied c.unapplied b.inputTransactions }, .ok ()) := by
  simp only [applyBlock, Execution.run, hblock, hrevision, eosAssert, if_true,
    X.execute_eq _ _ _ c.unapplied]
  by_cases hext : block.blockExtensions = []
  case neg => exact ⟨c.unapplied, by rw [if_neg hext]; rfl⟩
  rw [if_pos hext]
  cases X.startBlock c.db.state b.toBlockHeaderState with
  | error e => exact ⟨c.unapplied, rfl⟩
  | ok s =>
    simp only [bind, Except.bind, Except.mapError]
    generalize hbuilt : X.applyReceipts block.transactions ⟨s, [], c.unapplied⟩ = built
    cases hresult : built.2 with
    | error e => exact ⟨(c.abortBlock built.1).unapplied, rfl⟩
    | ok _ =>
      cases X.finalizeBlock built.1.state b.toBlockHeaderState with
      | error e => exact ⟨(c.abortBlock built.1).unapplied, rfl⟩
      | ok s₂ =>
        refine ⟨(c.abortBlock built.1).unapplied, ?_⟩
        have hunapplied := X.applyReceipts_unapplied (hbuilt ▸ hresult)
        rw [hbuilt] at hunapplied
        rw [BlockState.inputTransactions, hblock]
        cases c.createReversible b with
        | error e => rfl
        | ok reversibleBlocks =>
          simp only [hunapplied]
          rfl

theorem applyBlock_ok {s reversibleBlocks}
    (hreversible : c.createReversible b = .ok reversibleBlocks) (h : X.run c.db.state b = .ok s) :
    c.applyBlock X b = ({ c with
      db := c.db.push s
      reversibleBlocks
      unapplied := eraseUnapplied c.unapplied b.inputTransactions }, .ok ()) := by
  cases hblock : b.block with
  | none =>
    rw [Execution.run, hblock] at h
    cases h
  | some block =>
    obtain ⟨_, happly⟩ := applyBlock_run (X := X) hrevision hblock
    rw [happly, h, hreversible]

theorem applyBlock_error {e : ChainException} (hblock : b.block = some block)
    (h : X.run c.db.state b = .error e) :
    ∃ unapplied, c.applyBlock X b = ({ c with unapplied }, .error e) := by
  obtain ⟨unapplied, happly⟩ := applyBlock_run (X := X) hrevision hblock
  exact ⟨unapplied, by rw [happly, h]⟩

end

/-- Whatever the outcome, `apply_block` touches neither the head nor the fork database, and
the transactions of a block that was applied are no longer unapplied. -/
theorem applyBlock_frame (X : Execution σ) (c : Controller σ) (b : BlockState) :
    ∃ db reversibleBlocks unapplied result, c.applyBlock X b = ({ c with
        db, reversibleBlocks, unapplied }, result) ∧
      (result = .ok () → unapplied = eraseUnapplied c.unapplied b.inputTransactions) := by
  rw [applyBlock]
  cases hblock : b.block with
  | none => exact ⟨_, _, _, _, rfl, nofun⟩
  | some block =>
    simp only
    split
    · exact ⟨_, _, _, _, rfl, nofun⟩
    · split
      · exact ⟨_, _, _, _, rfl, nofun⟩
      · rename_i s _ _ hbuilt
        split
        · exact ⟨_, _, _, _, rfl, nofun⟩
        · split
          · exact ⟨_, _, _, _, rfl, nofun⟩
          · refine ⟨_, _, _, _, rfl, fun _ => ?_⟩
            rw [X.applyReceipts_unapplied hbuilt, BlockState.inputTransactions, hblock]
            rfl

end Controller

end DreamChain
