import DreamChain.Chain.BlockOrigin
import DreamChain.Chain.ForkSwitch

/-!
What becomes of the transactions of popped blocks. A switch puts the transactions kept in the
states of the popped blocks back into `unapplied_transactions` and takes out those of the
blocks it applies. The state of a received block keeps none, so that the transactions of
received blocks are lost unless something else holds them.
-/

namespace DreamChain
open Library ForkDatabase List Controller

variable {σ : Type} {X : Execution σ} {P : Primitives} {validator : FeatureValidator}
  {c c' : Controller σ}

variable {u : UnappliedTransactions} {trxs : List TransactionMetadata} {id : DigestType}
  {guard : Controller σ → Prop} {V : BlockHeaderState → Prop}

theorem mem_keys_addUnapplied : id ∈ (addUnapplied u trxs).keys ↔
      id ∈ u.keys ∨ id ∈ trxs.map fun t => t.signedId := by
  induction trxs generalizing u with
  | nil => simp [addUnapplied]
  | cons t rest ih =>
    rw [addUnapplied, foldl_cons, ← addUnapplied, ih, FlatMap.mem_keys_insert,
      map_cons, mem_cons]
    tauto

theorem mem_keys_eraseUnapplied : id ∈ (eraseUnapplied u trxs).keys ↔
      id ∈ u.keys ∧ id ∉ trxs.map fun t => t.signedId := by
  induction trxs generalizing u with
  | nil => simp [eraseUnapplied]
  | cons t rest ih =>
    rw [eraseUnapplied, foldl_cons, ← eraseUnapplied, ih, FlatMap.mem_keys_erase,
      map_cons, mem_cons]
    tauto

namespace Controller

theorem andThen_eq_ok {r f}
    (h : andThen r f = (c', .ok ())) : ∃ c, r = (c, .ok ()) ∧ f c = (c', .ok ()) := by
  cases r with
  | mk c result =>
    cases result with
    | ok _ => exact ⟨c, rfl, h⟩
    | error e => cases h

def poppedBlocks : Nat → Controller σ → List BlockState
  | 0, _ => []
  | n + 1, c => c.head :: poppedBlocks n c.popBlock.1

theorem popBlock_unapplied (hmode : c.readMode = .speculative) (h : c.popBlock = (c', .ok ())) :
    c'.unapplied = addUnapplied c.unapplied c.head.trxs ∧ c'.readMode = c.readMode := by
  rw [popBlock] at h
  split at h
  · cases h
  · split at h
    · cases h
    · cases h
      exact ⟨rfl, rfl⟩

theorem popBlocks_unapplied {n : Nat} (hmode : c.readMode = .speculative)
    (h : popBlocks n c = (c', .ok ())) :
    c'.unapplied = addUnapplied c.unapplied ((poppedBlocks n c).flatMap fun b => b.trxs) ∧
      c'.readMode = c.readMode := by
  induction n generalizing c with
  | zero =>
    cases h
    exact ⟨rfl, rfl⟩
  | succ n ih =>
    obtain ⟨c₁, hpop, hrest⟩ := andThen_eq_ok h
    obtain ⟨hunapplied, hmode₁⟩ := popBlock_unapplied hmode hpop
    obtain ⟨hunapplied', hmode'⟩ := ih (hmode₁.trans hmode) hrest
    refine ⟨?_, hmode'.trans hmode₁⟩
    rw [hunapplied', hunapplied, poppedBlocks, flatMap_cons, addUnapplied_append, hpop]

theorem applyAndMark_unapplied {b : BlockState} (h : c.applyAndMark X b = (c', .ok ())) :
    c'.unapplied = eraseUnapplied c.unapplied b.inputTransactions ∧
      c'.readMode = c.readMode := by
  obtain ⟨c₁, happly, h⟩ := andThen_eq_ok h
  obtain ⟨c₂, hmark, h⟩ := andThen_eq_ok h
  cases h
  obtain ⟨db, reversibleBlocks, unapplied, result, hresult, hunapplied⟩ := applyBlock_frame X c b
  rw [happly] at hresult
  cases hresult
  rw [markValid] at hmark
  split at hmark
  · cases hmark
    exact ⟨hunapplied rfl, rfl⟩
  · cases hmark

theorem switchBack_ne_ok (c : Controller σ) (oldBranch : List BlockState) (b : BlockState)
    (applied : Nat) (e : ChainException) : c.switchBack X oldBranch b applied e ≠ (c', .ok ()) := by
  intro h
  rw [switchBack] at h
  split at h
  · cases h
  · obtain ⟨c₁, _, h⟩ := andThen_eq_ok h
    split at h
    · cases h
    · obtain ⟨c₂, _, h⟩ := andThen_eq_ok h
      cases h

variable {oldBranch : List BlockState}

theorem applyBranch_unapplied {todo applied}
    (h : c.applyBranch X oldBranch applied todo = (c', .ok ())) :
    c'.unapplied = eraseUnapplied c.unapplied (todo.flatMap fun b => b.inputTransactions) ∧
      c'.readMode = c.readMode := by
  induction todo generalizing c applied with
  | nil =>
    cases h
    exact ⟨rfl, rfl⟩
  | cons b rest ih =>
    rw [applyBranch] at h
    split at h
    · rename_i c₁ _ happly
      obtain ⟨hunapplied, hmode⟩ := applyAndMark_unapplied happly
      obtain ⟨hunapplied', hmode'⟩ := ih h
      refine ⟨?_, hmode'.trans hmode⟩
      rw [hunapplied', hunapplied, flatMap_cons, eraseUnapplied_append]
    · exact absurd h (switchBack_ne_ok _ _ _ _ _)

theorem popBranch_unapplied (hmode : c.readMode = .speculative)
    (h : c.popBranch oldBranch = (c', .ok ())) : c'.unapplied = addUnapplied c.unapplied
      ((poppedBlocks oldBranch.length c).flatMap fun b => b.trxs) ∧ c'.readMode = c.readMode := by
  rw [popBranch] at h
  split at h
  · rename_i hnil
    cases h
    rw [hnil]
    exact ⟨rfl, rfl⟩
  · obtain ⟨c₁, hpops, hcheck⟩ := andThen_eq_ok h
    rw [Prod.mk.injEq] at hcheck
    rw [← hcheck.1]
    exact popBlocks_unapplied hmode hpops

theorem switchForks_unapplied {newHead newBranch} (hmode : c.readMode = .speculative)
    (hfetch : c.forkDb.fetchBranchFrom newHead.id c.head.id = .ok (newBranch, oldBranch))
    (h : c.switchForks X newHead = (c', .ok ())) : c'.unapplied = eraseUnapplied
      (addUnapplied c.unapplied ((poppedBlocks oldBranch.length c).flatMap fun b => b.trxs))
      (newBranch.reverse.flatMap fun b => b.inputTransactions) ∧ c'.readMode = c.readMode := by
  rw [switchForks, hfetch] at h
  obtain ⟨c₁, hpop, h⟩ := andThen_eq_ok h
  obtain ⟨hpopped, hmode₁⟩ := popBranch_unapplied hmode hpop
  obtain ⟨happlied, hmode'⟩ := applyBranch_unapplied h
  exact ⟨hpopped ▸ happlied, hmode'.trans hmode₁⟩

theorem logBlocks_unapplied (hmode : c.readMode ≠ .irreversible) (rootId : BlockIdType)
    (branch : List BlockState) : (c.logBlocks X rootId branch).1.unapplied = c.unapplied := by
  induction branch generalizing c rootId with
  | nil => rfl
  | cons b rest ih =>
    simp only [logBlocks, if_neg hmode]
    split
    · rfl
    · split
      · rfl
      · rename_i blog _
        exact ih (c := { c with
          db := c.db.commit b.blockNum
          blog
          reversibleBlocks := c.reversibleBlocks.filter fun r => b.blockNum < r.1 }) hmode b.id

theorem advanceRootTo_unapplied (c : Controller σ) (rootId : BlockIdType) :
    (c.advanceRootTo rootId).1.unapplied = c.unapplied := by
  rw [advanceRootTo]
  split <;> rfl

theorem logIrreversible_unapplied (hmode : c.readMode ≠ .irreversible)
    (h : c.logIrreversible X P = (c', .ok ())) : c'.unapplied = c.unapplied := by
  rw [logIrreversible] at h
  split at h
  · cases h
  · simp only [if_neg hmode] at h
    split at h
    · cases h
      rfl
    · have hlogged := logBlocks_unapplied (X := X) hmode c.forkDb.root.id
        (c.forkDb.fetchBranch c.forkDb.head.id c.forkDb.head.dposIrreversibleBlocknum).reverse
      split at h
      · rename_i c₁ rootId _ hresult
        rw [hresult] at hlogged
        rw [← hlogged, ← advanceRootTo_unapplied c₁ rootId, h]
      · obtain ⟨_, _, h⟩ := andThen_eq_ok h
        cases h

end Controller

def Contains (blocks : List BlockState) (t : TransactionMetadata) : Prop :=
  ∃ b ∈ blocks, t.signedId ∈ b.inputTransactions.map fun t => t.signedId

instance (blocks : List BlockState) (t : TransactionMetadata) : Decidable (Contains blocks t) :=
  inferInstanceAs (Decidable (∃ b ∈ blocks, _))

/-- The state of a received block keeps no transactions, that of a produced one all of them. -/
def Filled (b : BlockState) : Prop := b.trxs = [] ∨ b.trxs = b.inputTransactions

theorem filled_unflagged : Unflagged Filled := fun _ _ h => h

theorem filled_of_createBlockState {b n}
    (h : c.createBlockState P validator b = .ok n) : Filled n := by
  simp only [createBlockState, bind_eq_ok] at h
  obtain ⟨_, _, h⟩ := h
  split at h
  · cases h
  · simp only [BlockState.ofSigned, bind_eq_ok] at h
    obtain ⟨_, _, _, _, hn⟩ := h
    cases hn
    exact .inl rfl

theorem ControllerRun.filled (h : ControllerRun X P validator V guard c) : c.AllStates Filled := by
  refine h.allStates filled_unflagged ?_ ?_ ?_
  · intro genesis state readMode
    exact ⟨⟨.inl rfl, .inl rfl, fun b hb => by cases hb⟩, .inl rfl⟩
  · exact fun c b n hn => filled_of_createBlockState hn
  · intro c b n hn
    simp only [completeBlock, BlockState.ofPending, bind_eq_ok] at hn
    obtain ⟨_, _, _, _, hn⟩ := hn
    cases hn
    exact .inr rfl

theorem Controller.AllStates.poppedBlocks {S : BlockState → Prop} (h : c.AllStates S) (n : Nat) :
    ∀ b ∈ c.poppedBlocks n, S b := by
  induction n generalizing c with
  | zero =>
    intro b hb
    cases hb
  | succ n ih => exact forall_mem_cons.mpr ⟨h.head, ih h.popBlock⟩

/-- Receiving a block leads to a switch from one branch to another that succeeds. The
controller `c₁` is the one that has the new block in its fork database. -/
structure Switches (X : Execution σ) (P : Primitives) (validator : FeatureValidator)
    (c : Controller σ) (b : SignedBlock) (c₁ : Controller σ)
    (newBranch oldBranch : List BlockState) (c' : Controller σ) : Prop where
  created : ∃ n, c.createBlockState P validator b = .ok n ∧ c.addToForkDb n = (c₁, .ok ())
  apart : prev c₁.forkDb.pendingHead ≠ c₁.head.id ∧ c₁.forkDb.pendingHead.id ≠ c₁.head.id
  branches : c₁.forkDb.fetchBranchFrom c₁.forkDb.pendingHead.id c₁.head.id =
    .ok (newBranch, oldBranch)
  result : c.receiveBlock X P validator b = (c', .ok ())

section

variable {b : SignedBlock} {c₁ : Controller σ} {newBranch oldBranch : List BlockState}

theorem Switches.added (h : Switches X P validator c b c₁ newBranch oldBranch c') :
    ∃ forkDb, c₁ = { c with forkDb } := by
  obtain ⟨n, _, hadd⟩ := h.created
  rw [addToForkDb] at hadd
  split at hadd
  · cases hadd
    exact ⟨_, rfl⟩
  · cases hadd

variable {t : TransactionMetadata}

/-- Afterwards unapplied are the transactions that were, and those kept in the states of the
popped blocks, apart from those in the new branch. -/
theorem Switches.mem_unapplied (h : Switches X P validator c b c₁ newBranch oldBranch c')
    (hmode : c.readMode = .speculative) : t.signedId ∈ c'.unapplied.keys ↔
      (t.signedId ∈ c.unapplied.keys ∨ ∃ b ∈ c₁.poppedBlocks oldBranch.length,
        t.signedId ∈ b.trxs.map fun t => t.signedId) ∧ ¬ Contains newBranch t := by
  obtain ⟨forkDb, hc₁⟩ := h.added
  have hmode₁ : c₁.readMode = .speculative := by
    rw [hc₁]
    exact hmode
  have hirr : c₁.readMode ≠ .irreversible := by
    rw [hmode₁]
    exact nofun
  obtain ⟨n, hcreate, hadd⟩ := h.created
  have hresult := h.result
  rw [receiveBlock, hcreate] at hresult
  simp only [pushBlock, hadd, andThen, if_pos hirr,
    maybeSwitchForks, if_neg h.apart.1, if_pos h.apart.2] at hresult
  obtain ⟨c₂, hswitch, hlog⟩ := andThen_eq_ok hresult
  obtain ⟨hunapplied, hmode₂⟩ := switchForks_unapplied hmode₁ h.branches hswitch
  rw [logIrreversible_unapplied (hmode₂ ▸ hirr) hlog, hunapplied,
    mem_keys_eraseUnapplied, mem_keys_addUnapplied, show c₁.unapplied = c.unapplied by rw [hc₁]]
  simp only [Contains, map_flatMap, mem_flatMap, mem_reverse]

theorem Switches.filled (h : Switches X P validator c b c₁ newBranch oldBranch c')
    (hrun : ControllerRun X P validator V guard c) :
    ∀ b ∈ c₁.poppedBlocks oldBranch.length, Filled b := by
  obtain ⟨n, hcreate, hadd⟩ := h.created
  have hadded := hrun.filled.addToForkDb (filled_of_createBlockState hcreate)
  rw [hadd] at hadded
  exact hadded.poppedBlocks _

theorem contains_filled {blocks : List BlockState} (h : ∀ b ∈ blocks, Filled b) :
    Contains (blocks.filter fun b => b.trxs ≠ []) t ↔
      ∃ b ∈ blocks, t.signedId ∈ b.trxs.map fun t => t.signedId := by
  constructor
  · rintro ⟨b, hb, ht⟩
    obtain ⟨hmem, hne⟩ := mem_filter.mp hb
    refine ⟨b, hmem, ?_⟩
    rw [(h b hmem).resolve_left (of_decide_eq_true hne)]
    exact ht
  · rintro ⟨b, hb, ht⟩
    have hne : b.trxs ≠ [] := by
      intro hnil
      rw [hnil] at ht
      cases ht
    refine ⟨b, mem_filter.mpr ⟨hb, decide_eq_true hne⟩, ?_⟩
    rw [← (h b hb).resolve_left hne]
    exact ht

/-- A switch loses no transaction if and only if each transaction of a popped block that was
received is in the new branch, in a popped block that was produced, or was unapplied before. -/
theorem switch_keeps_transactions_iff
    (hrun : ControllerRun X P validator (fun _ => True) (fun _ => True) c)
    (hmode : c.readMode = .speculative) (h : Switches X P validator c b c₁ newBranch oldBranch c') :
    (∀ b ∈ c₁.poppedBlocks oldBranch.length, ∀ t ∈ b.inputTransactions,
        Contains newBranch t ∨ t.signedId ∈ c'.unapplied.keys) ↔
      ∀ b ∈ c₁.poppedBlocks oldBranch.length, b.trxs = [] → ∀ t ∈ b.inputTransactions,
        Contains newBranch t ∨ t.signedId ∈ c.unapplied.keys ∨
          Contains ((c₁.poppedBlocks oldBranch.length).filter fun b => b.trxs ≠ []) t := by
  have hfilled := h.filled hrun
  constructor
  · intro hkept b hb _ t ht
    cases hkept b hb t ht with
    | inl hnew => exact .inl hnew
    | inr hunapplied =>
      cases ((h.mem_unapplied hmode).mp hunapplied).1 with
      | inl hbefore => exact .inr (.inl hbefore)
      | inr hpopped => exact .inr (.inr ((contains_filled hfilled).mpr hpopped))
  · intro hheld b hb t ht
    by_cases hnew : Contains newBranch t
    · exact .inl hnew
    · refine .inr ((h.mem_unapplied hmode).mpr ⟨?_, hnew⟩)
      cases hfilled b hb with
      | inl hempty =>
        cases (hheld b hb hempty t ht).resolve_left hnew with
        | inl hbefore => exact .inl hbefore
        | inr hpopped => exact .inr ((contains_filled hfilled).mp hpopped)
      | inr hfull =>
        exact .inr ⟨b, hb, mem_map.mpr ⟨t, hfull ▸ ht, rfl⟩⟩

end

def sampleTransfer : SignedBlock :=
  { sampleSigned sampleStart.head.id 1 with transactions := [⟨.packed ⟨⟨7, 0, 0, 0⟩, ⟨8, 0, 0, 0⟩⟩⟩] }

def sampleRival : SignedBlock := sampleSigned sampleStart.head.id 2

def sampleRivalChild : SignedBlock := sampleSigned (sampleRival.id runPrimitives) 3

def sampleReceive (c : Controller (List Nat)) (b : SignedBlock) : Controller.Result (List Nat) :=
  c.receiveBlock (refusing []) runPrimitives (fun _ _ _ => .ok ()) b

def sampleBranches (c : Controller σ) : List BlockState × List BlockState :=
  (c.forkDb.fetchBranchFrom c.forkDb.pendingHead.id c.head.id).toOption.getD ([], [])

theorem eq_ok_getD {ε α : Type} {x : Except ε α} (a : α) (h : x.isOk = true) :
    x = .ok (x.toOption.getD a) := by
  cases x with
  | ok _ => rfl
  | error _ => cases h

theorem switches_sample {c b}
    (hcreate : (c.createBlockState runPrimitives (fun _ _ _ => .ok ()) b).isOk = true)
    (hadd : (c.addToForkDb (sampleState c b)).2 = .ok ())
    (hapart : prev (samplePush c b).forkDb.pendingHead ≠ (samplePush c b).head.id ∧
      (samplePush c b).forkDb.pendingHead.id ≠ (samplePush c b).head.id)
    (hfetch : ((samplePush c b).forkDb.fetchBranchFrom (samplePush c b).forkDb.pendingHead.id
      (samplePush c b).head.id).isOk = true)
    (hresult : (sampleReceive c b).2 = .ok ()) :
    Switches (refusing []) runPrimitives (fun _ _ _ => .ok ()) c b (samplePush c b)
      (sampleBranches (samplePush c b)).1 (sampleBranches (samplePush c b)).2
      (sampleReceive c b).1 := by
  refine ⟨⟨sampleState c b, eq_ok_getD c.head hcreate, ?_⟩, hapart, eq_ok_getD ([], []) hfetch,
    Prod.ext rfl hresult⟩
  cases c.addToForkDb_cases (sampleState c b) with
  | inl herror =>
    obtain ⟨e, herror⟩ := herror
    rw [herror] at hadd
    cases hadd
  | inr hpush => exact hpush.2

def sampleReceived : Controller (List Nat) :=
  (sampleReceive (sampleReceive sampleStart sampleTransfer).1 sampleRival).1

/-- The transaction of a received block is lost when the block is popped. -/
theorem receivedTransaction_lost : ∃ (c : Controller (List Nat)) (b : SignedBlock)
    (c₁ : Controller (List Nat)) (newBranch oldBranch : List BlockState)
    (c' : Controller (List Nat)),
    ControllerRun (refusing []) runPrimitives (fun _ _ _ => .ok ()) (fun _ => True)
      (fun _ => True) c ∧ c.readMode = .speculative ∧
      Switches (refusing []) runPrimitives (fun _ _ _ => .ok ()) c b c₁ newBranch oldBranch c' ∧
      ¬ ∀ b ∈ c₁.poppedBlocks oldBranch.length, ∀ t ∈ b.inputTransactions,
        Contains newBranch t ∨ t.signedId ∈ c'.unapplied.keys := by
  have hrun : ControllerRun (refusing []) runPrimitives (fun _ _ _ => .ok ()) (fun _ => True)
      (fun _ => True) sampleReceived :=
    .receive _ (.receive _ (.start {} [] .speculative trivial nofun) trivial fun _ _ => trivial)
      trivial fun _ _ => trivial
  exact ⟨sampleReceived, sampleRivalChild, _, _, _, _, hrun, by decide +kernel,
    switches_sample (by decide +kernel) (by decide +kernel) (by decide +kernel)
      (by decide +kernel) (by decide +kernel), by decide +kernel⟩

def sampleProduced : Controller (List Nat) :=
  (sampleReceive (sampleStart.produceBlock (refusing []) runPrimitives (fun _ _ _ => .ok ())
    sampleTransfer).1 sampleRival).1

/-- The same transaction in a block that was produced is unapplied after the switch. -/
theorem switch_keeps_sampleTransfer :
    (∃ b ∈ (samplePush sampleProduced sampleRivalChild).poppedBlocks
      (sampleBranches (samplePush sampleProduced sampleRivalChild)).2.length,
      b.inputTransactions ≠ []) ∧
    ∀ b ∈ (samplePush sampleProduced sampleRivalChild).poppedBlocks
      (sampleBranches (samplePush sampleProduced sampleRivalChild)).2.length,
      ∀ t ∈ b.inputTransactions,
        Contains (sampleBranches (samplePush sampleProduced sampleRivalChild)).1 t ∨
          t.signedId ∈ (sampleReceive sampleProduced sampleRivalChild).1.unapplied.keys := by
  have hrun : ControllerRun (refusing []) runPrimitives (fun _ _ _ => .ok ()) (fun _ => True)
      (fun _ => True) sampleProduced :=
    .receive _ (.produce _ (.start {} [] .speculative trivial nofun) fun _ _ => trivial)
      trivial fun _ _ => trivial
  refine ⟨by decide +kernel, (switch_keeps_transactions_iff hrun (by decide +kernel)
    (switches_sample (by decide +kernel) (by decide +kernel) (by decide +kernel)
      (by decide +kernel) (by decide +kernel))).mpr (by decide +kernel)⟩

end DreamChain
