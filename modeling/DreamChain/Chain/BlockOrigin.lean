import DreamChain.Chain.ApplyBlock
import DreamChain.Chain.ForkInvariant

/-!
Where the block states of a controller come from. A property of block states that does not
depend on their flags, and that every new block state has, holds of all block states in the
fork database and of the head, in every run. Nothing is assumed of the trees or of what
executing a block does.
-/

namespace DreamChain
open Library List Controller

variable {S : BlockState → Prop}

/-- The property does not depend on the flag of a block. -/
def Unflagged (S : BlockState → Prop) : Prop :=
  ∀ b validated, S b → S { b with validated }

namespace ForkDatabase

variable {db db' : ForkDatabase} {b : BlockState}

structure AllBlocks (S : BlockState → Prop) (db : ForkDatabase) : Prop where
  root : S db.root
  head : S db.head
  index : ∀ b ∈ db.index, S b

namespace AllBlocks

variable {id : BlockIdType} {fuel : Nat} {first second : List BlockState}

section

variable (h : AllBlocks S db)
include h

theorem getBlock (hb : db.getBlock id = some b) : S b :=
  h.index b (mem_of_find?_eq_some hb)

theorem pendingHead : S db.pendingHead := by
  rw [ForkDatabase.pendingHead]
  cases hfind : (byLib db.index).find? fun b => !b.validated with
  | none => exact h.head
  | some b =>
    by_cases hpref : firstPreferred b.toBlockHeaderState db.head.toBlockHeaderState
    · simp only [if_pos hpref]
      exact h.index b (mem_byLib.mp (mem_of_find?_eq_some hfind))
    · simp only [if_neg hpref]
      exact h.head

theorem push (hb : S b) : AllBlocks S (db.push b) := by
  have hindex : ∀ a ∈ db.index ++ [b], S a := by
    intro a ha
    cases mem_append.mp ha with
    | inl hmem => exact h.index a hmem
    | inr hmem =>
      rw [mem_singleton.mp hmem]
      exact hb
  refine ⟨h.root, ?_, hindex⟩
  simp only [ForkDatabase.push]
  cases hcandidate : validCandidate (db.index ++ [b]) with
  | none => exact h.head
  | some c => exact hindex c (validCandidate_eq_some hcandidate).1

theorem markValid (hS : Unflagged S) (hok : db.markValid b = .ok db') : AllBlocks S db' := by
  obtain hsame | ⟨c, hc, _, hresult⟩ := markValid_ok hok
  · exact hsame.2 ▸ h
  · have hindex : ∀ a ∈ setValid db.index b.id, S a := by
      intro a ha
      obtain ⟨a', ha', rfl⟩ := mem_map.mp ha
      split
      · exact hS a' true (h.index a' ha')
      · exact h.index a' ha'
    rw [hresult]
    refine ⟨h.root, ?_, hindex⟩
    by_cases hpref : firstPreferred c.toBlockHeaderState db.head.toBlockHeaderState
    · simp only [if_pos hpref]
      exact hindex c (head?_byLib hc).1
    · simp only [if_neg hpref]
      exact h.head

theorem remove (hok : db.remove id = .ok db') : AllBlocks S db' := by
  rw [ForkDatabase.remove] at hok
  split at hok
  · cases hok
    exact ⟨h.root, h.head, fun b hb => h.index b (mem_filter.mp hb).1⟩
  · cases hok
  · cases hok

theorem removeAll (ids : List BlockIdType) : AllBlocks S (db.removeAll ids).1 := by
  induction ids generalizing db with
  | nil => exact h
  | cons id rest ih =>
    rw [ForkDatabase.removeAll]
    cases hok : db.remove id with
    | ok db' => exact ih (h.remove hok)
    | error e => exact h

theorem advanceRoot (id : BlockIdType) : AllBlocks S (db.advanceRoot id).1 := by
  rw [ForkDatabase.advanceRoot]
  cases hb : db.getBlock id with
  | none => exact h
  | some newRoot =>
    simp only
    split
    · cases db.blocksToRemove (db.index.length + 1) newRoot with
      | error e => exact h
      | ok ids =>
        have herased : AllBlocks S { db with index := db.index.filter fun b => b.id ≠ id } :=
          ⟨h.root, h.head, fun b hb => h.index b (mem_filter.mp hb).1⟩
        have hremoved := herased.removeAll ids
        cases hresult : ForkDatabase.removeAll
            { db with index := db.index.filter fun b => b.id ≠ id } ids with
        | mk db' result =>
          rw [hresult] at hremoved
          simp only [hresult]
          cases result with
          | ok _ => exact ⟨h.getBlock hb, hremoved.head, hremoved.index⟩
          | error e => exact hremoved
    · exact h

theorem rootOrBlock (hb : db.rootOrBlock id = .ok b) : S b := by
  rw [ForkDatabase.rootOrBlock] at hb
  split at hb
  · cases hb
    exact h.root
  · cases hget : db.getBlock id with
    | none =>
      rw [hget] at hb
      cases hb
    | some b' =>
      rw [hget] at hb
      cases hb
      exact h.getBlock hget

theorem requireBlock (hb : db.requireBlock id = .ok b) : S b := by
  rw [ForkDatabase.requireBlock] at hb
  cases hget : db.getBlock id with
  | none =>
    rw [hget] at hb
    cases hb
  | some b' =>
    rw [hget] at hb
    cases hb
    exact h.getBlock hget

theorem trimBranch {n branch last} (hb : S b)
    (hok : db.trimBranch n fuel b = .ok (branch, last)) : (∀ x ∈ branch, S x) ∧ S last := by
  induction fuel generalizing b branch with
  | zero => cases hok
  | succ fuel ih =>
    rw [ForkDatabase.trimBranch] at hok
    split at hok
    · simp only [bind_eq_ok] at hok
      obtain ⟨p, hp, r, hr, hresult⟩ := hok
      cases hresult
      obtain ⟨hbranch, hlast⟩ := ih (h.rootOrBlock hp) hr
      exact ⟨forall_mem_cons.mpr ⟨hb, hbranch⟩, hlast⟩
    · cases hok
      exact ⟨fun x hx => (not_mem_nil hx).elim, hb⟩

theorem joinBranches {a : BlockState} (ha : S a) (hb : S b)
    (hok : db.joinBranches fuel a b = .ok (first, second)) :
    (∀ x ∈ first, S x) ∧ ∀ x ∈ second, S x := by
  induction fuel generalizing a b first second with
  | zero => cases hok
  | succ fuel ih =>
    rw [ForkDatabase.joinBranches] at hok
    split at hok
    · simp only [bind_eq_ok] at hok
      obtain ⟨p, hp, q, hq, r, hr, hresult⟩ := hok
      cases hresult
      obtain ⟨hfirst, hsecond⟩ := ih (h.requireBlock hp) (h.requireBlock hq) hr
      exact ⟨forall_mem_cons.mpr ⟨ha, hfirst⟩, forall_mem_cons.mpr ⟨hb, hsecond⟩⟩
    · cases hok
      exact ⟨by simpa using ha, by simpa using hb⟩

theorem fetchBranchFrom {x y : BlockIdType} (hok : db.fetchBranchFrom x y = .ok (first, second)) :
    (∀ b ∈ first, S b) ∧ ∀ b ∈ second, S b := by
  simp only [ForkDatabase.fetchBranchFrom, bind_eq_ok] at hok
  obtain ⟨a, ha, b, hb, ⟨f, a'⟩, hf, ⟨s, b'⟩, hs, hok⟩ := hok
  obtain ⟨hfirst, ha'⟩ := h.trimBranch (h.rootOrBlock ha) hf
  obtain ⟨hsecond, hb'⟩ := h.trimBranch (h.rootOrBlock hb) hs
  split at hok
  · cases hok
    exact ⟨hfirst, hsecond⟩
  · simp only [bind_eq_ok] at hok
    obtain ⟨⟨fj, sj⟩, hjoin, hresult⟩ := hok
    cases hresult
    obtain ⟨hfj, hsj⟩ := h.joinBranches ha' hb' hjoin
    exact ⟨forall_mem_append.mpr ⟨hfirst, hfj⟩, forall_mem_append.mpr ⟨hsecond, hsj⟩⟩

theorem fetchBranch (id : BlockIdType) (n : Nat) : ∀ b ∈ db.fetchBranch id n, S b := by
  intro b hb
  exact h.index b (Forest.mem_climb (mem_filter.mp hb).1)

end

end AllBlocks

end ForkDatabase

namespace Controller

open ForkDatabase

variable {σ : Type} {X : Execution σ} {P : Primitives} {c : Controller σ} {b : BlockState}

structure AllStates (S : BlockState → Prop) (c : Controller σ) : Prop where
  forkDb : AllBlocks S c.forkDb
  head : S c.head

namespace AllStates

theorem andThen {r : Result σ} {f : Controller σ → Result σ} (hr : AllStates S r.1)
    (hf : ∀ c, AllStates S c → AllStates S (f c).1) : AllStates S (andThen r f).1 := by
  cases r with
  | mk c result =>
    cases result with
    | ok _ => exact hf c hr
    | error e => exact hr

section

variable (h : AllStates S c)
include h

theorem headParent (hb : c.headParent = .ok b) : S b := by
  rw [Controller.headParent] at hb
  split at hb
  · rename_i p hp
    cases hb
    exact h.forkDb.getBlock hp
  · simp only [bind_eq_ok] at hb
    obtain ⟨_, _, hb⟩ := hb
    cases hb
    exact h.forkDb.root

theorem popBlock : AllStates S c.popBlock.1 := by
  rw [Controller.popBlock]
  split
  · exact h
  · rename_i p hp
    split
    · exact ⟨h.forkDb, h.head⟩
    · exact ⟨h.forkDb, h.headParent hp⟩

theorem popBlocks (n : Nat) : AllStates S (popBlocks n c).1 := by
  induction n generalizing c with
  | zero => exact h
  | succ n ih => exact h.popBlock.andThen fun c hc => ih hc

theorem applyBlock (b : BlockState) : AllStates S (c.applyBlock X b).1 := by
  obtain ⟨db, reversibleBlocks, unapplied, result, hresult, _⟩ := applyBlock_frame X c b
  rw [hresult]
  exact ⟨h.forkDb, h.head⟩

theorem markValid (hS : Unflagged S) (b : BlockState) : AllStates S (c.markValid b).1 := by
  rw [Controller.markValid]
  split
  · rename_i db hok
    exact ⟨h.forkDb.markValid hS hok, h.head⟩
  · exact h

theorem applyAndMark (hS : Unflagged S) (hb : S b) : AllStates S (c.applyAndMark X b).1 :=
  (h.applyBlock b).andThen fun _ hc => (hc.markValid hS b).andThen fun _ hc =>
    ⟨hc.forkDb, hS b true hb⟩

end

variable {branch oldBranch : List BlockState} {validator : FeatureValidator} {block : SignedBlock}

section

variable (h : AllStates S c)
include h

theorem reapply (hbranch : ∀ b ∈ branch, S b) : AllStates S (c.reapply X branch).1 := by
  induction branch generalizing c with
  | nil => exact h
  | cons b rest ih =>
    refine (h.applyBlock b).andThen fun c hc => ih ⟨hc.forkDb, ?_⟩ ?_
    · exact hbranch b mem_cons_self
    · exact fun x hx => hbranch x (mem_cons_of_mem _ hx)

theorem switchBack (hbranch : ∀ b ∈ oldBranch, S b) (b : BlockState) (applied : Nat)
    (e : ChainException) : AllStates S (c.switchBack X oldBranch b applied e).1 := by
  rw [Controller.switchBack]
  split
  · exact h
  · rename_i db hok
    have hremoved : AllStates S { c with forkDb := db } := ⟨h.forkDb.remove hok, h.head⟩
    refine (hremoved.popBlocks applied).andThen fun c hc => ?_
    split
    · exact hc
    · exact (hc.reapply fun x hx => hbranch x (mem_reverse.mp hx)).andThen fun _ hc => hc

section

variable (hS : Unflagged S)
include hS

theorem applyBranch {todo : List BlockState} (hold : ∀ b ∈ oldBranch, S b) (htodo : ∀ b ∈ todo, S b)
    (applied : Nat) : AllStates S (c.applyBranch X oldBranch applied todo).1 := by
  induction todo generalizing c applied with
  | nil => exact h
  | cons b rest ih =>
    have happlied := h.applyAndMark (X := X) hS (htodo b mem_cons_self)
    rw [applyBranch]
    cases hresult : c.applyAndMark X b with
    | mk c' result =>
      rw [hresult] at happlied
      cases result with
      | ok _ => exact ih happlied (fun x hx => htodo x (mem_cons_of_mem _ hx)) _
      | error e => exact happlied.switchBack hold b applied e

theorem switchForks (newHead : BlockState) : AllStates S (c.switchForks X newHead).1 := by
  rw [Controller.switchForks]
  split
  · exact h
  · rename_i newBranch oldBranch hfetch
    obtain ⟨hnew, hold⟩ := h.forkDb.fetchBranchFrom hfetch
    refine AllStates.andThen ?_ fun c hc =>
      hc.applyBranch hS hold (fun b hb => hnew b (mem_reverse.mp hb)) 0
    rw [popBranch]
    split
    · exact h
    · exact (h.popBlocks _).andThen fun _ hc => hc

theorem extendHead (hb : S b) : AllStates S (c.extendHead X b).1 := by
  have happlied := h.applyAndMark (X := X) hS hb
  rw [Controller.extendHead]
  cases hresult : c.applyAndMark X b with
  | mk c' result =>
    rw [hresult] at happlied
    cases result with
    | ok _ => exact happlied
    | error e =>
      simp only
      split
      · exact happlied
      · rename_i db hok
        exact ⟨happlied.forkDb.remove hok, happlied.head⟩

theorem logBlocks (hbranch : ∀ b ∈ branch, S b) (rootId : BlockIdType) :
    AllStates S (c.logBlocks X rootId branch).1 := by
  induction branch generalizing c rootId with
  | nil => exact h
  | cons b rest ih =>
    have happlied : AllStates S
        (if c.readMode = .irreversible then c.applyAndMark X b else (c, .ok ())).1 := by
      split
      · exact h.applyAndMark hS (hbranch b mem_cons_self)
      · exact h
    rw [logBlocks]
    cases hresult : if c.readMode = .irreversible then c.applyAndMark X b else (c, .ok ()) with
    | mk c' result =>
      rw [hresult] at happlied
      cases result with
      | error e => exact happlied
      | ok _ =>
        simp only
        split
        · exact ⟨happlied.forkDb, happlied.head⟩
        · split
          · exact ⟨happlied.forkDb, happlied.head⟩
          · refine ih ?_ (fun x hx => hbranch x (mem_cons_of_mem _ hx)) b.id
            exact ⟨happlied.forkDb, happlied.head⟩

end

theorem advanceRootTo (rootId : BlockIdType) : AllStates S (c.advanceRootTo rootId).1 := by
  rw [Controller.advanceRootTo]
  split
  · exact ⟨h.forkDb.advanceRoot rootId, h.head⟩
  · exact h

theorem logIrreversible (hS : Unflagged S) : AllStates S (c.logIrreversible X P).1 := by
  rw [Controller.logIrreversible]
  split
  · exact h
  · generalize (if c.readMode = .irreversible then c.forkDb.pendingHead else c.forkDb.head) =
      forkHead
    simp only
    split
    · exact h
    · have hlogged := h.logBlocks (X := X) hS (fun b hb => h.forkDb.fetchBranch forkHead.id
        forkHead.dposIrreversibleBlocknum b (mem_reverse.mp hb)) c.forkDb.root.id
      split <;> rename_i hresult
      · rw [hresult] at hlogged
        exact hlogged.advanceRootTo _
      · rw [hresult] at hlogged
        exact (hlogged.advanceRootTo _).andThen fun _ hc => hc

theorem maybeSwitchForks (hS : Unflagged S) (hb : S b) :
    AllStates S (c.maybeSwitchForks X P b).1 := by
  rw [Controller.maybeSwitchForks]
  split
  · exact (h.extendHead hS hb).andThen fun _ hc => hc.logIrreversible hS
  · split
    · exact (h.switchForks hS b).andThen fun _ hc => hc.logIrreversible hS
    · exact h

theorem addToForkDb (hb : S b) : AllStates S (c.addToForkDb b).1 := by
  rw [Controller.addToForkDb]
  split
  · rename_i db hok
    obtain ⟨_, _, hresult⟩ := add_ok hok
    cases hresult with
    | inl hsame => exact hsame ▸ h
    | inr hpush => exact ⟨hpush.2 ▸ h.forkDb.push hb, h.head⟩
  · exact h

variable (hS : Unflagged S)
include hS

theorem receiveBlock (hnew : ∀ n, c.createBlockState P validator block = .ok n → S n) :
    AllStates S (c.receiveBlock X P validator block).1 := by
  rw [Controller.receiveBlock]
  split
  · rename_i n hok
    refine (h.addToForkDb (hnew n hok)).andThen fun c hc => ?_
    split
    · exact hc.maybeSwitchForks hS hc.forkDb.pendingHead
    · exact hc.logIrreversible hS
  · exact h

theorem commitBlock (hb : S b) : AllStates S (c.commitBlock X P b).1 := by
  refine (h.addToForkDb hb).andThen fun c hc => (hc.markValid hS b).andThen fun c hc => ?_
  have hhead : AllStates S { c with head := c.forkDb.head } := ⟨hc.forkDb, hc.forkDb.head⟩
  simp only
  split
  · split
    · exact AllStates.logIrreversible ⟨hhead.forkDb, hhead.head⟩ hS
    · exact hhead
  · exact hhead

theorem produceBlock (hnew : ∀ n, c.completeBlock P validator block = .ok n → S n) :
    AllStates S (c.produceBlock X P validator block).1 := by
  rw [Controller.produceBlock]
  split
  · exact h
  · rename_i n hok
    split
    · exact h
    · rename_i s _
      have hpending : AllStates S { c with
          db := c.db.push s
          unapplied := eraseUnapplied c.unapplied block.inputTransactions } := ⟨h.forkDb, h.head⟩
      have hcommitted := hpending.commitBlock (X := X) (P := P) hS (hnew n hok)
      cases hresult : Controller.commitBlock X P { c with
          db := c.db.push s
          unapplied := eraseUnapplied c.unapplied block.inputTransactions } n with
      | mk c' result =>
        rw [hresult] at hcommitted
        simp only [hresult]
        cases result with
        | ok _ => exact hcommitted
        | error e => exact ⟨hcommitted.forkDb, hcommitted.head⟩

end

end AllStates

end Controller

theorem ControllerRun.allStates {σ : Type} {X : Execution σ} {P : Primitives}
    {validator : FeatureValidator} {V : BlockHeaderState → Prop} {guard : Controller σ → Prop}
    {c : Controller σ} (hS : Unflagged S)
    (hstart : ∀ genesis state readMode,
      (initializeBlockchainState (σ := σ) P genesis state readMode).AllStates S)
    (hreceive : ∀ (c : Controller σ) b n, c.createBlockState P validator b = .ok n → S n)
    (hproduce : ∀ (c : Controller σ) b n, c.completeBlock P validator b = .ok n → S n)
    (h : ControllerRun X P validator V guard c) : c.AllStates S := by
  induction h with
  | start genesis state readMode _ _ => exact hstart genesis state readMode
  | receive b _ _ _ ih => exact ih.receiveBlock hS (hreceive _ b)
  | produce block _ _ ih => exact ih.produceBlock hS (hproduce _ block)

end DreamChain
