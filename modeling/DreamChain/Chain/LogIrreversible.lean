import DreamChain.Chain.ControllerInvariant

/-!
Logging irreversible blocks. The blocks on the path of the fork database's head up to its
last irreversible block are appended to the block log, their sessions are committed, and the
newest of them becomes the root. None of this can fail in a consistent controller, and none
of it changes the head or the chain state.
-/

namespace DreamChain
open Library ForkDatabase UndoStack List Controller

variable {σ : Type} {X : Execution σ} {P : Primitives} {base : UndoStack σ}
  {c : Controller σ} {l : List BlockState} {d : UndoStack σ}

namespace LogMatches

variable {log : BlockLog} {r b : BlockState}

theorem append (h : LogMatches P log r) {block : SignedBlock} (hid : block.id P = b.id)
    (hnum : block.blockNum = b.blockNum) (hnext : b.blockNum = r.blockNum + 1) :
    ∃ log', log.append block = .ok log' ∧ LogMatches P log' b ∧ log'.head ≠ none := by
  have hfirst := h.firstBlockNum
  have hentries := h.entries
  have hbound : block.blockNum < 2 ^ 32 := Nat.mod_lt _ (Nat.two_pow_pos 32)
  have hposition : log.entries = subU32 block.blockNum log.firstBlockNum := by
    simp only [subU32, u32]
    omega
  refine ⟨{ log with entries := log.entries + 1, head := some block }, ?_,
    ⟨h.genesisWritten, hfirst, ?_, ?_, nofun⟩, nofun⟩
  · simp only [BlockLog.append, eosAssert, if_pos h.genesisWritten, if_pos hposition]
    rfl
  · show b.blockNum + 1 = log.firstBlockNum + (log.entries + 1)
    omega
  · intro block' hblock'
    cases hblock'
    exact ⟨hid, hnum⟩

theorem libNum (h : LogMatches P c.blog c.forkDb.root) : c.libNum = c.forkDb.root.blockNum := by
  rw [Controller.libNum]
  cases hhead : c.blog.head with
  | some block => exact (h.head block hhead).2
  | none =>
    have hempty := h.empty hhead
    have hfirst := h.firstBlockNum
    have hentries := h.entries
    simp only [subU32, u32]
    omega

theorem checkLogHead (h : LogMatches P c.blog c.forkDb.root) : c.checkLogHead P = .ok () := by
  rw [Controller.checkLogHead]
  cases hhead : c.blog.head with
  | some block => exact eosAssert_eq_ok.mpr (h.head block hhead).1.symm
  | none => exact eosAssert_eq_ok.mpr h.libNum.symm

end LogMatches

theorem Controller.logBlocks_ok (hmode : c.readMode ≠ .irreversible) (htree : TreeInvariant c.forkDb)
    (hblocks : ∀ b ∈ c.forkDb.index, ∃ block, b.block = some block ∧ block.id P = b.id ∧
      block.blockNum = b.blockNum)
    {todo lr : List BlockState} {r b : BlockState} (hr : OnPath c.forkDb r lr)
    (hlog : LogMatches P c.blog r) (hb : OnPath c.forkDb b (todo.reverse ++ lr))
    (htodo : todo ≠ []) (rootId : BlockIdType) : ∃ blog, c.logBlocks X rootId todo = ({ c with
        db := c.db.commit b.blockNum, blog
        reversibleBlocks := c.reversibleBlocks.filter fun r => b.blockNum < r.1 },
        b.id, .ok ()) ∧ LogMatches P blog b ∧ blog.head ≠ none := by
  induction todo generalizing c lr r rootId with
  | nil => exact absurd rfl htodo
  | cons x rest ih =>
    have hx : OnPath c.forkDb x (x :: lr) := by
      have hsplit : (x :: rest).reverse ++ lr = rest.reverse ++ x :: lr := by simp
      exact htree.onPath_of_append (hsplit ▸ hb)
    obtain ⟨_, hmem, p, hp, _, hnum⟩ := htree.onPath_cons hx
    rw [hp.inj hr] at hnum
    obtain ⟨block, hblock, hid, hblockNum⟩ := hblocks x hmem
    obtain ⟨blog, happend, hmatches, hsome⟩ := hlog.append hid hblockNum hnum
    have hstep : c.logBlocks X rootId (x :: rest) = logBlocks X { c with
        db := c.db.commit x.blockNum, blog,
        reversibleBlocks := c.reversibleBlocks.filter fun r => x.blockNum < r.1 } x.id rest := by
      simp only [logBlocks, if_neg hmode, hblock, happend]
    rw [hstep]
    cases rest with
    | nil =>
      have hxb : x = b := hx.inj hb
      subst hxb
      exact ⟨blog, rfl, hmatches, hsome⟩
    | cons y rest =>
      have hb' : OnPath c.forkDb b ((y :: rest).reverse ++ x :: lr) := by simpa using hb
      have hle : x.blockNum ≤ b.blockNum := htree.onPath_blockNum_le hb' x
        (mem_append_right _ mem_cons_self)
      have hboth : ∀ r : Nat × Option SignedBlock, (decide (b.blockNum < r.1) &&
          decide (x.blockNum < r.1)) = decide (b.blockNum < r.1) := by
        intro r
        simp only [Bool.and_eq_left_iff_imp, decide_eq_true_eq]
        exact hle.trans_lt
      obtain ⟨blog', hok, hmatches'⟩ := ih (c := { c with
          db := c.db.commit x.blockNum, blog,
          reversibleBlocks := c.reversibleBlocks.filter fun r => x.blockNum < r.1 })
        hmode htree hblocks hx hmatches hb' (cons_ne_nil _ _) x.id
      refine ⟨blog', ?_, hmatches'⟩
      rw [hok]
      simp only [commit_commit _ hle, filter_filter, hboth]

namespace AppliedTree

variable {db : ForkDatabase} {b : BlockState}

theorem path_validated (h : AppliedTree X P base db) (hb : OnPath db b l)
    (hvalid : b.validated = true) : ∀ a ∈ l, a.validated = true := by
  induction l generalizing b with
  | nil =>
    intro a ha
    cases ha
  | cons x l ih =>
    obtain ⟨rfl, hmem, p, hp, hpid, _⟩ := h.onPath_cons hb
    intro a ha
    cases ha with
    | head => exact hvalid
    | tail _ ha =>
      cases l with
      | nil => cases ha
      | cons y l =>
        obtain ⟨_, hpmem, _⟩ := h.onPath_cons hp
        exact ih hp (h.validParents x hmem hvalid p hpmem hpid) a ha

theorem advanceRoot (h : AppliedTree X P base db) {r : BlockState} {lr lh : List BlockState}
    (hr : OnPath db r (r :: lr)) (hvalid : r.validated = true)
    (hhead : Path db.index r.id db.head.id lh) (htrail : Trail X.run base (r :: lr) d) :
    ∃ db', db.advanceRoot r.id = (db', .ok ()) ∧
      AppliedTree X P { d with undoStack := [] } db' ∧ db'.root = r ∧ db'.head = db.head ∧
      db'.index.Sublist db.index ∧
      (db.head ∈ db.index → db.head.id ≠ r.id → db.head ∈ db'.index) ∧
      ∀ a la, OnPath db' a la → Path db.index r.id a.id la := by
  have hmem := hr.path.1
  obtain ⟨db', hok, htree', hroot', hhead', hsub, hkept⟩ :=
    advanceRoot_ok h.toTreeInvariant hmem hvalid hhead
  have hinv : ForkInvariant db' := by
    have hadvanced := h.toForkInvariant.advanceRoot fun _ _ _ => ⟨lh, hhead⟩
    rw [hok] at hadvanced
    exact hadvanced.1
  have hpath : ∀ a la, OnPath db' a la → Path db.index r.id a.id la := by
    intro a la ha
    have hla := ha.path
    rw [hroot'] at hla
    exact hla.mono fun x hx => hsub.subset (hla.mem x hx)
  have habove : ∀ a ∈ db'.index, r.blockNum < a.blockNum := by
    intro a ha
    obtain ⟨la, hla⟩ := htree'.exists_onPath (htree'.header_block ha)
    have hnum := htree'.onPath_blockNum hla
    cases la with
    | nil => exact absurd hla.path (htree'.fresh a ha)
    | cons x la =>
      rw [hroot', length_cons] at hnum
      omega
  have hprev : db.height (prev r) + 1 = r.blockNum := by
    rw [← h.ranked r hmem, h.height_block hmem]
  refine ⟨db', hok, ⟨hinv, ⟨?_, ?_⟩, ?_, ?_, ?_⟩, hroot', hhead', hsub,
    fun hin hne => hkept _ hin hne ⟨lh, hhead⟩, hpath⟩
  · rw [hroot']
    intro heq
    rw [heq, h.height_block hmem] at hprev
    omega
  · intro a ha heq
    rw [hroot'] at heq
    rw [heq, h.height_block (hsub.subset ha)] at hprev
    have hlt := habove a ha
    omega
  · intro a ha
    exact h.blocks a (hsub.subset ha)
  · intro a ha hvalid' p hp
    exact h.validParents a (hsub.subset ha) hvalid' p (hsub.subset hp)
  · intro a ha hvalid' la hla
    have hold : OnPath db a (la ++ r :: lr) :=
      ⟨h.header_block (hsub.subset ha), hr.path.append (hpath a la hla)⟩
    obtain ⟨d', hd'⟩ := h.applied a (hsub.subset ha) hvalid' _ hold
    obtain ⟨d₁, hd₁, hcommitted⟩ := hd'.commit
    rw [hd₁.unique htrail] at hcommitted
    exact ⟨_, hcommitted⟩

end AppliedTree

/-- What logging irreversible blocks leaves as it is. -/
structure Logged (c c' : Controller σ) : Prop where
  head : c'.head = c.head
  state : c'.db.state = c.db.state
  unapplied : c'.unapplied = c.unapplied
  readMode : c'.readMode = c.readMode
  replaying : c'.replaying = c.replaying
  forkHead : c'.forkDb.head = c.forkDb.head
  index : c'.forkDb.index.Sublist c.forkDb.index
  root : c'.forkDb.root = c.forkDb.root ∨ c'.forkDb.root ∈ c.forkDb.index

theorem Logged.refl (c : Controller σ) : Logged c c :=
  ⟨rfl, rfl, rfl, rfl, rfl, rfl, List.Sublist.refl _, .inl rfl⟩

namespace Consistent

theorem advance (h : Consistent X P base c l) {above lr : List BlockState} {r : BlockState}
    (hsplit : l = above ++ r :: lr) (hhead : c.forkDb.head = c.head) (htrail : Trail X.run base (r :: lr) d)
    {db' : ForkDatabase} (htree : AppliedTree X P { d with undoStack := [] } db')
    (hroot : db'.root = r)
    (hkept : c.forkDb.head ∈ c.forkDb.index → c.forkDb.head.id ≠ r.id → c.forkDb.head ∈ db'.index)
    (hpath : ∀ a la, OnPath db' a la → Path c.forkDb.index r.id a.id la) {blog : BlockLog}
    (hlog : LogMatches P blog r) : Consistent X P { d with undoStack := [] } { c with
      db := c.db.commit r.blockNum, blog
      reversibleBlocks := c.reversibleBlocks.filter fun r' => r.blockNum < r'.1
      forkDb := db' } above := by
  subst hsplit
  have hne : above ++ r :: lr ≠ [] := by simp
  have hcur := h.head_onPath hne
  have hblock := h.head.block hne
  have hr := h.tree.onPath_of_append hcur
  have hnum := h.tree.onPath_blockNum hr
  have hrevision := htrail.revision_eq
  rw [h.revision] at hrevision
  have hheader : db'.getBlockHeader c.head.id = some c.head := by
    by_cases hid : c.head.id = r.id
    · have hsame : c.head = r := by
        have hheader := hcur.header
        rw [hid, hr.header, Option.some.injEq] at hheader
        exact hheader.symm
      rw [hsame, ← hroot]
      exact htree.header_root
    · rw [hhead] at hkept
      exact htree.header_block (hkept hblock.1 hid)
  have hhead' : OnPath db' c.head above := by
    obtain ⟨la, hla⟩ := htree.exists_onPath hheader
    have hfull := hcur.path.unique h.tree.nodup h.tree.ranked (hr.path.append (hpath c.head la hla))
    rw [append_cancel_right hfull]
    exact hla
  refine ⟨htree, .of_onPath htree.toTreeInvariant hhead' (.inr hblock.2), ?_, ?_, ?_, ?_,
    h.mode⟩
  · obtain ⟨d₁, hd₁, hcommitted⟩ := h.trail.commit
    rw [hd₁.unique htrail, h.revision, ← hnum] at hcommitted
    exact hcommitted
  · rw [hroot, hnum, hrevision]
  · intro hreplay
    rw [h.reversible hreplay, map_append, filter_append, filter_eq_self.mpr,
      filter_eq_nil_iff.mpr, append_nil]
    · intro r' hr'
      obtain ⟨a, ha, rfl⟩ := mem_map.mp hr'
      simpa using h.tree.onPath_blockNum_le hr a ha
    · intro r' hr'
      obtain ⟨a, ha, rfl⟩ := mem_map.mp hr'
      have hmem := mem_map_of_mem (f := fun b : BlockState => b.blockNum) ha
      rw [htree.onPath_map_blockNum hhead', mem_reverse, mem_range'_1, hroot] at hmem
      exact decide_eq_true hmem.1
  · rw [hroot]
    exact hlog

/-- `log_irreversible` succeeds and changes neither the head nor the chain state. -/
theorem logIrreversible (h : Consistent X P base c l) :
    ∃ c', c.logIrreversible X P = (c', .ok ()) ∧ Logged c c' ∧
      (c.blog.head ≠ none → c'.blog.head ≠ none) ∧
      (c.forkDb.head.id = c.head.id → ∃ base' l', Consistent X P base' c' l') := by
  rw [Controller.logIrreversible, h.log.checkLogHead]
  simp only [if_neg h.mode]
  by_cases hlib : c.forkDb.head.dposIrreversibleBlocknum ≤ c.libNum
  · rw [if_pos hlib]
    exact ⟨c, rfl, Logged.refl c, id, fun _ => ⟨base, l, h⟩⟩
  · rw [if_neg hlib]
    obtain ⟨lh, hlh⟩ := h.tree.exists_onPath h.tree.header_head
    obtain ⟨above, hsplit, _⟩ := fetchBranch_eq h.tree.toTreeInvariant hlh
      c.forkDb.head.dposIrreversibleBlocknum
    cases hbranch : c.forkDb.fetchBranch c.forkDb.head.id
        c.forkDb.head.dposIrreversibleBlocknum with
    | nil =>
      refine ⟨c, ?_, Logged.refl c, id, fun _ => ⟨base, l, h⟩⟩
      simp only [reverse_nil, logBlocks, advanceRootTo, ne_eq,
        not_true_eq_false, if_false]
    | cons r lr =>
      rw [hbranch] at hsplit
      subst hsplit
      have hr := h.tree.onPath_of_append hlh
      have hforkValid := h.tree.head.resolve_left (h.tree.onPath_mem hlh (by simp)).2
      have hvalid := h.tree.path_validated hlh hforkValid.2 r (mem_append_right _ mem_cons_self)
      obtain ⟨y, hy, hup⟩ := hlh.path.of_append
      rw [← hy.2.1] at hup
      obtain ⟨d, htrail⟩ := h.tree.applied r hr.path.1 hvalid _ hr
      obtain ⟨blog, hok, hlog, hsome⟩ :=
        logBlocks_ok (X := X) h.mode h.tree.toTreeInvariant h.tree.blocks
          h.tree.onPath_root h.log (show OnPath c.forkDb r ((r :: lr).reverse.reverse ++ []) by
            simpa using hr) (by simp) c.forkDb.root.id
      obtain ⟨db', hadvance, htree, hroot, hforkHead, hsub, hkept, hpath⟩ :=
        h.tree.advanceRoot hr hvalid hup htrail
      refine ⟨{ c with
        db := c.db.commit r.blockNum, blog
        reversibleBlocks := c.reversibleBlocks.filter fun r' => r.blockNum < r'.1
        forkDb := db' }, ?_, ⟨rfl, rfl, rfl, rfl, rfl, hforkHead, hsub, ?_⟩, fun _ => hsome, ?_⟩
      · simp only [hok, advanceRootTo, if_pos (h.tree.fresh r hr.path.1), hadvance]
      · exact .inr (hroot ▸ hr.path.1)
      · intro hid
        have hforkPath := hlh.path
        rw [hid] at hforkPath
        have hl := h.head.path.unique h.tree.nodup h.tree.ranked hforkPath
        have hhead : c.forkDb.head = c.head := inj_on_of_nodup_map h.tree.nodup
          (h.tree.onPath_mem hlh (by simp)).1 (h.head.block (by simp [hl])).1 hid
        exact ⟨_, above, h.advance hl hhead htrail htree hroot hkept hpath hlog⟩

end Consistent

end DreamChain
