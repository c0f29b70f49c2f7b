import DreamChain.Chain.ApplyBlock
import DreamChain.Chain.ForkBranches

/-!
The state of a controller between its methods: its chain database was brought from the root
to the head by the blocks on the path between them, one undo session each, and the flags of
the fork database mark blocks that were applied before. Popping a block, applying one,
marking one valid and deleting one that failed are each described once, as a step from one
such state to another.
-/

namespace DreamChain
open Library List

namespace ForkDatabase

variable {db db' db'' : ForkDatabase} {ids : List BlockIdType}

def mark (ids : List BlockIdType) (b : BlockState) : BlockState :=
  if b.id ∈ ids then { b with validated := true } else b

theorem mark_header (ids : List BlockIdType) (b : BlockState) :
    (mark ids b).toBlockHeaderState = b.toBlockHeaderState := by
  rw [mark]
  split <;> rfl

theorem mark_block (ids : List BlockIdType) (b : BlockState) : (mark ids b).block = b.block := by
  rw [mark]
  split <;> rfl

theorem mark_id (ids : List BlockIdType) (b : BlockState) : (mark ids b).id = b.id :=
  congrArg BlockHeaderState.id (mark_header ids b)

theorem mark_prev (ids : List BlockIdType) (b : BlockState) : prev (mark ids b) = prev b :=
  congrArg (fun s : BlockHeaderState => s.header.previous) (mark_header ids b)

def asValid (b : BlockState) : BlockState := { b with validated := true }

theorem mark_self (b : BlockState) : mark [b.id] b = asValid b :=
  if_pos (mem_singleton_self _)

variable {b : BlockState}

theorem mark_of_not_mem (h : b.id ∉ ids) : mark ids b = b := if_neg h

theorem mark_of_validated (h : b.validated = true) : mark ids b = b := by
  rw [mark]
  split
  · cases b
    simp only at h
    rw [h]
  · rfl

theorem mark_validated : (mark ids b).validated = true ↔ b.id ∈ ids ∨ b.validated = true := by
  rw [mark]
  split
  · rename_i h
    simp [h]
  · rename_i h
    simp [h]

theorem mark_mark (ids ids' : List BlockIdType) (b : BlockState) :
    mark ids' (mark ids b) = mark (ids ++ ids') b := by
  by_cases h : b.id ∈ ids <;> by_cases h' : b.id ∈ ids' <;> simp [mark, h]

/-- The second database has the blocks of the first with some more of them valid. -/
structure Marked (ids : List BlockIdType) (db db' : ForkDatabase) : Prop where
  root : db'.root = db.root
  index : db'.index = db.index.map (mark ids)
  head : db'.head = db.head ∨
    firstPreferred db'.head.toBlockHeaderState db.head.toBlockHeaderState

variable {l : List BlockState}

namespace Marked

theorem refl (db : ForkDatabase) : Marked [] db db := by
  refine ⟨rfl, ?_, .inl rfl⟩
  have hid : mark [] = id := by
    funext b
    exact mark_of_not_mem not_mem_nil
  rw [hid, map_id]

variable (h : Marked ids db db')
include h

theorem trans {ids' : List BlockIdType} (h' : Marked ids' db' db'') :
    Marked (ids ++ ids') db db'' := by
  refine ⟨h'.root.trans h.root, ?_, ?_⟩
  · rw [h'.index, h.index, map_map]
    refine map_congr_left ?_
    intro b _
    exact mark_mark ids ids' b
  · cases h'.head with
    | inl hsame =>
      rw [hsame]
      exact h.head
    | inr hpref =>
      cases h.head with
      | inl hsame => exact .inr (hsame ▸ hpref)
      | inr hpref' => exact .inr (firstPreferred_trans hpref hpref')

theorem getBlockHeader (htree : TreeInvariant db) (htree' : TreeInvariant db') {x : BlockIdType}
    (hroot : db.root.id ∉ ids) (hb : db.getBlockHeader x = some b) :
    db'.getBlockHeader x = some (mark ids b) := by
  refine (getBlockHeader_eq_some htree'.nodup).mpr ?_
  rw [h.root, h.index]
  cases (getBlockHeader_eq_some htree.nodup).mp hb with
  | inl hr =>
    rw [hr.2]
    exact .inl ⟨hr.1, mark_of_not_mem hroot⟩
  | inr hblock =>
    exact .inr ⟨hblock.1, mem_map_of_mem hblock.2.1, (mark_id ids b).trans hblock.2.2⟩

theorem onPath (htree : TreeInvariant db) (htree' : TreeInvariant db') (hroot : db.root.id ∉ ids)
    (hb : OnPath db b l) : OnPath db' (mark ids b) (l.map (mark ids)) := by
  refine ⟨?_, ?_⟩
  · rw [mark_id]
    exact h.getBlockHeader htree htree' hroot hb.header
  · rw [mark_id, h.root, h.index]
    exact hb.path.map (mark_id ids) (mark_prev ids)

end Marked

theorem map_mark_of_validated (hn : (db.index.map fun b => b.id).Nodup)
    (hb : b ∈ db.index) (hvalid : b.validated = true) : db.index.map (mark [b.id]) = db.index := by
  refine (map_congr_left ?_).trans (map_id _)
  intro a ha
  by_cases hid : a.id = b.id
  · rw [inj_on_of_nodup_map hn ha hb hid]
    exact mark_of_validated hvalid
  · exact mark_of_not_mem (by simpa using hid)

theorem setValid_eq_map_mark (index : List BlockState) (id : BlockIdType) :
    setValid index id = index.map (mark [id]) := by
  refine map_congr_left ?_
  intro b _
  simp only [mark, mem_singleton]

theorem markValid_marked (hdb : ForkInvariant db) (hb : b ∈ db.index) :
    ∃ db', db.markValid b = .ok db' ∧ Marked [b.id] db db' ∧ ForkInvariant db' := by
  cases hok : db.markValid b with
  | error e =>
    have hget := (getBlock_eq_some hdb.nodup).mpr ⟨hb, rfl⟩
    simp only [markValid, hget, Option.isNone_some, Bool.false_eq_true, if_false] at hok
    split at hok
    · cases hok
    · split at hok <;> cases hok
  | ok db' =>
    refine ⟨db', rfl, ?_, (hdb.markValid (U := fun _ => True) hok).1⟩
    obtain hsame | ⟨c, _, _, hresult⟩ := markValid_ok hok
    · rw [hsame.2]
      exact ⟨rfl, (map_mark_of_validated hdb.nodup hb hsame.1).symm, .inl rfl⟩
    · rw [hresult]
      refine ⟨rfl, setValid_eq_map_mark _ _, ?_⟩
      by_cases hpref : firstPreferred c.toBlockHeaderState db.head.toBlockHeaderState
      · exact .inr (by simp only [hpref, if_true])
      · exact .inl (by simp only [hpref, if_false])

theorem TreeInvariant.map_mark_path (h : TreeInvariant db) {a : BlockState}
    (l' : List BlockState) (ha : OnPath db a (l' ++ b :: l)) :
    (l' ++ b :: l).map (mark [b.id]) = l' ++ asValid b :: l := by
  have hnodup := nodup_middle.mp (ha.path.nodup h.ranked)
  have hmem := ha.path.mem b (mem_append_right _ mem_cons_self)
  have hother : ∀ x ∈ l' ++ l, mark [b.id] x = x := by
    intro x hx
    refine mark_of_not_mem ?_
    intro hid
    have hxb : x = b := by
      refine inj_on_of_nodup_map h.nodup (ha.path.mem x ?_) hmem (mem_singleton.mp hid)
      exact mem_append.mpr ((mem_append.mp hx).imp_right (mem_cons_of_mem _))
    exact (nodup_cons.mp hnodup).1 (hxb ▸ hx)
  have hsame : ∀ k : List BlockState, (∀ x ∈ k, mark [b.id] x = x) → k.map (mark [b.id]) = k :=
    fun k hk => (map_congr_left hk).trans (map_id _)
  rw [map_append, map_cons, mark_self,
    hsame l' fun x hx => hother x (mem_append_left _ hx),
    hsame l fun x hx => hother x (mem_append_right _ hx)]

namespace Pruned

theorem onPath (h : Pruned db db') (htree : TreeInvariant db) (htree' : TreeInvariant db')
    (hb : OnPath db b l) (hmem : b = db.root ∨ b ∈ db'.index) : OnPath db' b l := by
  have hheader : db'.getBlockHeader b.id = some b := by
    cases hmem with
    | inl hroot =>
      rw [hroot, ← h.root]
      exact htree'.header_root
    | inr hmem => exact htree'.header_block hmem
  refine ⟨hheader, ?_⟩
  rw [h.root]
  clear hheader
  induction l generalizing b with
  | nil => exact hb.path
  | cons a l ih =>
    obtain ⟨rfl, hin, p, hp, hpid, _⟩ := htree.onPath_cons hb
    have hin' : a ∈ db'.index := by
      cases hmem with
      | inl hroot => exact absurd (congrArg (fun b => b.id) hroot) (htree.fresh a hin)
      | inr hmem => exact hmem
    have hp' : p = db.root ∨ p ∈ db'.index := by
      cases (getBlockHeader_eq_some htree.nodup).mp hp.header with
      | inl hroot => exact .inl hroot.2
      | inr hblock => exact .inr (h.parents a hin' p hblock.2.1 hpid)
    have hpath := ih hp hp'
    rw [hpid] at hpath
    exact ⟨hin', rfl, hpath⟩

theorem onPath_of (h : Pruned db db') (htree : TreeInvariant db) (htree' : TreeInvariant db')
    (hb : OnPath db' b l) : OnPath db b l := by
  refine ⟨?_, ?_⟩
  · refine (getBlockHeader_eq_some htree.nodup).mpr ?_
    cases (getBlockHeader_eq_some htree'.nodup).mp hb.header with
    | inl hroot => exact .inl (h.root ▸ hroot)
    | inr hblock =>
      exact .inr ⟨h.root ▸ hblock.1, h.sublist.subset hblock.2.1, rfl⟩
  · rw [← h.root]
    exact hb.path.mono fun a ha => h.sublist.subset (hb.path.mem a ha)

end Pruned

end ForkDatabase

structure LogMatches (P : Primitives) (log : BlockLog) (root : BlockState) : Prop where
  genesisWritten : log.genesisWrittenToBlockLog = true
  firstBlockNum : 1 ≤ log.firstBlockNum ∧ log.firstBlockNum < 2 ^ 32
  entries : root.blockNum + 1 = log.firstBlockNum + log.entries
  head : ∀ block ∈ log.head, block.id P = root.id ∧ block.blockNum = root.blockNum
  empty : log.head = none → log.entries = 0

/-- The blocks of a fork database whose flags mark those that were applied before. The
execution of a valid block, from the base at the root along its path, succeeds. -/
structure AppliedTree {σ : Type} (X : Execution σ) (P : Primitives) (base : UndoStack σ)
    (db : ForkDatabase) : Prop extends ForkDatabase.ForkInvariant db where
  rootParent : ForkDatabase.prev db.root ≠ db.root.id ∧
    ∀ b ∈ db.index, ForkDatabase.prev db.root ≠ b.id
  blocks : ∀ b ∈ db.index, ∃ block, b.block = some block ∧ block.id P = b.id ∧
    block.blockNum = b.blockNum
  validParents : ∀ b ∈ db.index, b.validated = true →
    ∀ p ∈ db.index, p.id = ForkDatabase.prev b → p.validated = true
  applied : ∀ b ∈ db.index, b.validated = true → ∀ l, ForkDatabase.OnPath db b l →
    ∃ d, UndoStack.Trail X.run base l d

/-- The head of a controller: a valid block with its path to the root, or the root itself. The
block state of the root may be another object than the one in the fork database, as it is
when a chain starts from its genesis. -/
structure HeadAt (db : ForkDatabase) (head : BlockState) (l : List BlockState) : Prop where
  path : ForkDatabase.Path db.index db.root.id head.id l
  root : l = [] → head.toBlockHeaderState = db.root.toBlockHeaderState
  block : l ≠ [] → head ∈ db.index ∧ head.validated = true

namespace HeadAt

open ForkDatabase

variable {db : ForkDatabase} {head b : BlockState} {l : List BlockState}

theorem onPath (h : HeadAt db head l) (htree : TreeInvariant db) (hl : l ≠ []) : OnPath db head l :=
  ⟨htree.header_block (h.block hl).1, h.path⟩

theorem of_onPath (htree : TreeInvariant db) (hb : OnPath db b l)
    (hvalid : b = db.root ∨ b.validated = true) : HeadAt db b l := by
  refine ⟨hb.path, ?_, ?_⟩
  · intro hl
    subst hl
    rw [htree.onPath_nil hb]
  · intro hl
    have hmem := htree.onPath_mem hb hl
    exact ⟨hmem.1, hvalid.resolve_left hmem.2⟩

theorem exists_top (h : HeadAt db head l) (htree : TreeInvariant db) :
    ∃ top, OnPath db top l ∧ top.toBlockHeaderState = head.toBlockHeaderState := by
  by_cases hl : l = []
  · subst hl
    exact ⟨db.root, htree.onPath_root, (h.root rfl).symm⟩
  · exact ⟨head, h.onPath htree hl, rfl⟩

end HeadAt

/-- What no step of a fork switch changes. -/
structure SameSetting {σ : Type} (c c' : Controller σ) : Prop where
  blog : c'.blog = c.blog
  readMode : c'.readMode = c.readMode
  replaying : c'.replaying = c.replaying

theorem SameSetting.trans {σ : Type} {c c' c'' : Controller σ} (h : SameSetting c c')
    (h' : SameSetting c' c'') : SameSetting c c'' :=
  ⟨h'.blog.trans h.blog, h'.readMode.trans h.readMode, h'.replaying.trans h.replaying⟩

structure Consistent {σ : Type} (X : Execution σ) (P : Primitives) (base : UndoStack σ)
    (c : Controller σ) (l : List BlockState) : Prop where
  tree : AppliedTree X P base c.forkDb
  head : HeadAt c.forkDb c.head l
  trail : UndoStack.Trail X.run base l c.db
  revision : base.revision = c.forkDb.root.blockNum
  reversible : c.replaying = false → c.reversibleBlocks = l.map fun b => (b.blockNum, b.block)
  log : LogMatches P c.blog c.forkDb.root
  mode : c.readMode ≠ .irreversible

namespace AppliedTree

variable {σ : Type} {X : Execution σ} {P : Primitives} {base : UndoStack σ}
  {db db' : ForkDatabase} {b : BlockState} {l : List BlockState}

open ForkDatabase

variable {d : UndoStack σ} {e : ChainException} {a : BlockState} {la : List BlockState}

section

variable (h : AppliedTree X P base db)
include h

theorem marked (hdb' : ForkInvariant db') (hmarked : Marked [b.id] db db')
    (hb : OnPath db b (b :: l)) (hparent : ∀ p ∈ db.index, p.id = prev b → p.validated = true)
    (htrail : UndoStack.Trail X.run base (b :: l) d) : AppliedTree X P base db' := by
  have hmem : b ∈ db.index := hb.path.1
  have hroot : db.root.id ∉ [b.id] := by
    simpa using Ne.symm (h.fresh b hmem)
  have horigin : ∀ a' ∈ db'.index, ∃ a ∈ db.index, mark [b.id] a = a' := by
    intro a' ha'
    rw [hmarked.index] at ha'
    exact mem_map.mp ha'
  refine ⟨hdb', ⟨?_, ?_⟩, ?_, ?_, ?_⟩
  · rw [hmarked.root]
    exact h.rootParent.1
  · intro a' ha'
    obtain ⟨a, ha, rfl⟩ := horigin a' ha'
    rw [hmarked.root, mark_id]
    exact h.rootParent.2 a ha
  · intro a' ha'
    obtain ⟨a, ha, rfl⟩ := horigin a' ha'
    rw [mark_block, mark_header]
    exact h.blocks a ha
  · intro a' ha' hvalid p' hp' hkey
    obtain ⟨a, ha, rfl⟩ := horigin a' ha'
    obtain ⟨p, hp, rfl⟩ := horigin p' hp'
    rw [mark_id, mark_prev] at hkey
    refine mark_validated.mpr (.inr ?_)
    cases mark_validated.mp hvalid with
    | inl hid =>
      have hab : a = b := inj_on_of_nodup_map h.nodup ha hmem (mem_singleton.mp hid)
      exact hparent p hp (hab ▸ hkey)
    | inr hvalid => exact h.validParents a ha hvalid p hp hkey
  · intro a' ha' hvalid l' hl'
    obtain ⟨a, ha, rfl⟩ := horigin a' ha'
    obtain ⟨la, hla⟩ := h.exists_onPath (h.header_block ha)
    have heq := hdb'.onPath_unique hl'
      (hmarked.onPath h.toTreeInvariant hdb'.toTreeInvariant hroot hla)
    rw [heq]
    have hrun : ∀ s b', X.run s (mark [b.id] b') = X.run s b' := by
      intro s b'
      rw [mark]
      split <;> rfl
    cases mark_validated.mp hvalid with
    | inl hid =>
      have hab : a = b := inj_on_of_nodup_map h.nodup ha hmem (mem_singleton.mp hid)
      subst hab
      rw [h.onPath_unique hla hb]
      exact ⟨d, htrail.map hrun⟩
    | inr hvalid =>
      obtain ⟨d', hd'⟩ := h.applied a ha hvalid la hla
      exact ⟨d', hd'.map hrun⟩

theorem not_descendant (hb : OnPath db b (b :: l)) {d' : UndoStack σ}
    (htrail : UndoStack.Trail X.run base l d) (hfail : X.run d.state b = .error e)
    (ha : OnPath db a la) (hla : UndoStack.Trail X.run base la d') :
    ∀ l', ¬ Path db.index b.id a.id l' := by
  intro l' hl'
  have heq := ha.path.unique h.nodup h.ranked (hb.path.append hl')
  rw [heq] at hla
  obtain ⟨d₁, hd₁, _⟩ := hla.of_append
  cases hd₁ with
  | cons hl hrun =>
    rw [hl.unique htrail, hfail] at hrun
    cases hrun

theorem header_applied (ha : OnPath db a la) (hvalid : a = db.root ∨ a.validated = true) :
    ∃ d, UndoStack.Trail X.run base la d := by
  cases (getBlockHeader_eq_some h.nodup).mp ha.header with
  | inl hroot =>
    have hnil : la = [] := h.onPath_unique ha ⟨ha.header, hroot.1⟩
    subst hnil
    exact ⟨base, .nil⟩
  | inr hblock =>
    cases hvalid with
    | inl hroot => exact absurd (congrArg (fun b => b.id) hroot) hblock.1
    | inr hvalid => exact h.applied a hblock.2.1 hvalid la ha

theorem remove (hb : OnPath db b (b :: l)) (htrail : UndoStack.Trail X.run base l d)
    (hfail : X.run d.state b = .error e) :
    ∃ db', db.remove b.id = .ok db' ∧ AppliedTree X P base db' ∧ Pruned db db' ∧
      ∀ a, a ∈ db'.index ↔ a ∈ db.index ∧ ∀ l', ¬ Path db.index b.id a.id l' := by
  obtain ⟨lh, hlh⟩ := h.exists_onPath h.header_head
  obtain ⟨dh, hdh⟩ := h.header_applied hlh (h.head.imp_right And.right)
  obtain ⟨db', hok, hpruned, hmem⟩ := remove_pruned h.nodup h.height_prev_lt
    (h.not_descendant hb htrail hfail hlh hdh)
  have hdb' := (h.toForkInvariant.remove hok).1
  refine ⟨db', hok, ⟨hdb', ⟨?_, ?_⟩, ?_, ?_, ?_⟩, hpruned, hmem⟩
  · rw [hpruned.root]
    exact h.rootParent.1
  · intro a ha
    rw [hpruned.root]
    exact h.rootParent.2 a (hpruned.sublist.subset ha)
  · intro a ha
    exact h.blocks a (hpruned.sublist.subset ha)
  · intro a ha hvalid p hp
    exact h.validParents a (hpruned.sublist.subset ha) hvalid p (hpruned.sublist.subset hp)
  · intro a ha hvalid la hla
    exact h.applied a (hpruned.sublist.subset ha) hvalid la
      (hpruned.onPath_of h.toTreeInvariant hdb'.toTreeInvariant hla)

end

end AppliedTree

namespace Consistent

open ForkDatabase UndoStack

variable {σ : Type} {X : Execution σ} {P : Primitives} {base : UndoStack σ}
  {c : Controller σ} {b : BlockState} {l : List BlockState}

section

variable (h : Consistent X P base c l)
include h

theorem head_blockNum : c.head.blockNum = c.forkDb.root.blockNum + l.length := by
  obtain ⟨top, htop, hheader⟩ := h.head.exists_top h.tree.toTreeInvariant
  rw [← hheader]
  exact h.tree.onPath_blockNum htop

theorem db_revision : c.db.revision = c.head.blockNum := by
  rw [h.trail.revision_eq, h.revision, h.head_blockNum]

theorem head_onPath (hl : l ≠ []) : OnPath c.forkDb c.head l :=
  h.head.onPath h.tree.toTreeInvariant hl

end

theorem headParent (h : Consistent X P base c (b :: l)) :
    ∃ p, c.headParent = .ok p ∧ OnPath c.forkDb p l ∧ c.head.blockNum = p.blockNum + 1 ∧
      (p = c.forkDb.root ∨ p.validated = true) := by
  have hblock := h.head.block (cons_ne_nil b l)
  obtain ⟨_, _, p, hp, hpid, hnum⟩ := h.tree.onPath_cons (h.head_onPath (cons_ne_nil b l))
  refine ⟨p, ?_⟩
  rw [Controller.headParent, ← hpid]
  cases (getBlockHeader_eq_some h.tree.nodup).mp hp.header with
  | inl hroot =>
    rw [hroot.1, getBlock_eq_none.mpr h.tree.fresh, hroot.2]
    exact ⟨by simp only []; rfl, hroot.2 ▸ hp, hroot.2 ▸ hnum, .inl rfl⟩
  | inr hpmem =>
    rw [(getBlock_eq_some h.tree.nodup).mpr ⟨hpmem.2.1, rfl⟩]
    exact ⟨rfl, hp, hnum, .inr (h.tree.validParents c.head hblock.1 hblock.2 p hpmem.2.1 hpid)⟩

theorem popBlock (h : Consistent X P base c (b :: l)) :
    ∃ c', c.popBlock = (c', .ok ()) ∧ Consistent X P base c' l ∧ c'.db = c.db.undo ∧
      SameSetting c c' ∧ c'.forkDb = c.forkDb ∧
      c'.unapplied = if c.readMode = .speculative then addUnapplied c.unapplied b.trxs
        else c.unapplied := by
  obtain ⟨hbhead, hmem, _⟩ := h.tree.onPath_cons (h.head_onPath (cons_ne_nil b l))
  obtain ⟨block, hblock, _⟩ := h.tree.blocks c.head hmem
  obtain ⟨p, hparent, hp, hnum, hvalid⟩ := h.headParent
  have hnotnone : ¬ (c.readMode = .speculative ∧ c.head.block = none) := by
    rw [hblock]
    exact fun hboth => nomatch hboth.2
  have hpop : c.popBlock = ({ c with
      reversibleBlocks := c.reversibleBlocks.filter fun r => r.1 ≠ c.head.blockNum
      unapplied := if c.readMode = .speculative then addUnapplied c.unapplied c.head.trxs
        else c.unapplied
      head := p
      db := c.db.undo }, .ok ()) := by
    simp only [Controller.popBlock, hparent, if_neg hnotnone]
  refine ⟨_, hpop, ⟨h.tree, .of_onPath h.tree.toTreeInvariant hp hvalid, h.trail.undo,
    h.revision, ?_, h.log, h.mode⟩, rfl,
    ⟨rfl, rfl, rfl⟩, rfl, by rw [hbhead]⟩
  intro hreplay
  have hkept : ∀ r ∈ l.map (fun b => (b.blockNum, b.block)), r.1 ≠ c.head.blockNum := by
    intro r hr
    obtain ⟨a, ha, rfl⟩ := mem_map.mp hr
    have hle := h.tree.onPath_blockNum_le hp a ha
    omega
  rw [h.reversible hreplay, map_cons, hbhead, filter_cons_of_neg (by simp),
    filter_eq_self.mpr fun r hr => decide_eq_true (hkept r hr)]

theorem createReversible (h : Consistent X P base c l) (hnum : b.blockNum = c.head.blockNum + 1) :
    ∃ reversibleBlocks, c.createReversible b = .ok reversibleBlocks ∧ (c.replaying = false →
      reversibleBlocks = (b :: l).map fun b => (b.blockNum, b.block)) := by
  cases hreplay : c.replaying with
  | true => exact ⟨c.reversibleBlocks, by rw [Controller.createReversible, if_pos (.inl hreplay)],
      fun hfalse => nomatch hfalse⟩
  | false =>
    have hnew : b.blockNum ∉ c.reversibleBlocks.map Prod.fst := by
      rw [h.reversible hreplay, map_map]
      intro hmem
      obtain ⟨a, ha, hsame⟩ := mem_map.mp hmem
      have hle := h.tree.onPath_blockNum_le (h.head_onPath (ne_nil_of_mem ha)) a ha
      have hsame : a.blockNum = b.blockNum := hsame
      omega
    refine ⟨(b.blockNum, b.block) :: c.reversibleBlocks, ?_, ?_⟩
    · rw [Controller.createReversible, if_neg, if_neg hnew]
      exact fun hor => hor.elim (fun htrue => nomatch hreplay.symm.trans htrue) h.mode
    · intro _
      rw [h.reversible hreplay, map_cons]

variable {s : σ} {e : ChainException}

section

variable (h : Consistent X P base c l) (hb : OnPath c.forkDb b (b :: l))
include h hb

theorem applyBlock (hrun : X.run c.db.state b = .ok s) :
    ∃ c', c.applyBlock X b = (c', .ok ()) ∧ c'.db = c.db.push s ∧ SameSetting c c' ∧
      c'.forkDb = c.forkDb ∧ c'.unapplied = eraseUnapplied c.unapplied b.inputTransactions ∧
      (c.replaying = false →
        c'.reversibleBlocks = (b :: l).map fun b => (b.blockNum, b.block)) := by
  have hnum := h.tree.onPath_blockNum hb
  have hhead := h.head_blockNum
  rw [length_cons] at hnum
  obtain ⟨reversibleBlocks, hok, hmem⟩ := h.createReversible (show b.blockNum = _ by omega)
  exact ⟨_, Controller.applyBlock_ok h.db_revision hok hrun, rfl, ⟨rfl, rfl, rfl⟩, rfl, rfl, hmem⟩

theorem reapply (hvalid : b.validated = true) (hrun : X.run c.db.state b = .ok s) :
    ∃ c', c.applyBlock X b = (c', .ok ()) ∧ Consistent X P base { c' with head := b } (b :: l) ∧
      c'.db = c.db.push s ∧ SameSetting c c' ∧ c'.forkDb = c.forkDb := by
  obtain ⟨c', hok, hdb, hsame, hfork, _, hreversible⟩ := h.applyBlock hb hrun
  refine ⟨c', hok, ⟨?_, ?_, ?_, ?_, ?_, ?_, ?_⟩, hdb, hsame, hfork⟩
  · exact hfork ▸ h.tree
  · rw [hfork]
    exact .of_onPath h.tree.toTreeInvariant hb (.inr hvalid)
  · rw [hdb]
    exact h.trail.cons hrun
  · rw [hfork]
    exact h.revision
  · exact fun hreplay => hreversible (hsame.replaying ▸ hreplay)
  · rw [hfork, hsame.blog]
    exact h.log
  · rw [hsame.readMode]
    exact h.mode

theorem prev_of_onPath : prev b = c.head.id :=
  hb.path.2.2.start_unique h.head.path

theorem parent_validated : ∀ p ∈ c.forkDb.index, p.id = prev b → p.validated = true := by
  intro p hp hkey
  rw [h.prev_of_onPath hb] at hkey
  by_cases hl : l = []
  · subst hl
    exact absurd (hkey.trans h.head.path) (h.tree.fresh p hp)
  · rw [inj_on_of_nodup_map h.tree.nodup hp (h.head.block hl).1 hkey]
    exact (h.head.block hl).2

theorem applyAndMark (hrun : X.run c.db.state b = .ok s) :
    ∃ c', c.applyAndMark X b = (c', .ok ()) ∧ Consistent X P base c' (asValid b :: l) ∧
      SameSetting c c' ∧ Marked [b.id] c.forkDb c'.forkDb ∧
      c'.unapplied = eraseUnapplied c.unapplied b.inputTransactions := by
  obtain ⟨c₁, hok, hdb, hsame, hfork, hunapplied, hreversible⟩ := h.applyBlock hb hrun
  obtain ⟨db', hmark, hmarked, hinv⟩ := markValid_marked h.tree.toForkInvariant hb.path.1
  have htrail := h.trail.cons hrun
  have hroot : c.forkDb.root.id ∉ [b.id] := by
    simpa using Ne.symm (h.tree.fresh b hb.path.1)
  have hpath := hmarked.onPath h.tree.toTreeInvariant hinv.toTreeInvariant hroot hb
  rw [show (b :: l).map (mark [b.id]) = asValid b :: l from h.tree.map_mark_path [] hb,
    mark_self] at hpath
  refine ⟨{ c₁ with forkDb := db', head := asValid b }, ?_,
    ⟨?_, .of_onPath hinv.toTreeInvariant hpath (.inr rfl), ?_, ?_, ?_, ?_, ?_⟩,
    ⟨hsame.blog, hsame.readMode, hsame.replaying⟩, hmarked, hunapplied⟩
  · simp only [Controller.applyAndMark, hok, Controller.andThen, Controller.markValid, hfork, hmark,
      asValid]
  · exact h.tree.marked hinv hmarked hb (h.parent_validated hb) htrail
  · rw [hdb]
    exact h.trail.cons hrun
  · rw [hmarked.root]
    exact h.revision
  · exact fun hreplay => hreversible (hsame.replaying ▸ hreplay)
  · rw [hsame.blog, hmarked.root]
    exact h.log
  · rw [hsame.readMode]
    exact h.mode

theorem applyAndMark_error (hrun : X.run c.db.state b = .error e) :
    ∃ unapplied, c.applyAndMark X b = ({ c with unapplied }, .error e) := by
  obtain ⟨block, hblock, _⟩ := h.tree.blocks b hb.path.1
  obtain ⟨unapplied, hok⟩ := Controller.applyBlock_error h.db_revision hblock hrun
  exact ⟨unapplied, by simp only [Controller.applyAndMark, hok, Controller.andThen]⟩

end

theorem withUnapplied (h : Consistent X P base c l) (unapplied : UnappliedTransactions) :
    Consistent X P base { c with unapplied } l :=
  ⟨h.tree, h.head, h.trail, h.revision, h.reversible, h.log, h.mode⟩

theorem remove (h : Consistent X P base c l) {lb : List BlockState} {d : UndoStack σ}
    (hb : OnPath c.forkDb b (b :: lb)) (htrail : Trail X.run base lb d)
    (hfail : X.run d.state b = .error e) :
    ∃ db', c.forkDb.remove b.id = .ok db' ∧ Consistent X P base { c with forkDb := db' } l ∧
      Pruned c.forkDb db' ∧
      ∀ a, a ∈ db'.index ↔ a ∈ c.forkDb.index ∧ ∀ l', ¬ Path c.forkDb.index b.id a.id l' := by
  obtain ⟨db', hok, htree, hpruned, hmem⟩ := h.tree.remove hb htrail hfail
  refine ⟨db', hok, ⟨htree, ?_, h.trail, ?_, h.reversible, ?_, h.mode⟩, hpruned, hmem⟩
  · by_cases hl : l = []
    · subst hl
      exact ⟨h.head.path.trans (congrArg (fun b => b.id) hpruned.root).symm,
        fun _ => by rw [hpruned.root]; exact h.head.root rfl, fun hne => absurd rfl hne⟩
    · have hhead := h.head_onPath hl
      have hkept := (hmem c.head).mpr ⟨(h.head.block hl).1,
        h.tree.not_descendant hb htrail hfail hhead h.trail⟩
      exact .of_onPath htree.toTreeInvariant (hpruned.onPath h.tree.toTreeInvariant
        htree.toTreeInvariant hhead (.inr hkept)) (.inr (h.head.block hl).2)
  · rw [hpruned.root]
    exact h.revision
  · rw [hpruned.root]
    exact h.log

end Consistent

end DreamChain
