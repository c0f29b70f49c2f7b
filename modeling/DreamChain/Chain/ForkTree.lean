import DreamChain.Chain.ForkDatabase

/-!
The tree behind the fork database and what its operations do to it. The blocks of the
index hang below the root, each one number above its parent and with a last irreversible
block not below it. Every operation is described once here, by the blocks it keeps, and
the later invariants use these descriptions.
-/

namespace DreamChain
open Library List

namespace ForkDatabase

/-- Going up from block `y` through the blocks of `l` ends at `x`. -/
abbrev Path (index : List BlockState) (x y : BlockIdType) (l : List BlockState) : Prop :=
  Forest.Path (fun b : BlockState => b.id) prev index x y l

structure TreeInvariant (db : ForkDatabase) : Prop where
  nodup : (db.index.map fun b => b.id).Nodup
  fresh : ∀ b ∈ db.index, b.id ≠ db.root.id
  linked : ∀ b ∈ db.index, ∃ p, db.getBlockHeader (prev b) = some p ∧
    b.blockNum = p.blockNum + 1 ∧ p.dposIrreversibleBlocknum ≤ b.dposIrreversibleBlocknum

def height (db : ForkDatabase) (x : BlockIdType) : Nat :=
  ((db.getBlock x).getD db.root).blockNum

variable {x : BlockIdType} {b : BlockState} {index : List BlockState} {db : ForkDatabase}
  {p : BlockState}

theorem getBlock_eq_some (hn : (db.index.map fun b => b.id).Nodup) :
    db.getBlock x = some b ↔ b ∈ db.index ∧ b.id = x :=
  Forest.find?_eq_some hn

theorem getBlock_eq_none : db.getBlock x = none ↔ ∀ b ∈ db.index, b.id ≠ x := by
  simp [getBlock]

theorem getBlockHeader_eq_some (hn : (db.index.map fun b => b.id).Nodup) :
    db.getBlockHeader x = some p ↔
      (x = db.root.id ∧ p = db.root) ∨ (x ≠ db.root.id ∧ p ∈ db.index ∧ p.id = x) := by
  simp only [getBlockHeader]
  split
  · rename_i h
    simp [h, eq_comm]
  · rename_i h
    simp [getBlock_eq_some hn, Ne.symm h]

variable {b : BlockState} {l : List BlockState}

namespace TreeInvariant

variable {db : ForkDatabase}

section

variable (h : TreeInvariant db)
include h

theorem height_root : db.height db.root.id = db.root.blockNum := by
  rw [height, getBlock_eq_none.mpr h.fresh]
  rfl

theorem height_block (hb : b ∈ db.index) : db.height b.id = b.blockNum := by
  rw [height, (getBlock_eq_some h.nodup).mpr ⟨hb, rfl⟩]
  rfl

theorem height_header {x : BlockIdType} (hp : db.getBlockHeader x = some p) :
    db.height x = p.blockNum := by
  cases (getBlockHeader_eq_some h.nodup).mp hp with
  | inl hroot =>
    rw [hroot.1, hroot.2]
    exact h.height_root
  | inr hblock =>
    rw [← hblock.2.2]
    exact h.height_block hblock.2.1

theorem ranked : ∀ b ∈ db.index, db.height b.id = db.height (prev b) + 1 := by
  intro b hb
  obtain ⟨p, hp, hnum, _⟩ := h.linked b hb
  rw [h.height_block hb, h.height_header hp, hnum]

theorem height_prev_lt : ∀ b ∈ db.index, db.height (prev b) < db.height b.id :=
  fun b hb => Nat.lt_of_succ_le (h.ranked b hb).ge

theorem acyclic : ∀ b ∈ db.index, ∀ l, ¬ Path db.index b.id (prev b) l := by
  intro b hb l hl
  have hrank := hl.rank_eq h.ranked
  have hlt := h.height_prev_lt b hb
  omega

theorem rooted : Forest.Rooted (fun b : BlockState => b.id) prev db.index db.root.id db.height := by
  refine ⟨h.nodup, ?_, h.fresh, h.ranked⟩
  intro b hb
  obtain ⟨p, hp, _⟩ := h.linked b hb
  cases (getBlockHeader_eq_some h.nodup).mp hp with
  | inl hroot => exact .inl hroot.1
  | inr hblock => exact .inr ⟨p, hblock.2⟩

theorem firstPreferred_of_path
    (hp : db.getBlockHeader p.id = some p) (hpath : Path db.index p.id b.id (b :: l)) :
    firstPreferred b.toBlockHeaderState p.toBlockHeaderState := by
  induction l generalizing b with
  | nil =>
    obtain ⟨q, hq, hnum, hlib⟩ := h.linked b hpath.1
    have hprev : prev b = p.id := hpath.2.2
    rw [hprev, hp, Option.some.injEq] at hq
    subst hq
    simp only [firstPreferred]
    omega
  | cons a l ih =>
    have hnext := hpath.2.2
    have hprev : a.id = prev b := hnext.2.1
    obtain ⟨q, hq, hnum, hlib⟩ := h.linked b hpath.1
    have ha : db.getBlockHeader (prev b) = some a :=
      (getBlockHeader_eq_some h.nodup).mpr
        (.inr ⟨hprev ▸ h.fresh a hnext.1, hnext.1, hprev⟩)
    rw [ha, Option.some.injEq] at hq
    subst hq
    have hstep : firstPreferred b.toBlockHeaderState a.toBlockHeaderState := by
      simp only [firstPreferred]
      omega
    exact firstPreferred_trans hstep (ih ⟨hnext.1, rfl, hnext.2.2⟩)

theorem height_root_le (x : BlockIdType) : db.height db.root.id ≤ db.height x := by
  cases hx : db.getBlock x with
  | none =>
    rw [h.height_root, height, hx]
    exact le_rfl
  | some b =>
    obtain ⟨hb, rfl⟩ := (getBlock_eq_some h.nodup).mp hx
    exact (h.rooted.rank_root_lt b hb).le

theorem header_root : db.getBlockHeader db.root.id = some db.root :=
  (getBlockHeader_eq_some h.nodup).mpr (.inl ⟨rfl, rfl⟩)

theorem header_block (hb : b ∈ db.index) : db.getBlockHeader b.id = some b :=
  (getBlockHeader_eq_some h.nodup).mpr (.inr ⟨h.fresh b hb, hb, rfl⟩)

theorem firstPreferred_root (hb : b ∈ db.index) :
    firstPreferred b.toBlockHeaderState db.root.toBlockHeaderState := by
  obtain ⟨l, hl⟩ := h.rooted.exists_path b hb
  exact h.firstPreferred_of_path h.header_root hl

theorem map (f : BlockState → BlockState)
    (hf : ∀ b, (f b).toBlockHeaderState = b.toBlockHeaderState) (head : BlockState) :
    TreeInvariant { db with index := db.index.map f, head } := by
  have hid : ∀ b, (f b).id = b.id := fun b => congrArg BlockHeaderState.id (hf b)
  have hnodup : ((db.index.map f).map fun b => b.id).Nodup := by
    rw [map_map]
    simpa only [Function.comp_def, hid] using h.nodup
  refine ⟨hnodup, ?_, ?_⟩
  · intro b hb
    obtain ⟨a, ha, rfl⟩ := mem_map.mp hb
    rw [hid]
    exact h.fresh a ha
  · intro b hb
    obtain ⟨a, ha, rfl⟩ := mem_map.mp hb
    obtain ⟨p, hp, hstep⟩ := h.linked a ha
    have hprev : prev (f a) = prev a := by simp only [prev, hf]
    rw [hprev, hf]
    cases (getBlockHeader_eq_some h.nodup).mp hp with
    | inl hroot =>
      exact ⟨p, (getBlockHeader_eq_some hnodup).mpr (.inl hroot), hstep⟩
    | inr hblock =>
      refine ⟨f p, (getBlockHeader_eq_some hnodup).mpr (.inr ⟨hblock.1,
        mem_map_of_mem hblock.2.1, (hid p).trans hblock.2.2⟩), ?_⟩
      rw [hf]
      exact hstep

theorem restrict {index root head} (hsub : index.Sublist db.index)
    (hroot : db.getBlockHeader root.id = some root) (hfresh : ∀ b ∈ index, b.id ≠ root.id)
    (hlinked : ∀ b ∈ index, prev b = root.id ∨ ∃ p ∈ index, p.id = prev b) :
    TreeInvariant { index, root, head } := by
  have hnodup := h.nodup.sublist (hsub.map fun b : BlockState => b.id)
  refine ⟨hnodup, hfresh, ?_⟩
  intro b hb
  obtain ⟨p, hp, hstep⟩ := h.linked b (hsub.subset hb)
  refine ⟨p, (getBlockHeader_eq_some hnodup).mpr ?_, hstep⟩
  obtain hprev | ⟨q, hq, hkey⟩ := hlinked b hb
  · rw [hprev, hroot, Option.some.injEq] at hp
    exact .inl ⟨hprev, hp.symm⟩
  · have hne : prev b ≠ root.id := hkey ▸ hfresh q hq
    have hheader := h.header_block (hsub.subset hq)
    rw [hkey, hp, Option.some.injEq] at hheader
    exact .inr ⟨hne, hheader ▸ hq, hheader ▸ hkey⟩

end

end TreeInvariant

theorem mem_byLib : b ∈ byLib index ↔ b ∈ index :=
  (perm_insertionSort _ index).mem_iff

theorem byLib_sorted (index : List BlockState) :
    (byLib index).Pairwise fun a b => a.byLibBlockNum ≤ b.byLibBlockNum :=
  pairwise_insertionSort _ index

theorem head?_byLib {c : BlockState} (h : (byLib index).head? = some c) :
    c ∈ index ∧ ∀ b ∈ index, c.byLibBlockNum ≤ b.byLibBlockNum := by
  have hsorted := byLib_sorted index
  cases hlist : byLib index with
  | nil =>
    rw [hlist] at h
    cases h
  | cons a rest =>
    rw [hlist] at h hsorted
    cases h
    refine ⟨mem_byLib.mp (by rw [hlist]; exact mem_cons_self), ?_⟩
    intro b hb
    rw [← mem_byLib, hlist] at hb
    cases hb with
    | head => exact le_rfl
    | tail _ hb => exact (pairwise_cons.mp hsorted).1 b hb

theorem head?_byLib_isSome (hb : b ∈ index) : ∃ c, (byLib index).head? = some c := by
  cases hlist : byLib index with
  | nil =>
    rw [← mem_byLib, hlist] at hb
    cases hb
  | cons a rest => exact ⟨a, rfl⟩

section Remove

variable {db : ForkDatabase} {rank : BlockIdType → Nat}

variable {id : BlockIdType}

theorem remove_ok (hn : (db.index.map fun b => b.id).Nodup)
    (hr : ∀ b ∈ db.index, rank (prev b) < rank b.id)
    (hhead : ∀ l, ¬ Path db.index id db.head.id l) :
    ∃ queue : List BlockIdType, (∀ y, y ∈ queue ↔ ∃ l, Path db.index id y l) ∧
      db.remove id = .ok { db with index := db.index.filter fun b => b.id ∉ queue } := by
  have hfuel := Forest.run_children_ne_exhausted hn hr (fun x => x = db.head.id) id
  rw [remove]
  cases hrun : Worklist.run db.childrenOf (fun x => x = db.head.id) (db.index.length + 1)
      [id] [] with
  | exhausted => exact absurd hrun hfuel
  | stopped z =>
    obtain ⟨hstop, x, hx, hreach⟩ := Worklist.of_stopped hrun
    rw [mem_singleton.mp hx] at hreach
    obtain ⟨l, hl⟩ := Forest.reach_children_iff.mp hreach
    rw [of_decide_eq_true hstop] at hl
    exact absurd hl (hhead l)
  | done queue =>
    refine ⟨queue, ?_, rfl⟩
    intro y
    rw [Worklist.mem_of_done hrun y]
    simp only [not_mem_nil, false_or, mem_singleton, exists_eq_left]
    exact Forest.reach_children_iff

theorem head_of_remove_ok {db' : ForkDatabase} (h : db.remove id = .ok db') :
    ∀ l, ¬ Path db.index id db.head.id l := by
  intro l hl
  rw [remove] at h
  cases hrun : Worklist.run db.childrenOf (fun x => x = db.head.id) (db.index.length + 1)
      [id] [] with
  | exhausted | stopped z =>
    rw [hrun] at h
    cases h
  | done queue =>
    have hmem : db.head.id ∈ queue := by
      rw [Worklist.mem_of_done hrun]
      exact .inr ⟨id, mem_singleton_self _, Forest.reach_children_iff.mpr ⟨l, hl⟩⟩
    cases Worklist.not_stop_of_done hrun _ hmem with
    | inl hnil => cases hnil
    | inr hstop => simp at hstop

theorem remove_error (hn : (db.index.map fun b => b.id).Nodup)
    (hr : ∀ b ∈ db.index, rank (prev b) < rank b.id) (hhead : Path db.index id db.head.id l) :
    db.remove id = .error ⟨.forkDatabaseException,
      "removing the block and its descendants would remove the current head block"⟩ := by
  have hfuel := Forest.run_children_ne_exhausted hn hr (fun x => x = db.head.id) id
  cases hresult : db.remove id with
  | ok db' => exact absurd hhead (head_of_remove_ok hresult l)
  | error e =>
    rw [remove] at hresult
    split at hresult
    · cases hresult
    · exact hresult.symm
    · rename_i hrun
      exact absurd hrun hfuel

/-- What is left of an index after some subtrees have been removed. -/
structure Pruned (before after : ForkDatabase) : Prop where
  root : after.root = before.root
  head : after.head = before.head
  sublist : after.index.Sublist before.index
  /-- A block whose parent was there still has it. -/
  parents : ∀ b ∈ after.index, ∀ p ∈ before.index, p.id = prev b → p ∈ after.index
  /-- The head was not removed. -/
  kept : before.head ∈ before.index → before.head ∈ after.index

theorem Pruned.refl (db : ForkDatabase) : Pruned db db :=
  ⟨rfl, rfl, List.Sublist.refl _, fun _ _ _ hp _ => hp, id⟩

theorem Pruned.trans {a b c : ForkDatabase} (hab : Pruned a b) (hbc : Pruned b c) : Pruned a c := by
  refine ⟨hbc.root.trans hab.root, hbc.head.trans hab.head, hbc.sublist.trans hab.sublist, ?_, ?_⟩
  · intro x hx p hp hkey
    exact hbc.parents x hx p (hab.parents x (hbc.sublist.subset hx) p hp hkey) hkey
  · intro hmem
    rw [← hab.head]
    exact hbc.kept (hab.head ▸ hab.kept hmem)

theorem remove_pruned (hn : (db.index.map fun b => b.id).Nodup)
    (hr : ∀ b ∈ db.index, rank (prev b) < rank b.id)
    (hhead : ∀ l, ¬ Path db.index id db.head.id l) : ∃ db', db.remove id = .ok db' ∧ Pruned db db' ∧
      (∀ b, b ∈ db'.index ↔ b ∈ db.index ∧ ∀ l, ¬ Path db.index id b.id l) := by
  obtain ⟨queue, hqueue, hok⟩ := remove_ok hn hr hhead
  have hmem : ∀ b, b ∈ (db.index.filter fun b => b.id ∉ queue) ↔
      b ∈ db.index ∧ ∀ l, ¬ Path db.index id b.id l := by
    intro b
    simp only [mem_filter, decide_eq_true_eq, hqueue, not_exists]
  refine ⟨_, hok, ⟨rfl, rfl, filter_sublist, ?_, ?_⟩, hmem⟩
  · intro b hb p hp hkey
    have hb' := (hmem b).mp hb
    refine (hmem p).mpr ⟨hp, ?_⟩
    intro l hl
    exact hb'.2 (b :: l) ⟨hb'.1, rfl, hkey ▸ hl⟩
  · intro hin
    exact (hmem db.head).mpr ⟨hin, hhead⟩

theorem removeAll_pruned (hn : (db.index.map fun b => b.id).Nodup)
    (hr : ∀ b ∈ db.index, rank (prev b) < rank b.id) {ids : List BlockIdType}
    (hhead : ∀ id ∈ ids, ∀ l, ¬ Path db.index id db.head.id l) :
    ∃ db', db.removeAll ids = (db', .ok ()) ∧ Pruned db db' ∧
      (∀ id ∈ ids, ∀ b ∈ db'.index, prev b ≠ id) ∧
      ∀ b ∈ db.index, (∀ id ∈ ids, ∀ l, ¬ Path db.index id b.id l) → b ∈ db'.index := by
  induction ids generalizing db with
  | nil => exact ⟨db, rfl, Pruned.refl db, nofun, fun b hb _ => hb⟩
  | cons id rest ih =>
    obtain ⟨db₁, hremove, hpruned, hmem⟩ :=
      remove_pruned hn hr (hhead id mem_cons_self)
    have hpath {x y : BlockIdType} {l : List BlockState} (hl : Path db₁.index x y l) :
        Path db.index x y l :=
      hl.mono fun b hb => hpruned.sublist.subset (hl.mem b hb)
    have hrest : ∀ id ∈ rest, ∀ l, ¬ Path db₁.index id db₁.head.id l := by
      intro x hx l hl
      rw [hpruned.head] at hl
      exact hhead x (mem_cons_of_mem _ hx) l (hpath hl)
    obtain ⟨db₂, hall, hpruned₂, hgone, hkept⟩ := ih
      (hn.sublist (hpruned.sublist.map fun b : BlockState => b.id))
      (fun b hb => hr b (hpruned.sublist.subset hb)) hrest
    refine ⟨db₂, by rw [removeAll, hremove]; exact hall, hpruned.trans hpruned₂, ?_, ?_⟩
    · intro x hx b hb
      cases hx with
      | tail _ hx => exact hgone x hx b hb
      | head =>
        intro hprev
        have hb₁ := (hmem b).mp (hpruned₂.sublist.subset hb)
        exact hb₁.2 [b] ⟨hb₁.1, rfl, hprev⟩
    · intro b hb hfree
      refine hkept b ((hmem b).mpr ⟨hb, hfree id mem_cons_self⟩) ?_
      exact fun x hx l hl => hfree x (mem_cons_of_mem _ hx) l (hpath hl)

end Remove

section AdvanceRoot

variable {db : ForkDatabase}

theorem blocksToRemove_ok (h : TreeInvariant db)
    (hpath : Path db.index db.root.id b.id (b :: l)) (fuel : Nat) (hfuel : l.length < fuel) :
    db.blocksToRemove fuel b = .ok ((b :: l).map prev) := by
  induction l generalizing b fuel with
  | nil =>
    cases fuel with
    | zero => exact absurd hfuel (Nat.not_lt_zero _)
    | succ fuel =>
      have hprev : prev b = db.root.id := hpath.2.2
      have hnone : db.getBlock (prev b) = none := by
        rw [hprev]
        exact getBlock_eq_none.mpr h.fresh
      rw [blocksToRemove, hnone, eosAssert, if_pos hprev]
      rfl
  | cons p l ih =>
    cases fuel with
    | zero => exact absurd hfuel (Nat.not_lt_zero _)
    | succ fuel =>
      have hnext := hpath.2.2
      have hsome : db.getBlock (prev b) = some p :=
        (getBlock_eq_some h.nodup).mpr ⟨hnext.1, hnext.2.1⟩
      have hrest := ih (b := p) ⟨hnext.1, rfl, hnext.2.2⟩ fuel (Nat.lt_of_succ_lt_succ hfuel)
      simp only [blocksToRemove, hsome, hrest]
      rfl

theorem not_path_erased (h : TreeInvariant db) {y : BlockIdType} {ly : List BlockState}
    (hpath : Path db.index db.root.id b.id (b :: l)) (hy : Path db.index b.id y ly) :
    ∀ id ∈ (b :: l).map prev, ∀ l', ¬ Path (db.index.filter fun a => a.id ≠ b.id) id y l' := by
  intro id hid l' hl'
  obtain ⟨a, ha, rfl⟩ := mem_map.mp hid
  obtain ⟨above, below, hsplit⟩ := append_of_mem ha
  rw [hsplit] at hpath
  rw [← singleton_append, ← append_assoc] at hpath
  obtain ⟨x, hbelow, habove⟩ := Forest.Path.of_append hpath
  have hlast : x = prev a := by
    obtain ⟨_, hlast, _⟩ := Forest.Path.of_append habove
    exact hlast.2.2.symm
  rw [hlast] at habove
  have hfull := hl'.mono fun c hc => (mem_filter.mp (hl'.mem c hc)).1
  have heq := hfull.unique h.nodup h.ranked (habove.append hy)
  have hb : b ∈ above ++ [a] := by
    cases above with
    | nil =>
      rw [nil_append, cons.injEq] at hsplit
      rw [hsplit.1]
      exact mem_singleton_self _
    | cons c above =>
      rw [cons_append, cons.injEq] at hsplit
      rw [hsplit.1]
      exact mem_cons_self
  have hin := hl'.mem b (by rw [heq]; exact mem_append_right _ hb)
  simpa using (mem_filter.mp hin).2

theorem advanceRoot_ok (h : TreeInvariant db) (hb : b ∈ db.index) (hvalid : b.validated = true)
    {lh : List BlockState} (hhead : Path db.index b.id db.head.id lh) :
    ∃ db', db.advanceRoot b.id = (db', .ok ()) ∧ TreeInvariant db' ∧ db'.root = b ∧
      db'.head = db.head ∧ db'.index.Sublist db.index ∧
      ∀ a ∈ db.index, a.id ≠ b.id → (∃ l, Path db.index b.id a.id l) → a ∈ db'.index := by
  obtain ⟨l, hpath⟩ := h.rooted.exists_path b hb
  have hlength := hpath.length_le h.ranked
  have hids := blocksToRemove_ok h hpath (db.index.length + 1)
    (by rw [length_cons] at hlength; omega)
  let erased : ForkDatabase := { db with index := db.index.filter fun a => a.id ≠ b.id }
  have herased : erased.index.Sublist db.index := filter_sublist
  obtain ⟨db', hall, hpruned, hgone, hkept⟩ := removeAll_pruned
    (h.nodup.sublist (herased.map fun b : BlockState => b.id))
    (fun a ha => h.height_prev_lt a (herased.subset ha)) (not_path_erased h hpath hhead)
  have hsub : db'.index.Sublist db.index := hpruned.sublist.trans herased
  have hfresh : ∀ a ∈ db'.index, a.id ≠ b.id := by
    intro a ha
    simpa using (mem_filter.mp (hpruned.sublist.subset ha)).2
  refine ⟨{ db' with root := b }, ?_, ?_, rfl, hpruned.head, hsub, ?_⟩
  · simp only [advanceRoot, (getBlock_eq_some h.nodup).mpr ⟨hb, rfl⟩, hvalid, if_true, hids]
    rw [hall]
  · refine h.restrict hsub (h.header_block hb) hfresh ?_
    intro a ha
    obtain hroot | ⟨p, hp, hkey⟩ := h.rooted.linked a (hsub.subset ha)
    · refine absurd hroot (hgone _ ?_ a ha)
      obtain ⟨c, hc, hcroot⟩ := hpath.exists_child
      rw [← hcroot]
      exact mem_map_of_mem hc
    · by_cases hpb : p.id = b.id
      · exact .inl (hkey.symm.trans hpb)
      · exact .inr ⟨p, hpruned.parents a ha p (mem_filter.mpr ⟨hp, by simpa using hpb⟩)
          hkey, hkey⟩
  · rintro a ha hne ⟨la, hla⟩
    exact hkept a (mem_filter.mpr ⟨ha, by simpa using hne⟩) (not_path_erased h hpath hla)

/-- `advance_root` to a valid block on the way to the head leaves exactly the blocks that build
on it. -/
theorem advanceRoot_exact (h : TreeInvariant db) {b : BlockState} (hb : b ∈ db.index)
    (hvalid : b.validated = true) (hhead : ∃ l, Path db.index b.id db.head.id l) :
    ∃ db', db.advanceRoot b.id = (db', .ok ()) ∧ db'.root = b ∧ db'.head = db.head ∧
      ∀ a, a ∈ db'.index ↔ a ∈ db.index ∧ a.id ≠ b.id ∧ ∃ l, Path db.index b.id a.id l := by
  obtain ⟨lh, hlh⟩ := hhead
  obtain ⟨db', hok, htree, hroot, hsame, hsub, hkept⟩ := advanceRoot_ok h hb hvalid hlh
  refine ⟨db', hok, hroot, hsame, fun a => ⟨fun ha => ?_, fun ha => hkept a ha.1 ha.2.1 ha.2.2⟩⟩
  obtain ⟨l, hl⟩ := htree.rooted.exists_path a ha
  rw [hroot] at hl
  exact ⟨hsub.subset ha, hroot ▸ htree.fresh a ha, a :: l,
    hl.mono fun c hc => hsub.subset (hl.mem c hc)⟩

end AdvanceRoot

end ForkDatabase

end DreamChain
