import DreamChain.Chain.ForkTree

/-!
The invariant of the fork database over whole runs. A run starts with a database that has
no root yet and calls the public operations in any order; a call that throws leaves the
state its operation leaves behind and the run goes on.

Blocks come from a universe in which an id belongs to one block number, a block is one
number above its parent and its last irreversible block is not below that of its parent.
-/

namespace DreamChain
open Library List BlockState

namespace ForkDatabase

structure ForkInvariant (db : ForkDatabase) : Prop extends TreeInvariant db where
  head : db.head = db.root ∨ (db.head ∈ db.index ∧ db.head.validated = true)
  best : ∀ b ∈ db.index, b.validated = true →
    ¬ firstPreferred b.toBlockHeaderState db.head.toBlockHeaderState

structure BlockUniverse (U : BlockHeaderState → Prop) : Prop where
  number : ∀ a b, U a → U b → a.id = b.id → a.blockNum = b.blockNum
  child : ∀ a b, U a → U b → b.header.previous = a.id →
    b.blockNum = a.blockNum + 1 ∧ a.dposIrreversibleBlocknum ≤ b.dposIrreversibleBlocknum

def Within (U : BlockHeaderState → Prop) (db : ForkDatabase) : Prop :=
  U db.root.toBlockHeaderState ∧ ∀ b ∈ db.index, U b.toBlockHeaderState

namespace ForkInvariant

variable {db : ForkDatabase}

theorem header_head (h : ForkInvariant db) : db.getBlockHeader db.head.id = some db.head := by
  cases h.head with
  | inl hroot =>
    rw [hroot]
    exact h.header_root
  | inr hblock => exact h.header_block hblock.1

theorem not_validated_of_head_root (h : ForkInvariant db) (hroot : db.head = db.root) :
    ∀ b ∈ db.index, b.validated = false := by
  intro b hb
  refine Bool.eq_false_of_not_eq_true fun hvalid => h.best b hb hvalid ?_
  rw [hroot]
  exact h.firstPreferred_root hb

end ForkInvariant

theorem forkInvariant_reset (rootBhs : BlockHeaderState) : ForkInvariant (reset rootBhs) := by
  refine ⟨⟨nodup_nil, ?_, ?_⟩, .inl rfl, ?_⟩ <;> intro b hb <;> cases hb

theorem ForkInvariant.rollbackHeadToRoot {db : ForkDatabase} (h : ForkInvariant db) :
    ForkInvariant db.rollbackHeadToRoot := by
  refine ⟨h.toTreeInvariant.map (fun b => { b with validated := false }) (fun _ => rfl) db.root,
    .inl rfl, ?_⟩
  intro b hb hvalid
  obtain ⟨a, _, rfl⟩ := mem_map.mp hb
  cases hvalid

variable {index : List BlockState} {c : BlockState}

section Add

variable {db db' : ForkDatabase} {n : BlockState} {ignoreDuplicate validate : Bool}
  {validator : FeatureValidator}

theorem add_ok (h : db.add n ignoreDuplicate validate validator = .ok db') :
    ∃ p, db.getBlockHeader (prev n) = some p ∧ (db' = db ∨ (db.getBlock n.id = none ∧ db' = db.push n)) := by
  rw [add] at h
  cases hp : db.getBlockHeader (prev n) with
  | none =>
    rw [hp] at h
    cases h
  | some p =>
    refine ⟨p, rfl, ?_⟩
    have hinsert : db.insert n ignoreDuplicate = .ok db' := by
      cases validate with
      | false => simpa [hp] using h
      | true =>
        simp only [hp] at h
        obtain ⟨_, _, hinsert⟩ := bind_eq_ok.mp h
        exact hinsert
    rw [insert] at hinsert
    cases hn : db.getBlock n.id with
    | none =>
      rw [hn] at hinsert
      exact .inr ⟨rfl, (Except.ok.inj hinsert).symm⟩
    | some a =>
      rw [hn] at hinsert
      cases ignoreDuplicate with
      | false => cases hinsert
      | true => exact .inl (Except.ok.inj hinsert).symm

theorem validCandidate_eq_some (h : validCandidate index = some c) :
    c ∈ index ∧ c.validated = true ∧ ∀ b ∈ index, b.validated = true →
      ¬ firstPreferred b.toBlockHeaderState c.toBlockHeaderState := by
  obtain ⟨hhead, hvalid⟩ := Option.filter_eq_some_iff.mp h
  obtain ⟨hmem, hbest⟩ := head?_byLib hhead
  refine ⟨hmem, hvalid, ?_⟩
  intro b hb hb'
  exact (byLibBlockNum_le (hbest b hb)).2 (hvalid.trans hb'.symm)

theorem validCandidate_eq_none (h : validCandidate index = none) :
    ∀ b ∈ index, b.validated = false := by
  intro b hb
  obtain ⟨c, hc⟩ := head?_byLib_isSome hb
  rw [validCandidate, hc] at h
  have hinvalid : ¬ c.validated = true := by
    intro hvalid
    rw [Option.filter_some, if_pos hvalid] at h
    cases h
  refine Bool.eq_false_of_not_eq_true fun hvalid => hinvalid ?_
  exact (byLibBlockNum_le ((head?_byLib hc).2 b hb)).1 hvalid

theorem TreeInvariant.append (h : TreeInvariant db) (hnew : db.getBlock n.id = none)
    (hroot : n.id ≠ db.root.id) {p : BlockState} (hp : db.getBlockHeader (prev n) = some p)
    (hnum : n.blockNum = p.blockNum + 1)
    (hlib : p.dposIrreversibleBlocknum ≤ n.dposIrreversibleBlocknum) (head : BlockState) :
    TreeInvariant { db with index := db.index ++ [n], head } := by
  have hnodup : ((db.index ++ [n]).map fun b => b.id).Nodup := by
    rw [map_append, nodup_append']
    refine ⟨h.nodup, nodup_singleton _, ?_⟩
    intro x hx hx'
    obtain ⟨b, hb, rfl⟩ := mem_map.mp hx
    exact getBlock_eq_none.mp hnew b hb (by simpa using hx')
  have hheader : ∀ x q, db.getBlockHeader x = some q →
      getBlockHeader { db with index := db.index ++ [n], head } x = some q := by
    intro x q hq
    refine (getBlockHeader_eq_some hnodup).mpr ?_
    cases (getBlockHeader_eq_some h.nodup).mp hq with
    | inl hr => exact .inl hr
    | inr hb => exact .inr ⟨hb.1, mem_append_left _ hb.2.1, hb.2.2⟩
  refine ⟨hnodup, ?_, ?_⟩
  · intro b hb
    cases mem_append.mp hb with
    | inl hb => exact h.fresh b hb
    | inr hb =>
      rw [mem_singleton.mp hb]
      exact hroot
  · intro b hb
    cases mem_append.mp hb with
    | inl hb =>
      obtain ⟨q, hq, hstep⟩ := h.linked b hb
      exact ⟨q, hheader _ _ hq, hstep⟩
    | inr hb =>
      rw [mem_singleton.mp hb]
      exact ⟨p, hheader _ _ hp, hnum, hlib⟩

theorem ForkInvariant.push (h : ForkInvariant db)
    (htree : ∀ head, TreeInvariant { db with index := db.index ++ [n], head }) :
    ForkInvariant (db.push n) := by
  rw [ForkDatabase.push]
  cases hcandidate : validCandidate (db.index ++ [n]) with
  | some c =>
    obtain ⟨hmem, hvalid, hbest⟩ := validCandidate_eq_some hcandidate
    exact ⟨htree c, .inr ⟨hmem, hvalid⟩, hbest⟩
  | none =>
    have hnone := validCandidate_eq_none hcandidate
    refine ⟨htree db.head, ?_, ?_⟩
    · cases h.head with
      | inl hroot => exact .inl hroot
      | inr hblock =>
        have hinvalid := hnone db.head (mem_append_left _ hblock.1)
        rw [hblock.2] at hinvalid
        cases hinvalid
    · intro b hb hvalid
      rw [hnone b hb] at hvalid
      cases hvalid

end Add

variable {id : BlockIdType}

section MarkValid

variable {db db' : ForkDatabase} {h : BlockState}

theorem setValid_header (id : BlockIdType) (b : BlockState) :
    (if b.id = id then { b with validated := true } else b).toBlockHeaderState =
      b.toBlockHeaderState := by
  split <;> rfl

theorem mem_setValid_of_validated {b : BlockState}
    (hb : b ∈ index) (hvalid : b.validated = true) : b ∈ setValid index id := by
  refine mem_map.mpr ⟨b, hb, ?_⟩
  split
  · cases b
    simp only at hvalid
    rw [hvalid]
  · rfl

theorem markValid_ok (hok : db.markValid h = .ok db') : (h.validated = true ∧ db' = db) ∨
    ∃ c, (byLib (setValid db.index h.id)).head? = some c ∧ c.validated = true ∧
      db' = { db with index := setValid db.index h.id
                      head := if firstPreferred c.toBlockHeaderState db.head.toBlockHeaderState
                        then c else db.head } := by
  rw [markValid] at hok
  split at hok
  · rename_i hvalid
    exact .inl ⟨hvalid, (Except.ok.inj hok).symm⟩
  · cases hb : db.getBlock h.id with
    | none =>
      rw [hb] at hok
      cases hok
    | some b =>
      have hmem : { b with validated := true } ∈ setValid db.index h.id := by
        refine mem_map.mpr ⟨b, mem_of_find?_eq_some hb, if_pos ?_⟩
        simpa using find?_some hb
      obtain ⟨c, hc⟩ := head?_byLib_isSome hmem
      simp only [hb, hc] at hok
      exact .inr ⟨c, hc, (byLibBlockNum_le ((head?_byLib hc).2 _ hmem)).1 rfl,
        (Except.ok.inj hok).symm⟩

theorem ForkInvariant.setValid (hdb : ForkInvariant db)
    (hc : (byLib (setValid db.index id)).head? = some c) (hvalid : c.validated = true) :
    ForkInvariant { db with index := ForkDatabase.setValid db.index id
                            head := if firstPreferred c.toBlockHeaderState
                              db.head.toBlockHeaderState then c else db.head } := by
  obtain ⟨hmem, hbest⟩ := head?_byLib hc
  have hfirst : ∀ b ∈ ForkDatabase.setValid db.index id, b.validated = true →
      ¬ firstPreferred b.toBlockHeaderState c.toBlockHeaderState := by
    intro b hb hb'
    exact (byLibBlockNum_le (hbest b hb)).2 (hvalid.trans hb'.symm)
  refine ⟨hdb.toTreeInvariant.map _ (setValid_header id) _, ?_, ?_⟩
  · by_cases hpref : firstPreferred c.toBlockHeaderState db.head.toBlockHeaderState
    · simp only [hpref]
      exact .inr ⟨hmem, hvalid⟩
    · simp only [hpref]
      cases hdb.head with
      | inl hroot => exact .inl hroot
      | inr hblock => exact .inr ⟨mem_setValid_of_validated hblock.1 hblock.2, hblock.2⟩
  · intro b hb hb'
    by_cases hpref : firstPreferred c.toBlockHeaderState db.head.toBlockHeaderState
    · simp only [hpref]
      exact hfirst b hb hb'
    · simp only [hpref, if_false]
      have hle := hfirst b hb hb'
      simp only [firstPreferred] at *
      omega

end MarkValid

section Deletion

variable {db db' : ForkDatabase}

theorem ForkInvariant.remove (h : ForkInvariant db)
    (hok : db.remove id = .ok db') : ForkInvariant db' ∧ Pruned db db' := by
  obtain ⟨db₁, hremove, hpruned, _⟩ :=
    remove_pruned h.nodup h.height_prev_lt (head_of_remove_ok hok)
  rw [hok, Except.ok.injEq] at hremove
  subst hremove
  have htree : TreeInvariant { index := db'.index, root := db.root, head := db.head } := by
    refine h.restrict hpruned.sublist h.header_root ?_ ?_
    · intro b hb
      exact h.fresh b (hpruned.sublist.subset hb)
    · intro b hb
      obtain hroot | ⟨p, hp, hkey⟩ := h.rooted.linked b (hpruned.sublist.subset hb)
      · exact .inl hroot
      · exact .inr ⟨p, hpruned.parents b hb p hp hkey, hkey⟩
  have hroot := hpruned.root
  have hhead := hpruned.head
  cases db' with
  | mk index root head =>
    subst hroot
    subst hhead
    refine ⟨⟨htree, ?_, ?_⟩, hpruned⟩
    · cases h.head with
      | inl hroot => exact .inl hroot
      | inr hblock => exact .inr ⟨hpruned.kept hblock.1, hblock.2⟩
    · intro b hb
      exact h.best b (hpruned.sublist.subset hb)

/-- Advancing the root along the branch of the head keeps the invariant, also when it
throws. -/
theorem ForkInvariant.advanceRoot (h : ForkInvariant db)
    (hbranch : ∀ b, db.getBlock id = some b → b.validated = true →
      ∃ l, Path db.index id db.head.id l) :
    ForkInvariant (db.advanceRoot id).1 ∧ (db.advanceRoot id).1.index.Sublist db.index ∧
      ((db.advanceRoot id).1.root = db.root ∨ (db.advanceRoot id).1.root ∈ db.index) := by
  cases hb : db.getBlock id with
  | none =>
    rw [ForkDatabase.advanceRoot, hb]
    exact ⟨h, List.Sublist.refl _, .inl rfl⟩
  | some b =>
    obtain ⟨hmem, rfl⟩ := (getBlock_eq_some h.nodup).mp hb
    cases hvalid : b.validated with
    | false =>
      simp only [ForkDatabase.advanceRoot, hb, hvalid]
      exact ⟨h, List.Sublist.refl _, .inl rfl⟩
    | true =>
      obtain ⟨l, hl⟩ := hbranch b hb hvalid
      obtain ⟨db', hok, htree, hroot, hhead, hsub, hkept⟩ :=
        advanceRoot_ok h.toTreeInvariant hmem hvalid hl
      rw [hok]
      refine ⟨⟨htree, ?_, ?_⟩, hsub, .inr (hroot ▸ hmem)⟩
      · rw [hhead, hroot]
        cases h.head with
        | inl hheadroot =>
          rw [h.not_validated_of_head_root hheadroot b hmem] at hvalid
          cases hvalid
        | inr hblock =>
          by_cases hid : db.head.id = b.id
          · exact .inl (inj_on_of_nodup_map h.nodup hblock.1 hmem hid)
          · exact .inr ⟨hkept _ hblock.1 hid ⟨l, hl⟩, hblock.2⟩
      · intro a ha
        rw [hhead]
        exact h.best a (hsub.subset ha)

end Deletion

inductive ForkOp where
  | reset (rootBhs : BlockHeaderState)
  | add (n : BlockState) (ignoreDuplicate : Bool)
  | markValid (h : BlockState)
  | remove (id : BlockIdType)
  | advanceRoot (id : BlockIdType)
  | rollbackHeadToRoot

/-- The result of an operation that throws before it changes anything. -/
def orUnchanged (db : ForkDatabase) (result : Fallible ForkDatabase) :
    ForkDatabase × Fallible Unit :=
  match result with
  | .ok db' => (db', .ok ())
  | .error e => (db, .error e)

namespace ForkOp

def apply (db : ForkDatabase) : ForkOp → ForkDatabase × Fallible Unit
  | .reset rootBhs => (ForkDatabase.reset rootBhs, .ok ())
  | .add n ignoreDuplicate =>
    db.orUnchanged (db.add n ignoreDuplicate false fun _ _ _ => .ok ())
  | .markValid h => db.orUnchanged (db.markValid h)
  | .remove id => db.orUnchanged (db.remove id)
  | .advanceRoot id => db.advanceRoot id
  | .rollbackHeadToRoot => (db.rollbackHeadToRoot, .ok ())

/-- On every forest `remove` throws when the head is the block or builds on it and changes nothing
then; otherwise it erases the block and all that builds on it, and nothing else. -/
theorem remove_exact {db : ForkDatabase} (hn : (db.index.map fun b => b.id).Nodup)
    (hacyclic : ∀ b ∈ db.index, ∀ l, ¬ Path db.index b.id (prev b) l) (id : BlockIdType) :
    ((∃ l, Path db.index id db.head.id l) →
      (ForkOp.remove id).apply db = (db, .error ⟨.forkDatabaseException,
        "removing the block and its descendants would remove the current head block"⟩)) ∧
    ((∀ l, ¬ Path db.index id db.head.id l) → ∃ index, index.Sublist db.index ∧
      (ForkOp.remove id).apply db = ({ db with index }, .ok ()) ∧
      ∀ b, b ∈ index ↔ b ∈ db.index ∧ ∀ l, ¬ Path db.index id b.id l) := by
  obtain ⟨rank, hr⟩ := Forest.exists_rank hacyclic
  refine ⟨fun ⟨l, hl⟩ => ?_, fun hhead => ?_⟩
  · rw [apply, remove_error hn hr hl]
    rfl
  · obtain ⟨db', hok, hpruned, hmem⟩ := remove_pruned hn hr hhead
    refine ⟨db'.index, hpruned.sublist, ?_, hmem⟩
    rw [apply, hok, ← hpruned.root, ← hpruned.head]
    rfl

/-- Before the first `reset` the index is empty and root and head are null. -/
def applyUnset : ForkOp → Option ForkDatabase × Fallible Unit
  | .reset rootBhs => (some (ForkDatabase.reset rootBhs), .ok ())
  | .add _ _ => (none, .error ⟨.forkDatabaseException, "root not yet set"⟩)
  | .markValid h => (none, if h.validated then .ok () else .error ⟨.forkDatabaseException,
      "block state not in fork database; cannot mark as valid"⟩)
  | .remove _ => (none, .error ⟨.undefinedBehavior, "the head is a null pointer"⟩)
  | .advanceRoot _ => (none, .error ⟨.forkDatabaseException, "root not yet set"⟩)
  | .rollbackHeadToRoot => (none, .ok ())

def step : Option ForkDatabase → ForkOp → Option ForkDatabase × Fallible Unit
  | none, op => op.applyUnset
  | some db, op => ((op.apply db).1, (op.apply db).2)

/-- The roots and blocks handed in are from the universe, and the root moves to a valid
block only along the branch of the head. -/
def Allowed (U : BlockHeaderState → Prop) (s : Option ForkDatabase) : ForkOp → Prop
  | .reset rootBhs => U rootBhs
  | .add n _ => U n.toBlockHeaderState
  | .advanceRoot id => ∀ db ∈ s, ∀ b, db.getBlock id = some b → b.validated = true →
      ∃ l, Path db.index id db.head.id l
  | .remove _ => s.isSome
  | .markValid _ | .rollbackHeadToRoot => True

end ForkOp

/-- The states in which a sequence of calls can leave the database. -/
inductive ForkRun (U : BlockHeaderState → Prop) : Option ForkDatabase → Prop
  | start : ForkRun U none
  | step {s op} :
      ForkRun U s → op.Allowed U s → ForkRun U (ForkOp.step s op).1

section Run

variable {U : BlockHeaderState → Prop} {db db' : ForkDatabase}

theorem Within.of_subset (h : Within U db) (hroot : U db'.root.toBlockHeaderState)
    (hsub : ∀ b ∈ db'.index, ∃ a ∈ db.index, b.toBlockHeaderState = a.toBlockHeaderState) :
    Within U db' := by
  refine ⟨hroot, ?_⟩
  intro b hb
  obtain ⟨a, ha, heq⟩ := hsub b hb
  rw [heq]
  exact h.2 a ha

theorem ForkInvariant.ne_root (h : ForkInvariant db) (hU : BlockUniverse U) (hw : Within U db)
    {n p : BlockState} (hn : U n.toBlockHeaderState) (hp : db.getBlockHeader (prev n) = some p) :
    n.id ≠ db.root.id ∧ n.blockNum = p.blockNum + 1 ∧
      p.dposIrreversibleBlocknum ≤ n.dposIrreversibleBlocknum := by
  have hparent : U p.toBlockHeaderState ∧ p.id = prev n ∧ db.root.blockNum ≤ p.blockNum := by
    cases (getBlockHeader_eq_some h.nodup).mp hp with
    | inl hroot =>
      rw [hroot.2]
      exact ⟨hw.1, hroot.1.symm, Nat.le_refl _⟩
    | inr hblock =>
      have hlt := h.rooted.rank_root_lt p hblock.2.1
      rw [h.height_root, h.height_block hblock.2.1] at hlt
      exact ⟨hw.2 p hblock.2.1, hblock.2.2, Nat.le_of_lt hlt⟩
  have hchild := hU.child _ _ hparent.1 hn hparent.2.1.symm
  refine ⟨?_, hchild⟩
  intro hid
  have hnum := hU.number _ _ hn hw.1 hid
  omega

theorem ForkInvariant.add (h : ForkInvariant db) (hU : BlockUniverse U) (hw : Within U db)
    {n : BlockState} (hn : U n.toBlockHeaderState) {ignoreDuplicate validate : Bool}
    {validator : FeatureValidator} (hok : db.add n ignoreDuplicate validate validator = .ok db') :
    ForkInvariant db' ∧ Within U db' := by
  obtain ⟨p, hp, hresult⟩ := add_ok hok
  cases hresult with
  | inl hsame =>
    rw [hsame]
    exact ⟨h, hw⟩
  | inr hnew =>
    obtain ⟨hroot, hnum, hlib⟩ := h.ne_root hU hw hn hp
    rw [hnew.2]
    refine ⟨h.push (h.toTreeInvariant.append hnew.1 hroot hp hnum hlib), hw.1, ?_⟩
    intro b hb
    cases mem_append.mp hb with
    | inl hb => exact hw.2 b hb
    | inr hb =>
      rw [mem_singleton.mp hb]
      exact hn

theorem ForkInvariant.markValid (h : ForkInvariant db) {b : BlockState}
    (hok : db.markValid b = .ok db') : ForkInvariant db' ∧ (Within U db → Within U db') := by
  obtain hsame | ⟨c, hc, hvalid, hresult⟩ := markValid_ok hok
  · rw [hsame.2]
    exact ⟨h, id⟩
  · rw [hresult]
    refine ⟨h.setValid hc hvalid, fun hw => hw.of_subset hw.1 ?_⟩
    intro a ha
    obtain ⟨a', ha', rfl⟩ := mem_map.mp ha
    exact ⟨a', ha', setValid_header _ _⟩

theorem ForkOp.apply_invariant (hU : BlockUniverse U) {op : ForkOp} (h : ForkInvariant db)
    (hw : Within U db) (hop : op.Allowed U (some db)) :
    ForkInvariant (op.apply db).1 ∧ Within U (op.apply db).1 := by
  cases op with
  | reset rootBhs =>
    refine ⟨forkInvariant_reset rootBhs, hop, ?_⟩
    intro b hb
    cases hb
  | add n ignoreDuplicate =>
    cases hok : db.add n ignoreDuplicate false fun _ _ _ => .ok () with
    | error e =>
      simp only [ForkOp.apply, hok]
      exact ⟨h, hw⟩
    | ok db' =>
      simp only [ForkOp.apply, hok]
      exact h.add hU hw hop hok
  | markValid b =>
    cases hok : db.markValid b with
    | error e =>
      simp only [ForkOp.apply, hok]
      exact ⟨h, hw⟩
    | ok db' =>
      simp only [ForkOp.apply, hok]
      exact ⟨(h.markValid (U := U) hok).1, (h.markValid hok).2 hw⟩
  | remove id =>
    cases hok : db.remove id with
    | error e =>
      simp only [ForkOp.apply, hok]
      exact ⟨h, hw⟩
    | ok db' =>
      simp only [ForkOp.apply, hok]
      obtain ⟨hinv, hpruned⟩ := h.remove hok
      refine ⟨hinv, hw.of_subset (hpruned.root ▸ hw.1) ?_⟩
      intro b hb
      exact ⟨b, hpruned.sublist.subset hb, rfl⟩
  | advanceRoot id =>
    obtain ⟨hinv, hsub, hroot⟩ := h.advanceRoot (hop db rfl)
    refine ⟨hinv, hw.of_subset ?_ ?_⟩
    · cases hroot with
      | inl hsame => exact hsame ▸ hw.1
      | inr hmem => exact hw.2 _ hmem
    · intro b hb
      exact ⟨b, hsub.subset hb, rfl⟩
  | rollbackHeadToRoot =>
    refine ⟨h.rollbackHeadToRoot, hw.of_subset hw.1 ?_⟩
    intro b hb
    obtain ⟨a, ha, rfl⟩ := mem_map.mp hb
    exact ⟨a, ha, rfl⟩

theorem ForkRun.invariant (hU : BlockUniverse U) {s : Option ForkDatabase} (h : ForkRun U s) :
    ∀ db ∈ s, ForkInvariant db ∧ Within U db := by
  induction h with
  | start =>
    intro db hdb
    cases hdb
  | @step s op _ hop ih =>
    intro db hdb
    cases s with
    | some db₀ =>
      cases hdb
      exact ForkOp.apply_invariant hU (ih db₀ rfl).1 (ih db₀ rfl).2 hop
    | none =>
      cases op with
      | reset rootBhs =>
        cases hdb
        refine ⟨forkInvariant_reset rootBhs, hop, ?_⟩
        intro b hb
        cases hb
      | add _ _ | markValid _ | remove _ | advanceRoot _ | rollbackHeadToRoot => cases hdb

/-- In every state of a run all blocks hang below the root, the head is the root or a valid
block, and no valid block is preferred over it. -/
theorem forkInvariant_of_run (hU : BlockUniverse U) (h : ForkRun U (some db)) :
    (∀ b ∈ db.index, (∃ p ∈ db.index, p.id = prev b) ∨ prev b = db.root.id) ∧
      (∀ b ∈ db.index, b.id ≠ db.root.id) ∧
      (db.head = db.root ∨ (db.head ∈ db.index ∧ db.head.validated = true)) ∧
      ∀ b ∈ db.index, b.validated = true →
        ¬ firstPreferred b.toBlockHeaderState db.head.toBlockHeaderState := by
  have hinv := (h.invariant hU db rfl).1
  refine ⟨?_, hinv.fresh, hinv.head, hinv.best⟩
  intro b hb
  exact (hinv.rooted.linked b hb).symm

end Run

def sampleBlock (id previous blockNum lib : Nat) : BlockState :=
  { id := ⟨id, 0, 0, 0⟩, header := { previous := ⟨previous, 0, 0, 0⟩ }, blockNum,
    dposIrreversibleBlocknum := lib, block := some { previous := ⟨previous, 0, 0, 0⟩ } }

def sampleTree : List BlockState :=
  [sampleBlock 1 0 1 0, sampleBlock 2 1 2 0, sampleBlock 3 1 2 0, sampleBlock 4 3 3 1]

theorem sampleTree_universe : BlockUniverse fun b => b ∈ sampleTree.map toBlockHeaderState := by
  constructor
  · intro a b ha hb
    exact (by decide : ∀ a ∈ sampleTree.map toBlockHeaderState,
      ∀ b ∈ sampleTree.map toBlockHeaderState, a.id = b.id →
        a.blockNum = b.blockNum) a ha b hb
  · intro a b ha hb
    exact (by decide : ∀ a ∈ sampleTree.map toBlockHeaderState,
      ∀ b ∈ sampleTree.map toBlockHeaderState, b.header.previous = a.id →
        b.blockNum = a.blockNum + 1 ∧
          a.dposIrreversibleBlocknum ≤ b.dposIrreversibleBlocknum) a ha b hb

def sampleForest : ForkDatabase where
  index := sampleTree.tail.map fun b => { b with validated := true }
  root := { toBlockHeaderState := (sampleBlock 1 0 1 0).toBlockHeaderState, validated := true }
  head := { sampleBlock 4 3 3 1 with validated := true }

theorem sampleForest_run :
    ForkRun (fun b => b ∈ sampleTree.map toBlockHeaderState) (some sampleForest) := by
  have h₁ := @ForkRun.step _ none (.reset (sampleBlock 1 0 1 0).toBlockHeaderState)
    (.start (U := fun b => b ∈ sampleTree.map toBlockHeaderState)) (.head _)
  have h₂ := @ForkRun.step _ _ (.add (sampleBlock 2 1 2 0) false) h₁ (.tail _ (.head _))
  have h₃ := @ForkRun.step _ _ (.add (sampleBlock 3 1 2 0) false) h₂ (.tail _ (.tail _ (.head _)))
  have h₄ := @ForkRun.step _ _ (.markValid (sampleBlock 2 1 2 0)) h₃ trivial
  have h₅ := @ForkRun.step _ _ (.add (sampleBlock 2 1 2 0) false) h₄ (.tail _ (.head _))
  have h₆ := @ForkRun.step _ _ (.add (sampleBlock 4 3 3 1) false) h₅
    (.tail _ (.tail _ (.tail _ (.head _))))
  have h₇ := @ForkRun.step _ _ (.markValid (sampleBlock 3 1 2 0)) h₆ trivial
  exact @ForkRun.step _ _ (.markValid (sampleBlock 4 3 3 1)) h₇ trivial

theorem sampleForest_tree : TreeInvariant sampleForest :=
  (sampleForest_run.invariant sampleTree_universe _ rfl).1.toTreeInvariant

/-- The second branch of the sample becomes irreversible. -/
theorem forkInvariant_of_sampleRun : ∃ db : ForkDatabase,
    ForkRun (fun b => b ∈ sampleTree.map toBlockHeaderState) (some db) ∧
      db.root.id = ⟨3, 0, 0, 0⟩ ∧ db.index.map (fun b => b.id) = [⟨4, 0, 0, 0⟩] ∧
      ∀ b ∈ db.index, (∃ p ∈ db.index, p.id = prev b) ∨ prev b = db.root.id := by
  have hrun := @ForkRun.step _ _ (.advanceRoot ⟨3, 0, 0, 0⟩) sampleForest_run (by
    intro db hdb b _ _
    cases hdb
    exact ⟨[{ sampleBlock 4 3 3 1 with validated := true }], by decide, rfl, rfl⟩)
  exact ⟨_, hrun, rfl, rfl, (forkInvariant_of_run sampleTree_universe hrun).1⟩

/-- The root of the sample moves to the block below its head. -/
theorem advanceRoot_sampleForest : ∃ db', sampleForest.advanceRoot ⟨3, 0, 0, 0⟩ = (db', .ok ()) ∧
    db'.head = sampleForest.head ∧ ∀ a, a ∈ db'.index ↔ a ∈ sampleForest.index ∧
      a.id ≠ ⟨3, 0, 0, 0⟩ ∧ ∃ l, Path sampleForest.index ⟨3, 0, 0, 0⟩ a.id l := by
  obtain ⟨db', hok, _, hhead, hmem⟩ := advanceRoot_exact sampleForest_tree
    (b := { sampleBlock 3 1 2 0 with validated := true }) (by decide) rfl
    ⟨[sampleForest.head], by decide, rfl, rfl⟩
  exact ⟨db', hok, hhead, hmem⟩

/-- The branch of the head of the sample is not removed. -/
theorem remove_sampleForest :
    ∃ e, (ForkOp.remove ⟨3, 0, 0, 0⟩).apply sampleForest = (sampleForest, .error e) :=
  ⟨_, (ForkOp.remove_exact sampleForest_tree.nodup sampleForest_tree.acyclic ⟨3, 0, 0, 0⟩).1
    ⟨[sampleForest.head], by decide, rfl, rfl⟩⟩

end ForkDatabase

end DreamChain
