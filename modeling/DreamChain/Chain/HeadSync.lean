import DreamChain.Chain.ForkSwitch

/-!
The two heads. The fork database and the controller each keep one, and each is moved by its
own rule: `mark_valid` moves the first to a block that is preferred, `add` to the first block
of its index, which among equally preferred valid blocks is the one with the smallest id.
While no block is before the head in that order, the two stay the same.
-/

namespace DreamChain
open Library List Controller

namespace ForkDatabase

variable {db db' : ForkDatabase} {n : BlockState} {ids : List BlockIdType}

theorem id_le_of_byLibBlockNum_le {a b : BlockState} (h : a.byLibBlockNum ≤ b.byLibBlockNum)
    (hvalid : a.validated = b.validated)
    (hlib : a.dposIrreversibleBlocknum = b.dposIrreversibleBlocknum)
    (hnum : a.blockNum = b.blockNum) : a.id ≤ b.id := by
  simpa only [BlockState.byLibBlockNum, Prod.Lex.toLex_le_toLex, hvalid, hlib, hnum,
    lt_self_iff_false, true_and, false_or] using h

def HeadFirst (db : ForkDatabase) : Prop :=
  ∀ b ∈ db.index, b.validated = true →
    b.dposIrreversibleBlocknum = db.head.dposIrreversibleBlocknum →
    b.blockNum = db.head.blockNum → ¬ b.id < db.head.id

instance (db : ForkDatabase) : Decidable (HeadFirst db) :=
  inferInstanceAs (Decidable (∀ b ∈ db.index, _))

theorem push_head (h : ForkInvariant db) (hfirst : HeadFirst db) (hn : n.validated = false) :
    (db.push n).head = db.head := by
  cases hcandidate : validCandidate (db.index ++ [n]) with
  | none => simp only [push, hcandidate, Option.getD_none]
  | some candidate =>
    simp only [push, hcandidate]
    obtain ⟨hmem, hvalid, hbest⟩ := validCandidate_eq_some hcandidate
    have hold : candidate ∈ db.index := by
      cases mem_append.mp hmem with
      | inl hmem => exact hmem
      | inr hmem =>
        rw [mem_singleton.mp hmem, hn] at hvalid
        cases hvalid
    cases h.head with
    | inl hroot =>
      rw [h.not_validated_of_head_root hroot candidate hold] at hvalid
      cases hvalid
    | inr hblock =>
      have hhead := mem_append_left [n] hblock.1
      have hbefore := hbest db.head hhead hblock.2
      have hafter := h.best candidate hold hvalid
      simp only [firstPreferred] at hbefore hafter
      have hle := (head?_byLib (Option.filter_eq_some_iff.mp hcandidate).1).2 db.head hhead
      have hid := id_le_of_byLibBlockNum_le hle (hvalid.trans hblock.2.symm) (by omega) (by omega)
      have hnot := hfirst candidate hold hvalid (by omega) (by omega)
      exact inj_on_of_nodup_map h.nodup hold hblock.1 (le_antisymm hid (not_lt.mp hnot))

/-- The head stays, or moves to a block that is preferred over it. -/
def FirstSeen (db db' : ForkDatabase) : Prop :=
  db'.head = db.head ∨ firstPreferred db'.head.toBlockHeaderState db.head.toBlockHeaderState

instance (db db' : ForkDatabase) : Decidable (FirstSeen db db') :=
  inferInstanceAs (Decidable (_ ∨ _))

theorem headFirst_of_firstSeen_push (h : ForkInvariant db) (hn : n.validated = false)
    (hseen : FirstSeen db (db.push n)) : HeadFirst db := by
  intro b hb hvalid hlib hnum hlt
  have hmem : b ∈ db.index ++ [n] := mem_append_left _ hb
  cases hcandidate : validCandidate (db.index ++ [n]) with
  | none =>
    have hinvalid := validCandidate_eq_none hcandidate b hmem
    rw [hvalid] at hinvalid
    cases hinvalid
  | some c =>
    have hhead : (db.push n).head = c := by simp only [push, hcandidate, Option.getD_some]
    obtain ⟨hc, hcvalid, -⟩ := validCandidate_eq_some hcandidate
    obtain ⟨hfirst, -⟩ := Option.filter_eq_some_iff.mp hcandidate
    have hold : c ∈ db.index := by
      cases mem_append.mp hc with
      | inl hc => exact hc
      | inr hc =>
        rw [mem_singleton.mp hc, hn] at hcvalid
        cases hcvalid
    have hcbest := h.best c hold hcvalid
    rw [FirstSeen, hhead] at hseen
    have hsame : c = db.head := hseen.resolve_right hcbest
    have hle := id_le_of_byLibBlockNum_le ((head?_byLib hfirst).2 b hmem)
      (hcvalid.trans hvalid.symm) (by rw [hsame, hlib]) (by rw [hsame, hnum])
    exact absurd hlt (not_lt_of_ge (hsame ▸ hle))

/-- Marking a block as valid keeps to the first seen of equally good blocks. Adding one does so
exactly if no valid block as good as the head is before it in the index. -/
theorem firstSeen_iff {U : BlockHeaderState → Prop} (hU : BlockUniverse U)
    (hrun : ForkRun U (some db)) : (∀ b db', db.markValid b = .ok db' → FirstSeen db db') ∧
      ∀ n ignoreDuplicate db', n.validated = false →
        db.add n ignoreDuplicate false (fun _ _ _ => .ok ()) = .ok db' →
          (FirstSeen db db' ↔ db' = db ∨ HeadFirst db) := by
  have hinv := (hrun.invariant hU db rfl).1
  refine ⟨fun b db' hok => ?_, fun n ignoreDuplicate db' hn hok => ?_⟩
  · rcases markValid_ok hok with ⟨-, rfl⟩ | ⟨c, -, -, rfl⟩
    · exact .inl rfl
    · by_cases hpref : firstPreferred c.toBlockHeaderState db.head.toBlockHeaderState
      · exact .inr (by simpa only [if_pos hpref] using hpref)
      · exact .inl (if_neg hpref)
  · obtain ⟨_, _, rfl | ⟨-, rfl⟩⟩ := add_ok hok
    · exact iff_of_true (.inl rfl) (.inl rfl)
    · refine ⟨fun hseen => .inr (headFirst_of_firstSeen_push hinv hn hseen), fun hor => ?_⟩
      cases hor with
      | inl hsame => exact .inl (congrArg head hsame)
      | inr hfirst => exact .inl (push_head hinv hfirst hn)

/-- One more block on the root of the sample. -/
theorem firstSeen_sampleForest : ∃ db', sampleForest.add (sampleBlock 5 1 2 0) false false
    (fun _ _ _ => .ok ()) = .ok db' ∧ FirstSeen sampleForest db' :=
  ⟨_, rfl, ((firstSeen_iff sampleTree_universe sampleForest_run).2 (sampleBlock 5 1 2 0) false _ rfl
    rfl).mpr (.inr (by decide))⟩

/-- No block that is not valid is preferred to the pending head, which is the head or such a
block. -/
theorem pendingHead_cases (db : ForkDatabase) :
    (∀ b ∈ db.index, b.validated = false →
      ¬ firstPreferred b.toBlockHeaderState db.pendingHead.toBlockHeaderState) ∧
    (db.pendingHead = db.head ∨
      (db.pendingHead ∈ db.index ∧ db.pendingHead.validated = false ∧
        firstPreferred db.pendingHead.toBlockHeaderState db.head.toBlockHeaderState)) := by
  rw [pendingHead]
  cases hfind : (byLib db.index).find? fun b => !b.validated with
  | none =>
    refine ⟨fun b hb hvalid => ?_, .inl rfl⟩
    have hnone := find?_eq_none.mp hfind b (mem_byLib.mpr hb)
    simp [hvalid] at hnone
  | some p =>
    have hp : p.validated = false := by simpa using find?_some hfind
    have hbest : ∀ b ∈ db.index, b.validated = false →
        ¬ firstPreferred b.toBlockHeaderState p.toBlockHeaderState := by
      intro b hb hvalid
      obtain ⟨_, _, _, hsplit, hbefore⟩ := find?_eq_some_iff_append.mp hfind
      have hsorted := byLib_sorted db.index
      have hmem := mem_byLib.mpr hb
      rw [hsplit] at hsorted hmem
      cases mem_append.mp hmem with
      | inl hmem =>
        have htrue := hbefore b hmem
        simp [hvalid] at htrue
      | inr hmem =>
        have htail := (pairwise_append.mp hsorted).2.1
        cases mem_cons.mp hmem with
        | inl heq => exact heq ▸ firstPreferred_irrefl _
        | inr hmem =>
          exact (byLibBlockNum_le ((pairwise_cons.mp htail).1 b hmem)).2 (hp.trans hvalid.symm)
    by_cases hpref : firstPreferred p.toBlockHeaderState db.head.toBlockHeaderState
    · simp only [if_pos hpref]
      exact ⟨hbest, .inr ⟨mem_byLib.mp (mem_of_find?_eq_some hfind), hp, hpref⟩⟩
    · simp only [if_neg hpref]
      exact ⟨fun b hb hvalid => not_firstPreferred_trans (hbest b hb hvalid) hpref, .inl trivial⟩

variable {U : BlockHeaderState → Prop}

/-- In every run no block, valid or not, is preferred to the pending head. -/
theorem pendingHead_of_run (hU : BlockUniverse U) (hrun : ForkRun U (some db)) :
    (db.pendingHead = db.head ∨ db.pendingHead ∈ db.index ∧ db.pendingHead.validated = false) ∧
    ∀ b ∈ db.index, ¬ firstPreferred b.toBlockHeaderState db.pendingHead.toBlockHeaderState := by
  have h := (hrun.invariant hU db rfl).1
  obtain ⟨hbest, hcases⟩ := db.pendingHead_cases
  refine ⟨hcases.imp_right fun hp => ⟨hp.1, hp.2.1⟩, fun b hb => ?_⟩
  cases hvalid : b.validated with
  | false => exact hbest b hb hvalid
  | true =>
    refine not_firstPreferred_trans (h.best b hb hvalid) fun hpref => ?_
    cases hcases with
    | inl hsame => exact firstPreferred_irrefl _ (hsame ▸ hpref)
    | inr hp => exact firstPreferred_irrefl _ (firstPreferred_trans hpref hp.2.2)

theorem pendingHead_sampleForest : sampleForest.pendingHead.id = ⟨4, 0, 0, 0⟩ ∧
    ∀ b ∈ sampleForest.index,
      ¬ firstPreferred b.toBlockHeaderState sampleForest.pendingHead.toBlockHeaderState :=
  ⟨rfl, (pendingHead_of_run sampleTree_universe sampleForest_run).2⟩

theorem Marked.within (h : Marked ids db db') (hw : Within U db) : Within U db' := by
  refine ⟨h.root ▸ hw.1, ?_⟩
  intro b hb
  rw [h.index] at hb
  obtain ⟨a, ha, rfl⟩ := mem_map.mp hb
  rw [mark_header]
  exact hw.2 a ha

theorem Within.sublist (hw : Within U db) (hindex : db'.index.Sublist db.index)
    (hroot : db'.root = db.root ∨ db'.root ∈ db.index) : Within U db' := by
  refine ⟨?_, fun b hb => hw.2 b (hindex.subset hb)⟩
  cases hroot with
  | inl heq => exact heq ▸ hw.1
  | inr hmem => exact hw.2 _ hmem

theorem ForkInvariant.head_best (h : ForkInvariant db)
    (hn : n = db.root ∨ (n ∈ db.index ∧ n.validated = true)) :
    ¬ firstPreferred n.toBlockHeaderState db.head.toBlockHeaderState := by
  cases hn with
  | inr hblock => exact h.best n hblock.1 hblock.2
  | inl hroot =>
    rw [hroot]
    cases h.head with
    | inl hheadroot =>
      rw [hheadroot]
      exact firstPreferred_irrefl _
    | inr hblock =>
      have hlow := h.firstPreferred_root hblock.1
      simp only [firstPreferred] at *
      omega

theorem Marked.head_cases (h : Marked ids db db') (hdb : ForkInvariant db)
    (hhead : db'.head = db'.root ∨ (db'.head ∈ db'.index ∧ db'.head.validated = true)) :
    db'.head = db.head ∨ ∃ b ∈ db.index, b.validated = false ∧ b.id ∈ ids ∧
      firstPreferred b.toBlockHeaderState db.head.toBlockHeaderState ∧ db'.head = mark ids b := by
  cases h.head with
  | inl hsame => exact .inl hsame
  | inr hpref =>
    cases hhead with
    | inl hroot =>
      rw [hroot, h.root] at hpref
      exact absurd hpref (hdb.head_best (.inl rfl))
    | inr hblock =>
      have hmem := hblock.1
      rw [h.index] at hmem
      obtain ⟨b, hb, hmark⟩ := mem_map.mp hmem
      rw [← hmark, mark_header] at hpref
      have hvalid : b.validated = false :=
        Bool.eq_false_of_not_eq_true fun hvalid => hdb.best b hb hvalid hpref
      have hids : b.id ∈ ids := by
        have hmarked := hblock.2
        rw [← hmark, mark_validated, hvalid] at hmarked
        exact hmarked.resolve_right Bool.false_ne_true
      exact .inr ⟨b, hb, hvalid, hids, hpref, hmark.symm⟩

end ForkDatabase

open ForkDatabase UndoStack

variable {σ : Type} {X : Execution σ} {P : Primitives} {base : UndoStack σ}
  {c : Controller σ} {n : BlockState} {l : List BlockState} {V : BlockHeaderState → Prop}
  {guard : Controller (List Nat) → Prop}

structure InStep (X : Execution σ) (P : Primitives) (V : BlockHeaderState → Prop)
    (c : Controller σ) : Prop where
  consistent : ∃ base l, Consistent X P base c l
  head : c.forkDb.head.id = c.head.id
  within : Within (Chained P V) c.forkDb
  settled : ∀ b ∈ c.forkDb.index, b.validated = false →
    ¬ firstPreferred b.toBlockHeaderState c.forkDb.head.toBlockHeaderState

/-- The blocks are kept until they are in the log, which is not empty. -/
def Live (c : Controller σ) : Prop := c.replaying = false ∧ c.blog.head ≠ none

/-- The two heads are equally good. -/
def Abreast (c : Controller σ) : Prop :=
  c.forkDb.head.dposIrreversibleBlocknum = c.head.dposIrreversibleBlocknum ∧
    c.forkDb.head.blockNum = c.head.blockNum

/-- The heads may be different blocks, as after a switch that was taken back. -/
structure Level (X : Execution σ) (P : Primitives) (V : BlockHeaderState → Prop)
    (c : Controller σ) : Prop where
  consistent : ∃ base l, Consistent X P base c l
  live : Live c
  abreast : Abreast c
  within : Within (Chained P V) c.forkDb
  settled : ∀ b ∈ c.forkDb.index, b.validated = false →
    ¬ firstPreferred b.toBlockHeaderState c.forkDb.head.toBlockHeaderState

structure OnlyBetter (db : ForkDatabase) (n : BlockState) : Prop where
  mem : n ∈ db.index
  validated : n.validated = false
  better : firstPreferred n.toBlockHeaderState db.head.toBlockHeaderState
  only : ∀ b ∈ db.index, b.validated = false →
    firstPreferred b.toBlockHeaderState db.head.toBlockHeaderState → b = n

namespace Consistent

section

variable (h : Consistent X P base c l)
include h

theorem header_head (hid : c.forkDb.head.id = c.head.id) :
    c.forkDb.head.toBlockHeaderState = c.head.toBlockHeaderState := by
  obtain ⟨top, htop, hheader⟩ := h.head.exists_top h.tree.toTreeInvariant
  have hhead := h.tree.header_head
  have htop' := htop.header
  rw [show top.id = c.head.id from congrArg BlockHeaderState.id hheader, ← hid, hhead] at htop'
  rw [Option.some.inj htop', hheader]

theorem id_ne_of_better (habreast : Abreast c) (hn : OnlyBetter c.forkDb n) : n.id ≠ c.head.id := by
  intro heq
  obtain ⟨_, htop, hheader⟩ := h.head.exists_top h.tree.toTreeInvariant
  have hblock := h.tree.header_block hn.mem
  rw [heq, ← hheader, htop.header, Option.some.injEq] at hblock
  have hpref := hn.better
  rw [← hblock, hheader] at hpref
  simp only [firstPreferred, Abreast] at *
  omega

/-- The new branch ends in the better block, since the blocks below the head are valid. -/
theorem first_of_better (hn : OnlyBetter c.forkDb n) {la first second common : List BlockState}
    (hla : OnPath c.forkDb n la) (hf : Forked la l first second common) :
    ∃ rest, first = n :: rest := by
  have hla' := hf.first_eq
  cases first with
  | cons x rest =>
    rw [hla'] at hla
    exact ⟨rest, by rw [(h.tree.onPath_cons hla).1]⟩
  | nil =>
    subst hla'
    have hne : la ≠ [] := by
      intro hnil
      subst hnil
      exact h.tree.fresh n hn.mem (by rw [h.tree.onPath_nil hla])
    cases la with
    | nil => exact absurd rfl hne
    | cons =>
      have hl : l ≠ [] := by
        rw [hf.second_eq]
        simp
      have hmem : n ∈ l := by
        rw [hf.second_eq, (h.tree.onPath_cons hla).1]
        simp
      have hvalid := h.tree.path_validated (h.head_onPath hl) (h.head.block hl).2 n hmem
      rw [hn.validated] at hvalid
      cases hvalid

/-- Two blocks above the head the lower one would have been better, too. -/
theorem length_of_better (habreast : Abreast c) (hn : OnlyBetter c.forkDb n)
    {between : List BlockState} (hpath : Path c.forkDb.index c.head.id n.id between) :
    between.length < 2 := by
  cases between with
  | nil => exact Nat.zero_lt_two
  | cons x rest =>
    cases rest with
    | nil => exact Nat.one_lt_two
    | cons y rest =>
      have hx : x = n := inj_on_of_nodup_map h.tree.nodup hpath.1 hn.mem hpath.2.1
      have hy : Path c.forkDb.index c.head.id y.id (y :: rest) := ⟨hpath.2.2.1, rfl, hpath.2.2.2.2⟩
      obtain ⟨_, htop, hheader⟩ := h.head.exists_top h.tree.toTreeInvariant
      rw [← hheader] at hy
      have hpref := h.tree.firstPreferred_of_path htop.header hy
      rw [hheader, firstPreferred, ← habreast.1, ← habreast.2] at hpref
      have hvalid : y.validated = false :=
        Bool.eq_false_of_not_eq_true fun hvalid => h.tree.best y hy.1 hvalid hpref
      have hsame := hn.only y hy.1 hvalid hpref
      have hnodup := hpath.nodup h.tree.ranked
      rw [hx, hsame] at hnodup
      simp at hnodup

end

end Consistent

section MoveHead

variable {la first second common : List BlockState} {c' : Controller σ} {b : BlockState}

theorem Moved.forkHead (h : Consistent X P base c l) (hn : OnlyBetter c.forkDb n)
    (hmoved : Moved X P base c first second common c') (hmem : n ∈ first) :
    c'.forkDb.head = asValid n := by
  have hids : n.id ∈ first.reverse.map fun b => b.id :=
    mem_map.mpr ⟨n, mem_reverse.mpr hmem, rfl⟩
  have hmark : mark (first.reverse.map fun b => b.id) n = asValid n := if_pos hids
  have hindex : asValid n ∈ c'.forkDb.index := by
    rw [hmoved.marked.index, ← hmark]
    exact mem_map.mpr ⟨n, hn.mem, rfl⟩
  obtain hsame | ⟨b, hb, hvalid, _, hpref, heq⟩ :=
      hmoved.marked.head_cases h.tree.toForkInvariant hmoved.consistent.tree.head
  · have hbest := hmoved.consistent.tree.best _ hindex rfl
    rw [hsame] at hbest
    exact absurd hn.better hbest
  · rw [heq, hn.only b hb hvalid hpref, hmark]

theorem Consistent.logged (h : Consistent X P base c l) (hw : Within (Chained P V) c.forkDb)
    (hid : c.forkDb.head.id = c.head.id) (hsettled : ∀ b ∈ c.forkDb.index, b.validated = false →
      ¬ firstPreferred b.toBlockHeaderState c.forkDb.head.toBlockHeaderState) :
    ∃ c', c.logIrreversible X P = (c', .ok ()) ∧ InStep X P V c' ∧ (Live c → Live c') := by
  obtain ⟨c', hlog, hlogged, hblog, hconsistent⟩ := h.logIrreversible
  refine ⟨c', hlog, ⟨hconsistent hid, ?_, hw.sublist hlogged.index hlogged.root, ?_⟩, ?_⟩
  · rw [hlogged.forkHead, hlogged.head]
    exact hid
  · intro x hx hvalid
    rw [hlogged.forkHead]
    exact hsettled x (hlogged.index.subset hx) hvalid
  · exact fun hlive => ⟨hlogged.replaying.trans hlive.1, hblog hlive.2⟩

theorem ForkDatabase.Marked.unmarked {ids db db'}
    (h : Marked ids db db') {x : BlockState} (hx : x ∈ db'.index) (hvalid : x.validated = false) :
    ∃ y ∈ db.index, y.validated = false ∧ mark ids y = x := by
  rw [h.index] at hx
  obtain ⟨y, hy, rfl⟩ := mem_map.mp hx
  refine ⟨y, hy, Bool.eq_false_of_not_eq_true fun htrue => ?_, rfl⟩
  rw [mark_of_validated htrue, htrue] at hvalid
  cases hvalid

theorem Moved.live (hmoved : Moved X P base c first second common c') (hlive : Live c) : Live c' :=
  ⟨hmoved.same.replaying.trans hlive.1, hmoved.same.blog ▸ hlive.2⟩

theorem InStep.of_moved (h : Consistent X P base c l) (hw : Within (Chained P V) c.forkDb)
    (hn : OnlyBetter c.forkDb n) (hla : OnPath c.forkDb n (first ++ common)) (hmem : n ∈ first)
    (hmoved : Moved X P base c first second common c') :
    ∃ c₂, c'.logIrreversible X P = (c₂, .ok ()) ∧ InStep X P V c₂ ∧ (Live c' → Live c₂) := by
  have hfork := hmoved.forkHead h hn hmem
  have hid : c'.forkDb.head.id = c'.head.id := by
    rw [hfork, show c'.head.id = n.id from congrArg BlockHeaderState.id (hmoved.head h hla)]
    rfl
  refine hmoved.consistent.logged (hmoved.marked.within hw) hid fun x hx hvalid hpref => ?_
  obtain ⟨y, hy, hyvalid, rfl⟩ := hmoved.marked.unmarked hx hvalid
  rw [hfork, mark_header] at hpref
  have hbetter := hn.better
  -- a block better than `n` would have been better than the old head
  have hsame : y = n := hn.only y hy hyvalid (by
    simp only [firstPreferred, asValid] at *
    omega)
  rw [hsame, firstPreferred] at hpref
  simp only [asValid] at hpref
  omega

theorem Level.of_movedBack (h : Consistent X P base c l) (hlive : Live c) (habreast : Abreast c)
    (hw : Within (Chained P V) c.forkDb) (hn : OnlyBetter c.forkDb n) {lb : List BlockState}
    (hpath : Path c.forkDb.index b.id n.id lb) (hback : MovedBack X P base c l b c') :
    Level X P V c' ∧ c'.forkDb.head = c.forkDb.head := by
  obtain ⟨_, db, hmarked, hpruned, -⟩ := hback.removed
  obtain ⟨_, hindex⟩ := hback.index
  have hgone : ∀ x ∈ c'.forkDb.index, x.id ≠ n.id := by
    intro x hx heq
    obtain ⟨y, hy, rfl, hnot⟩ := (hindex x).mp hx
    rw [mark_id] at heq
    rw [inj_on_of_nodup_map h.tree.nodup hy hn.mem heq] at hnot
    exact hnot lb hpath
  have hhead : c'.forkDb.head = c.forkDb.head := by
    have hdb : db.head = db.root ∨ (db.head ∈ db.index ∧ db.head.validated = true) := by
      rw [← hpruned.head, ← hpruned.root]
      cases hback.consistent.tree.head with
      | inl hroot => exact .inl hroot
      | inr hblock => exact .inr ⟨hpruned.sublist.subset hblock.1, hblock.2⟩
    rw [hpruned.head]
    obtain hsame | ⟨y, hy, hvalid, _, hpref, heq⟩ := hmarked.head_cases h.tree.toForkInvariant hdb
    · exact hsame
    · have hyn := hn.only y hy hvalid hpref
      have hnid : c'.forkDb.head.id = n.id := by rw [hpruned.head, heq, mark_id, hyn]
      cases hback.consistent.tree.head with
      | inl hroot =>
        rw [hroot, hpruned.root, hmarked.root] at hnid
        exact absurd hnid.symm (h.tree.fresh n hn.mem)
      | inr hblock => exact absurd hnid (hgone _ hblock.1)
  refine ⟨⟨⟨base, l, hback.consistent⟩, ?_, ?_, ?_, ?_⟩, hhead⟩
  · exact ⟨hback.same.replaying.trans hlive.1, hback.same.blog ▸ hlive.2⟩
  · rw [Abreast, hhead, hback.head]
    exact habreast
  · exact (hmarked.within hw).sublist hpruned.sublist (.inl hpruned.root)
  · intro x hx hvalid hpref
    obtain ⟨y, hy, hyvalid, rfl⟩ := hmarked.unmarked (hpruned.sublist.subset hx) hvalid
    rw [hhead, mark_header] at hpref
    refine hgone _ hx ?_
    rw [mark_id, hn.only y hy hyvalid hpref]

def Leads (X : Execution σ) (P : Primitives) (V : BlockHeaderState → Prop) (c c' : Controller σ) :
    Prop :=
  (InStep X P V c' ∧ Live c') ∨
    (Level X P V c' ∧ c'.head = c.head ∧ c'.forkDb.head = c.forkDb.head)

theorem Leads.of_switch (h : Consistent X P base c l) (hlive : Live c) (habreast : Abreast c)
    (hw : Within (Chained P V) c.forkDb) (hn : OnlyBetter c.forkDb n) :
    Leads X P V c (c.maybeSwitchForks X P n).1 := by
  have hne := h.id_ne_of_better habreast hn
  obtain ⟨_, hla⟩ := h.tree.exists_onPath (h.tree.header_block hn.mem)
  obtain ⟨first, _, common, hfetch, hf⟩ := h.fetchBranchFrom hla
  obtain ⟨d, hd, _⟩ := (hf.second_eq ▸ h.trail).of_append
  have hla' : OnPath c.forkDb n (first ++ common) := hf.first_eq ▸ hla
  rw [maybeSwitchForks_eq hne]
  cases hreplay : replay X.run d.state first with
  | ok =>
    obtain ⟨c₁, hmove, hmoved⟩ := h.moveHead_ok hla hfetch hf hd hreplay
    obtain ⟨rest, hfirst⟩ := h.first_of_better hn hla hf
    obtain ⟨_, hlog, hstep, hlive₂⟩ :=
      InStep.of_moved h hw hn hla' (by rw [hfirst]; exact mem_cons_self) hmoved
    rw [hmove, Controller.andThen, hlog]
    exact .inl ⟨hstep, hlive₂ (hmoved.live hlive)⟩
  | error =>
    obtain ⟨_, b, _, -, hfirst, _, _, hcases⟩ := h.moveHead_error hla hfetch hf hd hreplay
    obtain ⟨rfl, hprev, _⟩ | hback := hcases
    · obtain ⟨hpath, hlength⟩ := h.path_of_forked hla hf hne hprev
      exact absurd (h.length_of_better habreast hn hpath) (Nat.not_lt.mpr hlength)
    · obtain ⟨_, _, hresult, hback⟩ := hback
      rw [hresult]
      rw [hfirst, append_assoc] at hla'
      obtain ⟨y, hlow, hhigh⟩ := hla'.path.of_append
      have hy : b.id = y := hlow.2.1
      obtain ⟨hlevel, hhead⟩ := Level.of_movedBack h hlive habreast hw hn (hy ▸ hhigh) hback
      exact .inr ⟨hlevel, hback.head, hhead⟩

theorem InStep.of_forkHead (h : Consistent X P base c l) (hlive : Live c)
    (hw : Within (Chained P V) c.forkDb) (hne : c.forkDb.head.id ≠ c.head.id)
    (hsettled : ∀ b ∈ c.forkDb.index, b.validated = false →
      ¬ firstPreferred b.toBlockHeaderState c.forkDb.head.toBlockHeaderState) :
    ∃ c', c.maybeSwitchForks X P c.forkDb.head = (c', .ok ()) ∧ InStep X P V c' ∧ Live c' := by
  obtain ⟨_, hla⟩ := h.tree.exists_onPath h.tree.header_head
  obtain ⟨first, _, common, hfetch, hf⟩ := h.fetchBranchFrom hla
  obtain ⟨d, hd, _⟩ := (hf.second_eq ▸ h.trail).of_append
  have hla' : OnPath c.forkDb c.forkDb.head (first ++ common) := hf.first_eq ▸ hla
  obtain ⟨_, hd'⟩ := h.tree.header_applied hla' (h.tree.head.imp_right And.right)
  obtain ⟨_, hd₁, hfirst⟩ := hd'.of_append
  rw [hd₁.unique hd] at hfirst
  obtain ⟨c₁, hmove, hmoved⟩ := h.moveHead_ok hla hfetch hf hd hfirst.replay_eq
  have hhead : c₁.forkDb.head = c.forkDb.head := by
    obtain hsame | ⟨b, hb, hvalid, _, hpref, _⟩ :=
        hmoved.marked.head_cases h.tree.toForkInvariant hmoved.consistent.tree.head
    · exact hsame
    · exact absurd hpref (hsettled b hb hvalid)
  have hid : c₁.forkDb.head.id = c₁.head.id := by
    rw [hhead]
    exact (congrArg BlockHeaderState.id (hmoved.head h hla')).symm
  obtain ⟨c₂, hlog, hstep, hlive₂⟩ := hmoved.consistent.logged (hmoved.marked.within hw) hid
    fun x hx hvalid hpref => by
      obtain ⟨y, hy, hyvalid, rfl⟩ := hmoved.marked.unmarked hx hvalid
      rw [hhead, mark_header] at hpref
      exact hsettled y hy hyvalid hpref
  refine ⟨c₂, ?_, hstep, hlive₂ (hmoved.live hlive)⟩
  rw [maybeSwitchForks_eq hne, hmove, Controller.andThen, hlog]

end MoveHead

section Steps

variable {validator : FeatureValidator}

theorem InStep.level (h : InStep X P V c) (hlive : Live c) : Level X P V c := by
  obtain ⟨_, l, hc⟩ := h.consistent
  have hheader := hc.header_head h.head
  exact ⟨h.consistent, hlive, ⟨congrArg (·.dposIrreversibleBlocknum) hheader,
    congrArg (·.blockNum) hheader⟩, h.within, h.settled⟩

/-- Adding a block may move the head of the fork database to one that is equally good. -/
theorem Level.push (h : Level X P V c) (hc : Consistent X P base c l)
    (hc' : Consistent X P base { c with forkDb := c.forkDb.push n } l) (hvalid : n.validated = false) :
    Abreast { c with forkDb := c.forkDb.push n } ∧
      ∀ b ∈ (c.forkDb.push n).index, b.validated = false →
        firstPreferred b.toBlockHeaderState (c.forkDb.push n).head.toBlockHeaderState → b = n := by
  have hlow : ¬ firstPreferred (c.forkDb.push n).head.toBlockHeaderState
      c.forkDb.head.toBlockHeaderState := by
    refine hc.tree.head_best (hc'.tree.head.imp_right fun hblock => ⟨?_, hblock.2⟩)
    refine (mem_append.mp hblock.1).resolve_right fun hmem => ?_
    have hflag := hblock.2
    rw [mem_singleton.mp hmem, hvalid] at hflag
    cases hflag
  have hhigh : ¬ firstPreferred c.forkDb.head.toBlockHeaderState
      (c.forkDb.push n).head.toBlockHeaderState :=
    hc'.tree.head_best (hc.tree.head.imp_right fun hblock =>
      ⟨mem_append_left _ hblock.1, hblock.2⟩)
  have habreast := h.abreast
  simp only [firstPreferred] at hlow hhigh
  refine ⟨?_, fun b hb hflag hpref => ?_⟩
  · simp only [Abreast] at *
    omega
  · cases mem_append.mp hb with
    | inl hold =>
      refine absurd ?_ (h.settled b hold hflag)
      simp only [firstPreferred] at *
      omega
    | inr hnew => exact mem_singleton.mp hnew

/-- A received block is the only one that can be better than the head. -/
theorem Level.receive (h : Level X P V c) (hV : LibMonotone V)
    (hbound : ∀ s, V s → s.blockNum + 1 < 2 ^ 32) {b : SignedBlock}
    (hb : ∀ n, c.createBlockState P validator b = .ok n → V n.toBlockHeaderState) :
    Level X P V (c.receiveBlock X P validator b).1 ∧ (HeadFirst c.forkDb →
      c.forkDb.head.id = c.head.id → (c.receiveBlock X P validator b).1.forkDb.head.id =
        (c.receiveBlock X P validator b).1.head.id) := by
  rw [receiveBlock]
  cases hcreate : c.createBlockState P validator b with
  | error => exact ⟨h, fun _ => id⟩
  | ok n =>
    obtain ⟨base, l, hc⟩ := h.consistent
    obtain ⟨hadd, hc', hw, p, _, hbuilt⟩ :=
      hc.received hV h.within hcreate (hb n hcreate) (hbound _ (hb n hcreate))
    obtain ⟨habreast, honly⟩ := h.push hc hc' hbuilt.validated
    have hfirst : HeadFirst c.forkDb → (c.forkDb.push n).head = c.forkDb.head :=
      fun hfirst => push_head hc.tree.toForkInvariant hfirst hbuilt.validated
    simp only [pushBlock, hadd, Controller.andThen, ne_eq, hc.mode, not_false_eq_true,
      if_true]
    obtain ⟨hsettled, hcases⟩ := (c.forkDb.push n).pendingHead_cases
    cases hcases with
    | inl hsame =>
      rw [hsame] at hsettled ⊢
      by_cases hid : (c.forkDb.push n).head.id = c.head.id
      · obtain ⟨_, hla⟩ := hc'.tree.exists_onPath hc'.tree.header_head
        rw [hc'.maybeSwitchForks_self hla hid]
        exact ⟨⟨⟨base, l, hc'⟩, h.live, habreast, hw, hsettled⟩, fun _ _ => hid⟩
      · obtain ⟨_, hswitch, hstep, hlive⟩ := InStep.of_forkHead hc' h.live hw hid hsettled
        rw [hswitch]
        exact ⟨hstep.level hlive, fun _ _ => hstep.head⟩
    | inr hbetter =>
      have hn : OnlyBetter (c.forkDb.push n) (c.forkDb.push n).pendingHead := by
        refine ⟨hbetter.1, hbetter.2.1, hbetter.2.2, fun b hb hvalid hpref => ?_⟩
        rw [honly b hb hvalid hpref, honly _ hbetter.1 hbetter.2.1 hbetter.2.2]
      cases Leads.of_switch hc' h.live habreast hw hn with
      | inl hstep => exact ⟨hstep.1.level hstep.2, fun _ _ => hstep.1.head⟩
      | inr hback =>
        refine ⟨hback.1, fun hh hid => ?_⟩
        rw [hback.2.1, hback.2.2]
        exact (congrArg (·.id) (hfirst hh)).trans hid

variable {s : σ} {block : SignedBlock}

theorem Consistent.committed (h : Consistent X P base c l) (hn : OnPath c.forkDb n (n :: l))
    (hrun : X.run c.db.state n = .ok s) :
    ∃ reversibleBlocks db', c.createReversible n = .ok reversibleBlocks ∧
      c.forkDb.markValid n = .ok db' ∧ Marked [n.id] c.forkDb db' ∧
      Consistent X P base
        { c with db := c.db.push s, reversibleBlocks, forkDb := db'
                 head := asValid n
                 unapplied := eraseUnapplied c.unapplied n.inputTransactions } (asValid n :: l) := by
  have hnum := h.tree.onPath_blockNum hn
  rw [length_cons, ← Nat.add_assoc, ← h.head_blockNum] at hnum
  obtain ⟨reversibleBlocks, hreversible, _⟩ := h.createReversible hnum
  obtain ⟨db', hmark, hmarked, _⟩ := markValid_marked h.tree.toForkInvariant hn.path.1
  obtain ⟨_, happly, hc', _⟩ := h.applyAndMark hn hrun
  rw [Controller.applyAndMark, Controller.applyBlock_ok h.db_revision hreversible hrun] at happly
  simp only [Controller.andThen, Controller.markValid, hmark, Prod.mk.injEq, and_true] at happly
  exact ⟨reversibleBlocks, db', hreversible, hmark, hmarked, happly ▸ hc'⟩

theorem ForkDatabase.Marked.head_eq {db db' : ForkDatabase} (h : Marked [n.id] db db')
    (hdb : ForkInvariant db) (hdb' : ForkInvariant db') (hn : n ∈ db.index)
    (hpref : firstPreferred n.toBlockHeaderState db.head.toBlockHeaderState) :
    db'.head = asValid n := by
  have hindex : asValid n ∈ db'.index := by
    rw [h.index, ← mark_self]
    exact mem_map.mpr ⟨n, hn, rfl⟩
  obtain hsame | ⟨b, hb, _, hid, _, heq⟩ := h.head_cases hdb hdb'.head
  · have hbest := hdb'.best _ hindex rfl
    rw [hsame] at hbest
    exact absurd hpref hbest
  · rw [heq, inj_on_of_nodup_map hdb.nodup hb hn (mem_singleton.mp hid), mark_self]

variable (h : Level X P V c)
include h

theorem Level.completed (hok : c.completeBlock P validator block = .ok n) :
    BuiltOn P c.head.toBlockHeaderState block n ∧
      ∃ p, c.forkDb.getBlockHeader (prev n) = some p ∧
        p.toBlockHeaderState = c.head.toBlockHeaderState := by
  obtain ⟨_, l, hc⟩ := h.consistent
  obtain ⟨top, htop, hheader⟩ := hc.head.exists_top hc.tree.toTreeInvariant
  have hsealed : Sealed P c.head.toBlockHeaderState :=
    hheader ▸ (h.within.header htop.header).2.1
  simp only [completeBlock, bind_eq_ok] at hok
  obtain ⟨_, hnext, hpending⟩ := hok
  have hbuilt := (ofPending_ok hsealed hnext hpending).1
  refine ⟨hbuilt, top, ?_, hheader⟩
  rw [hbuilt.prev, ← hheader]
  exact htop.header

theorem Level.commit (hV : LibMonotone V) (hbound : ∀ s, V s → s.blockNum + 1 < 2 ^ 32)
    (hok : c.completeBlock P validator block = .ok n) (hn : V n.toBlockHeaderState)
    (hrun : X.run c.db.state n = .ok s) (hnew : c.forkDb.getBlock n.id = none) :
    ∃ c', Controller.commitBlock X P { c with
        db := c.db.push s
        unapplied := eraseUnapplied c.unapplied block.inputTransactions } n = (c', .ok ()) ∧
      InStep X P V c' ∧ Live c' := by
  obtain ⟨_, l, hc⟩ := h.consistent
  obtain ⟨hbuilt, p, hp, hheader⟩ := h.completed hok
  obtain ⟨hc', hw⟩ := hc.added hV h.within hp (hheader ▸ hbuilt)
    ⟨hn, hbuilt.sealedHeader, hbound _ hn⟩ hnew
  obtain ⟨habreast, honly⟩ := h.push hc hc' hbuilt.validated
  have hmem : n ∈ (c.forkDb.push n).index := mem_append_right _ mem_cons_self
  have hpath : OnPath (c.forkDb.push n) n (n :: l) := by
    refine ⟨hc'.tree.header_block hmem, hmem, rfl, ?_⟩
    rw [hbuilt.prev]
    exact hc'.head.path
  -- a block on the head is better than every valid block
  have hpref : firstPreferred n.toBlockHeaderState (c.forkDb.push n).head.toBlockHeaderState := by
    obtain ⟨top, htop, hheader⟩ := hc'.head.exists_top hc'.tree.toTreeInvariant
    have hstep : Path (c.forkDb.push n).index top.id n.id [n] :=
      ⟨hmem, rfl, hbuilt.prev.trans (congrArg (·.id) hheader).symm⟩
    have hpref := hc'.tree.firstPreferred_of_path htop.header hstep
    rw [hheader] at hpref
    simp only [firstPreferred, Abreast] at *
    omega
  obtain ⟨reversibleBlocks, db', hreversible, hmark, hmarked, hcommitted⟩ :=
    hc'.committed hpath hrun
  have hhead := hmarked.head_eq hc'.tree.toForkInvariant hcommitted.tree.toForkInvariant hmem hpref
  have htrxs : n.inputTransactions = block.inputTransactions := by
    rw [BlockState.inputTransactions, hbuilt.block]
    rfl
  have hid : db'.head.id = (asValid n).id := by rw [hhead]
  obtain ⟨c', hlog, hstep, hlive⟩ := hcommitted.logged (hmarked.within hw) hid
    fun x hx hvalid hxpref => by
      obtain ⟨y, hy, hyvalid, rfl⟩ := hmarked.unmarked hx hvalid
      rw [hhead, mark_header] at hxpref
      have hsame : y = n := honly y hy hyvalid (by
        simp only [firstPreferred, asValid] at *
        omega)
      rw [hsame, mark_self] at hvalid
      cases hvalid
  refine ⟨c', ?_, hstep, hlive h.live⟩
  have hadd : c.forkDb.add n false false (fun _ _ _ => .ok ()) = .ok (c.forkDb.push n) := by
    simp [ForkDatabase.add, ForkDatabase.insert, hp, hnew]
  have hreversible' : c.createReversible n = .ok reversibleBlocks := hreversible
  rw [← hlog, htrxs]
  simp only [Controller.createReversible] at hreversible'
  simp only [Controller.commitBlock, Controller.addToForkDb, hadd, Controller.andThen,
    Controller.markValid, hmark, hhead, asValid, if_true, Controller.createReversible,
    hreversible']

theorem Level.produce (hV : LibMonotone V) (hbound : ∀ s, V s → s.blockNum + 1 < 2 ^ 32)
    (hblock : ∀ n, c.completeBlock P validator block = .ok n → V n.toBlockHeaderState) :
    Leads X P V c (c.produceBlock X P validator block).1 := by
  obtain ⟨base, l, hc⟩ := h.consistent
  have hunapplied (unapplied : UnappliedTransactions) :
      Leads X P V c { c with unapplied } :=
    .inr ⟨⟨⟨base, l, hc.withUnapplied unapplied⟩, h.live, h.abreast, h.within, h.settled⟩, rfl, rfl⟩
  rw [produceBlock]
  cases hok : c.completeBlock P validator block with
  | error e => exact hunapplied c.unapplied
  | ok n =>
    cases hrun : X.run c.db.state n with
    | error e =>
      simp only [hrun]
      exact hunapplied c.unapplied
    | ok s =>
      simp only [hrun]
      cases addToForkDb_cases { c with
          db := c.db.push s
          unapplied := eraseUnapplied c.unapplied block.inputTransactions } n with
      | inl hfail =>
        obtain ⟨e, hfail⟩ := hfail
        rw [Controller.commitBlock, hfail]
        exact hunapplied _
      | inr hadded =>
        obtain ⟨_, hcommit, hc'⟩ := h.commit hV hbound hok (hblock n hok) hrun hadded.1
        rw [hcommit]
        exact .inl hc'

end Steps

/-- In every run the heads are equally good; they are the same block as long as blocks are received
only while no valid block as good as the head has a smaller id. -/
theorem ControllerRun.level {validator : FeatureValidator} {guard : Controller σ → Prop}
    (hV : LibMonotone V) (hbound : ∀ s, V s → s.blockNum + 1 < 2 ^ 32)
    (h : ControllerRun X P validator V guard c) : Level X P V c ∧
      ((∀ c, guard c → HeadFirst c.forkDb) → c.forkDb.head.id = c.head.id) := by
  induction h with
  | start genesis state readMode hgenesis hmode =>
    have hstep : InStep X P V (.initializeBlockchainState P genesis state readMode) :=
      ⟨⟨_, _, Consistent.genesis genesis state hmode⟩, rfl,
        ⟨⟨hgenesis, Sealed.genesis P genesis, hbound _ hgenesis⟩, nofun⟩, nofun⟩
    exact ⟨hstep.level ⟨rfl, nofun⟩, fun _ => rfl⟩
  | receive b _ hguard hb ih =>
    obtain ⟨hlevel, hsame⟩ := ih.1.receive hV hbound hb
    exact ⟨hlevel, fun hfirst => hsame (hfirst _ hguard) (ih.2 hfirst)⟩
  | produce _ _ hblock ih =>
    cases ih.1.produce hV hbound hblock with
    | inl hstep => exact ⟨hstep.1.level hstep.2, fun _ => hstep.1.head⟩
    | inr hkept =>
      refine ⟨hkept.1, fun hfirst => ?_⟩
      rw [hkept.2.1, hkept.2.2]
      exact ih.2 hfirst

/-- The head of the controller is that of the fork database after every step of a run in which
blocks are received only while no valid block as good as the head has a smaller id. -/
theorem controller_inStep {validator : FeatureValidator} (hV : LibMonotone V)
    (hbound : ∀ s, V s → s.blockNum + 1 < 2 ^ 32)
    (h : ControllerRun X P validator V (fun c => HeadFirst c.forkDb) c) :
    c.forkDb.head.toBlockHeaderState = c.head.toBlockHeaderState := by
  obtain ⟨hlevel, hsame⟩ := h.level hV hbound
  obtain ⟨_, l, hc⟩ := hlevel.consistent
  exact hc.header_head (hsame fun _ => id)

def syncReceive (c : Controller (List Nat)) (b : SignedBlock) : Controller (List Nat) :=
  (c.receiveBlock (refusing [3, 4]) runPrimitives (fun _ _ _ => .ok ()) b).1

/-- Two blocks on the genesis, the second with the smaller id, and a child of each. -/
def syncBlocks : List SignedBlock :=
  let first := sampleSigned sampleStart.head.id 2
  let second := sampleSigned sampleStart.head.id 1
  [first, second, sampleSigned (second.id runPrimitives) 3, sampleSigned (first.id runPrimitives) 4]

def syncHeaders : List BlockHeaderState :=
  let states := (syncBlocks.foldl samplePush sampleStart).forkDb
  (states.root :: states.index).map fun b => b.toBlockHeaderState

theorem syncHeaders_libMonotone : LibMonotone fun s => s ∈ syncHeaders := by
  intro a b ha hb
  exact (by decide +kernel : ∀ a ∈ syncHeaders, ∀ b ∈ syncHeaders, b.header.previous = a.id →
    a.dposIrreversibleBlocknum ≤ b.dposIrreversibleBlocknum) a ha b hb

theorem ControllerRun.syncReceive {c b}
    (h : ControllerRun (refusing [3, 4]) runPrimitives (fun _ _ _ => .ok ())
      (fun s => s ∈ syncHeaders) guard c) (hguard : guard c)
    (hb : ((c.createBlockState runPrimitives (fun _ _ _ => .ok ()) b).toOption.all fun n =>
      n.toBlockHeaderState ∈ syncHeaders) = true) :
    ControllerRun (refusing [3, 4]) runPrimitives (fun _ _ _ => .ok ())
      (fun s => s ∈ syncHeaders) guard (DreamChain.syncReceive c b) := by
  refine .receive b h hguard ?_
  intro n hn
  rw [hn] at hb
  exact of_decide_eq_true hb

theorem syncStart_run : ControllerRun (refusing [3, 4]) runPrimitives (fun _ _ _ => .ok ())
      (fun s => s ∈ syncHeaders) guard sampleStart :=
  .start {} [] .speculative (by decide +kernel) nofun

def syncThrown : Controller (List Nat) := (syncBlocks.take 3).foldl syncReceive sampleStart

theorem syncThrown_run : ControllerRun (refusing [3, 4]) runPrimitives (fun _ _ _ => .ok ())
    (fun s => s ∈ syncHeaders) (fun _ => True) syncThrown :=
  ((syncStart_run.syncReceive trivial (by decide +kernel)).syncReceive trivial
    (by decide +kernel)).syncReceive trivial (by decide +kernel)

/-- The third block throws after the second was marked valid. When the fourth block throws, too,
the fork database is left with the second block as its head and the controller with the first. -/
theorem heads_differ : ∃ c : Controller (List Nat),
    (LibMonotone fun s => s ∈ syncHeaders) ∧ (∀ s ∈ syncHeaders, s.blockNum + 1 < 2 ^ 32) ∧
      ControllerRun (refusing [3, 4]) runPrimitives (fun _ _ _ => .ok ())
        (fun s => s ∈ syncHeaders) (fun _ => True) c ∧
      c.forkDb.head.id ≠ c.head.id :=
  ⟨syncBlocks.foldl syncReceive sampleStart, syncHeaders_libMonotone, by decide +kernel,
    syncThrown_run.syncReceive trivial (by decide +kernel), by decide +kernel⟩

/-- The fourth block makes the fork database take the second block for its head, which is only
as good as the first. -/
theorem tie_replaces_head : ControllerRun (refusing [3, 4]) runPrimitives (fun _ _ _ => .ok ())
        (fun s => s ∈ syncHeaders) (fun _ => True) syncThrown ∧
      ∃ n db', n.validated = false ∧
        syncThrown.forkDb.add n false false (fun _ _ _ => .ok ()) = .ok db' ∧
        ¬ FirstSeen syncThrown.forkDb db' := by
  let n := sampleState syncThrown (syncBlocks.getLastD {})
  exact ⟨syncThrown_run, n, syncThrown.forkDb.push n, by decide +kernel, by decide +kernel,
    by decide +kernel⟩

/-- The switch to the third block is taken back and the heads are the same; only now there is a
valid block before them. -/
theorem controller_inStep_syncThrown : ¬ HeadFirst syncThrown.forkDb ∧
    syncThrown.forkDb.head.toBlockHeaderState = syncThrown.head.toBlockHeaderState :=
  ⟨by decide +kernel, controller_inStep syncHeaders_libMonotone (by decide +kernel)
    (((syncStart_run.syncReceive (by decide +kernel) (by decide +kernel)).syncReceive
      (by decide +kernel) (by decide +kernel)).syncReceive (by decide +kernel) (by decide +kernel))⟩

end DreamChain
