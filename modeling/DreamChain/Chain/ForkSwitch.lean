import DreamChain.Chain.LogIrreversible
import DreamChain.Chain.PushBlock

/-!
Switching forks. The old branch is popped, the new one is applied block by block, and when a
block throws, the part that was applied is popped again and the old branch is re-applied. A
switch is therefore all or nothing, with one exception: when the head itself is the fork
point, the way back reads the last block of an old branch that is empty.
-/

namespace DreamChain
open Library ForkDatabase UndoStack List Controller

variable {σ : Type} {X : Execution σ} {P : Primitives} {base : UndoStack σ}
  {c : Controller σ} {a b newHead : BlockState} {l l' : List BlockState} {s : σ}

theorem addUnapplied_append (u : UnappliedTransactions) (trxs trxs' : List TransactionMetadata) :
    addUnapplied u (trxs ++ trxs') = addUnapplied (addUnapplied u trxs) trxs' :=
  foldl_append

theorem eraseUnapplied_append (u : UnappliedTransactions) (trxs trxs' : List TransactionMetadata) :
    eraseUnapplied u (trxs ++ trxs') = eraseUnapplied (eraseUnapplied u trxs) trxs' :=
  foldl_append

namespace Consistent

theorem popBlocks (h : Consistent X P base c (l' ++ l)) :
    ∃ c', Controller.popBlocks l'.length c = (c', .ok ()) ∧ Consistent X P base c' l ∧
      SameSetting c c' ∧ c'.forkDb = c.forkDb ∧
      c'.unapplied = if c.readMode = .speculative
        then addUnapplied c.unapplied (l'.flatMap fun b => b.trxs) else c.unapplied := by
  induction l' generalizing c with
  | nil =>
    refine ⟨c, rfl, h, ⟨rfl, rfl, rfl⟩, rfl, ?_⟩
    split <;> rfl
  | cons b _ ih =>
    obtain ⟨_, hpop, h₁, _, hsame₁, hfork₁, hunapplied₁⟩ := h.popBlock
    obtain ⟨c', hok, h', hsame, hfork, hunapplied⟩ := ih h₁
    refine ⟨c', ?_, h', hsame₁.trans hsame, hfork.trans hfork₁, ?_⟩
    · rw [length_cons, Controller.popBlocks, hpop]
      exact hok
    · rw [hunapplied, hunapplied₁, hsame₁.readMode]
      by_cases hmode : c.readMode = .speculative
      · simp only [if_pos hmode, flatMap_cons, addUnapplied_append]
      · simp only [if_neg hmode]

variable {todo : List BlockState} {e : ChainException}

section

variable (h : Consistent X P base c l)
include h

theorem reapplyBranch (ha : OnPath c.forkDb a (todo.reverse ++ l))
    (hvalid : ∀ b ∈ todo, b.validated = true) {d : UndoStack σ}
    (htrail : Trail X.run base (todo.reverse ++ l) d) :
    ∃ c', c.reapply X todo = (c', .ok ()) ∧ Consistent X P base c' (todo.reverse ++ l) ∧
      SameSetting c c' ∧ c'.forkDb = c.forkDb := by
  induction todo generalizing c l with
  | nil => exact ⟨c, rfl, h, ⟨rfl, rfl, rfl⟩, rfl⟩
  | cons b rest ih =>
    have hsplit : (b :: rest).reverse ++ l = rest.reverse ++ b :: l := by simp
    rw [hsplit] at ha htrail ⊢
    obtain ⟨_, hd₁, _⟩ := htrail.of_append
    cases hd₁ with
    | cons hl hrun =>
      rw [hl.unique h.trail] at hrun
      obtain ⟨c₁, hok, h₁, _, hsame₁, hfork₁⟩ := h.reapply (h.tree.onPath_of_append ha)
        (hvalid b mem_cons_self) hrun
      obtain ⟨c', hrest, h', hsame, hfork⟩ := ih h₁
        (show OnPath c₁.forkDb a (rest.reverse ++ b :: l) from hfork₁ ▸ ha)
        (fun x hx => hvalid x (mem_cons_of_mem _ hx)) htrail
      refine ⟨c', ?_, h', hsame₁.trans { hsame with }, hfork.trans hfork₁⟩
      rw [Controller.reapply, hok]
      exact hrest

theorem applyStep (ha : OnPath c.forkDb a (l' ++ b :: l)) (hrun : X.run c.db.state b = .ok s) :
    ∃ c', c.applyAndMark X b = (c', .ok ()) ∧ Consistent X P base c' (asValid b :: l) ∧
      c'.db.state = s ∧ SameSetting c c' ∧ Marked [b.id] c.forkDb c'.forkDb ∧
      OnPath c'.forkDb (mark [b.id] a) (l' ++ asValid b :: l) ∧
      c'.unapplied = eraseUnapplied c.unapplied b.inputTransactions := by
  have hb := h.tree.onPath_of_append ha
  obtain ⟨c', hok, h', hsame, hmarked, hunapplied⟩ := h.applyAndMark hb hrun
  have hrun' : X.run c.db.state (asValid b) = .ok s := hrun
  have hdb := h'.trail.unique (h.trail.cons hrun')
  have hroot : c.forkDb.root.id ∉ [b.id] := by
    simpa using Ne.symm (h.tree.fresh b hb.path.1)
  have hpath := hmarked.onPath h.tree.toTreeInvariant h'.tree.toTreeInvariant hroot ha
  rw [h.tree.map_mark_path l' ha] at hpath
  exact ⟨c', hok, h', by rw [hdb]; rfl, hsame, hmarked, hpath, hunapplied⟩

theorem applyBranch (ha : OnPath c.forkDb a (todo.reverse ++ l))
    (hs : replay X.run c.db.state todo.reverse = .ok s) (oldBranch : List BlockState) (n : Nat) :
    ∃ c', c.applyBranch X oldBranch n todo = (c', .ok ()) ∧
      Consistent X P base c' ((todo.reverse.map asValid) ++ l) ∧ SameSetting c c' ∧
      Marked (todo.map fun b => b.id) c.forkDb c'.forkDb ∧
      c'.unapplied = eraseUnapplied c.unapplied (todo.flatMap fun b => b.inputTransactions) := by
  induction todo generalizing c l a n with
  | nil => exact ⟨c, rfl, h, ⟨rfl, rfl, rfl⟩, Marked.refl _, rfl⟩
  | cons b _ ih =>
    rw [reverse_cons, append_assoc] at ha
    rw [reverse_cons, replay_concat] at hs
    cases hrun : X.run c.db.state b with
    | error =>
      rw [hrun] at hs
      cases hs
    | ok =>
      rw [hrun] at hs
      obtain ⟨_, hok, h₁, hstate, hsame₁, hmarked₁, ha₁, hunapplied₁⟩ := h.applyStep ha hrun
      rw [← hstate] at hs
      obtain ⟨c', hrest, h', hsame, hmarked, hunapplied⟩ := ih h₁ ha₁ hs (n + 1)
      refine ⟨c', ?_, ?_, hsame₁.trans hsame, hmarked₁.trans hmarked, ?_⟩
      · rw [Controller.applyBranch, hok]
        exact hrest
      · simpa using h'
      · rw [hunapplied, hunapplied₁, flatMap_cons, eraseUnapplied_append]

theorem applyBranch_error (ha : OnPath c.forkDb a (todo.reverse ++ l))
    (he : replay X.run c.db.state todo.reverse = .error e) (oldBranch : List BlockState) (n : Nat) :
    ∃ done b rest c₁, todo = done ++ b :: rest ∧
      c.applyBranch X oldBranch n todo = c₁.switchBack X oldBranch b (n + done.length) e ∧
      Consistent X P base c₁ ((done.reverse.map asValid) ++ l) ∧ SameSetting c c₁ ∧
      Marked (done.map fun b => b.id) c.forkDb c₁.forkDb ∧
      OnPath c₁.forkDb b (b :: ((done.reverse.map asValid) ++ l)) ∧
      X.run c₁.db.state b = .error e := by
  induction todo generalizing c l a n with
  | nil => cases he
  | cons b rest ih =>
    rw [reverse_cons, append_assoc] at ha
    rw [reverse_cons, replay_concat] at he
    cases hrun : X.run c.db.state b with
    | error =>
      rw [hrun] at he
      cases he
      have hb := h.tree.onPath_of_append ha
      obtain ⟨unapplied, hfail⟩ := h.applyAndMark_error hb hrun
      refine ⟨[], b, rest, { c with unapplied }, rfl, ?_,
        h.withUnapplied unapplied, ⟨rfl, rfl, rfl⟩, Marked.refl _, hb, hrun⟩
      rw [Controller.applyBranch, hfail]
      rfl
    | ok =>
      rw [hrun] at he
      obtain ⟨_, hok, h₁, hstate, hsame₁, hmarked₁, ha₁, _⟩ := h.applyStep ha hrun
      rw [← hstate] at he
      obtain ⟨done, x, rest', c₂, hsplit, hrest, h₂, hsame, hmarked, hx, hfail⟩ :=
        ih h₁ ha₁ he (n + 1)
      refine ⟨b :: done, x, rest', c₂, by rw [hsplit]; rfl, ?_, by simpa using h₂,
        hsame₁.trans hsame, hmarked₁.trans hmarked, by simpa using hx, hfail⟩
      rw [Controller.applyBranch, hok, length_cons, Nat.add_comm done.length 1,
        ← Nat.add_assoc]
      exact hrest

theorem checkForkPoint {branch : List BlockState} (ha : OnPath c.forkDb a (branch ++ l))
    (hne : branch ≠ []) (message : String) : c.checkForkPoint branch message = .ok () := by
  have hlast := dropLast_append_getLast hne
  rw [← hlast, append_assoc] at ha
  rw [Controller.checkForkPoint, getLast?_eq_some_getLast hne]
  exact eosAssert_eq_ok.mpr (h.prev_of_onPath (h.tree.onPath_of_append ha)).symm

end

theorem switchBack {done oldBranch : List BlockState} (h : Consistent X P base c (done ++ l))
    (hb : OnPath c.forkDb b (b :: (done ++ l))) (hfail : X.run c.db.state b = .error e)
    (hne : oldBranch ≠ []) (ha : OnPath c.forkDb a (oldBranch ++ l))
    (hvalid : ∀ x ∈ oldBranch, x.validated = true) {d : UndoStack σ}
    (htrail : Trail X.run base (oldBranch ++ l) d) :
    ∃ c', c.switchBack X oldBranch b done.length e = (c', .error e) ∧
      Consistent X P base c' (oldBranch ++ l) ∧ c'.head = a ∧ c'.db = d ∧ SameSetting c c' ∧
      Pruned c.forkDb c'.forkDb ∧ ∀ x, x ∈ c'.forkDb.index ↔
        x ∈ c.forkDb.index ∧ ∀ l', ¬ Path c.forkDb.index b.id x.id l' := by
  obtain ⟨db', hremove, h₁, hpruned, hmem⟩ := h.remove hb h.trail hfail
  obtain ⟨c₂, hpop, h₂, hsame₂, hfork₂, _⟩ := h₁.popBlocks
  have hain : a ∈ db'.index := (hmem a).mpr ⟨(h.tree.onPath_mem ha (by simp [hne])).1,
    h.tree.not_descendant hb h.trail hfail ha htrail⟩
  have ha' : OnPath c₂.forkDb a (oldBranch ++ l) := by
    rw [hfork₂]
    exact hpruned.onPath h.tree.toTreeInvariant h₁.tree.toTreeInvariant ha (.inr hain)
  rw [← reverse_reverse oldBranch] at ha' htrail
  obtain ⟨c', hreapply, h', hsame, hfork⟩ := h₂.reapplyBranch ha'
    (fun x hx => hvalid x (mem_reverse.mp hx)) htrail
  have hdb := h'.trail.unique htrail
  rw [reverse_reverse] at h' ha'
  have hhead := (h'.head_onPath (by simp [hne])).inj
    (show OnPath c'.forkDb a (oldBranch ++ l) from hfork ▸ ha')
  have hcheck := h₂.checkForkPoint ha' hne
    "loss of sync between fork_db and chainbase during fork switch reversal"
  have hfork' : c'.forkDb = db' := hfork.trans hfork₂
  refine ⟨c', ?_, h', hhead, hdb, { hsame₂.trans hsame with }, hfork'.symm ▸ hpruned,
    hfork'.symm ▸ hmem⟩
  simp only [Controller.switchBack, hremove, hpop, Controller.andThen, hcheck, hreapply]

/-- With an empty old branch the way back reads a block that does not exist. -/
theorem switchBack_nil {done : List BlockState} (h : Consistent X P base c (done ++ l))
    (hb : OnPath c.forkDb b (b :: (done ++ l))) (hfail : X.run c.db.state b = .error e) :
    (c.switchBack X [] b done.length e).2 =
      .error ⟨.undefinedBehavior, "back() of an empty branch"⟩ := by
  obtain ⟨_, hremove, h₁, _⟩ := h.remove hb h.trail hfail
  obtain ⟨_, hpop, _⟩ := h₁.popBlocks
  simp only [Controller.switchBack, hremove, hpop, Controller.andThen, Controller.checkForkPoint,
    getLast?_nil]

theorem popBranch (h : Consistent X P base c (l' ++ l)) :
    ∃ c', c.popBranch l' = (c', .ok ()) ∧ Consistent X P base c' l ∧ SameSetting c c' ∧
      c'.forkDb = c.forkDb ∧
      c'.unapplied = if c.readMode = .speculative
        then addUnapplied c.unapplied (l'.flatMap fun b => b.trxs) else c.unapplied := by
  obtain ⟨c', hpop, h', hsame, hfork, hunapplied⟩ := h.popBlocks
  by_cases hnil : l' = []
  · subst hnil
    cases hpop
    exact ⟨c, by rw [Controller.popBranch, if_pos rfl], h', hsame, hfork, hunapplied⟩
  · refine ⟨c', ?_, h', hsame, hfork, hunapplied⟩
    have hhead := h.head_onPath (show l' ++ l ≠ [] by simp [hnil])
    have hcheck := h'.checkForkPoint (show OnPath c'.forkDb c.head (l' ++ l) from hfork ▸ hhead)
      hnil "loss of sync between fork_db and chainbase during fork switch"
    simp only [Controller.popBranch, if_neg hnil, hpop, Controller.andThen, hcheck]

theorem onPath_of_prev (h : Consistent X P base c l) (hnew : OnPath c.forkDb newHead l')
    (hprev : prev newHead = c.head.id) : l' = newHead :: l := by
  cases l' with
  | nil =>
    rw [h.tree.onPath_nil hnew] at hprev
    by_cases hl : l = []
    · subst hl
      exact absurd (hprev.trans h.head.path) h.tree.rootParent.1
    · exact absurd hprev (h.tree.rootParent.2 c.head (h.head.block hl).1)
  | cons =>
    obtain ⟨rfl, _, _⟩ := h.tree.onPath_cons hnew
    have hrest := hnew.path.2.2
    rw [hprev] at hrest
    rw [hrest.unique h.tree.nodup h.tree.ranked h.head.path]

end Consistent

theorem Controller.andThen_error {r e} (h : r.2 = .error e)
    (f : Controller σ → Result σ) : andThen r f = r := by
  cases r with
  | mk =>
    cases h
    rfl

/-- The part of `maybe_switch_forks` that moves the head. -/
def Controller.moveHead (X : Execution σ) (c : Controller σ) (newHead : BlockState) : Result σ :=
  if prev newHead = c.head.id then c.extendHead X newHead else c.switchForks X newHead

theorem Controller.maybeSwitchForks_eq (hne : newHead.id ≠ c.head.id) :
    c.maybeSwitchForks X P newHead =
      andThen (c.moveHead X newHead) fun c => c.logIrreversible X P := by
  rw [maybeSwitchForks, moveHead]
  split <;> rfl

/-- A head that was moved from the end of `second` to the end of `first`, both of which build
on `common`. -/
structure Moved (X : Execution σ) (P : Primitives) (base : UndoStack σ) (c : Controller σ)
    (first second common : List BlockState) (c' : Controller σ) : Prop where
  consistent : Consistent X P base c' (first.map asValid ++ common)
  marked : Marked (first.reverse.map fun b => b.id) c.forkDb c'.forkDb
  same : SameSetting c c'
  unapplied : c'.unapplied = eraseUnapplied
    (if c.readMode = .speculative then addUnapplied c.unapplied (second.flatMap fun b => b.trxs)
      else c.unapplied) (first.reverse.flatMap fun b => b.inputTransactions)

/-- A head that was not moved, since block `b` threw. -/
structure MovedBack (X : Execution σ) (P : Primitives) (base : UndoStack σ) (c : Controller σ)
    (l : List BlockState) (b : BlockState) (c' : Controller σ) : Prop where
  consistent : Consistent X P base c' l
  head : c'.head = c.head
  db : c'.db = c.db
  same : SameSetting c c'
  removed : ∃ ids db, Marked ids c.forkDb db ∧ Pruned db c'.forkDb ∧
    ∀ x, x ∈ c'.forkDb.index ↔ x ∈ db.index ∧ ∀ l', ¬ Path db.index b.id x.id l'

theorem Consistent.fetchBranchFrom (h : Consistent X P base c l)
    (hnew : OnPath c.forkDb newHead l') : ∃ first second common,
      c.forkDb.fetchBranchFrom newHead.id c.head.id = .ok (first, second) ∧
        Forked l' l first second common := by
  obtain ⟨_, htop, hheader⟩ := h.head.exists_top h.tree.toTreeInvariant
  rw [← hheader]
  exact fetchBranchFrom_ok h.tree.toTreeInvariant hnew htop

section MoveHead

variable {la first second common : List BlockState} {d : UndoStack σ}

theorem Consistent.moveHead_eq (h : Consistent X P base c l) (hnew : OnPath c.forkDb newHead la)
    (hfetch : c.forkDb.fetchBranchFrom newHead.id c.head.id = .ok (first, second))
    (hf : Forked la l first second common) :
    (prev newHead = c.head.id ∧ first = [newHead] ∧ second = [] ∧ common = l ∧
      c.moveHead X newHead = c.extendHead X newHead) ∨
    (prev newHead ≠ c.head.id ∧ ∃ c', c.popBranch second = (c', .ok ()) ∧
      c.moveHead X newHead = c'.applyBranch X second 0 first.reverse) := by
  by_cases hprev : prev newHead = c.head.id
  · have hla := h.onPath_of_prev hnew hprev
    subst hla
    obtain ⟨rfl, rfl⟩ := Forked.of_descendant (show Forked ([newHead] ++ l) l _ _ _ from hf)
    exact .inl ⟨hprev, rfl, rfl, hf.second_eq.symm, by rw [moveHead, if_pos hprev]⟩
  · have hl := hf.second_eq
    subst hl
    obtain ⟨c', hpop, _⟩ := h.popBranch
    refine .inr ⟨hprev, c', hpop, ?_⟩
    simp only [moveHead, if_neg hprev, switchForks, hfetch, hpop,
      Controller.andThen]

theorem Consistent.moveHead_ok (h : Consistent X P base c l) (hnew : OnPath c.forkDb newHead la)
    (hfetch : c.forkDb.fetchBranchFrom newHead.id c.head.id = .ok (first, second))
    (hf : Forked la l first second common) (hd : Trail X.run base common d)
    (hs : replay X.run d.state first = .ok s) :
    ∃ c', c.moveHead X newHead = (c', .ok ()) ∧ Moved X P base c first second common c' := by
  have hl := hf.second_eq
  have hla := hf.first_eq
  subst hla
  cases h.moveHead_eq hnew hfetch hf with
  | inl hextend =>
    obtain ⟨_, rfl, rfl, rfl, hmove⟩ := hextend
    rw [hd.unique h.trail] at hs
    obtain ⟨c', hok, h', hsame, hmarked, hunapplied⟩ := h.applyAndMark hnew hs
    refine ⟨c', ?_, h', hmarked, hsame, ?_⟩
    · rw [hmove, extendHead, hok]
    · rw [hunapplied]
      split <;> simp [addUnapplied]
  | inr hswitch =>
    obtain ⟨_, c₁, hpop, hmove⟩ := hswitch
    subst hl
    obtain ⟨c₂, hpop', h₁, hsame₁, hfork₁, hunapplied₁⟩ := h.popBranch
    obtain rfl : c₂ = c₁ := congrArg Prod.fst (hpop'.symm.trans hpop)
    rw [← h₁.trail.unique hd, ← reverse_reverse first] at hs
    rw [← hfork₁, ← reverse_reverse first] at hnew
    obtain ⟨c', hok, h', hsame, hmarked, hunapplied⟩ := h₁.applyBranch hnew hs second 0
    rw [reverse_reverse] at h'
    rw [hfork₁] at hmarked
    rw [hunapplied₁] at hunapplied
    exact ⟨c', hmove.trans hok, h', hmarked, hsame₁.trans hsame, hunapplied⟩

theorem Consistent.oldBranch_marked (h : Consistent X P base c (second ++ common))
    (hne : second ≠ []) (ids : List BlockIdType) : (∀ x ∈ second, x.validated = true) ∧
      mark ids c.head = c.head ∧ (second ++ common).map (mark ids) = second ++ common := by
  have hl : second ++ common ≠ [] := by simp [hne]
  have hhead := (h.head.block hl).2
  have hvalid := h.tree.path_validated (h.head_onPath hl) hhead
  refine ⟨fun x hx => hvalid x (mem_append_left _ hx), mark_of_validated hhead, ?_⟩
  exact (map_congr_left fun x hx => mark_of_validated (hvalid x hx)).trans (map_id _)

theorem Consistent.moveHead_error (h : Consistent X P base c l) (hnew : OnPath c.forkDb newHead la)
    (hfetch : c.forkDb.fetchBranchFrom newHead.id c.head.id = .ok (first, second))
    (hf : Forked la l first second common) (hd : Trail X.run base common d) {e : ChainException}
    (he : replay X.run d.state first = .error e) :
    ∃ rest b done d', first = rest ++ b :: done ∧ Trail X.run d done d' ∧
      X.run d'.state b = .error e ∧
      ((second = [] ∧ prev newHead ≠ c.head.id ∧ (c.moveHead X newHead).2 =
          .error ⟨.undefinedBehavior, "back() of an empty branch"⟩) ∨
        (second ≠ [] ∨ prev newHead = c.head.id) ∧
          ∃ c', c.moveHead X newHead = (c', .error e) ∧ MovedBack X P base c l b c') := by
  have hl := hf.second_eq
  have hla := hf.first_eq
  subst hla
  cases h.moveHead_eq hnew hfetch hf with
  | inl hextend =>
    obtain ⟨hprev, rfl, rfl, rfl, hmove⟩ := hextend
    rw [hd.unique h.trail] at he
    obtain ⟨unapplied, hfail⟩ := h.applyAndMark_error hnew he
    obtain ⟨_, hremove, h', hpruned, hmem⟩ :=
      (h.withUnapplied unapplied).remove hnew h.trail he
    refine ⟨[], newHead, [], d, rfl, .nil, hd.unique h.trail ▸ he, Or.inr
      ⟨.inr hprev, _, ?_, h', rfl, rfl, ⟨rfl, rfl, rfl⟩, [], c.forkDb, Marked.refl _, hpruned, hmem⟩⟩
    rw [hmove, extendHead, hfail]
    simp only [hremove]
  | inr hswitch =>
    obtain ⟨hprev, c₁, hpop, hmove⟩ := hswitch
    subst hl
    obtain ⟨c₂, hpop', h₁, hsame₁, hfork₁, _⟩ := h.popBranch
    obtain rfl : c₂ = c₁ := congrArg Prod.fst (hpop'.symm.trans hpop)
    have hdb := h₁.trail.unique hd
    rw [← hdb, ← reverse_reverse first] at he
    rw [← hfork₁, ← reverse_reverse first] at hnew
    obtain ⟨done, b, rest, c₃, hsplit, happly, h₃, hsame₃, hmarked, hb, hfail⟩ :=
      h₁.applyBranch_error hnew he second 0
    have hfirst : first = rest.reverse ++ b :: done.reverse := by
      rw [← reverse_reverse first, hsplit]
      simp
    obtain ⟨_, hd₁, hdone⟩ := h₃.trail.of_append
    rw [hd₁.unique hd] at hdone
    refine ⟨rest.reverse, b, done.reverse, c₃.db, hfirst,
      Trail.of_map (f := asValid) (fun _ _ => rfl) hdone, hfail, ?_⟩
    rw [hmove, happly, Nat.zero_add, ← length_reverse, ← length_map asValid]
    by_cases hnil : second = []
    · exact .inl ⟨hnil, hprev, hnil ▸ h₃.switchBack_nil hb hfail⟩
    · have hroot : c₂.forkDb.root.id ∉ done.map fun b => b.id := by
        intro hid
        obtain ⟨x, hx, hxid⟩ := mem_map.mp hid
        refine h₁.tree.fresh x (hnew.path.mem x ?_) hxid
        rw [hfirst]
        simp [hx]
      obtain ⟨hvalid, hhead⟩ := h.oldBranch_marked hnil (done.map fun b => b.id)
      have hold := hmarked.onPath h₁.tree.toTreeInvariant h₃.tree.toTreeInvariant hroot
        (show OnPath c₂.forkDb c.head (second ++ common) from
          hfork₁ ▸ h.head_onPath (by simp [hnil]))
      rw [hhead.1, hhead.2] at hold
      obtain ⟨c', hback, h', hhead', hdb', hsame', hpruned, hmem⟩ :=
        h₃.switchBack hb hfail hnil hold hvalid h.trail
      exact .inr ⟨.inl hnil, c', hback, h', hhead', hdb',
        (hsame₁.trans hsame₃).trans hsame', done.map fun b => b.id, c₃.forkDb, hfork₁ ▸ hmarked, hpruned, hmem⟩

end MoveHead

structure SwitchedTo (X : Execution σ) (base : UndoStack σ) (c : Controller σ)
    (newHead : BlockState) (r : Controller.Result σ) : Prop where
  result : r.2 = .ok ()
  head : r.1.head.toBlockHeaderState = newHead.toBlockHeaderState
  state : ∃ la, OnPath c.forkDb newHead la ∧ replay X.run base.state la = .ok r.1.db.state

/-- The exception of a block below the new head, with head and state as they were and nothing
but the block and its descendants gone. The flags of other blocks may be set. -/
structure SwitchFailed (X : Execution σ) (base : UndoStack σ) (c : Controller σ)
    (newHead : BlockState) (r : Controller.Result σ) (b : BlockState) (e : ChainException) :
    Prop where
  result : r.2 = .error e
  head : r.1.head = c.head
  db : r.1.db = c.db
  fails : ∃ la lb s, OnPath c.forkDb newHead (la ++ b :: lb) ∧
    replay X.run base.state lb = .ok s ∧ X.run s b = .error e
  removed : ∃ ids, ∀ x, x ∈ r.1.forkDb.index ↔
    ∃ y ∈ c.forkDb.index, mark ids y = x ∧ ∀ l', ¬ Path c.forkDb.index b.id y.id l'

def Atomic (X : Execution σ) (base : UndoStack σ) (c : Controller σ) (newHead : BlockState)
    (r : Controller.Result σ) : Prop :=
  SwitchedTo X base c newHead r ∨ ∃ b e, SwitchFailed X base c newHead r b e

variable {c' : Controller σ}

theorem MovedBack.index (h : MovedBack X P base c l b c') : ∃ ids, ∀ x, x ∈ c'.forkDb.index ↔
      ∃ y ∈ c.forkDb.index, mark ids y = x ∧ ∀ l', ¬ Path c.forkDb.index b.id y.id l' := by
  obtain ⟨ids, _, hmarked, _, hmem⟩ := h.removed
  refine ⟨ids, ?_⟩
  intro x
  rw [hmem x, hmarked.index, mem_map]
  constructor
  · rintro ⟨⟨y, hy, rfl⟩, hpath⟩
    refine ⟨y, hy, rfl, ?_⟩
    intro l' hl'
    refine hpath (l'.map (mark ids)) ?_
    rw [mark_id]
    exact hl'.map (mark_id ids) (mark_prev ids)
  · rintro ⟨y, hy, rfl, hpath⟩
    refine ⟨⟨y, hy, rfl⟩, ?_⟩
    intro _ hl'
    rw [mark_id] at hl'
    obtain ⟨l'', hl''⟩ := hl'.of_map (mark_id ids) (mark_prev ids)
    exact hpath l'' hl''

theorem Moved.head {first second common : List BlockState} (h : Consistent X P base c l)
    (hmoved : Moved X P base c first second common c')
    (hnew : OnPath c.forkDb newHead (first ++ common)) :
    c'.head.toBlockHeaderState = newHead.toBlockHeaderState := by
  obtain ⟨_, htop, hheader⟩ :=
    hmoved.consistent.head.exists_top hmoved.consistent.tree.toTreeInvariant
  rw [← hheader]
  cases first with
  | nil =>
    have hsame := hmoved.marked.onPath h.tree.toTreeInvariant
      hmoved.consistent.tree.toTreeInvariant not_mem_nil hnew
    have hnil : ∀ x, mark (([] : List BlockState).reverse.map fun b => b.id) x = x :=
      fun _ => mark_of_not_mem not_mem_nil
    rw [hnil, map_congr_left (fun x _ => hnil x), map_id'] at hsame
    rw [htop.inj hsame]
  | cons =>
    obtain ⟨hx, _⟩ := h.tree.onPath_cons hnew
    obtain ⟨hhead, _⟩ := hmoved.consistent.tree.onPath_cons htop
    rw [← hhead, ← hx]
    rfl

theorem Moved.trail {first second common : List BlockState}
    (hmoved : Moved X P base c first second common c') :
    Trail X.run base (first ++ common) c'.db := by
  obtain ⟨d, hcommon, hfirst⟩ := hmoved.consistent.trail.of_append
  exact hcommon.append (Trail.of_map (f := asValid) (fun _ _ => rfl) hfirst)

theorem Consistent.maybeSwitchForks_self (h : Consistent X P base c l)
    (hnew : OnPath c.forkDb newHead l') (hid : newHead.id = c.head.id) :
    c.maybeSwitchForks X P newHead = (c, .ok ()) := by
  have hprev : prev newHead ≠ c.head.id := by
    intro hprev
    have hlong := h.onPath_of_prev hnew hprev
    have hsame := hnew.path
    rw [hid] at hsame
    rw [h.head.path.unique h.tree.nodup h.tree.ranked hsame] at hlong
    exact absurd (congrArg length hlong) (by simp)
  rw [maybeSwitchForks, if_neg hprev, if_neg (not_not.mpr hid)]

theorem Consistent.not_atomic (h : Consistent X P base c l) {r : Controller.Result σ}
    {message : String} (hr : r.2 = .error ⟨.undefinedBehavior, message⟩) :
    ¬ Atomic X base c newHead r := by
  intro hatomic
  cases hatomic with
  | inl hto =>
    rw [hto.result] at hr
    cases hr
  | inr hfailed =>
    obtain ⟨b, e, hfailed⟩ := hfailed
    obtain ⟨_, _, s, hla, _, hrun⟩ := hfailed.fails
    obtain ⟨_, hblock, _⟩ := h.tree.blocks b (hla.path.mem b (mem_append_right _ mem_cons_self))
    rw [hfailed.result, Except.error.injEq] at hr
    exact Execution.run_error_type hblock hrun (congrArg ChainException.type hr)

section

variable {la first second common : List BlockState} {d : UndoStack σ}

theorem Consistent.forked_of_path (h : Consistent X P base c l) (hla : OnPath c.forkDb newHead la)
    (hf : Forked la l first second common) (hd : Trail X.run base common d)
    {between : List BlockState} (hpath : Path c.forkDb.index c.head.id newHead.id between) :
    first = between ∧ second = [] ∧ d = c.db := by
  have hlong := hla.path.unique h.tree.nodup h.tree.ranked (h.head.path.append hpath)
  subst hlong
  obtain ⟨hfirst, hsecond⟩ := hf.of_descendant
  have hcommon := hf.second_eq
  rw [hsecond] at hcommon
  subst hcommon
  exact ⟨hfirst, hsecond, hd.unique h.trail⟩

theorem Consistent.path_of_forked (h : Consistent X P base c l)
    (hla : OnPath c.forkDb newHead la) (hf : Forked la l first [] common)
    (hid : newHead.id ≠ c.head.id) (hprev : prev newHead ≠ c.head.id) :
    Path c.forkDb.index c.head.id newHead.id first ∧ 2 ≤ first.length := by
  have hcommon : l = common := hf.second_eq
  have hsplit := hf.first_eq
  subst hcommon
  subst hsplit
  obtain ⟨y, hl, hfirst⟩ := hla.path.of_append
  rw [hl.start_unique h.head.path] at hfirst
  refine ⟨hfirst, ?_⟩
  cases first with
  | nil => exact absurd hfirst hid
  | cons x first =>
    cases first with
    | nil =>
      obtain ⟨hx, _⟩ := h.tree.onPath_cons hla
      exact absurd (hx ▸ hfirst.2.2) hprev
    | cons => simp

end

/-- `maybe_switch_forks` is all or nothing, except when the new head is more than one block
above the head and one of the blocks between them throws: then undefined behaviour is reached
on the way back. -/
theorem maybeSwitchForks_atomic_iff (h : Consistent X P base c l)
    (hnew : c.forkDb.getBlockHeader newHead.id = some newHead) :
    Atomic X base c newHead (c.maybeSwitchForks X P newHead) ↔
      ¬ ∃ between, Path c.forkDb.index c.head.id newHead.id between ∧ 2 ≤ between.length ∧
        ∃ e, replay X.run c.db.state between = .error e := by
  obtain ⟨_, hla⟩ := h.tree.exists_onPath hnew
  by_cases hid : newHead.id = c.head.id
  · obtain ⟨_, htop, hheader⟩ := h.head.exists_top h.tree.toTreeInvariant
    have hsame := hla.path
    rw [hid] at hsame
    rw [hsame.unique h.tree.nodup h.tree.ranked h.head.path] at hla
    rw [h.maybeSwitchForks_self hla hid]
    refine iff_of_true (.inl ⟨rfl, ?_, l, hla, h.trail.replay_eq⟩) ?_
    · rw [hla.inj htop]
      exact hheader.symm
    · rintro ⟨between, hpath, hlength, _⟩
      have hrank := hpath.rank_eq h.tree.ranked
      rw [hid] at hrank
      omega
  · rw [maybeSwitchForks_eq hid]
    obtain ⟨first, _, common, hfetch, hf⟩ := h.fetchBranchFrom hla
    obtain ⟨d, hd, _⟩ := (hf.second_eq ▸ h.trail).of_append
    cases hreplay : replay X.run d.state first with
    | ok =>
      obtain ⟨_, hmove, hmoved⟩ := h.moveHead_ok hla hfetch hf hd hreplay
      obtain ⟨c', hlog, hlogged, _⟩ := hmoved.consistent.logIrreversible
      have hla' : OnPath c.forkDb newHead (first ++ common) := hf.first_eq ▸ hla
      rw [hmove, Controller.andThen, hlog]
      refine iff_of_true (.inl ⟨rfl, ?_, first ++ common, hla', ?_⟩) ?_
      · rw [hlogged.head]
        exact hmoved.head h hla'
      · rw [hlogged.state]
        exact hmoved.trail.replay_eq
      · rintro ⟨between, hpath, _, e, he⟩
        obtain ⟨rfl, _, rfl⟩ := h.forked_of_path hla hf hd hpath
        rw [hreplay] at he
        cases he
    | error e =>
      obtain ⟨rest, b, done, d', hfirst, hdone, hfail, hcases⟩ :=
        h.moveHead_error hla hfetch hf hd hreplay
      obtain ⟨rfl, hprev, hresult⟩ | ⟨hforked, _, hresult, hmoved⟩ := hcases
      · obtain ⟨hpath, hlength⟩ := h.path_of_forked hla hf hid hprev
        have hdb := (h.forked_of_path hla hf hd hpath).2.2
        rw [andThen_error hresult]
        exact iff_of_false (h.not_atomic hresult)
          (not_not.mpr ⟨first, hpath, hlength, e, hdb ▸ hreplay⟩)
      · rw [hresult, Controller.andThen]
        refine iff_of_true (.inr ⟨b, e, rfl, hmoved.head, hmoved.db, ?_, hmoved.index⟩) ?_
        · refine ⟨rest, done ++ common, d'.state, ?_, (hd.append hdone).replay_eq, hfail⟩
          rw [hf.first_eq, hfirst] at hla
          simpa using hla
        · rintro ⟨_, hpath, hlength, _⟩
          obtain ⟨rfl, hsecond, _⟩ := h.forked_of_path hla hf hd hpath
          have hprev := hforked.resolve_left (not_not.mpr hsecond)
          have hlong := hla.path.unique h.tree.nodup h.tree.ranked (h.head.path.append hpath)
          rw [h.onPath_of_prev hla hprev] at hlong
          have hone := congrArg length hlong
          simp only [length_cons, length_append] at hone
          omega

def refusing (slots : List Nat) : Execution (List Nat) where
  startBlock s b :=
    if b.header.timestamp.slot ∈ slots then .error { code := b.header.timestamp.slot }
    else .ok (b.header.timestamp.slot :: s)
  pushTransaction s _ := .executed s (.ok ())
  pushScheduledTransaction s _ := .ok s
  finalizeBlock s _ := .ok s

def sampleStart : Controller (List Nat) :=
  .initializeBlockchainState runPrimitives {} [] .speculative

def sampleSigned (previous : BlockIdType) (slot : Nat) : SignedBlock :=
  { timestamp := ⟨slot⟩, producer := config.systemAccountName, confirmed := 0, previous }

def sampleState (c : Controller σ) (b : SignedBlock) : BlockState :=
  (c.createBlockState runPrimitives (fun _ _ _ => .ok ()) b).toOption.getD c.head

/-- A block is kept without being applied, as in irreversible mode. -/
def samplePush (c : Controller σ) (b : SignedBlock) : Controller σ :=
  { c with forkDb := c.forkDb.push (sampleState c b) }

def sampleBlocks : List SignedBlock :=
  let first := sampleSigned sampleStart.head.id 1
  [first, sampleSigned (first.id runPrimitives) 2, sampleSigned sampleStart.head.id 3]

/-- Two blocks on the genesis and one more branch of one block. -/
def samplePending : Controller (List Nat) := sampleBlocks.foldl samplePush sampleStart

def sampleHeaders : List BlockHeaderState :=
  (samplePending.forkDb.root :: samplePending.forkDb.index).map fun b => b.toBlockHeaderState

theorem sampleHeaders_libMonotone : LibMonotone fun s => s ∈ sampleHeaders := by
  intro a b ha hb
  exact (by decide +kernel : ∀ a ∈ sampleHeaders, ∀ b ∈ sampleHeaders, b.header.previous = a.id →
    a.dposIrreversibleBlocknum ≤ b.dposIrreversibleBlocknum) a ha b hb

theorem samplePush_consistent {c b} (h : Consistent X runPrimitives base c l)
    (hw : Within (Chained runPrimitives fun s => s ∈ sampleHeaders) c.forkDb)
    (hok : c.createBlockState runPrimitives (fun _ _ _ => .ok ()) b = .ok (sampleState c b))
    (hn : (sampleState c b).toBlockHeaderState ∈ sampleHeaders)
    (hnum : (sampleState c b).blockNum + 1 < 2 ^ 32) :
    Consistent X runPrimitives base (samplePush c b) l ∧
      Within (Chained runPrimitives fun s => s ∈ sampleHeaders) (samplePush c b).forkDb := by
  obtain ⟨_, h', hw', _⟩ := h.received sampleHeaders_libMonotone hw hok hn hnum
  exact ⟨h', hw'⟩

theorem samplePending_consistent (X : Execution (List Nat)) :
    Consistent X runPrimitives { state := [], revision := 1 } samplePending [] := by
  have h₀ : Consistent X runPrimitives { state := [], revision := 1 } sampleStart [] :=
    .genesis {} [] nofun
  have hw₀ : Within (Chained runPrimitives fun s => s ∈ sampleHeaders) sampleStart.forkDb :=
    ⟨⟨by decide +kernel, Sealed.genesis _ _, by decide +kernel⟩, fun b hb => by cases hb⟩
  obtain ⟨h₁, hw₁⟩ := samplePush_consistent (b := sampleSigned sampleStart.head.id 1) h₀ hw₀ rfl
    (by decide +kernel) (by decide +kernel)
  obtain ⟨h₂, hw₂⟩ := samplePush_consistent
    (b := sampleSigned ((sampleSigned sampleStart.head.id 1).id runPrimitives) 2) h₁ hw₁ rfl
    (by decide +kernel) (by decide +kernel)
  exact (samplePush_consistent h₂ hw₂ rfl
    (by decide +kernel) (by decide +kernel)).1

/-- The second block above the head throws: the old branch is empty. -/
theorem maybeSwitchForks_undefined : ¬ ∀ (X : Execution (List Nat)) (base : UndoStack (List Nat))
    (c : Controller (List Nat)) (l : List BlockState) (newHead : BlockState),
    Consistent X runPrimitives base c l → c.forkDb.getBlockHeader newHead.id = some newHead →
      Atomic X base c newHead (c.maybeSwitchForks X runPrimitives newHead) := by
  intro h
  have hconsistent := samplePending_consistent (refusing [2])
  have hresult : (samplePending.maybeSwitchForks (refusing [2]) runPrimitives
      samplePending.forkDb.pendingHead).2 =
      .error ⟨.undefinedBehavior, "back() of an empty branch"⟩ := by decide +kernel
  exact hconsistent.not_atomic hresult
    (h (refusing [2]) _ samplePending [] samplePending.forkDb.pendingHead hconsistent rfl)

def sampleApplied : Controller (List Nat) :=
  (samplePending.applyAndMark (refusing [2])
    (sampleState sampleStart (sampleSigned sampleStart.head.id 3))).1

theorem sampleApplied_consistent : ∃ l, Consistent (refusing [2]) runPrimitives
    { state := [], revision := 1 } sampleApplied l := by
  have hother : OnPath samplePending.forkDb
      (sampleState sampleStart (sampleSigned sampleStart.head.id 3))
      [sampleState sampleStart (sampleSigned sampleStart.head.id 3)] :=
    ⟨by decide +kernel, by decide +kernel, rfl, rfl⟩
  obtain ⟨c, hok, h, _⟩ := (samplePending_consistent (refusing [2])).applyAndMark hother
    (show _ = Except.ok [3] from rfl)
  obtain rfl : sampleApplied = c := congrArg Prod.fst hok
  exact ⟨_, h⟩

/-- The throwing block is above the fork point now, and the switch is taken back. -/
theorem maybeSwitchForks_atomic_sampleApplied : sampleApplied.forkDb.pendingHead.blockNum = 3 ∧
      Atomic (refusing [2]) { state := [], revision := 1 } sampleApplied
        sampleApplied.forkDb.pendingHead (sampleApplied.maybeSwitchForks (refusing [2])
          runPrimitives sampleApplied.forkDb.pendingHead) := by
  obtain ⟨l, h⟩ := sampleApplied_consistent
  refine ⟨by decide +kernel, (maybeSwitchForks_atomic_iff h (by decide +kernel)).mpr ?_⟩
  rintro ⟨_, hpath, hlength, _⟩
  have hrank := hpath.rank_eq h.tree.ranked
  have hheights : sampleApplied.forkDb.height sampleApplied.forkDb.pendingHead.id = 3 ∧
      sampleApplied.forkDb.height sampleApplied.head.id = 2 := by decide +kernel
  omega

end DreamChain
