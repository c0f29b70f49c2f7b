import DreamChain.Chain.ForkInvariant

/-!
The branches the fork database hands out. A block of the tree is known by its path to the
root; `fetch_branch_from` splits the paths of two blocks at the place where they meet, and
`fetch_branch` returns the lower end of a path.
-/

namespace DreamChain
open Library List

namespace ForkDatabase

variable {db : ForkDatabase}

/-- A block of the tree, the root included, with its path to the root. -/
structure OnPath (db : ForkDatabase) (b : BlockState) (l : List BlockState) : Prop where
  header : db.getBlockHeader b.id = some b
  path : Path db.index db.root.id b.id l

variable {a b : BlockState} {l lb : List BlockState}

theorem OnPath.inj (ha : OnPath db a l) (hb : OnPath db b l) : a = b := by
  have hheader := ha.header
  rw [ha.path.start_unique hb.path, hb.header, Option.some.injEq] at hheader
  exact hheader.symm

variable {l' : List BlockState}

namespace TreeInvariant

section

variable (h : TreeInvariant db)
include h

variable {b : BlockState}

theorem exists_onPath (hb : db.getBlockHeader b.id = some b) : ∃ l, OnPath db b l := by
  cases (getBlockHeader_eq_some h.nodup).mp hb with
  | inl hroot => exact ⟨[], hb, hroot.1⟩
  | inr hblock =>
    obtain ⟨l, hl⟩ := h.rooted.exists_path b hblock.2.1
    exact ⟨b :: l, hb, hl⟩

theorem onPath_nil (hb : OnPath db b []) : b = db.root := by
  have hroot : b.id = db.root.id := hb.path
  have hheader := hb.header
  rw [hroot, h.header_root, Option.some.injEq] at hheader
  exact hheader.symm

variable {l : List BlockState}

theorem onPath_cons {a : BlockState} (hb : OnPath db b (a :: l)) : a = b ∧ b ∈ db.index ∧
      ∃ p, OnPath db p l ∧ p.id = prev b ∧ b.blockNum = p.blockNum + 1 := by
  have hmem := hb.path.1
  have hid : a.id = b.id := hb.path.2.1
  have hheader := h.header_block hmem
  rw [hid, hb.header, Option.some.injEq] at hheader
  subst hheader
  obtain ⟨p, hp, hnum, _⟩ := h.linked b hmem
  have hpid : p.id = prev b := by
    cases (getBlockHeader_eq_some h.nodup).mp hp with
    | inl hroot => rw [hroot.1, hroot.2]
    | inr hblock => exact hblock.2.2
  exact ⟨rfl, hmem, p, ⟨hpid ▸ hp, hpid ▸ hb.path.2.2⟩, hpid, hnum⟩

theorem onPath_root : OnPath db db.root [] := ⟨h.header_root, rfl⟩

section

variable (hb : OnPath db b l)
include hb

theorem onPath_mem (hl : l ≠ []) : b ∈ db.index ∧ b ≠ db.root := by
  cases l with
  | nil => exact absurd rfl hl
  | cons a l =>
    obtain ⟨_, hmem, _⟩ := h.onPath_cons hb
    exact ⟨hmem, fun heq => h.fresh b hmem (congrArg (fun b => b.id) heq)⟩

theorem onPath_blockNum : b.blockNum = db.root.blockNum + l.length := by
  have hrank := hb.path.rank_eq h.ranked
  rwa [h.height_header hb.header, h.height_root] at hrank

theorem onPath_blockNum_le : ∀ c ∈ l, c.blockNum ≤ b.blockNum := by
  intro c hc
  have hle := hb.path.rank_le_of_mem h.ranked c hc
  rwa [h.height_block (hb.path.mem c hc), h.height_header hb.header] at hle

theorem onPath_map_blockNum : l.map (fun a => a.blockNum) =
      (range' (db.root.blockNum + 1) l.length).reverse := by
  induction l generalizing b with
  | nil => rfl
  | cons a l ih =>
    obtain ⟨rfl, _, p, hp, _, _⟩ := h.onPath_cons hb
    rw [map_cons, ih hp, h.onPath_blockNum hb, length_cons, range'_1_concat,
      reverse_append, reverse_singleton, singleton_append, Nat.add_right_comm,
      Nat.add_assoc]

theorem onPath_unique (hb' : OnPath db b l') : l = l' :=
  hb.path.unique h.nodup h.ranked hb'.path

end

theorem onPath_of_append {a : BlockState}
    (ha : OnPath db a (l' ++ b :: l)) : OnPath db b (b :: l) := by
  obtain ⟨y, hl, _⟩ := ha.path.of_append
  have hy : b.id = y := hl.2.1
  subst hy
  exact ⟨h.header_block hl.1, hl⟩

theorem onPath_length (hb : OnPath db b l) : l.length ≤ db.index.length :=
  hb.path.length_le h.ranked

theorem rootOrBlock_ok (hb : OnPath db b l) : db.rootOrBlock b.id = .ok b := by
  rw [rootOrBlock]
  cases (getBlockHeader_eq_some h.nodup).mp hb.header with
  | inl hroot => rw [if_pos hroot.1, hroot.2]
  | inr hblock => rw [if_neg hblock.1, (getBlock_eq_some h.nodup).mpr ⟨hblock.2.1, rfl⟩]

end

end TreeInvariant

theorem trimBranch_ok (h : TreeInvariant db) {n : Nat} (hn : db.root.blockNum ≤ n)
    (hb : OnPath db b l) (fuel : Nat) (hfuel : l.length < fuel) :
    ∃ branch last rest, db.trimBranch n fuel b = .ok (branch, last) ∧ l = branch ++ rest ∧
      OnPath db last rest ∧ last.blockNum = min b.blockNum n ∧
      (b.blockNum ≤ n → branch = []) := by
  induction l generalizing b fuel with
  | nil =>
    cases fuel with
    | zero => exact absurd hfuel (Nat.not_lt_zero _)
    | succ fuel =>
      have hle : b.blockNum ≤ n := by rwa [h.onPath_nil hb]
      refine ⟨[], b, [], ?_, rfl, hb, by omega, fun _ => rfl⟩
      rw [trimBranch, if_neg (Nat.not_lt.mpr hle)]
      rfl
  | cons a l ih =>
    cases fuel with
    | zero => exact absurd hfuel (Nat.not_lt_zero _)
    | succ fuel =>
      obtain ⟨rfl, _, p, hp, hpid, hnum⟩ := h.onPath_cons hb
      by_cases hlt : n < a.blockNum
      · obtain ⟨branch, last, rest, hok, hsplit, hlast, hmin, _⟩ :=
          ih hp fuel (Nat.lt_of_succ_lt_succ hfuel)
        refine ⟨a :: branch, last, rest, ?_, by rw [hsplit, cons_append], hlast,
          by omega, fun hle => absurd hlt (Nat.not_lt.mpr hle)⟩
        rw [trimBranch, if_pos hlt, ← hpid, h.rootOrBlock_ok hp]
        simp only [hok, bind, Except.bind]
        rfl
      · refine ⟨[], a, a :: l, ?_, rfl, hb, by omega, fun _ => rfl⟩
        rw [trimBranch, if_neg hlt]
        rfl

variable {la : List BlockState}

theorem joinBranches_ok (h : TreeInvariant db) (ha : OnPath db a (a :: la))
    (hb : OnPath db b (b :: lb)) (hlength : la.length = lb.length) (hne : a ≠ b) (fuel : Nat)
    (hfuel : la.length < fuel) :
    ∃ first x second y common, db.joinBranches fuel a b = .ok (first ++ [x], second ++ [y]) ∧
      a :: la = first ++ x :: common ∧ b :: lb = second ++ y :: common ∧ x ≠ y := by
  induction la generalizing a b lb fuel with
  | nil =>
    cases fuel with
    | zero => exact absurd hfuel (Nat.not_lt_zero _)
    | succ fuel =>
      cases lb with
      | cons _ _ => cases hlength
      | nil =>
        have hprev : ¬ prev a ≠ prev b := not_not.mpr (ha.path.2.2.trans hb.path.2.2.symm)
        refine ⟨[], a, [], b, [], ?_, rfl, rfl, hne⟩
        rw [joinBranches, if_neg hprev]
        rfl
  | cons a₁ la ih =>
    cases fuel with
    | zero => exact absurd hfuel (Nat.not_lt_zero _)
    | succ fuel =>
      cases lb with
      | nil => cases hlength
      | cons b₁ lb =>
        obtain ⟨_, _, p, hp, hpid, _⟩ := h.onPath_cons ha
        obtain ⟨_, _, q, hq, hqid, _⟩ := h.onPath_cons hb
        obtain ⟨rfl, hpmem, _⟩ := h.onPath_cons hp
        obtain ⟨rfl, hqmem, _⟩ := h.onPath_cons hq
        by_cases hprev : prev a = prev b
        · have hsame : a₁ = b₁ := inj_on_of_nodup_map h.nodup hpmem hqmem
            (hpid.trans (hprev.trans hqid.symm))
          subst hsame
          have hcommon := h.onPath_unique hp hq
          refine ⟨[], a, [], b, a₁ :: la, ?_, rfl, by rw [hcommon]; rfl, hne⟩
          rw [joinBranches, if_neg (not_not.mpr hprev)]
          rfl
        · have hne' : a₁ ≠ b₁ := by
            intro heq
            rw [← hpid, ← hqid, heq] at hprev
            exact hprev rfl
          obtain ⟨first, x, second, y, common, hok, hfirst, hsecond, hxy⟩ :=
            ih hp hq (Nat.succ.inj hlength) hne' fuel (Nat.lt_of_succ_lt_succ hfuel)
          refine ⟨a :: first, x, b :: second, y, common, ?_, by rw [hfirst]; rfl,
            by rw [hsecond]; rfl, hxy⟩
          rw [joinBranches, if_pos hprev, requireBlock, requireBlock, ← hpid, ← hqid,
            (getBlock_eq_some h.nodup).mpr ⟨hpmem, rfl⟩,
            (getBlock_eq_some h.nodup).mpr ⟨hqmem, rfl⟩]
          simp only [hok, bind, Except.bind]
          rfl

/-- How two paths to the root meet: one runs into the other, or they end in two different
blocks on one parent. -/
structure Forked (la lb first second common : List BlockState) : Prop where
  first_eq : la = first ++ common
  second_eq : lb = second ++ common
  apart : first = [] ∨ second = [] ∨
    ∃ f x s y, first = f ++ [x] ∧ second = s ++ [y] ∧ x ≠ y

/-- `fetch_branch_from` takes the paths of two blocks apart at their fork point. -/
theorem fetchBranchFrom_ok (h : TreeInvariant db) (ha : OnPath db a la) (hb : OnPath db b lb) :
    ∃ first second common, db.fetchBranchFrom a.id b.id = .ok (first, second) ∧
      Forked la lb first second common := by
  have hla := h.onPath_length ha
  have hlb := h.onPath_length hb
  have hnumb := h.onPath_blockNum hb
  obtain ⟨f, a', ra, hoka, hsplita, ha', hmina, hnila⟩ :=
    trimBranch_ok h (show db.root.blockNum ≤ b.blockNum by omega) ha (db.index.length + 1)
      (by omega)
  have hnuma' := h.onPath_blockNum ha'
  obtain ⟨s, b', rb, hokb, hsplitb, hb', hminb, hnilb⟩ :=
    trimBranch_ok h (show db.root.blockNum ≤ a'.blockNum by omega) hb (db.index.length + 1)
      (by omega)
  have hnumb' := h.onPath_blockNum hb'
  have hlengths : ra.length = rb.length := by omega
  have hempty : f = [] ∨ s = [] := by
    by_cases hle : a.blockNum ≤ b.blockNum
    · exact .inl (hnila hle)
    · exact .inr (hnilb (by omega))
  have htrim : db.fetchBranchFrom a.id b.id = (if a'.id = b'.id then pure (f, s)
      else do
        let joined ← db.joinBranches (db.index.length + 1) a' b'
        return (f ++ joined.1, s ++ joined.2)) := by
    rw [fetchBranchFrom, h.rootOrBlock_ok ha, h.rootOrBlock_ok hb]
    simp only [hoka, hokb, bind, Except.bind]
  by_cases hid : a'.id = b'.id
  · have hsame : a' = b' := by
      have hheader := ha'.header
      rw [hid, hb'.header, Option.some.injEq] at hheader
      exact hheader.symm
    subst hsame
    have hcommon := h.onPath_unique ha' hb'
    refine ⟨f, s, ra, by rw [htrim, if_pos hid]; rfl, hsplita, hcommon ▸ hsplitb, ?_⟩
    cases hempty with
    | inl hf => exact .inl hf
    | inr hs => exact .inr (.inl hs)
  · rw [if_neg hid] at htrim
    cases ra with
    | nil =>
      have hnil : rb = [] := eq_nil_of_length_eq_zero hlengths.symm
      subst hnil
      rw [h.onPath_nil ha', h.onPath_nil hb'] at hid
      exact absurd rfl hid
    | cons x ra =>
      cases rb with
      | nil => cases hlengths
      | cons y rb =>
        obtain ⟨rfl, _⟩ := h.onPath_cons ha'
        obtain ⟨rfl, _⟩ := h.onPath_cons hb'
        obtain ⟨first, x', second, y', common, hok, hfirst, hsecond, hxy⟩ :=
          joinBranches_ok h ha' hb' (Nat.succ.inj hlengths)
            (fun heq => hid (congrArg (fun b => b.id) heq)) (db.index.length + 1)
            (by rw [hsplita, length_append, length_cons] at hla; omega)
        refine ⟨f ++ (first ++ [x']), s ++ (second ++ [y']), common, ?_, ?_, ?_,
          .inr (.inr ⟨f ++ first, x', s ++ second, y', ?_, ?_, hxy⟩)⟩
        · rw [htrim, hok]
          rfl
        · rw [hsplita, hfirst]
          simp
        · rw [hsplitb, hsecond]
          simp
        · simp
        · simp

theorem Forked.common_suffix {first second common rest : List BlockState}
    (h : Forked la lb first second common) (hla : la = l ++ rest) (hlb : lb = l' ++ rest) :
    rest <:+ common := by
  have hsuffix : common <:+ la := ⟨first, h.first_eq.symm⟩
  cases suffix_or_suffix_of_suffix (⟨l, hla.symm⟩ : rest <:+ la) hsuffix with
  | inl hrest => exact hrest
  | inr hcommon =>
    -- What lies between the two would end both branches in the same block.
    obtain ⟨between, rfl⟩ := hcommon
    have hfirst : first = l ++ between := append_cancel_right (by
      rw [← h.first_eq, hla, append_assoc] : first ++ common = l ++ between ++ common)
    have hsecond : second = l' ++ between := append_cancel_right (by
      rw [← h.second_eq, hlb, append_assoc] : second ++ common = l' ++ between ++ common)
    have hnil : between = [] := by
      rcases h.apart with hempty | hempty | ⟨f, x, s, y, hf, hs, hne⟩
      · exact (append_eq_nil_iff.mp (hfirst ▸ hempty)).2
      · exact (append_eq_nil_iff.mp (hsecond ▸ hempty)).2
      · cases between using reverseRecOn with
        | nil => rfl
        | append_singleton between z =>
          rw [hfirst, ← append_assoc] at hf
          rw [hsecond, ← append_assoc] at hs
          have hx := (append_inj' hf rfl).2
          have hy := (append_inj' hs rfl).2
          exact absurd (singleton_inj.mp (hx.symm.trans hy)) hne
    rw [hnil, nil_append]

theorem Forked.of_descendant {first second common : List BlockState}
    (h : Forked (l ++ lb) lb first second common) : first = l ∧ second = [] := by
  have hfirst : l ++ second = first := by
    have heq := h.first_eq
    rw [h.second_eq, ← append_assoc] at heq
    exact append_cancel_right heq
  cases h.apart with
  | inl hnil =>
    rw [hnil] at hfirst
    have hboth := append_eq_nil_iff.mp hfirst
    exact ⟨hnil.trans hboth.1.symm, hboth.2⟩
  | inr hrest =>
    obtain hnil | ⟨f, x, s, y, hf, hs, hxy⟩ := hrest
    · exact ⟨by rw [← hfirst, hnil, append_nil], hnil⟩
    · rw [hf, hs, ← append_assoc] at hfirst
      exact absurd (append_inj' hfirst rfl).2 (by simpa using Ne.symm hxy)

theorem TreeInvariant.path_descends (h : TreeInvariant db) {x y : BlockIdType}
    (hl : Path db.index x y l) : l.Pairwise fun a b => b.blockNum < a.blockNum := by
  induction l generalizing y with
  | nil => exact .nil
  | cons a l ih =>
    refine pairwise_cons.mpr ⟨fun b hb => ?_, ih hl.2.2⟩
    have hle := hl.2.2.rank_le_of_mem h.ranked b hb
    have hlt := h.height_prev_lt a hl.1
    rw [h.height_block (hl.2.2.mem b hb)] at hle
    rw [h.height_block hl.1] at hlt
    omega

theorem TreeInvariant.onPath_cut (h : TreeInvariant db) (ha : OnPath db a (l ++ lb)) :
    ∃ c, OnPath db c lb ∧ Path db.index c.id a.id l := by
  obtain ⟨y, hy, hl⟩ := ha.path.of_append
  cases lb with
  | nil => exact ⟨db.root, h.onPath_root, (show y = db.root.id from hy) ▸ hl⟩
  | cons c lb =>
    have hid : c.id = y := hy.2.1
    exact ⟨c, h.onPath_of_append ha, hid ▸ hl⟩

theorem TreeInvariant.onPath_rest (h : TreeInvariant db) (ha : OnPath db a lb) {x : BlockIdType}
    (hl : Path db.index x a.id l) : ∃ rest, Path db.index db.root.id x rest ∧ lb = l ++ rest := by
  refine ha.path.split h.nodup hl ?_
  have hlong := ha.path.rank_eq h.ranked
  have hshort := hl.rank_eq h.ranked
  have hle := h.height_root_le x
  omega

/-- `fetch_branch_from` returns the paths of two blocks down to their lowest common ancestor. -/
theorem fetchBranchFrom_exact (h : TreeInvariant db) (ha : db.getBlockHeader a.id = some a)
    (hb : db.getBlockHeader b.id = some b) :
    ∃ first second c, db.fetchBranchFrom a.id b.id = .ok (first, second) ∧
      db.getBlockHeader c.id = some c ∧ Path db.index c.id a.id first ∧
      Path db.index c.id b.id second ∧
      (∀ x l l', Path db.index x a.id l → Path db.index x b.id l' →
        ∃ l'', Path db.index x c.id l'') ∧
      first.Pairwise (fun y z => z.blockNum < y.blockNum) ∧
      second.Pairwise (fun y z => z.blockNum < y.blockNum) ∧
      ((∃ l, Path db.index a.id b.id l) → first = []) ∧
      ((∃ l, Path db.index b.id a.id l) → second = []) := by
  obtain ⟨la, hla⟩ := h.exists_onPath ha
  obtain ⟨lb, hlb⟩ := h.exists_onPath hb
  obtain ⟨first, second, common, hok, hforked⟩ := fetchBranchFrom_ok h hla hlb
  obtain ⟨c, hc, hfirst⟩ := h.onPath_cut (hforked.first_eq ▸ hla)
  obtain ⟨c', hc', hsecond⟩ := h.onPath_cut (hforked.second_eq ▸ hlb)
  cases hc.inj hc'
  have hlowest (x : BlockIdType) (l l' : List BlockState) (hx : Path db.index x a.id l)
      (hx' : Path db.index x b.id l') : ∃ l'', Path db.index x c.id l'' := by
    obtain ⟨rest, hrest, hsplit⟩ := h.onPath_rest hla hx
    obtain ⟨rest', hrest', hsplit'⟩ := h.onPath_rest hlb hx'
    cases hrest.unique h.nodup h.ranked hrest'
    obtain ⟨between, rfl⟩ := hforked.common_suffix hsplit hsplit'
    obtain ⟨y, hy, hbetween⟩ := hc.path.of_append
    exact ⟨between, hy.start_unique hrest ▸ hbetween⟩
  have hempty {y : BlockIdType} {l branch : List BlockState} (hbranch : Path db.index c.id y branch)
      (hl : Path db.index y c.id l) : branch = [] := by
    have hdown := hbranch.rank_eq h.ranked
    have hup := hl.rank_eq h.ranked
    exact eq_nil_of_length_eq_zero (by omega)
  refine ⟨first, second, c, hok, hc.header, hfirst, hsecond, hlowest, h.path_descends hfirst,
    h.path_descends hsecond, fun ⟨l, hl⟩ => ?_, fun ⟨l, hl⟩ => ?_⟩
  · obtain ⟨l', hl'⟩ := hlowest a.id [] l rfl hl
    exact hempty hfirst hl'
  · obtain ⟨l', hl'⟩ := hlowest b.id l [] hl rfl
    exact hempty hsecond hl'

/-- Two blocks of the sample on different branches, which meet at the root. -/
theorem fetchBranchFrom_sampleForest : ∃ first second c,
    sampleForest.fetchBranchFrom ⟨4, 0, 0, 0⟩ ⟨2, 0, 0, 0⟩ = .ok (first, second) ∧
      sampleForest.getBlockHeader c.id = some c ∧ Path sampleForest.index c.id ⟨4, 0, 0, 0⟩ first ∧
      Path sampleForest.index c.id ⟨2, 0, 0, 0⟩ second := by
  obtain ⟨first, second, c, hok, hc, hfirst, hsecond, _⟩ :=
    fetchBranchFrom_exact sampleForest_tree
      (a := sampleForest.head) (b := { sampleBlock 2 1 2 0 with validated := true }) rfl rfl
  exact ⟨first, second, c, hok, hc, hfirst, hsecond⟩

theorem fetchBranch_eq (h : TreeInvariant db) (hb : OnPath db b l) (n : Nat) :
    ∃ above, l = above ++ db.fetchBranch b.id n ∧ ∀ a ∈ above, n < a.blockNum := by
  have hclimb : db.fetchBranch b.id n = l.filter fun a => a.blockNum ≤ n := by
    rw [fetchBranch, Forest.climb_eq h.rooted hb.path (h.onPath_length hb)]
  rw [hclimb]
  clear hclimb
  induction l generalizing b with
  | nil => exact ⟨[], rfl, fun a ha => by cases ha⟩
  | cons a l ih =>
    obtain ⟨rfl, _, p, hp, _, hnum⟩ := h.onPath_cons hb
    obtain ⟨above, hsplit, habove⟩ := ih hp
    by_cases hle : a.blockNum ≤ n
    · refine ⟨[], ?_, fun a ha => by cases ha⟩
      rw [nil_append]
      refine (filter_eq_self.mpr ?_).symm
      intro c hc
      exact decide_eq_true (Nat.le_trans (h.onPath_blockNum_le hb c hc) hle)
    · refine ⟨a :: above, ?_, ?_⟩
      · rw [filter_cons, if_neg (by simpa using hle), cons_append, ← hsplit]
      · intro c hc
        cases hc with
        | head => exact Nat.lt_of_not_le hle
        | tail _ hc => exact habove c hc

/-- The search on a branch finds the one block of the branch with the number. There is one if the
number is above the root and not above the block that the branch ends in. -/
theorem searchOnBranch_of_run {U : BlockHeaderState → Prop} (hU : BlockUniverse U)
    (hrun : ForkRun U (some db)) (hb : b ∈ db.index) : ∃ l, Path db.index db.root.id b.id l ∧ ∀ n,
      (∀ c, db.searchOnBranch b.id n = some c ↔ c ∈ l ∧ c.blockNum = n) ∧
      ((∃ c, db.searchOnBranch b.id n = some c) ↔ db.root.blockNum < n ∧ n ≤ b.blockNum) := by
  have h := (hrun.invariant hU db rfl).1.toTreeInvariant
  obtain ⟨l, hl⟩ := h.exists_onPath (h.header_block hb)
  have hnums := h.onPath_map_blockNum hl
  have hnodup : (l.map fun a => a.blockNum).Nodup := hnums ▸ nodup_reverse.mpr nodup_range'
  refine ⟨l, hl.path, fun n => ?_⟩
  have hsearch : ∀ c, db.searchOnBranch b.id n = some c ↔ c ∈ l ∧ c.blockNum = n := by
    intro c
    rw [searchOnBranch, Forest.climb_eq h.rooted hl.path (h.onPath_length hl)]
    exact Forest.find?_eq_some hnodup
  have hmem : n ∈ l.map (fun a => a.blockNum) ↔ db.root.blockNum < n ∧ n ≤ b.blockNum := by
    rw [hnums, mem_reverse, mem_range'_1, h.onPath_blockNum hl]
    omega
  refine ⟨hsearch, ?_⟩
  simp only [hsearch, ← hmem, mem_map]

theorem searchOnBranch_sampleForest : ∃ l, Path sampleForest.index ⟨1, 0, 0, 0⟩ ⟨4, 0, 0, 0⟩ l ∧
    ∀ n, (∃ c, sampleForest.searchOnBranch ⟨4, 0, 0, 0⟩ n = some c) ↔ 1 < n ∧ n ≤ 3 := by
  obtain ⟨l, hl, hsearch⟩ := searchOnBranch_of_run sampleTree_universe sampleForest_run
    (b := sampleForest.head) (by decide)
  exact ⟨l, hl, fun n => (hsearch n).2⟩

end ForkDatabase

end DreamChain
