import DreamChain.Library.Worklist

/-!
Trees kept as a flat list of nodes, each with its own key and the key of its parent. The
root is a key outside the list. A path is the list of nodes that are met on the way up,
the lowest one first; it determines the descendant relation, and a rank that grows by
one from parent to child makes it unique.
-/

namespace DreamChain.Library.Forest
open List

universe u v
variable {ι : Type u} {β : Type v} (key parent : β → ι)

def Path (nodes : List β) (x : ι) : ι → List β → Prop
  | y, [] => y = x
  | y, b :: l => b ∈ nodes ∧ key b = y ∧ Path nodes x (parent b) l

/-- Every node hangs below the root, under a parent of one rank less. -/
structure Rooted (nodes : List β) (root : ι) (rank : ι → Nat) : Prop where
  nodup : (nodes.map key).Nodup
  linked : ∀ b ∈ nodes, parent b = root ∨ ∃ p ∈ nodes, key p = parent b
  fresh : ∀ b ∈ nodes, key b ≠ root
  ranked : ∀ b ∈ nodes, rank (key b) = rank (parent b) + 1

variable {key parent} {nodes : List β} {root x y z : ι} {rank : ι → Nat} {l l' : List β}

namespace Path

section

variable (h : Path key parent nodes x y l)
include h

theorem mem : ∀ b ∈ l, b ∈ nodes := by
  induction l generalizing y with
  | nil =>
    intro b hb
    cases hb
  | cons a l ih =>
    intro b hb
    cases hb with
    | head => exact h.1
    | tail _ hb => exact ih h.2.2 b hb

theorem mono {nodes' : List β} (hsub : ∀ b ∈ l, b ∈ nodes') : Path key parent nodes' x y l := by
  induction l generalizing y with
  | nil => exact h
  | cons a l ih =>
    exact ⟨hsub a mem_cons_self, h.2.1,
      ih h.2.2 fun b hb => hsub b (mem_cons_of_mem _ hb)⟩

theorem append (h' : Path key parent nodes y z l') : Path key parent nodes x z (l' ++ l) := by
  induction l' generalizing z with
  | nil =>
    cases h'
    exact h
  | cons a l' ih => exact ⟨h'.1, h'.2.1, ih h'.2.2⟩

theorem start_unique (h' : Path key parent nodes x z l) : y = z := by
  cases l with
  | nil => exact Eq.trans h (Eq.symm h')
  | cons a l => exact h.2.1.symm.trans h'.2.1

end

theorem map {f : β → β} (hkey : ∀ b, key (f b) = key b) (hparent : ∀ b, parent (f b) = parent b)
    (h : Path key parent nodes x y l) : Path key parent (nodes.map f) x y (l.map f) := by
  induction l generalizing y with
  | nil => exact h
  | cons a l ih =>
    exact ⟨mem_map_of_mem h.1, (hkey a).trans h.2.1, hparent a ▸ ih h.2.2⟩

theorem of_map {f : β → β} (hkey : ∀ b, key (f b) = key b) (hparent : ∀ b, parent (f b) = parent b)
    (h : Path key parent (nodes.map f) x y l) : ∃ l', Path key parent nodes x y l' := by
  induction l generalizing y with
  | nil => exact ⟨[], h⟩
  | cons a l ih =>
    obtain ⟨b, hb, rfl⟩ := mem_map.mp h.1
    obtain ⟨l', hl'⟩ := ih h.2.2
    exact ⟨b :: l', hb, (hkey b).symm.trans h.2.1, hparent b ▸ hl'⟩

theorem of_append (h : Path key parent nodes x z (l' ++ l)) :
    ∃ y, Path key parent nodes x y l ∧ Path key parent nodes y z l' := by
  induction l' generalizing z with
  | nil => exact ⟨z, h, rfl⟩
  | cons a l' ih =>
    obtain ⟨y, hl, hl'⟩ := ih h.2.2
    exact ⟨y, hl, h.1, h.2.1, hl'⟩

theorem exists_child {b : β} (h : Path key parent nodes x y (b :: l)) :
    ∃ c ∈ b :: l, parent c = x := by
  induction l generalizing b y with
  | nil => exact ⟨b, mem_cons_self, h.2.2⟩
  | cons a l ih =>
    obtain ⟨c, hc, hparent⟩ := ih h.2.2
    exact ⟨c, mem_cons_of_mem _ hc, hparent⟩

section

variable (hr : ∀ b ∈ nodes, rank (key b) = rank (parent b) + 1) (h : Path key parent nodes x y l)
include hr h

theorem rank_eq : rank y = rank x + l.length := by
  induction l generalizing y with
  | nil =>
    cases h
    rfl
  | cons a l ih =>
    rw [← h.2.1, hr a h.1, ih h.2.2, length_cons]
    omega

theorem rank_le_of_mem : ∀ b ∈ l, rank (key b) ≤ rank y := by
  induction l generalizing y with
  | nil =>
    intro b hb
    cases hb
  | cons a l ih =>
    intro b hb
    cases hb with
    | head => exact Nat.le_of_eq (congrArg rank h.2.1)
    | tail _ hb =>
      have hle := ih h.2.2 b hb
      rw [← h.2.1, hr a h.1]
      omega

theorem nodup : l.Nodup := by
  induction l generalizing y with
  | nil => exact nodup_nil
  | cons a l ih =>
    refine nodup_cons.mpr ⟨?_, ih h.2.2⟩
    intro hmem
    have hle := rank_le_of_mem hr h.2.2 a hmem
    rw [hr a h.1] at hle
    omega

theorem length_le : l.length ≤ nodes.length :=
  (List.Nodup.subperm (h.nodup hr) h.mem).length_le

end

theorem split (hn : (nodes.map key).Nodup) (h : Path key parent nodes x z l)
    (h' : Path key parent nodes y z l') (hle : l'.length ≤ l.length) :
    ∃ l'', Path key parent nodes x y l'' ∧ l = l' ++ l'' := by
  induction l' generalizing l z with
  | nil =>
    cases h'
    exact ⟨l, h, rfl⟩
  | cons a l' ih =>
    cases l with
    | nil => exact absurd hle (Nat.not_succ_le_zero _)
    | cons b l =>
      have hab : b = a := inj_on_of_nodup_map hn h.1 h'.1 (h.2.1.trans h'.2.1.symm)
      subst hab
      obtain ⟨l'', hl'', heq⟩ := ih h.2.2 h'.2.2 (Nat.le_of_succ_le_succ hle)
      exact ⟨l'', hl'', by rw [heq, cons_append]⟩

theorem unique (hn : (nodes.map key).Nodup) (hr : ∀ b ∈ nodes, rank (key b) = rank (parent b) + 1)
    (h : Path key parent nodes x z l) (h' : Path key parent nodes x z l') : l = l' := by
  have hrank := h.rank_eq hr
  have hrank' := h'.rank_eq hr
  obtain ⟨l'', hl'', heq⟩ := h.split hn h' (by omega)
  have hlen := congrArg length heq
  rw [length_append] at hlen
  have hnil : l'' = [] := eq_nil_of_length_eq_zero (by omega)
  rw [heq, hnil, append_nil]

end Path

namespace Rooted

theorem exists_path (h : Rooted key parent nodes root rank) :
    ∀ b ∈ nodes, ∃ l, Path key parent nodes root (key b) (b :: l) := by
  intro b hb
  induction hn : rank (key b) using Nat.strongRecOn generalizing b with
  | _ n ih =>
    obtain hroot | ⟨p, hp, hkey⟩ := h.linked b hb
    · exact ⟨[], hb, rfl, hroot⟩
    · have hlt : rank (key p) < n := by
        rw [← hn, h.ranked b hb, hkey]
        omega
      obtain ⟨l, hl⟩ := ih _ hlt p hp rfl
      exact ⟨p :: l, hb, rfl, hkey ▸ hl⟩

theorem rank_root_lt (h : Rooted key parent nodes root rank) :
    ∀ b ∈ nodes, rank root < rank (key b) := by
  intro b hb
  obtain ⟨l, hl⟩ := h.exists_path b hb
  rw [hl.rank_eq h.ranked, length_cons]
  omega

end Rooted

/-- Nodes none of which is above itself have a rank: the number of nodes above a key. -/
theorem exists_rank (h : ∀ b ∈ nodes, ∀ l, ¬ Path key parent nodes (key b) (parent b) l) :
    ∃ rank : ι → Nat, ∀ b ∈ nodes, rank (parent b) < rank (key b) := by
  refine ⟨fun y => {c | c ∈ nodes ∧ ∃ l, Path key parent nodes (key c) y l}.ncard, ?_⟩
  intro b hb
  refine Set.ncard_lt_ncard ⟨?_, fun hsub => ?_⟩ (nodes.finite_toSet.subset fun c hc => hc.1)
  · rintro c ⟨hc, l, hl⟩
    exact ⟨hc, b :: l, hb, rfl, hl⟩
  · obtain ⟨-, l, hl⟩ := hsub ⟨hb, [], rfl⟩
    exact h b hb l hl

section Search

variable [DecidableEq ι]

variable (key parent) in
/-- The nodes on the way up from a key, as far as there are any. -/
def climb (nodes : List β) : Nat → ι → List β
  | 0, _ => []
  | fuel + 1, y =>
    match nodes.find? fun b => key b = y with
    | some b => b :: climb nodes fuel (parent b)
    | none => []

theorem mem_climb {fuel b} (h : b ∈ climb key parent nodes fuel y) : b ∈ nodes := by
  induction fuel generalizing y with
  | zero => cases h
  | succ fuel ih =>
    rw [climb] at h
    split at h
    · rename_i a ha
      cases h with
      | head => exact mem_of_find?_eq_some ha
      | tail _ h => exact ih h
    · cases h

theorem find?_eq_some (hn : (nodes.map key).Nodup) {b : β} :
    nodes.find? (fun b => key b = y) = some b ↔ b ∈ nodes ∧ key b = y := by
  constructor
  · intro h
    exact ⟨mem_of_find?_eq_some h, by simpa using find?_some h⟩
  · intro h
    cases hfind : nodes.find? (fun b => key b = y) with
    | none =>
      have hall := find?_eq_none.mp hfind b h.1
      exact absurd h.2 (by simpa using hall)
    | some a =>
      have ha : key a = y := by simpa using find?_some hfind
      rw [inj_on_of_nodup_map hn (mem_of_find?_eq_some hfind) h.1 (ha.trans h.2.symm)]

theorem climb_eq (h : Rooted key parent nodes root rank) (hpath : Path key parent nodes root y l)
    {fuel : Nat} (hfuel : l.length ≤ fuel) : climb key parent nodes fuel y = l := by
  induction l generalizing y fuel with
  | nil =>
    have hnone : nodes.find? (fun b => key b = y) = none := by
      apply find?_eq_none.mpr
      intro b hb
      have hroot : y = root := hpath
      simpa [hroot] using h.fresh b hb
    cases fuel with
    | zero => rfl
    | succ fuel => simp only [climb, hnone]
  | cons b l ih =>
    cases fuel with
    | zero => exact absurd hfuel (Nat.not_succ_le_zero _)
    | succ fuel =>
      have hfind := (find?_eq_some h.nodup).mpr ⟨hpath.1, hpath.2.1⟩
      simp only [climb, hfind]
      rw [ih hpath.2.2 (Nat.le_of_succ_le_succ hfuel)]

variable (key parent) in
def children (nodes : List β) (x : ι) : List ι := (nodes.filter fun b => parent b = x).map key

theorem mem_children : y ∈ children key parent nodes x ↔ ∃ b ∈ nodes, parent b = x ∧ key b = y := by
  simp [children, and_assoc]

theorem reach_children_iff :
    Worklist.Reach (children key parent nodes) x y ↔ ∃ l, Path key parent nodes x y l := by
  constructor
  · intro h
    induction h with
    | refl => exact ⟨[], rfl⟩
    | tail _ hstep ih =>
      obtain ⟨l, hl⟩ := ih
      obtain ⟨b, hb, hparent, hkey⟩ := mem_children.mp hstep
      exact ⟨b :: l, hb, hkey, hparent ▸ hl⟩
  · rintro ⟨l, hl⟩
    induction l generalizing y with
    | nil =>
      cases hl
      exact Relation.ReflTransGen.refl
    | cons b l ih =>
      exact (ih hl.2.2).tail (mem_children.mpr ⟨b, hl.1, rfl, hl.2.1⟩)

/-- One step for each node and one for the start is enough to visit a subtree. -/
theorem run_children_ne_exhausted (hn : (nodes.map key).Nodup)
    (hr : ∀ b ∈ nodes, rank (parent b) < rank (key b)) (stop : ι → Bool) (x : ι) :
    Worklist.run (children key parent nodes) stop (nodes.length + 1) [x] [] ≠ .exhausted := by
  have hforest : Worklist.IsForest (children key parent nodes)
      (fun y => ((nodes.find? fun b => key b = y).map parent).getD y) rank := by
    refine ⟨?_, ?_, ?_⟩
    · intro y
      exact hn.sublist (filter_sublist.map _)
    · intro y z hz
      obtain ⟨b, hb, hparent, hkey⟩ := mem_children.mp hz
      rw [(find?_eq_some hn).mpr ⟨hb, hkey⟩]
      exact hparent
    · intro y z hz
      obtain ⟨b, hb, hparent, hkey⟩ := mem_children.mp hz
      rw [← hkey, ← hparent]
      exact hr b hb
  have hlength : (x :: nodes.map key).length ≤ nodes.length + 1 := by simp
  refine Worklist.run_forest_ne_exhausted hforest ?_ mem_cons_self hlength
  · intro y _ z hz
    obtain ⟨b, hb, _, hkey⟩ := mem_children.mp hz
    exact mem_cons_of_mem _ (hkey ▸ mem_map_of_mem hb)

end Search

end DreamChain.Library.Forest
