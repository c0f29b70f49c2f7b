import Mathlib

/-!
A queue that grows while it is read. Every element read is checked and its successors
are appended at the end; the loop is done when the end of the queue is reached. The
queue then holds exactly what is reachable from its first elements.

The loop ends when the successors form a forest over a finite list. Without that it may
run forever, which the outcome `exhausted` stands for.
-/

namespace DreamChain.Library.Worklist
open List

universe u
variable {α : Type u}

inductive Outcome (α : Type u) where
  | done (visited : List α)
  | stopped (at_ : α)
  | exhausted
deriving DecidableEq

def run (next : α → List α) (stop : α → Bool) : Nat → List α → List α → Outcome α
  | _, [], visited => .done visited
  | 0, _ :: _, _ => .exhausted
  | fuel + 1, x :: todo, visited =>
    if stop x then .stopped x
    else run next stop fuel (todo ++ next x) (visited ++ [x])

def Reach (next : α → List α) : α → α → Prop := Relation.ReflTransGen fun a b => b ∈ next a

variable {next : α → List α} {stop : α → Bool}

variable {x y start : α} {out bound : List α} {parent : α → α} {rank : α → Nat}

theorem reach_iff : Reach next x y ↔ y = x ∨ ∃ z ∈ next x, Reach next z y := by
  rw [Reach, Relation.ReflTransGen.cases_head_iff]
  constructor
  · intro h
    cases h with
    | inl h => exact .inl h.symm
    | inr h => exact .inr h
  · intro h
    cases h with
    | inl h => exact .inl h.symm
    | inr h => exact .inr h

variable {todo visited : List α} {fuel : Nat}

private theorem exists_reach_append : (∃ z ∈ todo ++ next x, Reach next z y) ↔
      (∃ z ∈ todo, Reach next z y) ∨ ∃ z ∈ next x, Reach next z y := by
  simp only [mem_append, or_and_right, exists_or]

theorem mem_of_done (h : run next stop fuel todo visited = .done out) (y : α) :
    y ∈ out ↔ y ∈ visited ∨ ∃ x ∈ todo, Reach next x y := by
  induction fuel generalizing todo visited with
  | zero =>
    cases todo with
    | nil =>
      cases h
      simp
    | cons x todo => cases h
  | succ fuel ih =>
    cases todo with
    | nil =>
      cases h
      simp
    | cons x todo =>
      simp only [run] at h
      split at h
      · cases h
      · rw [ih h, exists_reach_append, mem_append, mem_singleton,
          exists_mem_cons_iff, reach_iff, or_assoc, or_assoc (a := y = x)]
        exact or_congr_right (or_congr_right or_comm)

theorem not_stop_of_done (h : run next stop fuel todo visited = .done out) :
    ∀ y ∈ out, y ∈ visited ∨ stop y = false := by
  induction fuel generalizing todo visited with
  | zero =>
    cases todo with
    | nil =>
      cases h
      exact fun y hy => .inl hy
    | cons x todo => cases h
  | succ fuel ih =>
    cases todo with
    | nil =>
      cases h
      exact fun y hy => .inl hy
    | cons x todo =>
      simp only [run] at h
      split at h
      · cases h
      · rename_i hstop
        intro y hy
        cases ih h y hy with
        | inr hy => exact .inr hy
        | inl hy =>
          cases mem_append.mp hy with
          | inl hy => exact .inl hy
          | inr hy =>
            rw [mem_singleton.mp hy]
            exact .inr (by simpa using hstop)

theorem of_stopped {z : α} (h : run next stop fuel todo visited = .stopped z) :
    stop z = true ∧ ∃ x ∈ todo, Reach next x z := by
  induction fuel generalizing todo visited with
  | zero => cases todo <;> cases h
  | succ fuel ih =>
    cases todo with
    | nil => cases h
    | cons x todo =>
      simp only [run] at h
      split at h
      · rename_i hstop
        cases h
        exact ⟨hstop, _, mem_cons_self, Relation.ReflTransGen.refl⟩
      · have hrest := ih h
        refine ⟨hrest.1, ?_⟩
        rw [exists_reach_append] at hrest
        rw [exists_mem_cons_iff, reach_iff]
        exact hrest.2.elim .inr (fun hnext => .inl (.inr hnext))

/-- Successors that come from one element each, with a rank that grows. -/
structure IsForest (next : α → List α) (parent : α → α) (rank : α → Nat) : Prop where
  nodup : ∀ x, (next x).Nodup
  parent : ∀ x, ∀ y ∈ next x, parent y = x
  rank : ∀ x, ∀ y ∈ next x, rank x < rank y

/-- What the loop keeps when it starts at `start`: no element enters the queue twice. -/
private structure Queued (next : α → List α) (parent : α → α) (rank : α → Nat) (start : α)
    (todo visited : List α) : Prop where
  nodup : (visited ++ todo).Nodup
  parent : ∀ y ∈ visited ++ todo, y = start ∨ parent y ∈ visited
  rank : ∀ y ∈ visited ++ todo, rank start ≤ rank y

private theorem Queued.step (hf : IsForest next parent rank)
    (h : Queued next parent rank start (x :: todo) visited) :
    Queued next parent rank start (todo ++ next x) (visited ++ [x]) := by
  have hsplit : visited ++ [x] ++ (todo ++ next x) = visited ++ x :: todo ++ next x := by simp
  have hx : x ∈ visited ++ x :: todo := by simp
  have hxv : x ∉ visited := by
    intro hv
    exact (nodup_append.mp h.nodup).2.2 x hv x mem_cons_self rfl
  refine ⟨?_, ?_, ?_⟩
  · rw [hsplit]
    refine nodup_append.mpr ⟨h.nodup, hf.nodup x, ?_⟩
    rintro y hy z hz rfl
    cases h.parent y hy with
    | inl hstart =>
      have hlt := hf.rank x y hz
      have hle := h.rank x hx
      rw [hstart] at hlt
      omega
    | inr hparent =>
      rw [hf.parent x y hz] at hparent
      exact hxv hparent
  · rw [hsplit]
    intro y hy
    cases mem_append.mp hy with
    | inl hy =>
      cases h.parent y hy with
      | inl hstart => exact .inl hstart
      | inr hparent => exact .inr (mem_append_left _ hparent)
    | inr hy =>
      rw [hf.parent x y hy]
      simp
  · rw [hsplit]
    intro y hy
    cases mem_append.mp hy with
    | inl hy => exact h.rank y hy
    | inr hy => exact Nat.le_trans (h.rank x hx) (Nat.le_of_lt (hf.rank x y hy))

private theorem run_ne_exhausted (hf : IsForest next parent rank)
    (hbound : ∀ x ∈ bound, ∀ y ∈ next x, y ∈ bound) (h : Queued next parent rank start todo visited)
    (hmem : ∀ y ∈ visited ++ todo, y ∈ bound) (hfuel : bound.length ≤ fuel + visited.length) :
    run next stop fuel todo visited ≠ .exhausted := by
  induction fuel generalizing todo visited with
  | zero =>
    cases todo with
    | nil => exact nofun
    | cons x todo =>
      have hle := (List.Nodup.subperm h.nodup hmem).length_le
      rw [length_append, length_cons] at hle
      omega
  | succ fuel ih =>
    cases todo with
    | nil => exact nofun
    | cons x todo =>
      simp only [run]
      split
      · exact nofun
      · refine ih (h.step hf) ?_ ?_
        · intro y hy
          simp only [append_assoc, mem_append, mem_singleton] at hy
          have hx : x ∈ bound := hmem x (by simp)
          rcases hy with hy | rfl | hy | hy
          · exact hmem y (mem_append_left _ hy)
          · exact hx
          · exact hmem y (mem_append_right _ (mem_cons_of_mem _ hy))
          · exact hbound x hx y hy
        · rw [length_append, length_singleton]
          omega

/-- On a finite forest one step for each element is enough. -/
theorem run_forest_ne_exhausted (hf : IsForest next parent rank)
    (hbound : ∀ x ∈ bound, ∀ y ∈ next x, y ∈ bound) (hstart : start ∈ bound)
    (hfuel : bound.length ≤ fuel) : run next stop fuel [start] [] ≠ .exhausted := by
  have hqueued : Queued next parent rank start [start] [] := by
    refine ⟨?_, ?_, ?_⟩
    · simp
    · intro y hy
      exact .inl (mem_singleton.mp hy)
    · intro y hy
      exact Nat.le_of_eq (congrArg rank (mem_singleton.mp hy).symm)
  refine run_ne_exhausted hf hbound hqueued ?_ ?_
  · intro y hy
    rwa [mem_singleton.mp hy]
  · simpa using hfuel

end DreamChain.Library.Worklist
