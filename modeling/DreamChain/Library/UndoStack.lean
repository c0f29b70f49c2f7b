import Mathlib

/-!
A store with undo sessions. Pushing a session keeps the state before it, undoing returns to
the newest kept state, and committing a revision forgets how to undo the sessions up to it.

A trail says that the store was brought to its state by running a list of operations, one
session for each, so that undoing as many sessions leads back along the same states.
-/

namespace DreamChain.Library

universe u v w

structure UndoStack (σ : Type u) where
  state : σ
  /-- The states before the sessions, the newest session first. -/
  undoStack : List σ := []
  revision : Nat := 0
deriving Repr

namespace UndoStack

variable {σ : Type u} {β : Type v} {ε : Type w}

def push (d : UndoStack σ) (s : σ) : UndoStack σ :=
  { state := s, undoStack := d.state :: d.undoStack, revision := d.revision + 1 }

def undo (d : UndoStack σ) : UndoStack σ :=
  match d.undoStack with
  | [] => d
  | s :: rest => { state := s, undoStack := rest, revision := d.revision - 1 }

/-- The newest session has the current revision and each one below it one less. -/
def commit (d : UndoStack σ) (revision : Nat) : UndoStack σ :=
  { d with undoStack := d.undoStack.take (d.revision - revision) }

theorem commit_commit (d : UndoStack σ) {r r' : Nat} (h : r ≤ r') :
    (d.commit r).commit r' = d.commit r' := by
  have hmin : min (d.revision - r') (d.revision - r) = d.revision - r' := by omega
  simp only [commit, List.take_take, hmin]

variable (run : σ → β → Except ε σ)

def replay (start : σ) : List β → Except ε σ
  | [] => .ok start
  | b :: l =>
    match replay start l with
    | .ok s => run s b
    | .error e => .error e

theorem replay_append (start : σ) (l' l : List β) : replay run start (l' ++ l) =
      match replay run start l with
      | .ok s => replay run s l'
      | .error e => .error e := by
  induction l' with
  | nil =>
    simp only [List.nil_append]
    cases replay run start l <;> rfl
  | cons b l' ih =>
    simp only [List.cons_append, replay, ih]
    cases replay run start l <;> rfl

theorem replay_concat (start : σ) (l : List β) (b : β) : replay run start (l ++ [b]) =
      match run start b with
      | .ok s => replay run s l
      | .error e => .error e := by
  rw [replay_append]
  rfl

/-- The store after one session for each operation of the list, the newest first. -/
inductive Trail (base : UndoStack σ) : List β → UndoStack σ → Prop
  | nil : Trail base [] base
  | cons {l d b s} :
      Trail base l d → run d.state b = .ok s → Trail base (b :: l) (d.push s)

variable {run} {base d d' : UndoStack σ} {l l' : List β}

namespace Trail

theorem replay_eq (h : Trail run base l d) : replay run base.state l = .ok d.state := by
  induction h with
  | nil => rfl
  | cons _ hrun ih => simp only [replay, ih, hrun, push]

theorem revision_eq (h : Trail run base l d) : d.revision = base.revision + l.length := by
  induction h with
  | nil => rfl
  | cons _ _ ih =>
    simp only [push, List.length_cons]
    omega

theorem undo {b : β} (h : Trail run base (b :: l) d) : Trail run base l d.undo := by
  cases h with
  | cons h _ => exact h

theorem append (h : Trail run base l d) (h' : Trail run d l' d') : Trail run base (l' ++ l) d' := by
  induction h' with
  | nil => exact h
  | cons _ hrun ih => exact ih.cons hrun

theorem of_append (h : Trail run base (l' ++ l) d) :
    ∃ d₁, Trail run base l d₁ ∧ Trail run d₁ l' d := by
  induction l' generalizing d with
  | nil => exact ⟨d, h, .nil⟩
  | cons b l' ih =>
    cases h with
    | cons h hrun =>
      obtain ⟨d₁, hl, hl'⟩ := ih h
      exact ⟨d₁, hl, hl'.cons hrun⟩

theorem unique (h : Trail run base l d) (h' : Trail run base l d') : d = d' := by
  induction h generalizing d' with
  | nil =>
    cases h'
    rfl
  | cons _ hrun ih =>
    cases h' with
    | cons h' hrun' =>
      have heq := ih h'
      subst heq
      rw [hrun, Except.ok.injEq] at hrun'
      rw [hrun']

theorem map {f : β → β} (hf : ∀ s b, run s (f b) = run s b) (h : Trail run base l d) :
    Trail run base (l.map f) d := by
  induction h with
  | nil => exact .nil
  | cons _ hrun ih => exact ih.cons ((hf _ _).trans hrun)

theorem of_map {f : β → β} (hf : ∀ s b, run s (f b) = run s b)
    (h : Trail run base (l.map f) d) : Trail run base l d := by
  induction l generalizing d with
  | nil => exact h
  | cons b l ih =>
    cases h with
    | cons h hrun => exact (ih h).cons ((hf _ _).symm.trans hrun)

theorem commit (h : Trail run base (l' ++ l) d) : ∃ base', Trail run base l base' ∧
      Trail run { base' with undoStack := [] } l' (d.commit (base.revision + l.length)) := by
  obtain ⟨d₁, hl, hl'⟩ := h.of_append
  refine ⟨d₁, hl, ?_⟩
  have hrev := hl.revision_eq
  clear h
  induction hl' with
  | nil =>
    rw [UndoStack.commit, hrev, Nat.sub_self]
    exact .nil
  | @cons l' d b s h hrun ih =>
    have hstep : (d.push s).commit (base.revision + l.length) =
        (d.commit (base.revision + l.length)).push s := by
      have hd := h.revision_eq
      simp only [UndoStack.commit, push]
      rw [show d.revision + 1 - (base.revision + l.length) =
        d.revision - (base.revision + l.length) + 1 by omega, List.take_succ_cons]
    rw [hstep]
    exact ih.cons hrun

end Trail

end UndoStack

end DreamChain.Library
