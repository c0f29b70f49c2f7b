import Mathlib

/-!
Runs of a step relation from an initial state, as the list of their transitions, the latest
first. An invariant that a step keeps exactly under a condition holds along a run exactly when
the condition holds of every transition of the run.
-/

namespace DreamChain.Library

universe u v

structure Transition (σ : Type u) (α : Type v) where
  before : σ
  action : α
  after : σ

variable {σ : Type u} {α : Type v}

inductive Run (step : σ → α → σ → Prop) (init : σ) : List (Transition σ α) → σ → Prop
  | start : Run step init [] init
  | next {l s s' a} :
      Run step init l s → step s a s' → Run step init (⟨s, a, s'⟩ :: l) s'

namespace Run

variable {step : σ → α → σ → Prop} {init s : σ} {l : List (Transition σ α)}
  {Inv : σ → Prop} {Cond : Transition σ α → Prop}

theorem step_of_mem (h : Run step init l s) : ∀ t ∈ l, step t.before t.action t.after := by
  induction h with
  | start => exact fun t ht => nomatch ht
  | next _ hstep ih => exact List.forall_mem_cons.mpr ⟨hstep, ih⟩

section

variable (h : Run step init l s) (hinit : Inv init)
include h hinit

theorem of_after (hl : ∀ t ∈ l, Inv t.after) : Inv s ∧ ∀ t ∈ l, Inv t.before := by
  induction h with
  | start => exact ⟨hinit, fun t ht => nomatch ht⟩
  | next _ _ ih =>
    obtain ⟨hs, hbefore⟩ := ih fun t ht => hl t (List.mem_cons_of_mem _ ht)
    exact ⟨hl _ List.mem_cons_self, List.forall_mem_cons.mpr ⟨hs, hbefore⟩⟩

/-- An invariant of the steps that meet a condition. -/
theorem guarded
    (hstep : ∀ t : Transition σ α, step t.before t.action t.after → Cond t → Inv t.before →
      Inv t.after) (hl : ∀ t ∈ l, Cond t) : Inv s ∧ ∀ t ∈ l, Inv t.before ∧ Inv t.after := by
  induction h with
  | start => exact ⟨hinit, fun t ht => nomatch ht⟩
  | @next l s s' a _ hs ih =>
    obtain ⟨hcond, hrest⟩ := List.forall_mem_cons.mp hl
    obtain ⟨hinv, hall⟩ := ih hrest
    have hafter : Inv s' := hstep ⟨s, a, s'⟩ hs hcond hinv
    exact ⟨hafter, List.forall_mem_cons.mpr ⟨⟨hinv, hafter⟩, hall⟩⟩

theorem guarded_iff (hstep : ∀ t : Transition σ α, step t.before t.action t.after → Inv t.before →
      (Inv t.after ↔ Cond t)) : (∀ t ∈ l, Inv t.after) ↔ ∀ t ∈ l, Cond t := by
  constructor
  · intro hall t ht
    have hbefore := (h.of_after hinit hall).2 t ht
    exact (hstep t (h.step_of_mem t ht) hbefore).mp (hall t ht)
  · intro hl
    have hkeeps := h.guarded hinit (fun t hs hc hb => (hstep t hs hb).mpr hc) hl
    exact fun t ht => (hkeeps.2 t ht).2

end

end Run

end DreamChain.Library
