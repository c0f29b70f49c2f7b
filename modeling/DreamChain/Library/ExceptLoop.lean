import Mathlib

/-!
Loops that may throw. A loop over a list keeps what each round keeps. When the rounds do not
disturb each other, the loop succeeds exactly when every round would succeed at the start.
-/

namespace DreamChain.Library
open List

universe u

variable {ε σ α : Type u} {f : σ → α → Except ε σ}

variable {l : List α} {s t : σ}

theorem foldlM_cons_ok {a : α} :
    (a :: l).foldlM f s = .ok t ↔ ∃ s', f s a = .ok s' ∧ l.foldlM f s' = .ok t := by
  rw [foldlM_cons]
  cases h : f s a with
  | error e => exact iff_of_false nofun fun ⟨s', h', _⟩ => nomatch h'
  | ok s' => exact ⟨fun hl => ⟨s', rfl, hl⟩, fun ⟨_, h', hl⟩ => by cases h'; exact hl⟩

theorem foldlM_ok_induction {I : σ → Prop} (hstep : ∀ a ∈ l, ∀ s s', I s → f s a = .ok s' → I s')
    (hs : I s) (h : l.foldlM f s = .ok t) : I t := by
  induction l generalizing s with
  | nil =>
    cases h
    exact hs
  | cons a rest ih =>
    obtain ⟨s', ha, hrest⟩ := foldlM_cons_ok.mp h
    exact ih (fun b hb => hstep b (mem_cons_of_mem a hb))
      (hstep a mem_cons_self s s' hs ha) hrest

/-- What a round brings about for its element, and no later round destroys, holds of every
element at the end. -/
theorem foldlM_ok_forall {Q : σ → α → Prop} (hdone : ∀ s s' a, f s a = .ok s' → Q s' a)
    (hkeep : ∀ s s' a b, f s a = .ok s' → Q s b → Q s' b) (h : l.foldlM f s = .ok t) :
    ∀ a ∈ l, Q t a := by
  induction l generalizing s with
  | nil => exact nofun
  | cons a rest ih =>
    obtain ⟨s', ha, hrest⟩ := foldlM_cons_ok.mp h
    have hlater : Q t a := foldlM_ok_induction (I := fun s => Q s a)
      (fun b _ s s' hq hb => hkeep s s' b a hb hq) (hdone s s' a ha) hrest
    exact forall_mem_cons.mpr ⟨hlater, ih hrest⟩

/-- A round on one element does not decide whether a round on another one succeeds. -/
def Independent (f : σ → α → Except ε σ) : Prop :=
  ∀ s s' a b, f s a = .ok s' → a ≠ b → ((∃ t, f s' b = .ok t) ↔ ∃ t, f s b = .ok t)

theorem exists_foldlM_ok_iff (hf : Independent f) (hl : l.Nodup) :
    (∃ t, l.foldlM f s = .ok t) ↔ ∀ a ∈ l, ∃ t, f s a = .ok t := by
  induction l generalizing s with
  | nil => exact iff_of_true ⟨s, rfl⟩ nofun
  | cons a rest ih =>
    obtain ⟨ha, hrest⟩ := nodup_cons.mp hl
    rw [forall_mem_cons]
    constructor
    · rintro ⟨t, ht⟩
      obtain ⟨s', hs', ht⟩ := foldlM_cons_ok.mp ht
      refine ⟨⟨s', hs'⟩, fun b hb => ?_⟩
      exact (hf s s' a b hs' fun h => ha (h ▸ hb)).mp ((ih hrest).mp ⟨t, ht⟩ b hb)
    · rintro ⟨⟨s', hs'⟩, hothers⟩
      have hlater : ∃ t, rest.foldlM f s' = .ok t := (ih hrest).mpr fun b hb =>
        (hf s s' a b hs' fun h => ha (h ▸ hb)).mpr (hothers b hb)
      obtain ⟨t, ht⟩ := hlater
      exact ⟨t, foldlM_cons_ok.mpr ⟨s', hs', ht⟩⟩

theorem forM_eq_ok {β : Type} {g : β → Except ε Unit} {l : List β} :
    l.forM g = .ok () ↔ ∀ b ∈ l, g b = .ok () := by
  induction l with
  | nil => exact iff_of_true rfl nofun
  | cons b rest ih =>
    change (g b >>= fun _ => rest.forM g) = .ok () ↔ _
    rw [forall_mem_cons, ← ih]
    cases h : g b with
    | error e => exact iff_of_false nofun fun h => nomatch h.1
    | ok u => exact ⟨fun hrest => ⟨rfl, hrest⟩, fun h => h.2⟩

end DreamChain.Library
