import Mathlib

/-!
Specifications of computations that may throw: a condition on the result and one on the
exception. They compose along `bind`, so a specification of a procedure is assembled from those
of the procedures it calls, in the order in which it calls them.
-/

namespace DreamChain.Library

universe u v

variable {ε : Type u} {α β : Type v}

def Meets (x : Except ε α) (Q : α → Prop) (R : ε → Prop) : Prop :=
  match x with
  | .ok a => Q a
  | .error e => R e

variable {x : Except ε α} {f : α → Except ε β} {P Q : α → Prop} {S : β → Prop} {R : ε → Prop}

theorem Meets.of_ok {a : α} (h : Meets x Q R) (hx : x = .ok a) : Q a := by
  subst hx
  exact h

theorem Meets.of_error {e : ε} (h : Meets x Q R) (hx : x = .error e) : R e := by
  subst hx
  exact h

theorem Meets.mono (h : Meets x P R) (hle : ∀ a, P a → Q a) : Meets x Q R := by
  cases x with
  | ok a => exact hle a h
  | error e => exact h

theorem Meets.mono_error {R' : ε → Prop} (h : Meets x Q R') (hle : ∀ e, R' e → R e) :
    Meets x Q R := by
  cases x with
  | ok a => exact h
  | error e => exact hle e h

theorem Meets.bind (h : Meets x P R) (hf : ∀ a, P a → Meets (f a) S R) : Meets (x >>= f) S R := by
  cases x with
  | ok a => exact hf a h
  | error e => exact h

/-- A loop keeps what each round keeps, and throws only what a round throws. -/
theorem Meets.foldlM {σ : Type v} {γ : Type v} {g : σ → γ → Except ε σ} {I : σ → Prop}
    {l : List γ} {s : σ} (hround : ∀ a ∈ l, ∀ s, I s → Meets (g s a) I R) (hs : I s) :
    Meets (l.foldlM g s) I R := by
  induction l generalizing s with
  | nil => exact hs
  | cons a rest ih =>
    exact (hround a List.mem_cons_self s hs).bind fun t ht =>
      ih (fun b hb => hround b (List.mem_cons_of_mem a hb)) ht

end DreamChain.Library
