import Mathlib

/-!
Computations that keep a cache. One that throws or returns exactly what a computation without
the cache does, as long as an invariant of the cache holds, simulates it; sequences of such
computations simulate the sequences without the cache.
-/

namespace DreamChain.Library

universe u

variable {ε σ β γ : Type u} {C : σ → Prop}

/-- From every state with the invariant, the result is the same and the invariant is kept. -/
def Simulates (C : σ → Prop) (x : ExceptT ε (StateM σ) β) (y : Except ε β) : Prop :=
  ∀ s, C s → (x.run s).1 = y ∧ C (x.run s).2

namespace Simulates

theorem pure (b : β) : Simulates C (Pure.pure b : ExceptT ε (StateM σ) β) (.ok b) :=
  fun _ hs => ⟨rfl, hs⟩

theorem throw (e : ε) : Simulates C (MonadExcept.throw e : ExceptT ε (StateM σ) β) (.error e) :=
  fun _ hs => ⟨rfl, hs⟩

theorem run_bind (x : ExceptT ε (StateM σ) β) (f : β → ExceptT ε (StateM σ) γ) (s : σ) :
    (x >>= f).run s =
      match x.run s with
      | (.ok b, s) => (f b).run s
      | (.error e, s) => (.error e, s) := by
  show (match x.run s with | (r, s) => (ExceptT.bindCont f r : StateM σ (Except ε γ)) s) = _
  cases x.run s with
  | mk r s => cases r <;> rfl

theorem bind {x : ExceptT ε (StateM σ) β} {y : Except ε β} {f : β → ExceptT ε (StateM σ) γ}
    {g : β → Except ε γ} (hx : Simulates C x y)
    (hf : ∀ b, y = .ok b → Simulates C (f b) (g b)) : Simulates C (x >>= f) (y >>= g) := by
  intro s hs
  obtain ⟨hresult, hkept⟩ := hx s hs
  rw [run_bind]
  cases hrun : x.run s with
  | mk r s' =>
    rw [hrun] at hresult hkept
    subst hresult
    cases r with
    | ok b => exact hf b rfl s' hkept
    | error e => exact ⟨rfl, hkept⟩

theorem ite {c : Prop} [Decidable c] {x x' : ExceptT ε (StateM σ) β} {y y' : Except ε β}
    (h : c → Simulates C x y) (h' : ¬ c → Simulates C x' y') :
    Simulates C (if c then x else x') (if c then y else y') := by
  by_cases hc : c
  · rw [if_pos hc, if_pos hc]
    exact h hc
  · rw [if_neg hc, if_neg hc]
    exact h' hc

end Simulates

end DreamChain.Library
