import Mathlib

/-!
Systems of weighted threshold rules. A node holds when it is given, or when the weights of
the parts of its rule that hold reach the threshold of the rule, counted on top of a weight
of its own. Rules may refer to each other in cycles; what holds is what has a derivation.

`Within n` cuts the derivations off at depth `n`. Where all paths below a node are shorter
than that, the cut is not felt and the node has exactly one possible status.
-/

namespace DreamChain.Library

universe u

structure ThresholdRule (ν : Type u) where
  threshold : Nat
  own : Nat
  parts : List (ν × Nat)

structure ThresholdSystem (ν : Type u) where
  given : ν → Prop
  rule : ν → Option (ThresholdRule ν)

namespace ThresholdSystem

variable {ν : Type u}

open Classical in
noncomputable def weight (P : ν → Prop) (parts : List (ν × Nat)) : Nat :=
  (parts.map fun e => if P e.1 then e.2 else 0).sum

variable {P Q : ν → Prop} {e : ν × Nat} {parts : List (ν × Nat)}

theorem weight_cons_pos (h : P e.1) (parts : List (ν × Nat)) :
    weight P (e :: parts) = e.2 + weight P parts := by
  simp [weight, h]

theorem weight_cons_neg (h : ¬ P e.1) (parts : List (ν × Nat)) :
    weight P (e :: parts) = weight P parts := by
  simp [weight, h]

theorem weight_append (P : ν → Prop) (parts parts' : List (ν × Nat)) :
    weight P (parts ++ parts') = weight P parts + weight P parts' := by
  simp [weight]

theorem weight_perm (P : ν → Prop) {parts' : List (ν × Nat)} (h : parts.Perm parts') :
    weight P parts = weight P parts' :=
  (h.map _).sum_eq

theorem weight_mono (h : ∀ e ∈ parts, P e.1 → Q e.1) : weight P parts ≤ weight Q parts := by
  induction parts with
  | nil => exact Nat.le_refl 0
  | cons e parts ih =>
    have hrest := ih fun a ha => h a (List.mem_cons_of_mem _ ha)
    by_cases hP : P e.1
    · rw [weight_cons_pos hP, weight_cons_pos (h e List.mem_cons_self hP)]
      exact Nat.add_le_add_left hrest _
    · rw [weight_cons_neg hP]
      by_cases hQ : Q e.1
      · rw [weight_cons_pos hQ]
        omega
      · rw [weight_cons_neg hQ]
        exact hrest

theorem weight_congr (h : ∀ e ∈ parts, (P e.1 ↔ Q e.1)) : weight P parts = weight Q parts :=
  Nat.le_antisymm (weight_mono fun e he => (h e he).mp) (weight_mono fun e he => (h e he).mpr)

theorem weight_le (P : ν → Prop) (parts : List (ν × Nat)) :
    weight P parts ≤ (parts.map Prod.snd).sum := by
  induction parts with
  | nil => exact Nat.le_refl 0
  | cons e parts ih =>
    rw [List.map_cons, List.sum_cons]
    by_cases hP : P e.1
    · rw [weight_cons_pos hP]
      omega
    · rw [weight_cons_neg hP]
      omega

def Reached (r : ThresholdRule ν) (P : ν → Prop) : Prop := r.threshold ≤ r.own + weight P r.parts

theorem Reached.mono {r : ThresholdRule ν} (h : Reached r P) (hPQ : ∀ e ∈ r.parts, P e.1 → Q e.1) :
    Reached r Q :=
  Nat.le_trans h (Nat.add_le_add_left (weight_mono hPQ) _)

variable (S : ThresholdSystem ν)

def Step (P : ν → Prop) (x : ν) : Prop := S.given x ∨ ∃ r, S.rule x = some r ∧ Reached r P

inductive Derivable : ν → Prop
  | given {x} : S.given x → Derivable x
  | reached {x} (r : ThresholdRule ν) (P : ν → Prop) : S.rule x = some r →
      (∀ y, P y → Derivable y) → Reached r P → Derivable x

/-- The nodes that have a derivation of bounded depth. -/
def Within : Nat → ν → Prop
  | 0 => S.given
  | n + 1 => S.Step (Within n)

variable {S}

theorem derivable_iff {x : ν} : S.Derivable x ↔ S.Step S.Derivable x := by
  constructor
  · intro h
    cases h with
    | given hgiven => exact .inl hgiven
    | reached r P hr hP hreached => exact .inr ⟨r, hr, hreached.mono fun e _ => hP e.1⟩
  · rintro (hgiven | ⟨r, hr, hreached⟩)
    · exact .given hgiven
    · exact .reached r S.Derivable hr (fun _ h => h) hreached

theorem within_of_given {x : ν} (h : S.given x) (n : Nat) : S.Within n x := by
  cases n with
  | zero => exact h
  | succ n => exact .inl h

theorem Within.of_le {S' : ThresholdSystem ν} (hgiven : ∀ x, S.given x → S'.given x)
    (hrule : ∀ x r, S.rule x = some r → ∃ r', S'.rule x = some r' ∧ r'.threshold = r.threshold ∧
      r.own ≤ r'.own ∧ r'.parts = r.parts) {n : Nat} {x : ν} (h : S.Within n x) :
    S'.Within n x := by
  induction n generalizing x with
  | zero => exact hgiven x h
  | succ n ih =>
    obtain hx | ⟨r, hr, hreached⟩ := h
    · exact .inl (hgiven x hx)
    · obtain ⟨r', hr', hthreshold, hown, hparts⟩ := hrule x r hr
      have hweight : weight (S.Within n) r.parts ≤ weight (S'.Within n) r.parts :=
        weight_mono fun e _ => ih
      refine .inr ⟨r', hr', ?_⟩
      rw [Reached] at hreached ⊢
      rw [hparts]
      omega

section Paths

inductive Reaches (R : ν → ν → Prop) : Nat → ν → ν → Prop
  | refl (x : ν) : Reaches R 0 x x
  | tail {n x y z} : Reaches R n x y → R y z → Reaches R (n + 1) x z

/-- Every path from `x` on has at most `n` nodes. -/
def Fits (R : ν → ν → Prop) (n : Nat) (x : ν) : Prop := ∀ k y, Reaches R k x y → k < n

/-- A node that is reached from `x` at two depths has no path below it that a cut at depth `n`
would shorten. -/
def DepthSafe (R : ν → ν → Prop) (n : Nat) (x : ν) : Prop :=
  ∀ d d' y, Reaches R d x y → Reaches R d' x y → d ≠ d' → Fits R (n - d) y

variable {R : ν → ν → Prop} {n m d d' k : Nat} {x y z : ν}

theorem Reaches.trans (h : Reaches R n x y) (h' : Reaches R m y z) : Reaches R (n + m) x z := by
  induction h' with
  | refl => exact h
  | tail _ hchild ih => exact (ih h).tail hchild

theorem Reaches.head (h : R x y) (h' : Reaches R n y z) : Reaches R (n + 1) x z := by
  have hpath := ((Reaches.refl x).tail h).trans h'
  rwa [Nat.add_comm] at hpath

theorem Fits.child (h : Fits R (n + 1) x) (hchild : R x y) : Fits R n y := by
  intro k z hk
  have hlong := h (k + 1) z (hk.head hchild)
  omega

theorem not_fits_zero (x : ν) : ¬ Fits R 0 x := by
  intro h
  exact absurd (h 0 x (.refl x)) (Nat.lt_irrefl 0)

theorem Reaches.not_fits (h : Reaches R (k + 1) x x) (n : Nat) : ¬ Fits R n x := by
  have hlong : ∀ m, ∃ j, m ≤ j ∧ Reaches R j x x := by
    intro m
    induction m with
    | zero => exact ⟨0, Nat.le_refl 0, .refl x⟩
    | succ m ih =>
      obtain ⟨j, hj, hpath⟩ := ih
      exact ⟨j + (k + 1), by omega, hpath.trans h⟩
  intro hfits
  obtain ⟨j, hj, hpath⟩ := hlong n
  exact absurd (hfits j x hpath) (by omega)

theorem Fits.depthSafe (h : Fits R n x) : DepthSafe R n x := by
  intro d d' y hd _ _ k z hk
  have hlong := h (d + k) z (hd.trans hk)
  omega

theorem fits_of_rank (rank : ν → Nat) (hrank : ∀ x y, R x y → rank y < rank x)
    (hx : rank x < n) : Fits R n x := by
  intro k y hk
  have hle : rank y + k ≤ rank x := by
    induction hk with
    | refl => exact Nat.le_refl _
    | tail _ hchild ih =>
      have hlt := hrank _ _ hchild
      omega
  omega

theorem DepthSafe.acyclic (h : DepthSafe R n x) (hd : Reaches R d x y) :
    ¬ Reaches R (k + 1) y y := by
  intro hcycle
  have hdeeper := hd.trans hcycle
  exact hcycle.not_fits _ (h d (d + (k + 1)) y hd hdeeper (by omega))

variable (S) in
def Child (x y : ν) : Prop := ∃ r, S.rule x = some r ∧ ∃ w, (y, w) ∈ r.parts

theorem step_iff {P Q : ν → Prop} (h : ∀ y, S.Child x y → (P y ↔ Q y)) :
    S.Step P x ↔ S.Step Q x := by
  refine or_congr Iff.rfl (exists_congr fun r => and_congr_right fun hr => ?_)
  rw [Reached, Reached, weight_congr fun e he => h e.1 ⟨r, hr, e.2, he⟩]

/-- Any two predicates that obey the rules agree where the paths are finite. -/
theorem Fits.within_iff {P : ν → Prop} (hP : ∀ x, P x ↔ S.Step P x) (h : Fits S.Child m x)
    (hmn : m ≤ n) : S.Within n x ↔ P x := by
  induction m generalizing n x with
  | zero => exact absurd h (not_fits_zero x)
  | succ m ih =>
    cases n with
    | zero => exact absurd hmn (Nat.not_succ_le_zero m)
    | succ n =>
      rw [hP x]
      exact step_iff fun y hy => ih (h.child hy) (Nat.le_of_succ_le_succ hmn)

/-- The depth at which a node is reached does not decide whether it holds. -/
theorem DepthSafe.within_iff (h : DepthSafe S.Child n x) (hd : Reaches S.Child d x y)
    (hd' : Reaches S.Child d' x y) : S.Within (n - d) y ↔ S.Within (n - d') y := by
  by_cases heq : d = d'
  · rw [heq]
  · have hderivable : ∀ z, S.Derivable z ↔ S.Step S.Derivable z := fun _ => derivable_iff
    rw [(h d d' y hd hd' heq).within_iff hderivable (Nat.le_refl _),
      (h d' d y hd' hd (Ne.symm heq)).within_iff hderivable (Nat.le_refl _)]

end Paths

end ThresholdSystem

end DreamChain.Library
