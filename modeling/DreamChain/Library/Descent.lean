import DreamChain.Library.Worklist

/-!
Recursive descents along a successor function. A descent from an element ends when no chain of
successors from it is longer than the recursion may nest. Without cycles, and with finitely many
elements that have successors, there is such a bound. When no element is a successor twice, a
descent from unrelated elements meets nothing twice.
-/

namespace DreamChain.Library.Descent
open Worklist List

universe u
variable {α : Type u} (next : α → List α)

/-- Every chain of successors from an element has fewer than the given number of steps. -/
def Height : Nat → α → Prop
  | 0, _ => False
  | n + 1, x => ∀ y ∈ next x, Height n y

def Acyclic : Prop := ∀ x, ∀ y ∈ next x, ¬ Reach next y x

/-- Every element is a successor at most once. -/
structure UniqueParents : Prop where
  unique : ∀ {a b x}, x ∈ next a → x ∈ next b → a = b
  nodup : ∀ a, (next a).Nodup

/-- The elements below those of a list, each after its successors. -/
def postorder : Nat → List α → List α
  | 0, _ => []
  | n + 1, l => l.flatMap fun x => postorder n (next x) ++ [x]

variable {next} {n : Nat} {a b x y : α} {l : List α}

theorem reach_refl : Reach next x x := Relation.ReflTransGen.refl

theorem reach_head (hy : y ∈ next x) (h : Reach next y a) : Reach next x a :=
  Relation.ReflTransGen.head hy h

theorem Height.succ (h : Height next n x) : Height next (n + 1) x := by
  induction n generalizing x with
  | zero => exact h.elim
  | succ n ih => exact fun y hy => ih (h y hy)

theorem Height.of_reach (h : Height next n x) (hr : Reach next x y) : Height next n y := by
  induction hr with
  | refl => exact h
  | tail _ hy ih =>
    cases n with
    | zero => exact ih.elim
    | succ n => exact (ih _ hy).succ

theorem Height.not_reach (h : Height next n x) (hy : y ∈ next x) : ¬ Reach next y x := by
  intro hr
  induction n generalizing x y with
  | zero => exact h
  | succ n ih =>
    have hx : Height next n x := (h y hy).of_reach hr
    exact ih hx hy hr

/-- The elements with successors that lie below an element become fewer along a chain. -/
theorem height_of_acyclic_below (hl : ∀ x, next x ≠ [] → x ∈ l) (x : α)
    (h : ∀ z, Reach next x z → ∀ y ∈ next z, ¬ Reach next y z) : Height next (l.length + 1) x := by
  classical
  have hcount : ∀ n x, (∀ z, Reach next x z → ∀ y ∈ next z, ¬ Reach next y z) →
      (l.filter fun z => Reach next x z).length < n → Height next n x := by
    intro n
    induction n with
    | zero => exact fun x _ hx => absurd hx (Nat.not_lt_zero _)
    | succ n ih =>
      intro x h hx y hy
      refine ih y (fun z hz => h z (reach_head hy hz))
        (Nat.lt_of_lt_of_le ?_ (Nat.le_of_lt_succ hx))
      have hsub : (l.filter fun z => Reach next y z).Sublist
          ((l.filter fun z => Reach next x z).filter fun z => z ≠ x) := by
        rw [filter_filter]
        refine monotone_filter_right l fun z hz => ?_
        have hyz : Reach next y z := of_decide_eq_true hz
        have hzx : z ≠ x := fun heq => h x reach_refl y hy (heq ▸ hyz)
        simpa using ⟨hzx, reach_head hy hyz⟩
      have hx : x ∈ l.filter fun z => Reach next x z :=
        mem_filter.mpr ⟨hl x (ne_nil_of_mem hy), decide_eq_true reach_refl⟩
      refine Nat.lt_of_le_of_lt hsub.length_le ?_
      exact length_filter_lt_length_iff_exists.mpr ⟨x, hx, by simp⟩
  exact hcount _ x h (Nat.lt_succ_of_le (length_filter_le _ _))

theorem Acyclic.height (h : Acyclic next) (hl : ∀ x, next x ≠ [] → x ∈ l) (x : α) :
    Height next (l.length + 1) x :=
  height_of_acyclic_below hl x fun z _ => h z

variable {next' : α → List α} {p : α}

theorem Reach.mono (hsub : ∀ x, ∀ y ∈ next' x, y ∈ next x) (h : Reach next' x y) : Reach next x y :=
  Relation.ReflTransGen.mono (fun a b hb => hsub a b hb) x y h

theorem Acyclic.mono (h : Acyclic next) (hsub : ∀ x, ∀ y ∈ next' x, y ∈ next x) : Acyclic next' :=
  fun x y hy hr => h x y (hsub x y hy) (Reach.mono hsub hr)

/-- A path through new successors of one element splits at the last of them. -/
theorem reach_of_added (hadd : ∀ x, ∀ y ∈ next' x, y ∈ next x ∨ x = p ∧ y ∈ l) (h : Reach next' x y) :
    Reach next x y ∨ Reach next x p ∧ ∃ c ∈ l, Reach next c y := by
  induction h with
  | refl => exact .inl reach_refl
  | @tail b c _ hc ih =>
    obtain hold | ⟨rfl, hcl⟩ := hadd b c hc
    · refine ih.imp (fun hxb => hxb.tail hold) ?_
      rintro ⟨hxp, d, hd, hdb⟩
      exact ⟨hxp, d, hd, hdb.tail hold⟩
    · have hxp : Reach next x b := by
        cases ih with
        | inl hxb => exact hxb
        | inr hcross => exact hcross.1
      exact .inr ⟨hxp, c, hcl, reach_refl⟩

theorem Acyclic.added_iff (h : Acyclic next)
    (hadd : ∀ x y, y ∈ next' x ↔ y ∈ next x ∨ x = p ∧ y ∈ l) :
    Acyclic next' ↔ ∀ c ∈ l, ¬ Reach next c p := by
  constructor
  · intro h' c hc hr
    refine h' p c ((hadd p c).mpr (.inr ⟨rfl, hc⟩)) ?_
    exact Reach.mono (fun x y hy => (hadd x y).mpr (.inl hy)) hr
  · intro hl x y hy hr
    have hcross := reach_of_added (fun x y hy => (hadd x y).mp hy) hr
    obtain hold | ⟨rfl, hyl⟩ := (hadd x y).mp hy
    · obtain hyx | ⟨hyp, c, hc, hcx⟩ := hcross
      · exact h x y hold hyx
      · exact hl c hc ((hcx.tail hold).trans hyp)
    · cases hcross with
      | inl hyx => exact hl y hyl hyx
      | inr hsplit => exact hl y hyl hsplit.1

theorem mem_postorder (hl : ∀ y ∈ l, Height next n y) :
    x ∈ postorder next n l ↔ ∃ y ∈ l, Reach next y x := by
  induction n generalizing l x with
  | zero =>
    refine iff_of_false not_mem_nil ?_
    rintro ⟨y, hy, -⟩
    exact hl y hy
  | succ n ih =>
    simp only [postorder, mem_flatMap, mem_append, mem_singleton]
    refine exists_congr fun y => and_congr_right fun hy => ?_
    rw [ih (hl y hy), reach_iff, or_comm]

theorem UniqueParents.comparable (h : UniqueParents next) (ha : Reach next a x)
    (hb : Reach next b x) : Reach next a b ∨ Reach next b a := by
  induction ha with
  | refl => exact .inr hb
  | @tail p x hp hx ih =>
    obtain rfl | ⟨q, hq, hxq⟩ := Relation.ReflTransGen.cases_tail hb
    · exact .inl (hp.tail hx)
    · rw [h.unique hxq hx] at hq
      exact ih hq

theorem UniqueParents.siblings (h : UniqueParents next) (hp : Height next n p) (ha : a ∈ next p)
    (hb : b ∈ next p) (hne : a ≠ b) (hax : Reach next a x) : ¬ Reach next b x := by
  have hlevel : ∀ {c d : α}, c ∈ next p → d ∈ next p → c ≠ d → ¬ Reach next c d := by
    intro c d hc hd hcd hr
    obtain heq | ⟨q, hq, hdq⟩ := Relation.ReflTransGen.cases_tail hr
    · exact hcd heq.symm
    · rw [h.unique hdq hd] at hq
      exact hp.not_reach hc hq
  intro hbx
  cases h.comparable hax hbx with
  | inl hab => exact hlevel ha hb hne hab
  | inr hba => exact hlevel hb ha hne.symm hba

/-- Elements with nothing in common below them. -/
def Unrelated (next : α → List α) (l : List α) : Prop :=
  l.Pairwise fun a b => ∀ x, Reach next a x → ¬ Reach next b x

variable (h : UniqueParents next)
include h

theorem UniqueParents.unrelated_next (hx : Height next n x) : Unrelated next (next x) :=
  (h.nodup x).imp_of_mem fun ha hb hne _ => h.siblings hx ha hb hne

theorem UniqueParents.unrelated_roots (hl : l.Nodup) (hroots : ∀ y ∈ l, ∀ p, y ∉ next p)
    : Unrelated next l := by
  have hroot : ∀ {a b}, b ∈ l → Reach next a b → b = a := by
    intro a b hb hab
    obtain heq | ⟨p, -, hp⟩ := Relation.ReflTransGen.cases_tail hab
    · exact heq
    · exact absurd hp (hroots b hb p)
  refine hl.imp_of_mem fun ha hb hne x hax hbx => ?_
  cases h.comparable hax hbx with
  | inl hab => exact hne (hroot hb hab).symm
  | inr hba => exact hne (hroot ha hba)

theorem UniqueParents.nodup_postorder (hl : ∀ y ∈ l, Height next n y) (hr : Unrelated next l)
    : (postorder next n l).Nodup := by
  induction n generalizing l with
  | zero => exact nodup_nil
  | succ n ih =>
    rw [postorder, nodup_flatMap]
    constructor
    · intro x hx
      have hchildren := ih (hl x hx) (h.unrelated_next (hl x hx))
      refine nodup_append.mpr ⟨hchildren, nodup_singleton x, ?_⟩
      rintro y hy z hz rfl
      obtain rfl := mem_singleton.mp hz
      obtain ⟨c, hc, hcx⟩ := (mem_postorder (hl y hx)).mp hy
      exact (hl y hx).not_reach hc hcx
    · refine hr.imp_of_mem fun {a b} ha hb hab => ?_
      have hbelow : ∀ {c : α}, c ∈ l → ∀ x ∈ postorder next n (next c) ++ [c],
          Reach next c x := by
        intro c hc x hx
        cases mem_append.mp hx with
        | inl hx =>
          obtain ⟨d, hd, hdx⟩ := (mem_postorder (hl c hc)).mp hx
          exact reach_head hd hdx
        | inr hx =>
          rw [mem_singleton.mp hx]
          exact reach_refl
      exact fun x hxa hxb => hab x (hbelow ha x hxa) (hbelow hb x hxb)

end DreamChain.Library.Descent
