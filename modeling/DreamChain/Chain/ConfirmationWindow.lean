import DreamChain.Chain.BlockHeaderState

/-!
The window of confirmation counters. Read from its end, entry `j` of the window of
block `n` counts the confirmations block `n - j` still needs. In that order the
indexed loop of the source is a recursion on the list, stated here as `confirm` and
proved equal to it for counters that fit their width.
-/

namespace DreamChain
open List

/-- The counters from the newest block backwards, the number of blocks to confirm, and
the distance from the newest block to the one whose counter reached zero. -/
def confirm : List Nat → Nat → List Nat × Option Nat
  | [], _ => ([], none)
  | x :: xs, 0 => (x :: xs, none)
  | x :: xs, budget + 1 =>
    if x = 1 then ([], some 0)
    else ((x - 1) :: (confirm xs budget).1, (confirm xs budget).2.map (· + 1))

def Counters (window : List Nat) : Prop := ∀ x ∈ window, 1 ≤ x ∧ x ≤ 255

theorem decrement_counter {x : Nat} (h : 1 ≤ x ∧ x ≤ 255) : u8 (x + 255) = x - 1 := by
  simp only [u8]
  omega

/-- The loop of the source, entered with `post` already visited. -/
theorem confirmBlocks_append (n proposed : Nat) (pre post : List Nat) (budget : Nat)
    (h : Counters pre) : confirmBlocks n pre.length budget (pre ++ post) proposed =
      ((confirm pre.reverse budget).1.reverse ++ post,
        match (confirm pre.reverse budget).2 with
        | some distance => subU32 n (post.length + distance)
        | none => proposed) := by
  induction pre using reverseRecOn generalizing post budget with
  | nil => cases budget <;> simp [confirmBlocks, confirm]
  | append_singleton pre x ih =>
    have hx : 1 ≤ x ∧ x ≤ 255 := h x (by simp)
    have hpre : Counters pre := fun y hy => h y (by simp [hy])
    cases budget with
    | zero => simp [confirmBlocks, confirm]
    | succ budget =>
      have hget : ((pre ++ [x]) ++ post).getD pre.length 0 = x := by
        simp [getD_eq_getElem?_getD]
      have hset : ((pre ++ [x]) ++ post).set pre.length (x - 1) = pre ++ (x - 1) :: post := by
        simp
      simp only [length_append, length_singleton, confirmBlocks, hget,
        decrement_counter hx, hset, reverse_append, reverse_singleton,
        singleton_append, confirm]
      by_cases hone : x = 1
      · cases post with
        | nil => simp [hone]
        | cons y post => simp [hone]
      · have hpos : x - 1 ≠ 0 := by omega
        rw [if_neg hpos, if_neg hone, ih ((x - 1) :: post) budget hpre]
        cases (confirm pre.reverse budget).2 with
        | none => simp
        | some distance => simp [Nat.add_comm, Nat.add_left_comm]

theorem confirmBlocks_eq (n proposed : Nat) (window : List Nat) (budget : Nat)
    (h : Counters window) : confirmBlocks n window.length budget window proposed =
      ((confirm window.reverse budget).1.reverse,
        match (confirm window.reverse budget).2 with
        | some distance => subU32 n distance
        | none => proposed) := by
  have hloop := confirmBlocks_append n proposed window [] budget h
  simpa using hloop

theorem confirm_length (window : List Nat) (budget : Nat) :
    (confirm window budget).1.length = (confirm window budget).2.getD window.length := by
  induction window generalizing budget with
  | nil => simp [confirm]
  | cons x xs ih =>
    cases budget with
    | zero => simp [confirm]
    | succ budget =>
      by_cases hone : x = 1
      · simp [confirm, hone]
      · cases hd : (confirm xs budget).2 <;> simp_all [confirm]

variable {window : List Nat}

theorem confirm_hit {budget distance : Nat} (h : (confirm window budget).2 = some distance) :
    distance < budget ∧ window[distance]? = some 1 := by
  induction window generalizing budget distance with
  | nil => simp [confirm] at h
  | cons x xs ih =>
    cases budget with
    | zero => simp [confirm] at h
    | succ budget =>
      by_cases hone : x = 1
      · obtain rfl : 0 = distance := by simpa [confirm, hone] using h
        simp [hone]
      · simp only [confirm, hone, if_false, Option.map_eq_some_iff] at h
        obtain ⟨d, hd, rfl⟩ := h
        obtain ⟨hlt, hget⟩ := ih hd
        exact ⟨by omega, by simpa using hget⟩

theorem confirm_getElem {budget j x : Nat} (hpos : ∀ y ∈ window, 1 ≤ y)
    (h : (confirm window budget).1[j]? = some x) :
    1 ≤ x ∧ ((j < budget ∧ window[j]? = some (x + 1)) ∨ (budget ≤ j ∧ window[j]? = some x)) := by
  induction window generalizing budget j with
  | nil => simp [confirm] at h
  | cons y ys ih =>
    have hy : 1 ≤ y := hpos y mem_cons_self
    cases budget with
    | zero =>
      have hx : (y :: ys)[j]? = some x := by simpa [confirm] using h
      exact ⟨hpos x (mem_of_getElem? hx), .inr ⟨Nat.zero_le _, hx⟩⟩
    | succ budget =>
      by_cases hone : y = 1
      · simp [confirm, hone] at h
      · simp only [confirm, hone] at h
        cases j with
        | zero =>
          obtain rfl : y - 1 = x := by simpa using h
          simp only [getElem?_cons_zero, Option.some.injEq]
          omega
        | succ j =>
          obtain ⟨hx, hcase⟩ :=
            ih (fun z hz => hpos z (mem_cons_of_mem y hz)) (by simpa using h)
          refine ⟨hx, ?_⟩
          simp only [Nat.add_lt_add_iff_right,
            Nat.add_le_add_iff_right]
          exact hcase

end DreamChain
