import DreamChain.Library.ExceptLoop
import DreamChain.Library.FlatMap

/-!
Loops that add or remove the keys of a list one by one and fail on a key that is there already,
or is not there. Such a loop succeeds only for distinct keys, and what each round asks of the
map it finds was true of the map at the start.
-/

namespace DreamChain.Library.FlatMap

universe u

variable {α β ε : Type u} [LinearOrder α] {m m' : FlatMap α β} {l : List α} {G : α → Prop} {v : β}
  {f : FlatMap α β → α → Except ε (FlatMap α β)}

/-- A round asks of the entry it changes what it does not leave there. -/
theorem foldlM_update_ok {r : Option β} {C : Option β → Prop} (hr : ¬ C r)
    (hf : ∀ m x m', f m x = .ok m' →
      G x ∧ C (m.find? x) ∧ ∀ y, m'.find? y = if x = y then r else m.find? y)
    (h : l.foldlM f m = .ok m') : l.Nodup ∧ (∀ x ∈ l, G x ∧ C (m.find? x)) ∧
      ∀ y, m'.find? y = if y ∈ l then r else m.find? y := by
  induction l generalizing m with
  | nil =>
    cases h
    exact ⟨List.nodup_nil, fun x hx => absurd hx List.not_mem_nil, fun y => rfl⟩
  | cons a rest ih =>
    obtain ⟨m₁, ha, hrest⟩ := foldlM_cons_ok.mp h
    obtain ⟨hG, hC, hm₁⟩ := hf m a m₁ ha
    obtain ⟨hnodup, hall, hfind⟩ := ih hrest
    have hne : ∀ x ∈ rest, a ≠ x := by
      rintro x hx rfl
      have hagain := (hall a hx).2
      rw [hm₁, if_pos rfl] at hagain
      exact hr hagain
    refine ⟨List.nodup_cons.mpr ⟨fun ha => hne a ha rfl, hnodup⟩, ?_, fun y => ?_⟩
    · refine List.forall_mem_cons.mpr ⟨⟨hG, hC⟩, fun x hx => ⟨(hall x hx).1, ?_⟩⟩
      have hbefore := (hall x hx).2
      rwa [hm₁, if_neg (hne x hx)] at hbefore
    · rw [hfind, hm₁]
      by_cases hy : y ∈ rest
      · simp [hy]
      · by_cases hay : a = y
        · simp [hay]
        · simp [hay, Ne.symm hay]

theorem foldlM_insert_ok
    (hf : ∀ m x m', f m x = .ok m' → G x ∧ m.find? x = none ∧ m' = m.insert x v)
    (h : l.foldlM f m = .ok m') : l.Nodup ∧ (∀ x ∈ l, G x ∧ m.find? x = none) ∧
      ∀ y, m'.find? y = if y ∈ l then some v else m.find? y := by
  refine foldlM_update_ok (C := fun r => r = none) nofun (fun m x m' hm' => ?_) h
  obtain ⟨hG, hnone, rfl⟩ := hf m x m' hm'
  exact ⟨hG, hnone, fun y => find?_insert m x y v⟩

theorem foldlM_erase_ok (hf : ∀ m x m', f m x = .ok m' → G x ∧ m.find? x ≠ none ∧ m' = m.erase x)
    (h : l.foldlM f m = .ok m') : l.Nodup ∧ (∀ x ∈ l, G x ∧ m.find? x ≠ none) ∧
      ∀ y, m'.find? y = if y ∈ l then none else m.find? y := by
  refine foldlM_update_ok (C := fun r => r ≠ none) (fun hne => hne rfl) (fun m x m' hm' => ?_) h
  obtain ⟨hG, hsome, rfl⟩ := hf m x m' hm'
  exact ⟨hG, hsome, fun y => find?_erase m x y⟩

end DreamChain.Library.FlatMap
