import Mathlib

/-!
Ordered maps stored as a strictly increasing list of entries. The order is a
field of the structure, so no map with a repeated or misplaced key can be built.
Two maps with the same entries are equal; lookups read the entry list directly.
-/

namespace DreamChain.Library
open List

universe u v

structure FlatMap (α : Type u) (β : Type v) [LinearOrder α] where
  entries : List (α × β)
  sorted : entries.Pairwise (fun a b => a.1 < b.1)

namespace FlatMap

variable {α : Type u} {β : Type v} [LinearOrder α]

instance [DecidableEq β] : DecidableEq (FlatMap α β) := fun m n =>
  decidable_of_iff (m.entries = n.entries) (by cases m; cases n; simp)

def empty : FlatMap α β := ⟨[], List.Pairwise.nil⟩

instance : Inhabited (FlatMap α β) := ⟨empty⟩

def find? (m : FlatMap α β) (k : α) : Option β :=
  (m.entries.find? (fun e => e.1 = k)).map Prod.snd

def keys (m : FlatMap α β) : List α := m.entries.map Prod.fst

def values (m : FlatMap α β) : List β := m.entries.map Prod.snd

def size (m : FlatMap α β) : Nat := m.entries.length

/-- Single pass insertion that overwrites an entry with the same key. -/
def insertEntry (k : α) (x : β) : List (α × β) → List (α × β)
  | [] => [(k, x)]
  | e :: rest =>
    if k < e.1 then (k, x) :: e :: rest
    else if k = e.1 then (k, x) :: rest
    else e :: insertEntry k x rest

variable {k j : α} {x : β} {l : List (α × β)}

theorem mem_insertEntry {a : α × β} (h : a ∈ insertEntry k x l) : a = (k, x) ∨ a ∈ l := by
  induction l with
  | nil => simpa [insertEntry] using h
  | cons e rest ih =>
    simp only [insertEntry] at h
    split at h
    · simpa using h
    · split at h
      · simp only [mem_cons] at h ⊢
        tauto
      · simp only [mem_cons] at h ⊢
        rcases h with h | h
        · exact .inr (.inl h)
        · exact (ih h).imp id Or.inr

theorem sorted_insertEntry (k : α) (x : β) (h : l.Pairwise (fun a b => a.1 < b.1)) :
    (insertEntry k x l).Pairwise (fun a b => a.1 < b.1) := by
  induction l with
  | nil => simp [insertEntry]
  | cons e rest ih =>
    rw [pairwise_cons] at h
    simp only [insertEntry]
    split
    · rename_i hlt
      rw [pairwise_cons, pairwise_cons]
      refine ⟨fun a ha => ?_, h⟩
      rcases mem_cons.mp ha with rfl | ha
      · exact hlt
      · exact hlt.trans (h.1 a ha)
    · split
      · rename_i heq
        rw [pairwise_cons]
        exact ⟨fun a ha => heq ▸ h.1 a ha, h.2⟩
      · rename_i hlt hne
        rw [pairwise_cons]
        refine ⟨fun a ha => ?_, ih h.2⟩
        rcases mem_insertEntry ha with rfl | ha
        · exact lt_of_le_of_ne (not_lt.mp hlt) (Ne.symm hne)
        · exact h.1 a ha

def insert (m : FlatMap α β) (k : α) (x : β) : FlatMap α β :=
  ⟨insertEntry k x m.entries, sorted_insertEntry k x m.sorted⟩

def erase (m : FlatMap α β) (k : α) : FlatMap α β :=
  ⟨m.entries.filter (fun e => e.1 ≠ k), m.sorted.filter _⟩

theorem keys_nodup (m : FlatMap α β) : m.keys.Nodup :=
  pairwise_map.mpr (m.sorted.imp ne_of_lt)

theorem mem_entries_iff (m : FlatMap α β) (k : α) (x : β) :
    (k, x) ∈ m.entries ↔ m.find? k = some x := by
  obtain ⟨l, hl⟩ := m
  simp only [find?]
  induction l with
  | nil => simp
  | cons e rest ih =>
    rw [pairwise_cons] at hl
    by_cases hk : e.1 = k
    · have hrest : (k, x) ∉ rest := fun hm => absurd (hl.1 _ hm) (by simp [hk])
      simp only [mem_cons, hrest, or_false, find?_cons, hk, decide_true,
        Option.map_some, Option.some.injEq]
      exact ⟨fun h => by rw [← h], fun h => by rw [← h, ← hk]⟩
    · have hne : (k, x) ≠ e := fun h => hk (by rw [← h])
      simp only [mem_cons, hne, false_or, find?_cons, hk]
      exact ih hl.2

theorem mem_keys_iff (m : FlatMap α β) (k : α) : k ∈ m.keys ↔ ∃ x, m.find? k = some x := by
  simp only [keys, mem_map, Prod.exists, exists_and_right, exists_eq_right,
    mem_entries_iff]

theorem mem_keys_of_find? {m : FlatMap α β} {k : α} {x : β} (h : m.find? k = some x) :
    k ∈ m.keys := (m.mem_keys_iff k).mpr ⟨x, h⟩

theorem find?_eq_none_iff (m : FlatMap α β) (k : α) : m.find? k = none ↔ k ∉ m.keys := by
  rw [mem_keys_iff, Option.eq_none_iff_forall_ne_some, not_exists]

theorem mem_values_iff (m : FlatMap α β) (x : β) : x ∈ m.values ↔ ∃ k, m.find? k = some x := by
  simp only [values, mem_map, Prod.exists, exists_eq_right, mem_entries_iff]

@[simp] theorem find?_empty (k : α) : (empty : FlatMap α β).find? k = none := rfl

@[simp] theorem keys_empty : (empty : FlatMap α β).keys = [] := rfl

theorem find?_insertEntry (k j : α) (x : β) (l : List (α × β)) :
    ((insertEntry k x l).find? (fun e => e.1 = j)).map Prod.snd =
      if k = j then some x else (l.find? (fun e => e.1 = j)).map Prod.snd := by
  induction l with
  | nil => by_cases h : k = j <;> simp [insertEntry]
  | cons e rest ih =>
    simp only [insertEntry]
    by_cases hkj : k = j
    · subst hkj
      split
      · simp
      · split
        · simp
        · rename_i hne
          simpa [Ne.symm hne] using ih
    · split
      · simp [hkj]
      · split
        · rename_i heq
          simp [hkj, show e.1 ≠ j from heq ▸ hkj]
        · by_cases hej : e.1 = j
          · simp [hej]
          · simpa [hej, hkj] using ih

section

variable (m : FlatMap α β) {y : β}
include m

theorem find?_insert (k j : α) (x : β) :
    (m.insert k x).find? j = if k = j then some x else m.find? j :=
  find?_insertEntry k j x m.entries

@[simp] theorem find?_insert_self (k : α) (x : β) : (m.insert k x).find? k = some x := by
  simp [find?_insert]

theorem find?_insert_of_ne (x : β) (h : k ≠ j) : (m.insert k x).find? j = m.find? j := by
  simp [find?_insert, h]

@[simp] theorem mem_keys_insert (k j : α) (x : β) :
    j ∈ (m.insert k x).keys ↔ j = k ∨ j ∈ m.keys := by
  simp only [mem_keys_iff, find?_insert]
  by_cases h : k = j
  · simp [h]
  · simp [h, Ne.symm h]

theorem find?_erase (k j : α) : (m.erase k).find? j = if k = j then none else m.find? j := by
  simp only [find?, erase, find?_filter]
  by_cases h : k = j
  · subst h
    simp
  · rw [if_neg h]
    congr 2
    funext e
    by_cases he : e.1 = j <;> simp [he, Ne.symm h]

theorem find?_erase_eq_some_iff : (m.erase k).find? j = some y ↔ k ≠ j ∧ m.find? j = some y := by
  rw [find?_erase]
  split
  · rename_i heq
    exact iff_of_false nofun fun h => h.1 heq
  · rename_i hne
    exact (and_iff_right hne).symm

theorem find?_insert_absent (h : k ∉ m.keys) :
    (m.insert k x).find? j = some y ↔ (j = k ∧ y = x) ∨ m.find? j = some y := by
  rw [find?_insert]
  split
  · rename_i heq
    subst heq
    have hnone := (m.find?_eq_none_iff k).mpr h
    simp [hnone, eq_comm]
  · rename_i hne
    simp [Ne.symm hne]

@[simp] theorem mem_keys_erase (k j : α) : j ∈ (m.erase k).keys ↔ j ≠ k ∧ j ∈ m.keys := by
  simp only [mem_keys_iff, find?_erase]
  by_cases h : k = j
  · simp [h]
  · simp [h, Ne.symm h]

theorem entries_insert_of_mem (k : α) (x : β) (h : k ∈ m.keys) :
    (m.insert k x).entries = m.entries.map (fun e => if e.1 = k then (k, x) else e) := by
  obtain ⟨l, hl⟩ := m
  simp only [insert, keys] at h ⊢
  induction l with
  | nil => simp at h
  | cons e rest ih =>
    rw [pairwise_cons] at hl
    simp only [insertEntry]
    by_cases hk : k = e.1
    · have hrest : rest.map (fun a => if a.1 = k then (k, x) else a) = rest := by
        refine (map_congr_left fun a ha => ?_).trans (map_id rest)
        exact if_neg (hk ▸ (hl.1 a ha).ne')
      simp [← hk, hrest]
    · have hin : k ∈ rest.map Prod.fst := by simpa [hk] using h
      obtain ⟨a, ha, hak⟩ := mem_map.mp hin
      have hnlt : ¬ k < e.1 := not_lt.mpr (hak ▸ (hl.1 a ha).le)
      simp [hnlt, hk, Ne.symm hk, ih hl.2 hin]

theorem keys_insert_of_mem (k : α) (x : β) (h : k ∈ m.keys) : (m.insert k x).keys = m.keys := by
  simp only [keys, entries_insert_of_mem m k x h, map_map]
  apply map_congr_left
  intro e _
  by_cases hk : e.1 = k
  · simp [hk]
  · simp [hk]

end

/-- The entries of a list are written one after the other. -/
def insertAll (m : FlatMap α β) (l : List (α × β)) : FlatMap α β :=
  l.foldl (fun s e => s.insert e.1 e.2) m

def eraseAll (m : FlatMap α β) (l : List α) : FlatMap α β := l.foldl erase m

theorem find?_insertAll_of_notMem (m : FlatMap α β) (h : k ∉ l.map Prod.fst) :
    (m.insertAll l).find? k = m.find? k := by
  induction l generalizing m with
  | nil => rfl
  | cons e rest ih =>
    simp only [map_cons, mem_cons, not_or] at h
    exact (ih (m.insert e.1 e.2) h.2).trans (m.find?_insert_of_ne e.2 (Ne.symm h.1))

theorem find?_insertAll_of_mem (m : FlatMap α β) (hl : (l.map Prod.fst).Nodup) (h : (k, x) ∈ l) :
    (m.insertAll l).find? k = some x := by
  induction l generalizing m with
  | nil => cases h
  | cons e rest ih =>
    rw [map_cons, nodup_cons] at hl
    obtain rfl | hmem := mem_cons.mp h
    · exact (find?_insertAll_of_notMem _ hl.1).trans (m.find?_insert_self k x)
    · exact ih (m.insert e.1 e.2) hl.2 hmem

theorem find?_insertAll_map (m : FlatMap α β) (l : List α) (x : β) (k : α) :
    (m.insertAll (l.map fun j => (j, x))).find? k = if k ∈ l then some x else m.find? k := by
  induction l generalizing m with
  | nil => rfl
  | cons j rest ih =>
    refine (ih (m.insert j x)).trans ?_
    rw [find?_insert]
    by_cases hrest : k ∈ rest
    · simp [hrest]
    · by_cases hj : j = k
      · simp [hj]
      · simp [hj, Ne.symm hj]

theorem find?_insertAll_entries (m n : FlatMap α β) (k : α) :
    (m.insertAll n.entries).find? k = (n.find? k).or (m.find? k) := by
  cases hn : n.find? k with
  | none => exact m.find?_insertAll_of_notMem ((n.find?_eq_none_iff k).mp hn)
  | some x =>
    have hmem : (k, x) ∈ n.entries := (n.mem_entries_iff k x).mpr hn
    exact m.find?_insertAll_of_mem n.keys_nodup hmem

theorem mem_keys_eraseAll (m : FlatMap α β) (l : List α) (k : α) :
    k ∈ (m.eraseAll l).keys ↔ k ∉ l ∧ k ∈ m.keys := by
  induction l generalizing m with
  | nil => simp [eraseAll]
  | cons j rest ih =>
    have hstep : k ∈ (m.eraseAll (j :: rest)).keys ↔ k ∉ rest ∧ k ∈ (m.erase j).keys :=
      ih (m.erase j)
    rw [hstep, mem_keys_erase, mem_cons, not_or]
    tauto

theorem eq_empty_of_keys {m : FlatMap α β} (h : ∀ k, k ∉ m.keys) : m = empty := by
  obtain ⟨l, hl⟩ := m
  cases l with
  | nil => rfl
  | cons e rest => exact absurd mem_cons_self (h e.1)

theorem eraseAll_keys (m : FlatMap α β) : m.eraseAll m.keys = empty :=
  eq_empty_of_keys fun k h => ((m.mem_keys_eraseAll m.keys k).mp h).1
    ((m.mem_keys_eraseAll m.keys k).mp h).2

end FlatMap

end DreamChain.Library
