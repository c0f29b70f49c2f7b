import DreamChain.Chain.NativeActions
import DreamChain.Library.FlatMapOrder

/-!
The iterator cache of an action context. Iterators of rows are indices into a list of pointers
that is never compacted, and end iterators of tables are negative numbers below -1. A pointer to
a row is null once the row was removed; the pointers to tables are kept.

That the two directions of each lookup agree is part of the structure. An object is named by its
key: a pointer to a table carries the id and the name of the table, which never change, and says
nothing about whether the table is still in the database.
-/

namespace DreamChain
open Library

abbrev TableName := Nat ×ₗ Nat ×ₗ Nat

def tableName (code scope table : Nat) : TableName := toLex (code, toLex (scope, table))

def TableName.code (name : TableName) : AccountName := (ofLex name).1

structure TablePointer where
  id : Nat
  name : TableName
deriving DecidableEq

def indexToEndIterator (index : Nat) : Int := -(index + 2)

def endIteratorToIndex (ei : Int) : Nat := (-ei - 2).toNat

structure IteratorCache (ρ : Type) [LinearOrder ρ] where
  tableCache : FlatMap Nat (TablePointer × Int) := .empty
  endIteratorToTable : List TablePointer := []
  iteratorToObject : List (Option ρ) := []
  objectToIterator : FlatMap ρ Nat := .empty
  tableCache_iff : ∀ id p ei, tableCache.find? id = some (p, ei) ↔
    p.id = id ∧ ∃ n, ei = indexToEndIterator n ∧ endIteratorToTable[n]? = some p := by simp
  object_iff : ∀ o i, objectToIterator.find? o = some i ↔ iteratorToObject[i]? = some (some o) := by
    simp

variable {n : Nat}

theorem getElem?_concat_eq_some_iff {α : Type} {l : List α} {a b : α} :
    (l ++ [a])[n]? = some b ↔ l[n]? = some b ∨ n = l.length ∧ a = b := by
  rw [List.getElem?_append]
  split
  · rename_i hlt
    simp [Nat.ne_of_lt hlt]
  · rename_i hge
    rw [List.getElem?_eq_none (Nat.le_of_not_lt hge), List.getElem?_singleton]
    have hiff : n - l.length = 0 ↔ n = l.length := by omega
    simp [hiff]

theorem endIteratorToIndex_indexToEndIterator (n : Nat) :
    endIteratorToIndex (indexToEndIterator n) = n := by
  simp only [indexToEndIterator, endIteratorToIndex]
  omega

namespace IteratorCache

variable {ρ : Type} [LinearOrder ρ] (c : IteratorCache ρ)

def withTable (t : TablePointer) (h : t.id ∉ c.tableCache.keys) : IteratorCache ρ :=
  { c with
    tableCache := c.tableCache.insert t.id (t, indexToEndIterator c.endIteratorToTable.length)
    endIteratorToTable := c.endIteratorToTable ++ [t]
    tableCache_iff := by
      intro id p ei
      rw [FlatMap.find?_insert_absent _ h, c.tableCache_iff]
      simp only [getElem?_concat_eq_some_iff, Prod.mk.injEq]
      constructor
      · rintro (⟨rfl, rfl, rfl⟩ | ⟨hid, n, hei, hn⟩)
        · exact ⟨rfl, _, rfl, .inr ⟨rfl, rfl⟩⟩
        · exact ⟨hid, n, hei, .inl hn⟩
      · rintro ⟨hid, n, hei, hn | ⟨rfl, rfl⟩⟩
        · exact .inr ⟨hid, n, hei, hn⟩
        · exact .inl ⟨hid.symm, rfl, hei⟩ }

/-- Returns the end iterator of the table. -/
def cacheTable (t : TablePointer) : Int × IteratorCache ρ :=
  match h : c.tableCache.find? t.id with
  | some (_, ei) => (ei, c)
  | none =>
    (indexToEndIterator c.endIteratorToTable.length,
      c.withTable t ((c.tableCache.find?_eq_none_iff t.id).mp h))

def getTable (id : Nat) : Applied TablePointer :=
  match c.tableCache.find? id with
  | some (t, _) => .ok t
  | none =>
    .error ⟨⟨.tableNotInCache, "an invariant was broken, table should be in cache"⟩, none⟩

def getEndIteratorByTableId (id : Nat) : Applied Int :=
  match c.tableCache.find? id with
  | some (_, ei) => .ok ei
  | none =>
    .error ⟨⟨.tableNotInCache, "an invariant was broken, table should be in cache"⟩, none⟩

def findTableByEndIterator (ei : Int) : Applied (Option TablePointer) := do
  require (ei < -1) .invalidTableIterator "not an end iterator"
  return c.endIteratorToTable[endIteratorToIndex ei]?

def get (iterator : Int) : Applied ρ := do
  require (iterator ≠ -1) .invalidTableIterator "invalid iterator"
  require (0 ≤ iterator) .tableOperationNotPermitted "dereference of end iterator"
  match c.iteratorToObject[iterator.toNat]? with
  | none => .error ⟨⟨.invalidTableIterator, "iterator out of range"⟩, none⟩
  | some none => .error ⟨⟨.tableOperationNotPermitted, "dereference of deleted object"⟩, none⟩
  | some (some o) => .ok o

def withoutObject (i : Nat) (o : ρ) (h : c.objectToIterator.find? o = some i) : IteratorCache ρ :=
  { c with
    iteratorToObject := c.iteratorToObject.set i none
    objectToIterator := c.objectToIterator.erase o
    object_iff := by
      intro o' i'
      rw [FlatMap.find?_erase_eq_some_iff, c.object_iff, List.getElem?_set]
      split
      · rename_i heq
        subst heq
        have hi := (c.object_iff o i).mp h
        constructor
        · rintro ⟨hne, hi'⟩
          rw [hi] at hi'
          exact absurd (Option.some.inj (Option.some.inj hi')) hne
        · intro hnone
          split at hnone <;> simp at hnone
      · rename_i hne
        refine and_iff_right_of_imp ?_
        rintro hi' rfl
        rw [← c.object_iff, h] at hi'
        exact hne (Option.some.inj hi') }

def remove (iterator : Int) : Applied (IteratorCache ρ) := do
  require (iterator ≠ -1) .invalidTableIterator "invalid iterator"
  require (0 ≤ iterator) .tableOperationNotPermitted "cannot call remove on end iterators"
  match h : c.iteratorToObject[iterator.toNat]? with
  | none => .error ⟨⟨.invalidTableIterator, "iterator out of range"⟩, none⟩
  | some none => .ok c
  | some (some o) => .ok (c.withoutObject iterator.toNat o ((c.object_iff o _).mpr h))

def withObject (o : ρ) (h : o ∉ c.objectToIterator.keys) : IteratorCache ρ :=
  { c with
    iteratorToObject := c.iteratorToObject ++ [some o]
    objectToIterator := c.objectToIterator.insert o c.iteratorToObject.length
    object_iff := by
      intro o' i
      rw [FlatMap.find?_insert_absent _ h, c.object_iff, getElem?_concat_eq_some_iff]
      constructor
      · rintro (⟨rfl, rfl⟩ | hi)
        · exact .inr ⟨rfl, rfl⟩
        · exact .inl hi
      · rintro (hi | ⟨rfl, heq⟩)
        · exact .inr hi
        · exact .inl ⟨(Option.some.inj heq).symm, rfl⟩ }

def add (o : ρ) : Int × IteratorCache ρ :=
  match h : c.objectToIterator.find? o with
  | some i => (i, c)
  | none =>
    (c.iteratorToObject.length,
      c.withObject o ((c.objectToIterator.find?_eq_none_iff o).mp h))

section Specification

variable {c} {iterator : Int} {o : ρ} {t : TablePointer} {id : Nat} {ei : Int}

theorem get_eq_ok_iff : c.get iterator = .ok o ↔
      0 ≤ iterator ∧ c.iteratorToObject[iterator.toNat]? = some (some o) := by
  simp only [get, bind_eq_ok, require_eq_ok, exists_const]
  constructor
  · rintro ⟨_, hpos, h⟩
    refine ⟨hpos, ?_⟩
    split at h
    · cases h
    · cases h
    · rename_i heq
      rw [heq, Except.ok.inj h]
  · rintro ⟨hpos, h⟩
    refine ⟨by omega, hpos, ?_⟩
    rw [h]

theorem get_of_removed (hpos : 0 ≤ iterator) (h : c.iteratorToObject[iterator.toNat]? = some none) :
    c.get iterator =
      .error ⟨⟨.tableOperationNotPermitted, "dereference of deleted object"⟩, none⟩ := by
  have hne : iterator ≠ -1 := by omega
  simp [get, require, eosAssert, ActionFailure.lift, Except.mapError, hne, hpos, h, bind, Except.bind]

theorem getTable_eq_ok_iff : c.getTable id = .ok t ↔ ∃ ei, c.tableCache.find? id = some (t, ei) := by
  rw [getTable]
  split
  · rename_i heq
    simp [heq]
  · rename_i heq
    simp [heq]

theorem getEndIteratorByTableId_eq_ok_iff :
    c.getEndIteratorByTableId id = .ok ei ↔ ∃ t, c.tableCache.find? id = some (t, ei) := by
  rw [getEndIteratorByTableId]
  split
  · rename_i heq
    simp [heq]
  · rename_i heq
    simp [heq]

theorem findTableByEndIterator_eq_ok_iff {x : Option TablePointer} :
    c.findTableByEndIterator ei = .ok x ↔
      ei < -1 ∧ c.endIteratorToTable[endIteratorToIndex ei]? = x := by
  simp [findTableByEndIterator, bind_eq_ok, require_eq_ok, pure, Except.pure]

theorem tableCache_of_endIterator (h : c.endIteratorToTable[n]? = some t) :
    c.tableCache.find? t.id = some (t, indexToEndIterator n) :=
  (c.tableCache_iff _ _ _).mpr ⟨rfl, n, rfl, h⟩

theorem endIterator_lt (h : c.tableCache.find? id = some (t, ei)) : ei < -1 := by
  obtain ⟨_, n, rfl, _⟩ := (c.tableCache_iff _ _ _).mp h
  rw [indexToEndIterator]
  omega

theorem remove_of_get (hget : c.get iterator = .ok o) :
    c.remove iterator = .ok (c.withoutObject iterator.toNat o
      ((c.object_iff o _).mpr (get_eq_ok_iff.mp hget).2)) := by
  obtain ⟨hpos, hobject⟩ := get_eq_ok_iff.mp hget
  simp only [remove, bind_eq_ok, require_eq_ok, exists_const]
  refine ⟨by omega, hpos, ?_⟩
  split
  · rename_i heq
    rw [hobject] at heq
    cases heq
  · rename_i heq
    rw [hobject] at heq
    cases heq
  · rename_i heq
    rw [hobject] at heq
    cases heq
    rfl

theorem cacheTable_cases (t : TablePointer) :
    (∃ p, c.tableCache.find? t.id = some (p, (c.cacheTable t).1) ∧ (c.cacheTable t).2 = c) ∨
      ∃ h : t.id ∉ c.tableCache.keys,
        (c.cacheTable t).1 = indexToEndIterator c.endIteratorToTable.length ∧
          (c.cacheTable t).2 = c.withTable t h := by
  rw [cacheTable]
  split
  · rename_i p ei heq
    exact .inl ⟨p, heq, rfl⟩
  · rename_i heq
    exact .inr ⟨(c.tableCache.find?_eq_none_iff t.id).mp heq, rfl, rfl⟩

theorem cacheTable_lt (t : TablePointer) : (c.cacheTable t).1 < -1 := by
  obtain ⟨p, hp, _⟩ | ⟨_, hei, _⟩ := c.cacheTable_cases t
  · exact endIterator_lt hp
  · rw [hei, indexToEndIterator]
    omega

theorem add_cases (o : ρ) :
    (∃ i : Nat, c.objectToIterator.find? o = some i ∧ c.add o = ((i : Int), c)) ∨
      ∃ h : o ∉ c.objectToIterator.keys,
        c.add o = ((c.iteratorToObject.length : Int), c.withObject o h) := by
  rw [add]
  split
  · rename_i i heq
    exact .inl ⟨i, heq, rfl⟩
  · rename_i heq
    exact .inr ⟨(c.objectToIterator.find?_eq_none_iff o).mp heq, rfl⟩

theorem add_nonneg (o : ρ) : 0 ≤ (c.add o).1 := by
  obtain ⟨i, _, heq⟩ | ⟨_, heq⟩ := c.add_cases o
  · rw [heq]
    exact Int.natCast_nonneg i
  · rw [heq]
    exact Int.natCast_nonneg _

theorem cacheTable_endIterator {p : TablePointer} (h : c.endIteratorToTable[n]? = some p)
    (t : TablePointer) : (c.cacheTable t).2.endIteratorToTable[n]? = some p := by
  obtain ⟨_, _, heq⟩ | ⟨_, _, heq⟩ := c.cacheTable_cases t
  · rw [heq]
    exact h
  · rw [heq]
    exact getElem?_concat_eq_some_iff.mpr (.inl h)

theorem add_endIterators (o : ρ) : (c.add o).2.endIteratorToTable = c.endIteratorToTable := by
  obtain ⟨_, _, heq⟩ | ⟨_, heq⟩ := c.add_cases o
  · rw [heq]
  · rw [heq]
    rfl

theorem cacheTable_find (t : TablePointer) :
    ∃ p, (c.cacheTable t).2.tableCache.find? t.id = some (p, (c.cacheTable t).1) := by
  obtain ⟨p, hp, heq⟩ | ⟨_, hei, heq⟩ := c.cacheTable_cases t
  · rw [heq]
    exact ⟨p, hp⟩
  · rw [heq, hei]
    exact ⟨t, FlatMap.find?_insert_self _ _ _⟩

theorem endIterator_of_tableCache (h : c.tableCache.find? id = some (t, ei)) :
    c.endIteratorToTable[endIteratorToIndex ei]? = some t ∧ t.id = id := by
  obtain ⟨hid, n, rfl, hn⟩ := (c.tableCache_iff _ _ _).mp h
  rw [endIteratorToIndex_indexToEndIterator]
  exact ⟨hn, hid⟩

end Specification

end IteratorCache

end DreamChain
