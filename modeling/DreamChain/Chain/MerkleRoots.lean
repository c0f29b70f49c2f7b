import DreamChain.Chain.Merkle
import DreamChain.Library.BitSmear
import DreamChain.Library.PairLevels

/-!
The incremental tree has the root of the whole list. What it keeps between two appends are the
peaks of the list, followed by the root, and one append climbs through the levels of the list
together with the batch computation.

The climb ends at the right level because the depth that the bit manipulations yield is the
number of binary digits of the index of the new digest.
-/

namespace DreamChain
open Library List

section Depth

theorem nextPowerOf2_eq {n : Nat} (hpos : 0 < n) (hn : n ≤ 2 ^ 63) :
    nextPowerOf2 n = 2 ^ (n - 1).size := by
  have hv : u64 (n + (2 ^ 64 - 1)) = n - 1 := by
    unfold u64
    omega
  have hsmeared := (Smeared.start (n - 1)).double.double.double.double.double.double
  have hfull := hsmeared.eq_size (show n - 1 < 2 ^ 64 by omega)
  have hsize : 2 ^ (n - 1).size ≤ 2 ^ 63 :=
    Nat.pow_le_pow_right Nat.two_pos (Nat.size_le.mpr (by omega))
  have hone : 0 < 2 ^ (n - 1).size := Nat.two_pow_pos _
  simp only [nextPowerOf2, hv]
  rw [show _ = 2 ^ (n - 1).size - 1 from hfull]
  unfold u64
  omega

theorem clzPower2_two_pow : ∀ k < 64, clzPower2 (2 ^ k) = k := by
  decide

theorem calcluateMaxDepth_eq {index : Nat} (h : index < 2 ^ 63) :
    calcluateMaxDepth (index + 1) = index.size + 1 := by
  have hsize : index.size < 64 := Nat.lt_succ_of_le (Nat.size_le.mpr h)
  rw [calcluateMaxDepth, if_neg (Nat.succ_ne_zero index), nextPowerOf2_eq (Nat.succ_pos index) h,
    Nat.succ_sub_one, clzPower2_two_pow _ hsize]

end Depth

section Levels

variable {P : Primitives} {l : List DigestType} {a b : DigestType}

/-- A round of the inner loop reads only entries that no earlier round has written. -/
theorem getElem?_hashPairs {n : Nat} (hn : 2 * n ≤ l.length) (j : Nat) :
    (hashPairs P n l)[j]? = if j < n then
      some (hashCanonicalPair P (l.getD (2 * j) default) (l.getD (2 * j + 1) default))
      else l[j]? := by
  induction n generalizing j with
  | zero => simp [hashPairs]
  | succ n ih =>
    have hbefore := ih (by omega)
    have hread : ∀ i, n ≤ i → (hashPairs P n l).getD i default = l.getD i default := by
      intro i hi
      rw [getD_eq_getElem?_getD, hbefore, if_neg (by omega), getD_eq_getElem?_getD]
    rw [hashPairs_succ, getElem?_set, hread _ (by omega), hread _ (by omega), hbefore,
      length_hashPairs]
    by_cases hj : n = j
    · subst hj
      rw [if_pos rfl, if_pos (by omega), if_pos (by omega)]
    · rw [if_neg hj]
      by_cases hlt : j < n
      · rw [if_pos hlt, if_pos (by omega)]
      · rw [if_neg hlt, if_neg (by omega)]

theorem take_hashPairs : (hashPairs P (l.length / 2) l).take (l.length / 2) =
    pairs (hashCanonicalPair P) l := by
  refine ext_getElem? fun j => ?_
  rw [getElem?_take, getElem?_hashPairs (by omega), getElem?_pairs default]
  by_cases hj : j < l.length / 2
  · rw [if_pos hj, if_pos hj, if_pos hj]
  · rw [if_neg hj, if_neg hj]

theorem merkleLevel_eq (P : Primitives) (l : List DigestType) : merkleLevel P l = pairs
    (hashCanonicalPair P) (if l.length % 2 = 1 then l ++ [l.getLastD default] else l) :=
  take_hashPairs

theorem merkleLevel_concat (hl : l.length % 2 = 0) :
    merkleLevel P (l ++ [a]) = pairs (hashCanonicalPair P) l ++ [hashCanonicalPair P a a] := by
  have hodd : (l ++ [a]).length % 2 = 1 := by
    rw [length_append, length_singleton]
    omega
  have hpad : l ++ [a] ++ [(l ++ [a]).getLastD default] = l ++ [a, a] := by simp
  rw [merkleLevel_eq, if_pos hodd, hpad, pairs_concat_pair hl]

theorem merkleLevel_concat_pair (hl : l.length % 2 = 0) :
    merkleLevel P (l ++ [a, b]) = pairs (hashCanonicalPair P) l ++ [hashCanonicalPair P a b] := by
  have heven : ¬ (l ++ [a, b]).length % 2 = 1 := by
    rw [length_append, length_cons, length_singleton]
    omega
  rw [merkleLevel_eq, if_neg heven, pairs_concat_pair hl]

theorem merkle_level (hl : 1 < l.length) : merkle P l = merkle P (merkleLevel P l) := by
  have hlength := length_merkleLevel P l
  rw [merkle, merkle, if_neg (by omega), if_neg (by omega), merkleLevels, if_pos hl]

theorem merkle_singleton : merkle P [a] = a := by
  rw [merkle, merkleLevels]
  rfl

end Levels

section Binding

variable {P : Primitives} {l l' : List DigestType} {a b : DigestType}

theorem makeCanonicalLeft_of_right (h : makeCanonicalRight a = makeCanonicalRight b) :
    makeCanonicalLeft a = makeCanonicalLeft b := by
  have hright : ∀ d, makeCanonicalLeft (makeCanonicalRight d) = makeCanonicalLeft d := by
    simp [makeCanonicalLeft, makeCanonicalRight, Nat.and_or_distrib_right]
  rw [← hright a, h, hright]

variable (hinj : Function.Injective2 P.pairDigest)
  (hside : ∀ a b a' b', makeCanonicalLeft (P.pairDigest a b) =
    makeCanonicalLeft (P.pairDigest a' b') → P.pairDigest a b = P.pairDigest a' b')
include hinj hside

theorem eq_of_hashCanonicalPair (a b a' b' : DigestType)
    (h : makeCanonicalLeft (hashCanonicalPair P a b) =
      makeCanonicalLeft (hashCanonicalPair P a' b')) :
    makeCanonicalLeft a = makeCanonicalLeft a' ∧ makeCanonicalLeft b = makeCanonicalLeft b' :=
  (hinj (hside _ _ _ _ h)).imp id makeCanonicalLeft_of_right

theorem map_eq_of_merkleLevel (hlength : l.length = l'.length)
    (h : (merkleLevel P l).map makeCanonicalLeft = (merkleLevel P l').map makeCanonicalLeft) :
    l.map makeCanonicalLeft = l'.map makeCanonicalLeft := by
  have hpairs := eq_of_hashCanonicalPair hinj hside
  rw [merkleLevel_eq, merkleLevel_eq, ← hlength] at h
  split at h
  · have hpadded := map_eq_of_map_pairs hpairs (by simp [hlength]) (by simp; omega) h
    rw [map_append, map_append] at hpadded
    exact (append_inj hpadded (by simp [hlength])).1
  · exact map_eq_of_map_pairs hpairs hlength (by omega) h

/-- Lists of one length with one root agree in every position up to the side bit. -/
theorem merkle_binding (hlength : l.length = l'.length) (hroot : merkle P l = merkle P l') :
    l.map makeCanonicalLeft = l'.map makeCanonicalLeft := by
  induction hn : l.length using Nat.strong_induction_on generalizing l l' with
  | _ n ih =>
    subst hn
    match l, l', hlength with
    | [], [], _ => rfl
    | [a], [a'], _ =>
      rw [merkle_singleton, merkle_singleton] at hroot
      simp [hroot]
    | a :: b :: rest, a' :: b' :: rest', hlength =>
      rw [merkle_level (by simp), merkle_level (l := a' :: b' :: rest') (by simp)] at hroot
      refine map_eq_of_merkleLevel hinj hside hlength (ih _ ?_ ?_ hroot rfl)
      · simp [length_merkleLevel]
        omega
      · simp [length_merkleLevel, hlength]

end Binding

/-- Two lists that differ in side bits only. -/
theorem merkle_binding_sides : ∃ (P : Primitives) (a b : DigestType), a ≠ b ∧
    Function.Injective2 P.pairDigest ∧ merkle P [a, b] = merkle P [b, a] ∧
      [a, b].map makeCanonicalLeft = [b, a].map makeCanonicalLeft := by
  let code (d : DigestType) := Nat.pair d.hash0 (Nat.pair d.hash1 (Nat.pair d.hash2 d.hash3))
  let P : Primitives := ⟨fun _ => {}, fun _ => {}, fun a b => ⟨0, code a, code b, 0⟩, fun _ => [],
    fun _ => .ok []⟩
  have hinj : Function.Injective2 P.pairDigest := by
    rintro ⟨⟩ ⟨⟩ ⟨⟩ ⟨⟩ h
    simp_all [P, code]
  have hpair : ∀ a b, merkle P [a, b] = hashCanonicalPair P a b := by
    intro a b
    rw [merkle_level (by simp)]
    simp [merkleLevel_eq, pairs, merkle_singleton]
  have hroot : merkle P [{}, ⟨128, 0, 0, 0⟩] = merkle P [⟨128, 0, 0, 0⟩, {}] := by
    rw [hpair, hpair]
    rfl
  refine ⟨P, _, _, by decide, hinj, hroot, merkle_binding hinj ?_ rfl hroot⟩
  simp [P, makeCanonicalLeft]

namespace IncrementalMerkle

variable {P : Primitives} {l : List DigestType} {top : DigestType}

/-- What a climb yields. It starts at a digest to the right of a list of complete nodes, with the
peaks of the list at hand. A climb with a partial node copies the peaks; one with a complete
node leaves the peaks of the longer list. -/
theorem collapse_eq (l : List DigestType) (top : DigestType) {index : Nat} (hl : l.length = index)
    (rest : List DigestType) (isPartial : Bool) (updated : List DigestType) :
    ∃ nodes, collapse P index.size index top (peaks (hashCanonicalPair P) l ++ rest) isPartial
        updated = updated ++ nodes ++ [merkle P (l ++ [top])] ∧
      (isPartial = true → nodes = peaks (hashCanonicalPair P) l) ∧
      (isPartial = false →
        peaks (hashCanonicalPair P) (l ++ [top]) <+: nodes ++ [merkle P (l ++ [top])]) := by
  induction index using Nat.strong_induction_on generalizing l top rest isPartial updated with
  | _ index ih =>
  by_cases hzero : index = 0
  · subst hzero
    obtain rfl := length_eq_zero_iff.mp hl
    refine ⟨[], ?_, fun _ => peaks_nil.symm, fun _ => ?_⟩
    · rw [nil_append, merkle_singleton, append_nil]
      rfl
    · rw [peaks_concat rfl, nil_append, nil_append, merkle_singleton]
      simp [pairs]
  · have hhalf : index / 2 < index := by omega
    rw [size_half hzero, collapse]
    by_cases heven : index % 2 = 0
    · -- the new node has no partner on this level
      have hroot : merkle P (l ++ [top]) =
          merkle P (pairs (hashCanonicalPair P) l ++ [hashCanonicalPair P top top]) := by
        rw [merkle_level (by rw [length_append]; omega),
          merkleLevel_concat (hl ▸ heven)]
      have hlength : (pairs (hashCanonicalPair P) l).length = index / 2 := by
        rw [length_pairs, hl]
      obtain ⟨nodes, hnodes, hcopied, -⟩ := ih (index / 2) hhalf (pairs (hashCanonicalPair P) l)
        (hashCanonicalPair P top top) hlength rest true
        (if isPartial then updated else updated ++ [top])
      rw [if_pos heven, peaks_of_even (hl ▸ heven), hnodes, hcopied rfl, hroot]
      cases isPartial with
      | true => exact ⟨_, rfl, fun _ => rfl, (absurd ·.symm Bool.false_ne_true)⟩
      | false =>
        refine ⟨top :: peaks (hashCanonicalPair P) (pairs (hashCanonicalPair P) l), ?_,
          (absurd · Bool.false_ne_true), fun _ => ?_⟩
        · simp
        · rw [peaks_concat (hl ▸ heven)]
          exact prefix_append _ _
    · -- the new node completes a pair
      obtain ⟨front, left, rfl⟩ : ∃ front left, l = front ++ [left] := by
        have hne : l ≠ [] := fun hnil => hzero (hl ▸ hnil ▸ rfl)
        exact ⟨_, _, (dropLast_append_getLast hne).symm⟩
      rw [length_append, length_singleton] at hl
      have hfront : front.length % 2 = 0 := by omega
      have hroot : merkle P (front ++ [left] ++ [top]) =
          merkle P (pairs (hashCanonicalPair P) front ++ [hashCanonicalPair P left top]) := by
        rw [append_assoc, singleton_append, merkle_level (by simp),
          merkleLevel_concat_pair hfront]
      have hlength : (pairs (hashCanonicalPair P) front).length = index / 2 := by
        rw [length_pairs]
        omega
      obtain ⟨nodes, hnodes, hcopied, hpeaks⟩ := ih (index / 2) hhalf
        (pairs (hashCanonicalPair P) front) (hashCanonicalPair P left top) hlength rest isPartial
        (if isPartial then updated ++ [left] else updated)
      rw [if_neg heven, peaks_concat hfront, cons_append, headD_cons, tail_cons,
        hnodes, hroot]
      cases isPartial with
      | true =>
        exact ⟨left :: nodes, by simp, fun _ => by rw [hcopied rfl],
          (absurd ·.symm Bool.false_ne_true)⟩
      | false =>
        refine ⟨nodes, rfl, (absurd · Bool.false_ne_true), fun _ => ?_⟩
        have hpair : peaks (hashCanonicalPair P) (front ++ [left] ++ [top]) = peaks
            (hashCanonicalPair P) (pairs (hashCanonicalPair P) front ++
              [hashCanonicalPair P left top]) := by
          rw [append_assoc, singleton_append, peaks_of_even (by simp; omega),
            pairs_concat_pair hfront]
        rw [hpair]
        exact hpeaks rfl

structure Represents (P : Primitives) (m : IncrementalMerkle) (l : List DigestType) : Prop where
  count : m.nodeCount = l.length
  nodes : peaks (hashCanonicalPair P) l <+: m.activeNodes
  root : m.getRoot = merkle P l

theorem Represents.append {m : IncrementalMerkle} (h : Represents P m l)
    (hl : l.length + 1 < 2 ^ 63) : Represents P (m.append P top) (l ++ [top]) := by
  obtain ⟨rest, hrest⟩ := h.nodes
  have hcount : u64 (m.nodeCount + 1) = l.length + 1 := by
    rw [h.count]
    exact Nat.mod_eq_of_lt (by omega)
  obtain ⟨nodes, hnodes, -, hpeaks⟩ := collapse_eq (P := P) l top rfl rest false []
  have hactive : (m.append P top).activeNodes = nodes ++ [merkle P (l ++ [top])] := by
    have hdepth := calcluateMaxDepth_eq (show l.length < 2 ^ 63 by omega)
    rw [IncrementalMerkle.append]
    rw [hcount, hdepth, h.count, ← hrest, Nat.add_sub_cancel, hnodes, nil_append]
  refine ⟨?_, ?_, ?_⟩
  · rw [length_append]
    exact hcount
  · rw [hactive]
    exact hpeaks rfl
  · have hpos : 0 < (m.append P top).nodeCount := Nat.lt_of_lt_of_eq (Nat.succ_pos _) hcount.symm
    rw [getRoot, if_pos hpos, hactive]
    simp

/-- After every append the incremental tree has the root of all digests so far. -/
theorem getRoot_eq_merkle {digests : List DigestType} (h : digests.length < 2 ^ 63)
    {front : List DigestType} (hfront : front <+: digests) :
    (front.foldl (IncrementalMerkle.append P) {}).getRoot = merkle P front := by
  have hrepresents : Represents P (front.foldl (IncrementalMerkle.append P) {}) front := by
    have hlength := Nat.lt_of_le_of_lt hfront.length_le h
    clear hfront
    induction front using reverseRecOn with
    | nil => exact ⟨rfl, by simp, rfl⟩
    | append_singleton front top ih =>
      rw [length_append] at hlength
      rw [foldl_append]
      exact (ih (by omega)).append hlength
  exact hrepresents.root

theorem getRoot_eq_merkle_three : ∃ (P : Primitives) (a b c : DigestType), [a, b, c].Nodup ∧
    ([a, b, c].foldl (IncrementalMerkle.append P) {}).getRoot = merkle P [a, b, c] :=
  ⟨⟨fun _ => {}, fun _ => {}, fun l r => ⟨l.hash0, l.hash1, r.hash0, r.hash1⟩, fun _ => [],
      fun _ => .ok []⟩, ⟨1, 0, 0, 0⟩, ⟨2, 0, 0, 0⟩, ⟨3, 0, 0, 0⟩, by decide,
    getRoot_eq_merkle (by decide) (prefix_refl _)⟩

end IncrementalMerkle

end DreamChain
