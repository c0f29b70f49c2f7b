import DreamChain.Chain.TransactionBilling
import DreamChain.Library.FlatMapOrder

/-!
The lists of actors of a node. A search walks through the actors and a list at once: the bound it
starts from moves forward only, and what lies before it is below every actor still to come.
-/

namespace DreamChain
open Library List

structure ActorLists where
  actorWhitelist : AccountSet := .empty
  actorBlacklist : AccountSet := .empty

/-- An iterator is the range from it to the end. -/
def lowerBound (range : List AccountName) (actor : AccountName) : List AccountName :=
  range.dropWhile (· < actor)

def isSubsetFrom : List AccountName → List AccountName → Bool
  | [], _ => true
  | actor :: actors, range =>
    match lowerBound range actor with
    | [] => false
    | found :: next => if found ≠ actor then false else isSubsetFrom actors next

def intersectsFrom : List AccountName → List AccountName → Bool
  | [], _ => false
  | actor :: actors, range =>
    match lowerBound range actor with
    | [] => false
    | found :: next => if found = actor then true else intersectsFrom actors (found :: next)

def isSubset (actors whitelist : List AccountName) : Bool :=
  whitelist.headD 0 ≤ actors.headD 0 ∧ actors.getLastD 0 ≤ whitelist.getLastD 0 ∧
    isSubsetFrom actors whitelist

def intersects (actors blacklist : List AccountName) : Bool :=
  actors.headD 0 ≤ blacklist.getLastD 0 ∧ blacklist.headD 0 ≤ actors.getLastD 0 ∧
    intersectsFrom actors blacklist

def notWhitelisted : ChainException := ⟨.actorWhitelistException,
  "authorizing actor(s) in transaction are not on the actor whitelist: ${actors}"⟩

def blacklisted : ChainException := ⟨.actorBlacklistException,
  "authorizing actor(s) in transaction are on the actor blacklist: ${actors}"⟩

def checkActorList (conf : ActorLists) (actors : AccountSet) : Fallible Unit :=
  if actors.keys = [] then .ok ()
  else if conf.actorWhitelist.keys ≠ [] then
    if isSubset actors.keys conf.actorWhitelist.keys then .ok () else .error notWhitelisted
  else if conf.actorBlacklist.keys ≠ [] then
    if intersects actors.keys conf.actorBlacklist.keys then .error blacklisted else .ok ()
  else .ok ()

section Scan

variable {actor x : AccountName} {actors range next : List AccountName}
  (hactors : actors.Pairwise (· < ·)) (hrange : range.Pairwise (· < ·))

theorem ne_of_filter_cons (h : range.filter (actor < ·) = x :: next) : x ≠ actor := by
  have hx : x ∈ range.filter (actor < ·) := h ▸ mem_cons_self
  exact (of_decide_eq_true (mem_filter.mp hx).2).ne'

include hrange

theorem lowerBound_eq : lowerBound range actor =
    if actor ∈ range then actor :: range.filter (actor < ·) else range.filter (actor < ·) := by
  induction range with
  | nil => rfl
  | cons first rest ih =>
    obtain ⟨hfirst, hrest⟩ := pairwise_cons.mp hrange
    rcases lt_trichotomy first actor with hlt | rfl | hlt
    · rw [lowerBound, dropWhile_cons_of_pos (by simpa), ← lowerBound, ih hrest]
      simp [hlt.le, hlt.ne']
    · have hall := filter_eq_self.mpr fun y hy => decide_eq_true (hfirst y hy)
      simp [lowerBound, hall]
    · have hall := filter_eq_self.mpr fun y hy => decide_eq_true (hlt.trans (hfirst y hy))
      have habsent : actor ∉ rest := fun hmem => lt_asymm hlt (hfirst actor hmem)
      simp [lowerBound, hlt, hlt.le, hlt.ne, hall, habsent]

/-- The quick check of the ends rejects nothing that the search would find. -/
theorem extents_of_mem (hx : x ∈ range) : range.headD 0 ≤ x ∧ x ≤ range.getLastD 0 := by
  have hle : range.Pairwise (· ≤ ·) := hrange.imp le_of_lt
  have hne := ne_nil_of_mem hx
  rw [headD_eq_head?_getD, head?_eq_some_head hne, getLastD_eq_getLast?,
    getLast?_eq_some_getLast hne]
  exact ⟨hle.rel_head hx, hle.rel_getLast hx⟩

include hactors

theorem isSubsetFrom_iff : isSubsetFrom actors range = true ↔ ∀ a ∈ actors, a ∈ range := by
  induction actors generalizing range with
  | nil => simp [isSubsetFrom]
  | cons actor actors ih =>
    obtain ⟨hlater, hrest⟩ := pairwise_cons.mp hactors
    rw [isSubsetFrom, lowerBound_eq hrange, forall_mem_cons]
    by_cases hactor : actor ∈ range
    · have hsame : ∀ a ∈ actors, a ∈ range ∧ actor < a ↔ a ∈ range := fun a ha =>
        and_iff_left (hlater a ha)
      simp [hactor, ih hrest (hrange.filter _), forall₂_congr hsame]
    · cases hbound : range.filter (actor < ·) with
      | nil => simp [hactor]
      | cons found next =>
        simp [hactor, ne_of_filter_cons hbound]

theorem intersectsFrom_iff : intersectsFrom actors range = true ↔ ∃ a ∈ actors, a ∈ range := by
  induction actors generalizing range with
  | nil => simp [intersectsFrom]
  | cons actor actors ih =>
    obtain ⟨hlater, hrest⟩ := pairwise_cons.mp hactors
    have hnext := ih hrest (hrange.filter (actor < ·))
    rw [intersectsFrom, lowerBound_eq hrange, exists_mem_cons_iff]
    by_cases hactor : actor ∈ range
    · simp [hactor]
    · have hsame : (∃ a ∈ actors, a ∈ range) ↔ ∃ a ∈ actors, a ∈ range.filter (actor < ·) := by
        refine exists_congr fun a => and_congr_right fun ha => ?_
        simp [hlater a ha]
      rw [if_neg hactor, or_iff_right hactor, hsame]
      cases hbound : range.filter (actor < ·) with
      | nil => simp
      | cons found next =>
        rw [hbound] at hnext
        simp only [if_neg (ne_of_filter_cons hbound), hnext]

theorem isSubset_iff (hne : actors ≠ []) :
    isSubset actors range = true ↔ ∀ a ∈ actors, a ∈ range := by
  simp only [isSubset, isSubsetFrom_iff hactors hrange, decide_eq_true_eq]
  refine ⟨fun h => h.2.2, fun h => ?_⟩
  obtain ⟨first, rest, rfl⟩ := exists_cons_of_ne_nil hne
  rw [getLastD_cons]
  exact ⟨(extents_of_mem hrange (h _ mem_cons_self)).1,
    (extents_of_mem hrange (h _ getLastD_mem_cons)).2, h⟩

theorem intersects_iff : intersects actors range = true ↔ ∃ a ∈ actors, a ∈ range := by
  simp only [intersects, intersectsFrom_iff hactors hrange, decide_eq_true_eq]
  refine ⟨fun h => h.2.2, fun h => ?_⟩
  obtain ⟨a, ha, hmem⟩ := h
  have hactor := extents_of_mem hactors ha
  have hentry := extents_of_mem hrange hmem
  exact ⟨hactor.1.trans hentry.2, hentry.1.trans hactor.2, a, ha, hmem⟩

end Scan

/-- The first part says that the running bound of a search skips no match. -/
theorem checkActorList_exact (conf : ActorLists) (actors : AccountSet) :
    (∀ range : AccountSet,
      (isSubsetFrom actors.keys range.keys = true ↔ ∀ a ∈ actors.keys, a ∈ range.keys) ∧
      (intersectsFrom actors.keys range.keys = true ↔ ∃ a ∈ actors.keys, a ∈ range.keys)) ∧
    checkActorList conf actors =
      if conf.actorWhitelist.keys ≠ [] then
        if ∀ a ∈ actors.keys, a ∈ conf.actorWhitelist.keys then .ok () else .error notWhitelisted
      else if ∃ a ∈ actors.keys, a ∈ conf.actorBlacklist.keys then .error blacklisted
      else .ok () := by
  refine ⟨fun range => ⟨isSubsetFrom_iff actors.keys_sorted range.keys_sorted,
    intersectsFrom_iff actors.keys_sorted range.keys_sorted⟩, ?_⟩
  rw [checkActorList]
  by_cases hactors : actors.keys = []
  · simp [hactors]
  · simp only [isSubset_iff actors.keys_sorted conf.actorWhitelist.keys_sorted hactors,
      intersects_iff actors.keys_sorted conf.actorBlacklist.keys_sorted, if_neg hactors]
    by_cases hblacklist : conf.actorBlacklist.keys = [] <;> simp [hblacklist]

end DreamChain
