import DreamChain.Chain.AuthorityCompleteness
import DreamChain.Chain.Action

/-!
The keys a checker has marked as used, and `get_required_keys`, which returns them. When an
authority is not satisfied its marks are taken back, but the cache keeps the permissions that
were satisfied on the way. Counted again from the cache, such a permission marks no key.

The marked keys are enough where that does not happen: no permission that is relied on is also
met in the search below a permission that is not satisfied.
-/

namespace DreamChain
open Library ThresholdSystem List
open MetaPermission (Holds weighted weighted_append)

def satisfyDeclared (A : Arrangement) :
    List PermissionLevel → AuthorityChecker → Fallible AuthorityChecker
  | [], c => .ok c
  | declaredAuth :: rest, c => do
    let (r, c') ← c.satisfied A declaredAuth
    eosAssert (r = true) .unsatisfiedAuthorization
      "transaction declares authority '${auth}', but does not have signatures for it."
    satisfyDeclared A rest c'

def getRequiredKeys (A : Arrangement)
    (permissionToAuthority : PermissionLevel → Fallible Authority)
    (maxAuthorityDepth : Nat) (actions : List Action) (candidateKeys : List PublicKeyType)
    (providedDelay : Int) : Fallible (List PublicKeyType) := do
  let c ← satisfyDeclared A (actions.flatMap Action.authorization)
    (makeAuthChecker permissionToAuthority maxAuthorityDepth candidateKeys [] providedDelay)
  return c.getUsedKeys

namespace AuthorityChecker

variable {A : Arrangement} {c : AuthorityChecker} {G : PermissionGraph} {root : PermissionLevel}

section Marks

variable {usedKeys : List Bool} {k : PublicKeyType} {i : Nat}

theorem mem_keysMarked :
    k ∈ c.keysMarked usedKeys ↔ ∃ i : Nat, c.providedKeys[i]? = some k ∧ usedKeys[i]? = some true := by
  rw [keysMarked, mem_map]
  constructor
  · rintro ⟨⟨key, used⟩, hmem, rfl⟩
    obtain ⟨hmem, htrue⟩ := mem_filter.mp hmem
    obtain ⟨i, hi⟩ := mem_iff_getElem?.mp hmem
    obtain ⟨hkey, hused⟩ := getElem?_zip_eq_some.mp hi
    cases htrue
    exact ⟨i, hkey, hused⟩
  · rintro ⟨i, hkey, hused⟩
    refine ⟨(k, true), mem_filter.mpr ⟨mem_iff_getElem?.mpr ⟨i, ?_⟩, rfl⟩, rfl⟩
    exact getElem?_zip_eq_some.mpr ⟨hkey, hused⟩

theorem keysMarked_subset_set (hk : k ∈ c.keysMarked usedKeys) (i : Nat) :
    k ∈ c.keysMarked (usedKeys.set i true) := by
  obtain ⟨j, hkey, hused⟩ := mem_keysMarked.mp hk
  refine mem_keysMarked.mpr ⟨j, hkey, ?_⟩
  rw [List.getElem?_set]
  have hlt := (List.getElem?_eq_some_iff.mp hused).1
  split
  · rename_i heq
    rw [if_pos (heq ▸ hlt)]
  · exact hused

theorem mem_keysMarked_set (hk : c.providedKeys[i]? = some k)
    (hlength : usedKeys.length = c.providedKeys.length) :
    k ∈ c.keysMarked (usedKeys.set i true) := by
  have hlt := (List.getElem?_eq_some_iff.mp hk).1
  refine mem_keysMarked.mpr ⟨i, hk, ?_⟩
  rw [List.getElem?_set_self (by omega)]

end Marks

def withKeys (c : AuthorityChecker) (keys : List PublicKeyType) : AuthorityChecker :=
  makeAuthChecker c.permissionToAuthority c.recursionDepthLimit keys c.providedPermissions
    c.providedDelay

variable {q : PermissionLevel} {d : Nat}

theorem counts_withKeys_mono {keys keys' : List PublicKeyType} (h : ∀ k ∈ keys, k ∈ keys')
    (hq : (c.withKeys keys).Counts G d q) : (c.withKeys keys').Counts G d q :=
  G.within_mono h hq

def Visits (A : Arrangement) (c : AuthorityChecker) (G : PermissionGraph) (d : Nat)
    (q x : PermissionLevel) : Prop :=
  ¬ (c.system G).given q ∧ ∃ a done e rest, G.authority q = some a ∧
    A.list a = done ++ .permissionLevelWeight e :: rest ∧ e.permission = x ∧
      weight (Holds c.providedKeys c.providedDelay (c.Counts G (d + 1))) (weighted done) <
        a.threshold.toNat

inductive Search (A : Arrangement) (c : AuthorityChecker) (G : PermissionGraph) (d : Nat)
    (q : PermissionLevel) : Nat → PermissionLevel → Prop
  | refl : Search A c G d q d q
  | tail {d' x y} : Search A c G d q d' x → Visits A c G d' x y →
      Search A c G d q (d' + 1) y

/-- The permissions that the result for the root relies on. -/
inductive Relied (A : Arrangement) (c : AuthorityChecker) (G : PermissionGraph)
    (root : PermissionLevel) : Nat → PermissionLevel → Prop
  | root : c.Counts G 0 root → Relied A c G root 0 root
  | entry {d q x} : Relied A c G root d q → Visits A c G d q x →
      c.Counts G (d + 1) x → Relied A c G root (d + 1) x

/-- No permission that is relied on, other than the provided ones, is met in the search below a
permission that is not satisfied. -/
def KeysKept (A : Arrangement) (c : AuthorityChecker) (G : PermissionGraph)
    (root : PermissionLevel) : Prop :=
  ∀ d x, Relied A c G root d x → ¬ (c.system G).given x →
    ∀ d₁ u, Search A c G 0 root d₁ u → ¬ c.Counts G d₁ u → ∀ d₂, ¬ Search A c G d₁ u d₂ x

section Search

variable {d d' d'' : Nat} {q x y : PermissionLevel}

theorem Visits.child (h : Visits A c G d q x) : G.Child q x := by
  obtain ⟨_, a, done, e, rest, ha, hsplit, rfl, _⟩ := h
  refine ⟨a, ha, e, ?_, rfl⟩
  rw [← mem_list_iff (A := A), hsplit]
  simp

theorem Search.reaches (h : Search A c G 0 root d q) : Reaches G.Child d root q := by
  induction h with
  | refl => exact .refl root
  | tail _ hvisits ih => exact ih.tail hvisits.child

theorem Relied.search (h : Relied A c G root d q) : Search A c G 0 root d q := by
  induction h with
  | root => exact .refl
  | entry _ hvisits _ ih => exact ih.tail hvisits

theorem Search.trans (h : Search A c G d q d' x) (h' : Search A c G d' x d'' y) :
    Search A c G d q d'' y := by
  induction h' with
  | refl => exact h
  | tail _ hvisits ih => exact ih.tail hvisits

theorem Search.relied (h : Search A c G 0 root d q) (hq : c.Counts G d q) :
    Relied A c G root d q ∨ ∃ d₁ u, Search A c G 0 root d₁ u ∧ ¬ c.Counts G d₁ u ∧
      Search A c G d₁ u d q := by
  induction h with
  | refl => exact .inl (.root hq)
  | @tail d₀ x y hsearch hvisits ih =>
    by_cases hx : c.Counts G d₀ x
    · cases ih hx with
      | inl hrelied => exact .inl (hrelied.entry hvisits hq)
      | inr hbelow =>
        obtain ⟨d₁, u, hroot, hu, hbelow⟩ := hbelow
        exact .inr ⟨d₁, u, hroot, hu, hbelow.tail hvisits⟩
    · exact .inr ⟨d₀, x, hsearch, hx, Search.refl.tail hvisits⟩

theorem Relied.counts (h : Relied A c G root d q) : c.Counts G d q := by
  cases h with
  | root hroot => exact hroot
  | entry _ _ hcounts => exact hcounts

/-- It is enough that the permissions that are not satisfied have only keys and waits. -/
theorem keysKept_of_leaves (hsafe : DepthSafe G.Child c.recursionDepthLimit root)
    (h : ∀ d u, Search A c G 0 root d u → ¬ c.Counts G d u → ∀ x, ¬ G.Child u x) :
    KeysKept A c G root := by
  intro d x hrelied _ d₁ u hroot hu d₂ hbelow
  have hleaf : ∀ d₂ y, Search A c G d₁ u d₂ y → y = u := by
    intro d₂ y hy
    induction hy with
    | refl => rfl
    | tail _ hvisits ih => exact absurd (ih ▸ hvisits.child) (h d₁ u hroot hu _)
  cases hleaf d₂ x hbelow
  have hreaches := hroot.reaches
  have hreaches' := hrelied.search.reaches
  rw [← c.system_child G] at hsafe hreaches hreaches'
  exact hu ((hsafe.within_iff hreaches' hreaches).mp hrelied.counts)

theorem Search.withMarks (h : Search A c G d q d' x) (usedKeys : List Bool) :
    Search A { c with usedKeys } G d q d' x := by
  induction h with
  | refl => exact .refl
  | tail _ hvisits ih => exact ih.tail hvisits

theorem Relied.withMarks (h : Relied A c G root d q) (usedKeys : List Bool) :
    Relied A { c with usedKeys } G root d q := by
  induction h with
  | root hroot => exact .root hroot
  | entry _ hvisits hcounts ih => exact ih.entry hvisits hcounts

theorem KeysKept.withMarks (h : KeysKept A c G root) (usedKeys : List Bool) :
    KeysKept A { c with usedKeys } G root := by
  intro d x hrelied hgiven d₁ u hroot hu d₂ hbelow
  exact h d x (hrelied.withMarks c.usedKeys) hgiven d₁ u (hroot.withMarks c.usedKeys) hu d₂
    (hbelow.withMarks c.usedKeys)

end Search

/-- What the cache calls satisfied and the result relies on is satisfied by the marked keys. -/
structure CacheMarked (A : Arrangement) (c : AuthorityChecker) (G : PermissionGraph)
    (root : PermissionLevel) (s : CheckerState) : Prop where
  marks : s.usedKeys.length = c.providedKeys.length
  satisfied : ∀ q, permissionStatusInCache s.cachedPermissions q = some .permissionSatisfied →
    ¬ (c.system G).given q → ∀ d, Relied A c G root d q →
      (c.withKeys (c.keysMarked s.usedKeys)).Counts G d q

structure Grown (A : Arrangement) (c : AuthorityChecker) (G : PermissionGraph) (d : Nat)
    (q : PermissionLevel) (s s' : CheckerState) : Prop where
  marks : ∀ k ∈ c.keysMarked s.usedKeys, k ∈ c.keysMarked s'.usedKeys
  cache : ∀ x, permissionStatusInCache s'.cachedPermissions x =
    permissionStatusInCache s.cachedPermissions x ∨ ∃ d', Search A c G d q d' x

theorem Grown.refl (d : Nat) (q : PermissionLevel) (s : CheckerState) : Grown A c G d q s s :=
  ⟨fun _ hk => hk, fun _ => .inl rfl⟩

theorem Grown.trans_entry {x s s' s''} (h : Grown A c G d q s s')
    (hvisits : Visits A c G d q x) (h' : Grown A c G (d + 1) x s' s'') : Grown A c G d q s s'' := by
  refine ⟨fun k hk => h'.marks k (h.marks k hk), ?_⟩
  intro y
  cases h'.cache y with
  | inl heq => exact (h.cache y).imp_left heq.trans
  | inr hsearch =>
    obtain ⟨d', hsearch⟩ := hsearch
    exact .inr ⟨d', (Search.refl.tail hvisits).trans hsearch⟩

namespace CacheMarked

variable {s : CheckerState} {q : PermissionLevel}

theorem freshState (h : c.usedKeys.length = c.providedKeys.length) :
    CacheMarked A c G root c.freshState := by
  refine ⟨h, ?_⟩
  intro q hq hgiven
  rw [statusInCache_freshState] at hq
  split at hq
  · rename_i hprovided
    exact absurd hprovided hgiven
  · cases hq

theorem setStatus (h : CacheMarked A c G root s) (hq : q.permission ≠ 0)
    {status : PermissionCacheStatus}
    (hstatus : status = .permissionSatisfied → ∀ d, Relied A c G root d q →
      (c.withKeys (c.keysMarked s.usedKeys)).Counts G d q) :
    CacheMarked A c G root (s.setStatus q status) := by
  refine ⟨h.marks, ?_⟩
  intro x hx hgiven d hrelied
  rw [statusInCache_setStatus hq] at hx
  split at hx
  · rename_i heq
    subst heq
    exact hstatus (Option.some.inj hx) d hrelied
  · exact h.satisfied x hx hgiven d hrelied

theorem markKey (h : CacheMarked A c G root s) (i : Nat) :
    CacheMarked A c G root { s with usedKeys := s.usedKeys.set i true } := by
  refine ⟨(length_set ..).trans h.marks, ?_⟩
  intro q hq hgiven d hrelied
  exact counts_withKeys_mono (fun k hk => keysMarked_subset_set hk i)
    (h.satisfied q hq hgiven d hrelied)

end CacheMarked

/-- The evaluation of authorities at depth `d` keeps the marks of what is relied on, and if the
result is relied on, the marked keys reach the threshold. -/
def MarkedEvaluate (A : Arrangement) (c : AuthorityChecker) (G : PermissionGraph)
    (root : PermissionLevel) (d : Nat) (f : Evaluate) : Prop :=
  ∀ stack q a s r s', G.authority q = some a → ¬ (c.system G).given q →
    Search A c G 0 root d q → (∀ x ∈ stack, ∃ k, Reaches G.Child k x q) →
      CacheExact c G root stack s → CacheMarked A c G root s → f a s = .ok (r, s') →
        CacheMarked A c G root s' ∧ Grown A c G d q s s' ∧
          (r = true → Relied A c G root d q →
            Reached (a.rule (c.keysMarked s'.usedKeys) c.providedDelay)
              ((c.withKeys (c.keysMarked s'.usedKeys)).Counts G (d + 1)))

variable {stack : List PermissionLevel} {a : Authority}

/-- A permission that is evaluated with the result `r`, where `s` is the state before and `s'`
the state after its authority was evaluated. -/
theorem evaluated_marked {s s' r f}
    (hsafe : DepthSafe G.Child c.recursionDepthLimit root) (hkept : KeysKept A c G root)
    (hd : d < c.recursionDepthLimit) (hf : MarkedEvaluate A c G root d f)
    (hq : G.authority q = some a) (hgiven : ¬ (c.system G).given q)
    (hsearch : Search A c G 0 root d q) (hstack : ∀ x ∈ stack, ∃ k, Reaches G.Child (k + 1) x q)
    (hexact : CacheExact c G root stack s) (hs : CacheMarked A c G root s)
    (hr : r = true ↔ c.Counts G d q) (h : f a (s.setStatus q .beingEvaluated) = .ok (r, s')) :
    CacheMarked A c G root (s'.setStatus q (.ofResult r)) ∧
      Grown A c G d q s (s'.setStatus q (.ofResult r)) ∧
        (r = true → Relied A c G root d q →
          (c.withKeys (c.keysMarked s'.usedKeys)).Counts G d q) := by
  have hname := (G.named _ _ hq).2
  obtain ⟨hs', hgrown, hreached⟩ := hf _ _ _ _ _ _ hq hgiven hsearch (below_cons hstack)
    (hexact.start hname) (hs.setStatus hname nofun) h
  have hcounts : r = true → Relied A c G root d q →
      (c.withKeys (c.keysMarked s'.usedKeys)).Counts G d q := by
    intro hrtrue hrelied
    exact (counts_iff (c := c.withKeys (c.keysMarked s'.usedKeys)) hd hgiven).mpr
      ⟨a, hq, hreached hrtrue hrelied⟩
  refine ⟨hs'.setStatus hname ?_, ⟨hgrown.marks, ?_⟩, hcounts⟩
  · intro hstatus d' hrelied'
    cases r with
    | false => cases hstatus
    | true =>
      cases hsearch.relied (hr.mp rfl) with
      | inl hrelied =>
        have hreaches := hsearch.reaches
        have hreaches' := hrelied'.search.reaches
        rw [← system_child (c.withKeys (c.keysMarked s'.usedKeys)) G] at hsafe hreaches hreaches'
        exact (hsafe.within_iff hreaches hreaches').mp (hcounts rfl hrelied)
      | inr hbelow =>
        obtain ⟨d₁, u, hroot, hu, hbelow⟩ := hbelow
        exact absurd hbelow (hkept d' q hrelied' hgiven d₁ u hroot hu d)
  · intro x
    rw [statusInCache_setStatus hname]
    split
    · rename_i heq
      exact .inr ⟨d, heq ▸ .refl⟩
    · rename_i hne
      refine (hgrown.cache x).imp_left fun heq => ?_
      rw [heq, statusInCache_setStatus hname, if_neg hne]

variable {e : MetaPermission} {c' : AuthorityChecker} {counted : Bool}

theorem Visited.marked {s s' : CheckerState}
    (hG : c.permissionToAuthority = G.permissionToAuthority)
    (hsafe : DepthSafe G.Child c.recursionDepthLimit root) (hkept : KeysKept A c G root)
    (heval : ∀ f ∈ c.evaluator A (c.recursionDepthLimit - d), MarkedEvaluate A c G root d f)
    (he : ∀ p, e = .permissionLevelWeight p → Search A c G 0 root d p.permission ∧
      ∀ x ∈ stack, ∃ k, Reaches G.Child (k + 1) x p.permission)
    (hexact : CacheExact c G root stack s) (hs : CacheMarked A c G root s)
    (h : Visited c (c.evaluator A (c.recursionDepthLimit - d)) e counted s s') :
    CacheMarked A c G root s' ∧
      (∀ k ∈ c.keysMarked s.usedKeys, k ∈ c.keysMarked s'.usedKeys) ∧
      (∀ p, e = .permissionLevelWeight p → Grown A c G d p.permission s s') ∧
      ((∀ p, e ≠ .permissionLevelWeight p) → s'.cachedPermissions = s.cachedPermissions) ∧
      (counted = true → (∀ p, e = .permissionLevelWeight p → Relied A c G root d p.permission) →
        Holds (c.keysMarked s'.usedKeys) c.providedDelay
          ((c.withKeys (c.keysMarked s'.usedKeys)).Counts G d) e) := by
  have hcounted := (h.exact hG hsafe (evaluator_exact hG hsafe d)
    (fun p hp => ⟨(he p hp).1.reaches, (he p hp).2⟩) hexact).2
  cases h with
  | wait w => exact ⟨hs, fun _ hk => hk, nofun, fun _ => rfl, fun h _ => hcounted.mp h⟩
  | key _ hfind =>
    refine ⟨hs.markKey _, fun k hk => keysMarked_subset_set hk _, nofun, fun _ => rfl, ?_⟩
    intro _ _
    exact mem_keysMarked_set (mem_of_findIdx? hfind) hs.marks
  | keyMissing => exact ⟨hs, fun _ hk => hk, nofun, fun _ => rfl, nofun⟩
  | @cached p _ status hstatus =>
    refine ⟨hs, fun _ hk => hk, fun _ _ => .refl _ _ _, fun _ => rfl, ?_⟩
    intro hcount hrelied
    by_cases hgiven : (c.system G).given p.permission
    · exact within_of_given (S := (c.withKeys (c.keysMarked s.usedKeys)).system G) hgiven _
    · rw [of_decide_eq_true hcount] at hstatus
      exact hs.satisfied _ hstatus hgiven d (hrelied p rfl)
  | tooDeep | missing => exact ⟨hs, fun _ hk => hk, fun _ _ => .refl _ _ _, fun _ => rfl, nofun⟩
  | @evaluated p _ s₁ f auth _ hstatus hf hauth hrun =>
    obtain ⟨hsearch, hstack⟩ := he p rfl
    rw [hG] at hauth
    obtain ⟨hs', hgrown, hholds⟩ := evaluated_marked hsafe hkept (lt_limit_of_mem_evaluator hf)
      (heval f hf)
      (PermissionGraph.permissionToAuthority_ok hauth) (hexact.unknown _ hstatus) hsearch hstack
      hexact hs hcounted hrun
    refine ⟨hs', hgrown.marks, ?_, fun hne => absurd rfl (hne p), ?_⟩
    · intro p' hp'
      cases hp'
      exact hgrown
    · intro hcount hrelied
      exact hholds hcount (hrelied p rfl)

/-- In the loop for `q` at depth `d`, which started in the state `s`. -/
structure TallyMarked (A : Arrangement) (c : AuthorityChecker) (G : PermissionGraph)
    (root : PermissionLevel) (stack : List PermissionLevel) (d : Nat) (q : PermissionLevel)
    (s : CheckerState) (done : List MetaPermission) (t : UInt32) (u : CheckerState) : Prop where
  exact : TallyExact c G root stack (d + 1) done t u
  cache : CacheMarked A c G root u
  grown : Grown A c G d q s u
  weight : Relied A c G root d q → t.toNat ≤ weight
    (Holds (c.keysMarked u.usedKeys) c.providedDelay
      ((c.withKeys (c.keysMarked u.usedKeys)).Counts G (d + 1))) (weighted done)

theorem holds_mono {keys keys' : List PublicKeyType} (h : ∀ k ∈ keys, k ∈ keys')
    (he : Holds keys c.providedDelay ((c.withKeys keys).Counts G d) e) :
    Holds keys' c.providedDelay ((c.withKeys keys').Counts G d) e := by
  cases e with
  | permissionLevelWeight p => exact counts_withKeys_mono h he
  | keyWeight k => exact h _ he
  | waitWeight w => exact he

section

variable (hG : c.permissionToAuthority = G.permissionToAuthority)
  (hsafe : DepthSafe G.Child c.recursionDepthLimit root) (hkept : KeysKept A c G root)
include hG hsafe hkept

theorem TallyMarked.visit {s : CheckerState}
    (heval : ∀ f ∈ c.evaluator A (c.recursionDepthLimit - (d + 1)),
      MarkedEvaluate A c G root (d + 1) f) (hq : G.authority q = some a)
    (hgiven : ¬ (c.system G).given q) (hsearch : Search A c G 0 root d q)
    (hstack : ∀ x ∈ stack, ∃ k, Reaches G.Child k x q) {done rest : List MetaPermission}
    {t : UInt32} {u u' : CheckerState}
    (hsplit : A.list a = done ++ e :: rest) (ht : t.toNat < a.threshold.toNat)
    (h : TallyMarked A c G root stack d q s done t u)
    (hvisited : Visited c (c.evaluator A (c.recursionDepthLimit - (d + 1))) e counted u u') :
    TallyMarked A c G root stack d q s (done ++ [e])
      (if counted then t + e.weight.toUInt32 else t) u' := by
  have hexact := h.exact.visit hG hsafe (evaluator_exact hG hsafe (d + 1)) hq hsearch.reaches
    hstack hsplit hvisited
  have hvisits : ∀ p, e = .permissionLevelWeight p → Visits A c G d q p.permission := by
    intro p hp
    exact ⟨hgiven, a, done, p, rest, hq, hp ▸ hsplit, rfl, h.exact.2 ▸ ht⟩
  have he : ∀ p, e = .permissionLevelWeight p → Search A c G 0 root (d + 1) p.permission ∧
      ∀ x ∈ stack, ∃ k, Reaches G.Child (k + 1) x p.permission := by
    intro p hp
    have hmem : e ∈ A.list a := by
      rw [hsplit]
      simp
    exact ⟨hsearch.tail (hvisits p hp), (reaches_entry hq hsearch.reaches hstack hmem p hp).2⟩
  obtain ⟨hcache, hmarks, hgrown, hsame, hholds⟩ := hvisited.marked hG hsafe hkept heval he
    h.exact.1 h.cache
  have hcounts := (hvisited.exact hG hsafe (evaluator_exact hG hsafe (d + 1))
    (fun p hp => ⟨(he p hp).1.reaches, (he p hp).2⟩) h.exact.1).2
  refine ⟨hexact, hcache, ?_, ?_⟩
  · cases e with
    | permissionLevelWeight p => exact h.grown.trans_entry (hvisits p rfl) (hgrown p rfl)
    | keyWeight k | waitWeight w =>
      refine ⟨fun k hk => hmarks k (h.grown.marks k hk), ?_⟩
      rw [hsame nofun]
      exact h.grown.cache
  · intro hrelied
    refine (toNat_tally (G.valid q a hq) hsplit ?_ ((h.weight hrelied).trans ?_)).1
    · intro hcounted
      refine hholds hcounted fun p hp => hrelied.entry (hvisits p hp) ?_
      subst hp
      exact hcounts.mp hcounted
    · exact weight_mono fun _ _ => holds_mono hmarks

theorem satisfiedAuthority_marked (hd : d < c.recursionDepthLimit)
    (heval : ∀ f ∈ c.evaluator A (c.recursionDepthLimit - (d + 1)),
      MarkedEvaluate A c G root (d + 1) f) : MarkedEvaluate A c G root d
      (c.satisfiedAuthority A (c.evaluator A (c.recursionDepthLimit - (d + 1)))) := by
  intro stack q a s r s' hq hgiven hsearch hstack hexact hs h
  have hresult := (satisfiedAuthority_exact hG hsafe (evaluator_exact hG hsafe (d + 1)) _ _ _ _ _ _
    hq hsearch.reaches hstack hexact h).2
  obtain ⟨s₁, done, rest, t, hsplit, hQ, hs', hr⟩ := satisfiedAuthority_rule
    (TallyMarked A c G root stack d q s) (Authority.validate_threshold (G.valid q a hq))
    (fun done e rest counted t u u' hsplit ht hQ hvisited =>
      hQ.visit hG hsafe hkept heval hq hgiven hsearch hstack hsplit ht hvisited)
    ⟨⟨hexact, rfl⟩, hs, .refl _ _ _, fun _ => Nat.zero_le _⟩ h
  cases r with
  | true =>
    subst hs'
    refine ⟨hQ.cache, hQ.grown, ?_⟩
    intro _ hrelied
    cases hr with
    | inr hfalse => cases hfalse.1
    | inl htrue =>
      have hle := hQ.weight hrelied
      rw [Authority.reached_iff A, hsplit, weighted_append, weight_append]
      exact Nat.le_trans (Nat.le_trans htrue.2 hle) (Nat.le_add_right _ _)
  | false =>
    subst hs'
    -- the marks are those before the call; what is new in the cache is below `q`
    refine ⟨⟨hs.marks, ?_⟩, ⟨fun _ hk => hk, hQ.grown.cache⟩, nofun⟩
    intro x hx hxgiven d' hrelied
    cases hQ.grown.cache x with
    | inl heq => exact hs.satisfied x (heq ▸ hx) hxgiven d' hrelied
    | inr hbelow =>
      obtain ⟨d'', hbelow⟩ := hbelow
      refine absurd hbelow (hkept d' x hrelied hxgiven d q hsearch ?_ d'')
      rw [counts_iff hd hgiven]
      simp [hq, ← hresult]

theorem evaluator_marked (d : Nat) :
    ∀ f ∈ c.evaluator A (c.recursionDepthLimit - d), MarkedEvaluate A c G root d f :=
  evaluator_induct (fun _ => satisfiedAuthority_marked hG hsafe hkept) d

theorem counts_of_satisfied (hmarks : c.usedKeys.length = c.providedKeys.length)
    (h : c.satisfied A root = .ok (true, c')) : ∃ usedKeys, c' = { c with usedKeys } ∧
      usedKeys.length = c.providedKeys.length ∧
        (∀ k ∈ c.keysMarked c.usedKeys, k ∈ c.keysMarked usedKeys) ∧
          (c.withKeys (c.keysMarked usedKeys)).Counts G 0 root := by
  simp only [satisfied, bind_eq_ok] at h
  obtain ⟨⟨t, s⟩, hvisit, hok⟩ := h
  obtain ⟨counted, hvisited, ht⟩ := visitPermission_ok hvisit
  have he : ∀ p, (.permissionLevelWeight ⟨root, 1⟩ : MetaPermission) = .permissionLevelWeight p →
      Search A c G 0 root 0 p.permission ∧
        ∀ x ∈ ([] : List PermissionLevel), ∃ k, Reaches G.Child (k + 1) x p.permission := by
    intro p hp
    cases hp
    exact ⟨.refl, forall_mem_nil _⟩
  have hcounts := (hvisited.exact (d := 0) hG hsafe (evaluator_exact hG hsafe 0)
    (fun p hp => ⟨(he p hp).1.reaches, (he p hp).2⟩) (.freshState c G root)).2
  obtain ⟨hcache, hgrow, _, _, hholds⟩ := hvisited.marked hG hsafe hkept
    (evaluator_marked hG hsafe hkept 0) he (.freshState c G root) (.freshState hmarks)
  cases counted with
  | false =>
    subst ht
    cases hok
  | true =>
    simp only [Except.ok.injEq, Prod.mk.injEq] at hok
    refine ⟨s.usedKeys, hok.2.symm, hcache.marks, hgrow, hholds rfl ?_⟩
    intro p hp
    cases hp
    exact .root (hcounts.mp rfl)

end

theorem satisfyDeclared_counts (hG : c.permissionToAuthority = G.permissionToAuthority)
    {auths : List PermissionLevel} (hauths : ∀ p ∈ auths,
      DepthSafe G.Child c.recursionDepthLimit p ∧ KeysKept A c G p)
    (hmarks : c.usedKeys.length = c.providedKeys.length) (h : satisfyDeclared A auths c = .ok c') :
    ∃ usedKeys, c' = { c with usedKeys } ∧
      (∀ k ∈ c.keysMarked c.usedKeys, k ∈ c.keysMarked usedKeys) ∧
        ∀ p ∈ auths, (c.withKeys (c.keysMarked usedKeys)).Counts G 0 p := by
  induction auths generalizing c with
  | nil =>
    cases h
    exact ⟨_, rfl, fun _ hk => hk, nofun⟩
  | cons p auths ih =>
    simp only [satisfyDeclared, bind_eq_ok, eosAssert_eq_ok] at h
    obtain ⟨⟨r, c₁⟩, hcall, _, hr, hrest⟩ := h
    cases hr
    obtain ⟨hsafe, hkept⟩ := hauths p mem_cons_self
    obtain ⟨marks, rfl, hlength, hgrow, hcounts⟩ :=
      counts_of_satisfied hG hsafe hkept hmarks hcall
    obtain ⟨usedKeys, hc', hgrow', hall⟩ := ih (c := { c with usedKeys := marks }) hG
      (fun q hq => (hauths q (mem_cons_of_mem _ hq)).imp_right (·.withMarks marks))
      hlength hrest
    refine ⟨usedKeys, hc', fun k hk => hgrow' k (hgrow k hk), ?_⟩
    intro q hq
    cases mem_cons.mp hq with
    | inl heq => exact heq ▸ counts_withKeys_mono hgrow' hcounts
    | inr hmem => exact hall q hmem

end AuthorityChecker

open AuthorityChecker

/-- Permission 4 is satisfied below permission 2, which is not, and counted for permission 3. -/
def rolledBackGraph : PermissionGraph :=
  .ofTable [(sampleLevel 1, sampleAuthority 1 [] [(2, 2), (3, 1)]),
    (sampleLevel 2, sampleAuthority 2 [(9, 1)] [(4, 1)]),
    (sampleLevel 3, sampleAuthority 1 [] [(4, 1)]),
    (sampleLevel 4, sampleAuthority 1 [(1, 1)] [])] (by decide +kernel)

/-- Permission 2 is not satisfied by the first key, permission 3 is. -/
def eitherTable : List (PermissionLevel × Authority) :=
  [(sampleLevel 1, sampleAuthority 1 [] [(2, 2), (3, 1)]),
    (sampleLevel 2, sampleAuthority 1 [(2, 1)] []),
    (sampleLevel 3, sampleAuthority 1 [(1, 1)] [])]

def eitherGraph : PermissionGraph := .ofTable eitherTable (by decide +kernel)

theorem eitherGraph_fits : Fits eitherGraph.Child 6 (sampleLevel 1) :=
  fits_ofTable (by decide +kernel)

theorem eitherGraph_keysKept : KeysKept metaPermissionSet
    (makeAuthChecker eitherGraph.permissionToAuthority 6 [sampleKey 1] [] 0) eitherGraph
      (sampleLevel 1) := by
  refine keysKept_of_leaves eitherGraph_fits.depthSafe ?_
  intro d u hsearch hu x hchild
  obtain ⟨e, he, rfl, y, hy, rfl⟩ := PermissionGraph.ofTable_child hchild
  have hall : ∀ e ∈ eitherTable, ∀ y ∈ e.2.accounts, e.1 = sampleLevel 1 := by decide +kernel
  rw [hall e he y hy] at hsearch hu
  have hverdict : verdict eitherGraph 6 [sampleKey 1] (sampleLevel 1) = some true := by
    decide +kernel
  have hroot := (satisfied_iff_within (G := eitherGraph) rfl eitherGraph_fits.depthSafe).mp
    (exists_of_verdict hverdict)
  have hsafe := eitherGraph_fits.depthSafe
  have hreaches := hsearch.reaches
  rw [← system_child (makeAuthChecker eitherGraph.permissionToAuthority 6 [sampleKey 1] [] 0)
    eitherGraph] at hsafe hreaches
  exact hu ((hsafe.within_iff (.refl _) hreaches).mp hroot)

end DreamChain
