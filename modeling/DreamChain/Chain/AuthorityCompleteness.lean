import DreamChain.Chain.AuthorityDerivation

/-!
Where the recursion limit is not felt, the checker decides exactly what can be derived, in
whatever order it visits entries of equal weight. It is enough that a permission reached at
two different depths has no path below it that the limit cuts off; then no permission is met
while it is being evaluated, and what the cache says of a permission is right at every depth.

Without that an additional key can make a permission unsatisfied: it ends a search early that
would have put another permission into the cache.
-/

namespace DreamChain
open Library ThresholdSystem List
open MetaPermission (Holds weighted weighted_append)

namespace AuthorityChecker

variable {A : Arrangement} {c : AuthorityChecker} {G : PermissionGraph} {root : PermissionLevel}

theorem system_child (c : AuthorityChecker) (G : PermissionGraph) : (c.system G).Child = G.Child :=
  G.system_child _ _ _

/-- Whether a permission reached at depth `d` is to be counted. -/
def Counts (c : AuthorityChecker) (G : PermissionGraph) (d : Nat) (q : PermissionLevel) : Prop :=
  (c.system G).Within (c.recursionDepthLimit - d) q

/-- The cache is right about every permission below the root, except those in `stack`, which are
being evaluated. -/
structure CacheExact (c : AuthorityChecker) (G : PermissionGraph) (root : PermissionLevel)
    (stack : List PermissionLevel) (s : CheckerState) : Prop where
  satisfied : ∀ q, permissionStatusInCache s.cachedPermissions q = some .permissionSatisfied →
    ∀ d, Reaches G.Child d root q → c.Counts G d q
  unsatisfied : ∀ q, permissionStatusInCache s.cachedPermissions q = some .permissionUnsatisfied →
    ∀ d, Reaches G.Child d root q → ¬ c.Counts G d q
  evaluating : ∀ q, permissionStatusInCache s.cachedPermissions q = some .beingEvaluated → q ∈ stack
  unknown : ∀ q, permissionStatusInCache s.cachedPermissions q = none → ¬ (c.system G).given q

namespace CacheExact

variable {stack : List PermissionLevel} {s : CheckerState} {q : PermissionLevel}

theorem freshState (c : AuthorityChecker) (G : PermissionGraph) (root : PermissionLevel) :
    CacheExact c G root [] c.freshState := by
  refine ⟨?_, ?_, ?_, ?_⟩
  · intro q hq d _
    rw [statusInCache_freshState] at hq
    split at hq
    · rename_i hgiven
      exact within_of_given hgiven _
    · cases hq
  · intro q hq
    rw [statusInCache_freshState] at hq
    split at hq <;> cases hq
  · intro q hq
    rw [statusInCache_freshState] at hq
    split at hq <;> cases hq
  · intro q hq
    rw [statusInCache_freshState] at hq
    split at hq
    · cases hq
    · assumption

theorem withMarks (h : CacheExact c G root stack s) (usedKeys : List Bool) :
    CacheExact c G root stack { s with usedKeys } :=
  ⟨h.satisfied, h.unsatisfied, h.evaluating, h.unknown⟩

theorem start (h : CacheExact c G root stack s) (hq : q.permission ≠ 0) :
    CacheExact c G root (q :: stack) (s.setStatus q .beingEvaluated) := by
  refine ⟨?_, ?_, ?_, ?_⟩
  · intro x hx
    rw [statusInCache_setStatus hq] at hx
    split at hx
    · cases hx
    · exact h.satisfied x hx
  · intro x hx
    rw [statusInCache_setStatus hq] at hx
    split at hx
    · cases hx
    · exact h.unsatisfied x hx
  · intro x hx
    rw [statusInCache_setStatus hq] at hx
    split at hx
    · rename_i heq
      exact heq ▸ mem_cons_self
    · exact mem_cons_of_mem _ (h.evaluating x hx)
  · intro x hx
    rw [statusInCache_setStatus hq] at hx
    split at hx
    · cases hx
    · exact h.unknown x hx

theorem finish (h : CacheExact c G root (q :: stack) s) (hq : q.permission ≠ 0) {r : Bool}
    (hr : ∀ d, Reaches G.Child d root q → (r = true ↔ c.Counts G d q)) :
    CacheExact c G root stack (s.setStatus q (.ofResult r)) := by
  refine ⟨?_, ?_, ?_, ?_⟩
  · intro x hx d hd
    rw [statusInCache_setStatus hq] at hx
    split at hx
    · rename_i heq
      subst heq
      cases r with
      | true => exact (hr d hd).mp rfl
      | false => cases hx
    · exact h.satisfied x hx d hd
  · intro x hx d hd
    rw [statusInCache_setStatus hq] at hx
    split at hx
    · rename_i heq
      subst heq
      cases r with
      | true => cases hx
      | false => exact fun hcounts => Bool.false_ne_true ((hr d hd).mpr hcounts)
    · exact h.unsatisfied x hx d hd
  · intro x hx
    rw [statusInCache_setStatus hq] at hx
    split at hx
    · cases r <;> cases hx
    · rename_i hne
      cases mem_cons.mp (h.evaluating x hx) with
      | inl heq => exact absurd heq.symm hne
      | inr hmem => exact hmem
  · intro x hx
    rw [statusInCache_setStatus hq] at hx
    split at hx
    · cases hx
    · exact h.unknown x hx

end CacheExact

/-- The evaluation of authorities at depth `d`: the cache stays right and the result is that of
the rule, with the entries one step deeper. -/
def ExactEvaluate (c : AuthorityChecker) (G : PermissionGraph) (root : PermissionLevel) (d : Nat)
    (f : Evaluate) : Prop :=
  ∀ stack q a s r s', G.authority q = some a → Reaches G.Child d root q →
    (∀ x ∈ stack, ∃ k, Reaches G.Child k x q) → CacheExact c G root stack s →
      f a s = .ok (r, s') → CacheExact c G root stack s' ∧
        (r = true ↔ Reached (a.rule c.providedKeys c.providedDelay) (c.Counts G (d + 1)))

variable {d : Nat} {e : MetaPermission} {a : Authority} {q : PermissionLevel}

theorem counts_iff (hd : d < c.recursionDepthLimit)
    (hgiven : ¬ (c.system G).given q) : c.Counts G d q ↔ ∃ a, G.authority q = some a ∧
      Reached (a.rule c.providedKeys c.providedDelay) (c.Counts G (d + 1)) := by
  have hsucc : c.recursionDepthLimit - d = c.recursionDepthLimit - (d + 1) + 1 := by omega
  rw [Counts, hsucc]
  constructor
  · rintro (h | ⟨r, hr, hreached⟩)
    · exact absurd h hgiven
    · obtain ⟨a, ha, rfl⟩ := Option.map_eq_some_iff.mp hr
      exact ⟨a, ha, hreached⟩
  · rintro ⟨a, ha, hreached⟩
    exact .inr ⟨_, congrArg (Option.map _) ha, hreached⟩

theorem not_counts_of_missing (hgiven : ¬ (c.system G).given q)
    (hq : G.authority q = none) : ¬ c.Counts G d q := by
  by_cases hd : d < c.recursionDepthLimit
  · rw [counts_iff hd hgiven]
    rintro ⟨a, ha, _⟩
    rw [hq] at ha
    cases ha
  · rw [Counts, Nat.sub_eq_zero_of_le (Nat.not_lt.mp hd)]
    exact hgiven

theorem lt_limit_of_mem_evaluator {f : Evaluate}
    (hf : f ∈ c.evaluator A (c.recursionDepthLimit - d)) : d < c.recursionDepthLimit := by
  cases hn : c.recursionDepthLimit - d with
  | zero =>
    rw [hn] at hf
    cases hf
  | succ n => omega

variable {stack : List PermissionLevel} {counted : Bool}

theorem below_cons (h : ∀ x ∈ stack, ∃ k, Reaches G.Child (k + 1) x q) :
    ∀ x ∈ q :: stack, ∃ k, Reaches G.Child k x q := by
  intro x hx
  cases mem_cons.mp hx with
  | inl heq => exact ⟨0, heq ▸ .refl _⟩
  | inr hmem =>
    obtain ⟨k, hk⟩ := h x hmem
    exact ⟨k + 1, hk⟩

theorem Visited.exact {s s' : CheckerState} (hG : c.permissionToAuthority = G.permissionToAuthority)
    (hsafe : DepthSafe G.Child c.recursionDepthLimit root)
    (heval : ∀ f ∈ c.evaluator A (c.recursionDepthLimit - d), ExactEvaluate c G root d f)
    (he : ∀ p, e = .permissionLevelWeight p → Reaches G.Child d root p.permission ∧
      ∀ x ∈ stack, ∃ k, Reaches G.Child (k + 1) x p.permission) (hs : CacheExact c G root stack s)
    (h : Visited c (c.evaluator A (c.recursionDepthLimit - d)) e counted s s') :
    CacheExact c G root stack s' ∧
      (counted = true ↔ Holds c.providedKeys c.providedDelay (c.Counts G d) e) := by
  cases h with
  | wait w => exact ⟨hs, decide_eq_true_iff⟩
  | key _ hfind =>
    exact ⟨hs.withMarks _, iff_of_true rfl (List.mem_of_getElem? (mem_of_findIdx? hfind))⟩
  | keyMissing _ hfind =>
    refine ⟨hs, iff_of_false Bool.false_ne_true fun hmem => ?_⟩
    simpa using List.findIdx?_eq_none_iff.mp hfind _ hmem
  | @cached p _ status hstatus =>
    obtain ⟨hd, hstack⟩ := he p rfl
    refine ⟨hs, ?_⟩
    cases status with
    | permissionSatisfied => exact iff_of_true rfl (hs.satisfied _ hstatus d hd)
    | permissionUnsatisfied =>
      exact iff_of_false Bool.false_ne_true (hs.unsatisfied _ hstatus d hd)
    | beingEvaluated =>
      -- a permission that is being evaluated would be on a cycle
      obtain ⟨k, hk⟩ := hstack _ (hs.evaluating _ hstatus)
      exact absurd hk (hsafe.acyclic hd)
  | @tooDeep p _ hstatus hnone =>
    refine ⟨hs, iff_of_false Bool.false_ne_true ?_⟩
    have hzero : c.recursionDepthLimit - d = 0 := by
      cases hn : c.recursionDepthLimit - d with
      | zero => rfl
      | succ n =>
        rw [hn] at hnone
        cases hnone
    show ¬ c.Counts G d p.permission
    rw [Counts, hzero]
    exact hs.unknown _ hstatus
  | @missing p _ _ hstatus hauth =>
    refine ⟨hs, iff_of_false Bool.false_ne_true ?_⟩
    refine not_counts_of_missing (hs.unknown _ hstatus) ?_
    cases hp : G.authority p.permission with
    | none => rfl
    | some a =>
      rw [hG, PermissionGraph.permissionToAuthority_some hp] at hauth
      cases hauth
  | @evaluated p _ s₁ f auth _ hstatus hf hauth hrun =>
    obtain ⟨hd, hstack⟩ := he p rfl
    rw [hG] at hauth
    have hp := PermissionGraph.permissionToAuthority_ok hauth
    have hname := (G.named _ _ hp).2
    obtain ⟨hs₁, hr⟩ := heval f hf _ _ _ _ _ _ hp hd (below_cons hstack) (hs.start hname) hrun
    have hcounts : counted = true ↔ c.Counts G d p.permission := by
      rw [hr, counts_iff (lt_limit_of_mem_evaluator hf) (hs.unknown _ hstatus)]
      simp [hp]
    refine ⟨hs₁.finish hname ?_, hcounts⟩
    intro d' hd'
    rw [hcounts]
    rw [← c.system_child G] at hsafe hd hd'
    exact hsafe.within_iff hd hd'

variable {p : PermissionLevelWeight}

theorem mem_list_iff : .permissionLevelWeight p ∈ A.list a ↔ p ∈ a.accounts := by
  rw [(A.perm a).mem_iff]
  simp [Authority.entries]

/-- What evaluating authorities at each depth keeps, when evaluating those one step deeper does. -/
theorem evaluator_induct {E : Nat → Evaluate → Prop} (hstep : ∀ d < c.recursionDepthLimit,
    (∀ f ∈ c.evaluator A (c.recursionDepthLimit - (d + 1)), E (d + 1) f) →
      E d (c.satisfiedAuthority A (c.evaluator A (c.recursionDepthLimit - (d + 1))))) (d : Nat) :
    ∀ f ∈ c.evaluator A (c.recursionDepthLimit - d), E d f := by
  induction hn : c.recursionDepthLimit - d generalizing d with
  | zero => nofun
  | succ n ih =>
    intro f hf
    cases hf
    have hnext : c.recursionDepthLimit - (d + 1) = n := by omega
    have heval := ih (d + 1) hnext
    rw [← hnext] at heval ⊢
    exact hstep d (by omega) heval

/-- In the loop at depth `d`: the cache is right, and so is the weight of the visited entries. -/
def TallyExact (c : AuthorityChecker) (G : PermissionGraph) (root : PermissionLevel)
    (stack : List PermissionLevel) (d : Nat) (done : List MetaPermission) (t : UInt32)
    (u : CheckerState) : Prop :=
  CacheExact c G root stack u ∧ t.toNat =
    weight (Holds c.providedKeys c.providedDelay (c.Counts G d))
      (weighted done)

theorem reaches_entry (hq : G.authority q = some a) (hd : Reaches G.Child d root q)
    (hstack : ∀ x ∈ stack, ∃ k, Reaches G.Child k x q) (he : e ∈ A.list a) :
    ∀ p, e = .permissionLevelWeight p → Reaches G.Child (d + 1) root p.permission ∧
      ∀ x ∈ stack, ∃ k, Reaches G.Child (k + 1) x p.permission := by
  intro p hp
  have hchild : G.Child q p.permission := ⟨a, hq, p, mem_list_iff.mp (hp ▸ he), rfl⟩
  refine ⟨hd.tail hchild, ?_⟩
  intro x hx
  obtain ⟨k, hk⟩ := hstack x hx
  exact ⟨k, hk.tail hchild⟩

section

variable (hG : c.permissionToAuthority = G.permissionToAuthority)
  (hsafe : DepthSafe G.Child c.recursionDepthLimit root)
include hG hsafe

theorem TallyExact.visit (heval : ∀ f ∈ c.evaluator A (c.recursionDepthLimit - (d + 1)),
      ExactEvaluate c G root (d + 1) f) (hq : G.authority q = some a)
    (hd : Reaches G.Child d root q) (hstack : ∀ x ∈ stack, ∃ k, Reaches G.Child k x q)
    {done rest : List MetaPermission} {t : UInt32} {u u' : CheckerState}
    (hsplit : A.list a = done ++ e :: rest) (h : TallyExact c G root stack (d + 1) done t u)
    (hvisited : Visited c (c.evaluator A (c.recursionDepthLimit - (d + 1))) e counted u u') :
    TallyExact c G root stack (d + 1) (done ++ [e])
      (if counted then t + e.weight.toUInt32 else t) u' := by
  have he := reaches_entry (e := e) hq hd hstack (A := A) (by rw [hsplit]; simp)
  obtain ⟨hu', hcounted⟩ := hvisited.exact hG hsafe heval he h.1
  obtain ⟨hle, hge⟩ := toNat_tally (G.valid q a hq) hsplit hcounted.mp h.2.le
  exact ⟨hu', Nat.le_antisymm hle (hge hcounted.mpr h.2.ge)⟩

theorem satisfiedAuthority_exact (heval : ∀ f ∈ c.evaluator A (c.recursionDepthLimit - (d + 1)),
      ExactEvaluate c G root (d + 1) f) : ExactEvaluate c G root d
      (c.satisfiedAuthority A (c.evaluator A (c.recursionDepthLimit - (d + 1)))) := by
  intro stack q a s r s' hq hd hstack hs h
  obtain ⟨s₁, done, rest, t, hsplit, ⟨hs₁, ht⟩, hs', hr⟩ := satisfiedAuthority_rule
    (TallyExact c G root stack (d + 1)) (Authority.validate_threshold (G.valid q a hq))
    (fun done e rest counted t u u' hsplit _ hQ hvisited =>
      hQ.visit hG hsafe heval hq hd hstack hsplit hvisited) ⟨hs, rfl⟩ h
  have hcache : CacheExact c G root stack s' := by
    rw [hs']
    split
    · exact hs₁
    · exact hs₁.withMarks _
  refine ⟨hcache, ?_⟩
  rw [Authority.reached_iff A, hsplit, weighted_append, weight_append, ← ht]
  obtain htrue | ⟨hrfalse, hrest, hlt⟩ := hr
  · exact iff_of_true htrue.1 (Nat.le_trans htrue.2 (Nat.le_add_right _ _))
  · refine iff_of_false (by rw [hrfalse]; exact Bool.false_ne_true) ?_
    subst hrest
    exact Nat.not_le.mpr hlt

theorem evaluator_exact (d : Nat) :
    ∀ f ∈ c.evaluator A (c.recursionDepthLimit - d), ExactEvaluate c G root d f :=
  evaluator_induct (fun _ _ => satisfiedAuthority_exact hG hsafe) d

end

section Total

variable {evaluate : Option Evaluate}

/-- The evaluation does not throw on authorities of the graph. -/
def TotalEvaluate (G : PermissionGraph) (f : Evaluate) : Prop :=
  ∀ q a s, G.authority q = some a → ∃ r s', f a s = .ok (r, s')

theorem visitPermission_cached {s status}
    (h : permissionStatusInCache s.cachedPermissions p.permission = some status) (t : UInt32) :
    c.visitPermission evaluate p t s = .ok
      (if status = .permissionSatisfied then t + p.weight.toUInt32 else t, s) := by
  simp only [visitPermission, h]

section

variable (hG : c.permissionToAuthority = G.permissionToAuthority)
  (heval : ∀ f ∈ evaluate, TotalEvaluate G f)
include hG heval

theorem visitPermission_total (hp : p.permission.Named) (t : UInt32)
    (s : CheckerState) : ∃ t' s', c.visitPermission evaluate p t s = .ok (t', s') := by
  cases hstatus : permissionStatusInCache s.cachedPermissions p.permission with
  | some status => exact ⟨_, _, visitPermission_cached hstatus t⟩
  | none =>
    cases evaluate with
    | none => exact ⟨t, s, by simp only [visitPermission, hstatus]⟩
    | some f =>
      cases hauth : G.authority p.permission with
      | none =>
        refine ⟨t, s, ?_⟩
        simp only [visitPermission, hstatus, hG,
          PermissionGraph.permissionToAuthority_none hp hauth, if_true]
      | some a =>
        obtain ⟨r, s', hf⟩ := heval f rfl p.permission a
          (s.setStatus p.permission .beingEvaluated) hauth
        refine ⟨if r then t + p.weight.toUInt32 else t,
          s'.setStatus p.permission (.ofResult r), ?_⟩
        simp only [visitPermission, hstatus, hG,
          PermissionGraph.permissionToAuthority_some hauth, hf, bind, Except.bind]

theorem tally_total (threshold : UInt32) {es : List MetaPermission}
    (hes : ∀ p, .permissionLevelWeight p ∈ es → p.permission.Named) (t : UInt32) (s : CheckerState) :
    ∃ r s', c.tally evaluate threshold es t s = .ok (r, s') := by
  induction es generalizing t s with
  | nil => exact ⟨false, s, rfl⟩
  | cons e rest ih =>
    have hvisit : ∃ t' s', c.visit evaluate e t s = .ok (t', s') := by
      cases e with
      | waitWeight w => exact ⟨_, _, rfl⟩
      | keyWeight k => exact ⟨_, _, rfl⟩
      | permissionLevelWeight p =>
        exact visitPermission_total hG heval (hes p mem_cons_self) t s
    obtain ⟨t', s', hvisit⟩ := hvisit
    simp only [tally, hvisit, bind, Except.bind]
    by_cases hreached : threshold ≤ t'
    · exact ⟨true, s', if_pos hreached⟩
    · rw [if_neg hreached]
      exact ih (fun p hp => hes p (mem_cons_of_mem _ hp)) t' s'

theorem satisfiedAuthority_total : TotalEvaluate G (c.satisfiedAuthority A evaluate) := by
  intro q a s hq
  have hes : ∀ p, .permissionLevelWeight p ∈ A.list a → p.permission.Named := by
    intro p hp
    exact G.entriesNamed q a hq p (mem_list_iff.mp hp)
  obtain ⟨r, s', htally⟩ := tally_total hG heval a.threshold hes 0 s
  exact ⟨r, if r then s' else { s' with usedKeys := s.usedKeys }, by
    simp only [satisfiedAuthority, htally, bind, Except.bind]⟩

end

theorem evaluator_total (hG : c.permissionToAuthority = G.permissionToAuthority) (n : Nat) :
    ∀ f ∈ c.evaluator A n, TotalEvaluate G f := by
  induction n with
  | zero => nofun
  | succ n ih =>
    intro f hf
    cases hf
    exact satisfiedAuthority_total hG ih

end Total

/-- The checker decides whether there is a derivation that the limit has room for. -/
theorem satisfied_iff_within (hG : c.permissionToAuthority = G.permissionToAuthority)
    (hsafe : DepthSafe G.Child c.recursionDepthLimit root) :
    (∃ c', c.satisfied A root = .ok (true, c')) ↔
      (c.system G).Within c.recursionDepthLimit root := by
  have hexact : ∀ t s, c.visitPermission (c.evaluator A c.recursionDepthLimit) ⟨root, 1⟩ 0
      c.freshState = .ok (t, s) → (0 < t ↔ c.Counts G 0 root) := by
    intro t s hvisit
    obtain ⟨counted, hvisited, ht⟩ := visitPermission_ok hvisit
    have hcounted := (Visited.exact (d := 0) hG hsafe (evaluator_exact hG hsafe 0)
      (fun p hp => by cases hp; exact ⟨.refl _, nofun⟩) (.freshState c G root) hvisited).2
    refine Iff.trans ?_ hcounted
    rw [ht]
    cases counted with
    | true => exact iff_of_true (show (0 : UInt32) < 0 + (1 : UInt16).toUInt32 by decide) rfl
    | false => exact iff_of_false (show ¬ (0 : UInt32) < 0 by decide) Bool.false_ne_true
  constructor
  · rintro ⟨c', h⟩
    simp only [satisfied, bind_eq_ok] at h
    obtain ⟨⟨t, s⟩, hvisit, hok⟩ := h
    refine (hexact t s hvisit).mp ?_
    simp only [Except.ok.injEq, Prod.mk.injEq, decide_eq_true_eq] at hok
    exact hok.1
  · intro h
    have hvisit : ∃ t s, c.visitPermission (c.evaluator A c.recursionDepthLimit) ⟨root, 1⟩ 0
        c.freshState = .ok (t, s) := by
      by_cases hnamed : root.Named
      · exact visitPermission_total hG (evaluator_total hG _) hnamed _ _
      · -- a permission without a name counts only when it is provided
        have hstatus := statusInCache_freshState (q := root) c
        have hgiven : root ∈ c.providedPermissions ∨ ⟨root.actor, 0⟩ ∈ c.providedPermissions := by
          refine Classical.byContradiction fun hgiven => ?_
          refine not_counts_of_missing (d := 0) hgiven ?_ h
          cases hroot : G.authority root with
          | none => rfl
          | some a => exact absurd (G.named root a hroot) hnamed
        rw [if_pos hgiven] at hstatus
        exact ⟨_, _, visitPermission_cached hstatus 0⟩
    obtain ⟨t, s, hvisit⟩ := hvisit
    have hpos := (hexact t s hvisit).mpr h
    refine ⟨{ c with usedKeys := s.usedKeys }, ?_⟩
    simp only [satisfied, hvisit, bind, Except.bind, hpos, decide_true]

end AuthorityChecker

/-- Where every path below a permission has room within the recursion limit, the checker decides
the declarative definition: any predicate that holds of a permission exactly when it is provided
or the weights of all entries of its authority that hold reach the threshold. -/
theorem satisfied_iff_declarative (A : Arrangement) (G : PermissionGraph) (c : AuthorityChecker)
    (hG : c.permissionToAuthority = G.permissionToAuthority) (p : PermissionLevel)
    (hpaths : Fits G.Child c.recursionDepthLimit p) (Satisfied : PermissionLevel → Prop)
    (hSatisfied : ∀ q, Satisfied q ↔
      (G.system c.providedKeys c.providedPermissions c.providedDelay).Step Satisfied q) :
    (∃ c', c.satisfied A p = .ok (true, c')) ↔ Satisfied p := by
  rw [AuthorityChecker.satisfied_iff_within hG hpaths.depthSafe]
  rw [← c.system_child G] at hpaths
  exact hpaths.within_iff hSatisfied (Nat.le_refl _)

theorem PermissionGraph.within_mono (G : PermissionGraph) {keys keys' : List PublicKeyType}
    (hkeys : ∀ k ∈ keys, k ∈ keys') {permissions : List PermissionLevel} {delay : Int} {n : Nat}
    {p : PermissionLevel} (h : (G.system keys permissions delay).Within n p) :
    (G.system keys' permissions delay).Within n p := by
  have hgiven : ∀ q, (G.system keys permissions delay).given q →
      (G.system keys' permissions delay).given q := fun _ hq => hq
  refine h.of_le hgiven ?_
  intro q r hr
  obtain ⟨a, ha, rfl⟩ := Option.map_eq_some_iff.mp hr
  refine ⟨a.rule keys' delay, congrArg (Option.map _) ha, rfl, ?_, rfl⟩
  have hsub : (a.keys.filter fun k => k.key ∈ keys).Sublist
      (a.keys.filter fun k => k.key ∈ keys') := by
    refine List.monotone_filter_right _ ?_
    intro k hk
    simpa using hkeys k.key (by simpa using hk)
  exact Nat.add_le_add_right ((hsub.map _).sum_le_sum fun _ _ => Nat.zero_le _) _

/-- An additional key does not take a permission away when the limit cuts no path off below a
permission that is reached at two depths. -/
theorem satisfied_mono (A : Arrangement) (G : PermissionGraph) (recursionDepthLimit : Nat)
    (keys keys' : List PublicKeyType) (hkeys : ∀ k ∈ keys, k ∈ keys')
    (permissions : List PermissionLevel) (delay : Int) (p : PermissionLevel)
    (hsafe : DepthSafe G.Child recursionDepthLimit p)
    (h : ∃ c', (makeAuthChecker G.permissionToAuthority recursionDepthLimit keys permissions
      delay).satisfied A p = .ok (true, c')) :
    ∃ c', (makeAuthChecker G.permissionToAuthority recursionDepthLimit keys' permissions
      delay).satisfied A p = .ok (true, c') := by
  have hwithin := (AuthorityChecker.satisfied_iff_within (c := makeAuthChecker
    G.permissionToAuthority recursionDepthLimit keys permissions delay) rfl hsafe).mp h
  exact (AuthorityChecker.satisfied_iff_within (c := makeAuthChecker
    G.permissionToAuthority recursionDepthLimit keys' permissions delay) rfl hsafe).mpr
      (G.within_mono hkeys hwithin)

theorem fits_ofTable {table : List (PermissionLevel × Authority)}
    {h : ∀ e ∈ table, e.1.Named ∧ e.2.validate = true ∧ ∀ x ∈ e.2.accounts, x.permission.Named}
    (hall : ∀ e ∈ table, ∀ x ∈ e.2.accounts, 6 - x.permission.actor < 6 - e.1.actor) :
    Fits (PermissionGraph.ofTable table h).Child 6 (sampleLevel 1) := by
  refine fits_of_rank (fun p => 6 - p.actor) ?_ (by decide)
  intro p q hchild
  obtain ⟨e, he, rfl, x, hx, rfl⟩ := PermissionGraph.ofTable_child hchild
  exact hall e he x hx

/-- Permission 5 is reached from permission 1 over 2 and, one step deeper, over 3 and 4. -/
def deepTable : List (PermissionLevel × Authority) :=
  [(sampleLevel 1, sampleAuthority 3 [] [(2, 2), (3, 1)]),
    (sampleLevel 2, sampleAuthority 1 [(2, 2)] [(5, 1)]),
    (sampleLevel 3, sampleAuthority 1 [] [(4, 1)]),
    (sampleLevel 4, sampleAuthority 1 [] [(5, 1)]),
    (sampleLevel 5, sampleAuthority 1 [(1, 1)] [])]

def deepGraph : PermissionGraph := .ofTable deepTable (by decide +kernel)

theorem deepGraph_fits : Fits deepGraph.Child 6 (sampleLevel 1) :=
  fits_ofTable (by decide +kernel)

/-- With one more key permission 2 is satisfied at once, and permission 5 is then out of reach of
the limit; on a cycle the same happens with a limit that is not reached. -/
theorem additionalKey_unsatisfied : verdict deepGraph 3 [sampleKey 1] (sampleLevel 1) = some true ∧
      verdict deepGraph 3 [sampleKey 1, sampleKey 2] (sampleLevel 1) = some false ∧
      verdict cyclicGraph 6 [sampleKey 1] (sampleLevel 1) = some true ∧
      verdict cyclicGraph 6 [sampleKey 1, sampleKey 2] (sampleLevel 1) = some false := by
  decide +kernel

theorem satisfied_mono_deepGraph : ∃ c', (makeAuthChecker deepGraph.permissionToAuthority 6
    [sampleKey 1, sampleKey 2] [] 0).satisfied metaPermissionSet (sampleLevel 1) =
      .ok (true, c') :=
  satisfied_mono metaPermissionSet deepGraph 6 [sampleKey 1] [sampleKey 1, sampleKey 2] (by simp)
    [] 0 (sampleLevel 1) deepGraph_fits.depthSafe (exists_of_verdict (by decide +kernel))

theorem satisfied_iff_declarative_deepGraph :
    (deepGraph.system [sampleKey 1] [] 0).Derivable (sampleLevel 1) :=
  (satisfied_iff_declarative metaPermissionSet deepGraph
    (makeAuthChecker deepGraph.permissionToAuthority 6 [sampleKey 1] [] 0) rfl (sampleLevel 1)
    deepGraph_fits _ fun _ => derivable_iff).mp (exists_of_verdict (by decide +kernel))

end DreamChain
