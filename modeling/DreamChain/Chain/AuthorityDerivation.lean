import DreamChain.Chain.AuthorityChecker

/-!
What the authority checker is for: the permissions that can be derived from the keys, the
permissions and the delay that were provided. The permission graph with these is a system of
threshold rules; a permission is provided by itself or by its actor with the empty name.

Whatever the checker calls satisfied has a derivation, on every graph: an entry of the cache
is set to satisfied only after its own authority was, and one that is still being evaluated
counts for nothing.
-/

namespace DreamChain
open Library ThresholdSystem List AuthorityChecker

namespace MetaPermission

def Holds (keys : List PublicKeyType) (delay : Int) (P : PermissionLevel → Prop) :
    MetaPermission → Prop
  | permissionLevelWeight p => P p.permission
  | keyWeight k => k.key ∈ keys
  | waitWeight w => (w.waitSec.toNat : Int) * 1000000 ≤ delay

/-- Entries with their weights, as the parts of a rule. -/
def weighted (l : List MetaPermission) : List (MetaPermission × Nat) :=
  l.map fun e => (e, e.weight.toNat)

theorem weighted_append (l l' : List MetaPermission) :
    weighted (l ++ l') = weighted l ++ weighted l' :=
  map_append

theorem sum_weighted_le (l : List MetaPermission) :
    ((weighted l).map Prod.snd).sum ≤ l.length * (2 ^ 16 - 1) := by
  induction l with
  | nil => exact Nat.le_refl 0
  | cons e l ih =>
    have hlt : e.weight.toNat < 2 ^ 16 := e.weight.toNat_lt
    simp only [weighted, map_cons, sum_cons, length_cons] at ih ⊢
    omega

end MetaPermission

open MetaPermission (Holds weighted weighted_append sum_weighted_le)

/-- The keys and waits of an authority that count are its own weight. -/
def Authority.rule (a : Authority) (keys : List PublicKeyType) (delay : Int) :
    ThresholdRule PermissionLevel where
  threshold := a.threshold.toNat
  own := ((a.keys.filter fun k => k.key ∈ keys).map fun k => k.weight.toNat).sum +
    ((a.waits.filter fun w => (w.waitSec.toNat : Int) * 1000000 ≤ delay).map
      fun w => w.weight.toNat).sum
  parts := a.accounts.map fun p => (p.permission, p.weight.toNat)

def PermissionGraph.system (G : PermissionGraph) (keys : List PublicKeyType)
    (permissions : List PermissionLevel) (delay : Int) : ThresholdSystem PermissionLevel where
  given p := p ∈ permissions ∨ ⟨p.actor, 0⟩ ∈ permissions
  rule p := (G.authority p).map fun a => a.rule keys delay

def PermissionGraph.Child (G : PermissionGraph) (p q : PermissionLevel) : Prop :=
  ∃ a, G.authority p = some a ∧ ∃ e ∈ a.accounts, e.permission = q

theorem PermissionGraph.system_child (G : PermissionGraph) (keys : List PublicKeyType)
    (permissions : List PermissionLevel) (delay : Int) :
    (G.system keys permissions delay).Child = G.Child := by
  funext p q
  apply propext
  constructor
  · rintro ⟨r, hr, w, hw⟩
    obtain ⟨a, ha, rfl⟩ := Option.map_eq_some_iff.mp hr
    obtain ⟨e, he, heq⟩ := mem_map.mp hw
    exact ⟨a, ha, e, he, congrArg Prod.fst heq⟩
  · rintro ⟨a, ha, e, he, rfl⟩
    exact ⟨_, congrArg (Option.map _) ha, _, mem_map.mpr ⟨e, he, rfl⟩⟩

variable {p : PermissionLevel}

theorem PermissionGraph.ofTable_child {table : List (PermissionLevel × Authority)}
    {h : ∀ e ∈ table, e.1.Named ∧ e.2.validate = true ∧ ∀ x ∈ e.2.accounts, x.permission.Named}
    {q : PermissionLevel} (hchild : (ofTable table h).Child p q) :
    ∃ e ∈ table, e.1 = p ∧ ∃ x ∈ e.2.accounts, x.permission = q := by
  obtain ⟨a, ha, x, hx, hq⟩ := hchild
  obtain ⟨e, he, rfl⟩ := Option.map_eq_some_iff.mp ha
  exact ⟨e, mem_of_find?_eq_some he, by simpa using find?_some he, x, hx, hq⟩

variable {a : Authority} {t : UInt32}

namespace Authority

variable {keys : List PublicKeyType} {delay : Int} {P : PermissionLevel → Prop}

theorem weight_map {α : Type} (f : α → MetaPermission) (test : α → Bool)
    (htest : ∀ x, Holds keys delay P (f x) ↔ test x = true) (l : List α) :
    weight (Holds keys delay P) (weighted (l.map f)) =
      ((l.filter test).map fun x => (f x).weight.toNat).sum := by
  induction l with
  | nil => rfl
  | cons x l ih =>
    rw [map_cons, weighted, map_cons]
    by_cases hx : test x = true
    · rw [weight_cons_pos ((htest x).mpr hx), filter_cons_of_pos hx, map_cons]
      exact congrArg _ ih
    · rw [weight_cons_neg (fun h => hx ((htest x).mp h)), filter_cons_of_neg hx]
      exact ih

theorem weight_accounts (l : List PermissionLevelWeight) :
    weight (Holds keys delay P) (weighted (l.map .permissionLevelWeight)) =
      weight P (l.map fun p => (p.permission, p.weight.toNat)) := by
  simp only [weight, weighted, map_map]
  rfl

theorem weight_entries (a : Authority) : weight (Holds keys delay P) (weighted a.entries) =
      (a.rule keys delay).own + weight P (a.rule keys delay).parts := by
  rw [entries, weighted_append, weighted_append, weight_append, weight_append, weight_accounts,
    weight_map .keyWeight (fun k => k.key ∈ keys) (by simp [Holds]),
    weight_map .waitWeight (fun w => (w.waitSec.toNat : Int) * 1000000 ≤ delay)
      (by simp [Holds])]
  simp only [rule, MetaPermission.weight]
  omega

theorem reached_iff (A : Arrangement) (a : Authority) : Reached (a.rule keys delay) P ↔
      a.threshold.toNat ≤ weight (Holds keys delay P) (weighted (A.list a)) := by
  have hperm : (weighted (A.list a)).Perm (weighted a.entries) := (A.perm a).map _
  rw [weight_perm _ hperm, weight_entries]
  rfl

theorem sum_list_lt (h : a.validate = true) (A : Arrangement) :
    ((weighted (A.list a)).map Prod.snd).sum < 2 ^ 32 := by
  have hsum := sum_weighted_le (A.list a)
  have hlength := validate_length h
  rw [(A.perm a).length_eq] at hsum
  omega

theorem weight_done_le (h : a.validate = true) {A : Arrangement}
    {done rest : List MetaPermission} (hsplit : A.list a = done ++ rest)
    (H : MetaPermission → Prop) : weight H (weighted done) < 2 ^ 32 := by
  have hsum := sum_list_lt h A
  rw [hsplit, weighted_append, map_append, sum_append] at hsum
  have hle := weight_le H (weighted done)
  omega

end Authority

theorem toNat_add_weight {w : UInt16} (h : t.toNat + w.toNat < 2 ^ 32) :
    (t + w.toUInt32).toNat = t.toNat + w.toNat := by
  rw [UInt32.toNat_add, UInt16.toNat_toUInt32, Nat.mod_eq_of_lt h]

variable {e : MetaPermission} {counted : Bool}

/-- One more entry of a valid authority is visited. The weight so far stays within that of the
entries that count, and stays equal to it. -/
theorem toNat_tally {A : Arrangement} {H : MetaPermission → Prop} {done rest : List MetaPermission}
    (hvalid : a.validate = true) (hsplit : A.list a = done ++ e :: rest)
    (hcounted : counted = true → H e) (ht : t.toNat ≤ weight H (weighted done)) :
    (if counted then t + e.weight.toUInt32 else t).toNat ≤ weight H (weighted (done ++ [e])) ∧
      ((H e → counted = true) → weight H (weighted done) ≤ t.toNat →
        weight H (weighted (done ++ [e])) ≤
          (if counted then t + e.weight.toUInt32 else t).toNat) := by
  have hsplit' : A.list a = (done ++ [e]) ++ rest := by simpa using hsplit
  have hbound := Authority.weight_done_le hvalid hsplit' H
  rw [weighted_append, weight_append] at hbound ⊢
  cases counted with
  | false =>
    refine ⟨Nat.le_trans ht (Nat.le_add_right _ _), fun he hle => ?_⟩
    have hsingle : weight H (weighted [e]) = 0 :=
      weight_cons_neg (fun h => Bool.false_ne_true (he h)) []
    rwa [hsingle]
  | true =>
    have hsingle : weight H (weighted [e]) = e.weight.toNat := weight_cons_pos (hcounted rfl) []
    rw [if_pos rfl, toNat_add_weight (by omega)]
    omega

section Cache

variable {s : CheckerState} {p q : PermissionLevel}

theorem statusInCache_setStatus (hp : p.permission ≠ 0) (status : PermissionCacheStatus) :
    permissionStatusInCache (s.setStatus p status).cachedPermissions q =
      if p = q then some status else permissionStatusInCache s.cachedPermissions q := by
  have hempty : p ≠ ⟨q.actor, 0⟩ := by
    intro heq
    exact hp (congrArg PermissionLevel.permission heq)
  simp only [permissionStatusInCache, CheckerState.setStatus, FlatMap.find?_insert, if_neg hempty]
  by_cases hpq : p = q
  · simp only [if_pos hpq]
  · simp only [if_neg hpq]

theorem find?_initializeCache (permissions : List PermissionLevel) (cache : PermissionCacheType) :
    (permissions.foldl (fun cache p => cache.insert p .permissionSatisfied) cache).find? q =
      if q ∈ permissions then some .permissionSatisfied else cache.find? q := by
  induction permissions generalizing cache with
  | nil => simp
  | cons p permissions ih =>
    rw [foldl_cons, ih, FlatMap.find?_insert]
    by_cases hq : q ∈ permissions
    · simp [hq]
    · by_cases hp : p = q
      · simp [hp]
      · simp [hp, Ne.symm hp]

theorem statusInCache_freshState (c : AuthorityChecker) :
    permissionStatusInCache c.freshState.cachedPermissions q =
      if q ∈ c.providedPermissions ∨ ⟨q.actor, 0⟩ ∈ c.providedPermissions
        then some .permissionSatisfied else none := by
  simp only [permissionStatusInCache, freshState,
    initializePermissionCache, find?_initializeCache]
  by_cases hq : q ∈ c.providedPermissions
  · simp [hq]
  · by_cases hactor : (⟨q.actor, 0⟩ : PermissionLevel) ∈ c.providedPermissions
    · simp [hq, hactor]
    · simp [hq, hactor]

end Cache

namespace AuthorityChecker

variable {A : Arrangement} {c : AuthorityChecker} {G : PermissionGraph}

def system (c : AuthorityChecker) (G : PermissionGraph) : ThresholdSystem PermissionLevel :=
  G.system c.providedKeys c.providedPermissions c.providedDelay

def CacheSound (c : AuthorityChecker) (G : PermissionGraph) (s : CheckerState) : Prop :=
  ∀ q, permissionStatusInCache s.cachedPermissions q = some .permissionSatisfied →
    (c.system G).Derivable q

theorem CacheSound.setStatus {s : CheckerState} (h : CacheSound c G s)
    (hp : p.permission ≠ 0) {status : PermissionCacheStatus}
    (hstatus : status = .permissionSatisfied → (c.system G).Derivable p) :
    CacheSound c G (s.setStatus p status) := by
  intro q hq
  rw [statusInCache_setStatus hp] at hq
  by_cases hpq : p = q
  · rw [if_pos hpq] at hq
    exact hpq ▸ hstatus (Option.some.inj hq)
  · rw [if_neg hpq] at hq
    exact h q hq

theorem cacheSound_freshState (c : AuthorityChecker) (G : PermissionGraph) :
    CacheSound c G c.freshState := by
  intro q hq
  rw [statusInCache_freshState] at hq
  split at hq
  · rename_i hgiven
    exact .given hgiven
  · cases hq

/-- Evaluating authorities of the graph keeps the cache sound and only accepts what is
derivable. -/
def SoundEvaluate (c : AuthorityChecker) (G : PermissionGraph) (f : Evaluate) : Prop :=
  ∀ p a s r s', G.authority p = some a → CacheSound c G s → f a s = .ok (r, s') →
    CacheSound c G s' ∧ (r = true → (c.system G).Derivable p)

def TallySound (c : AuthorityChecker) (G : PermissionGraph) (done : List MetaPermission)
    (t : UInt32) (u : CheckerState) : Prop :=
  CacheSound c G u ∧
    t.toNat ≤ weight (Holds c.providedKeys c.providedDelay (c.system G).Derivable) (weighted done)

theorem mem_of_findIdx? {keys : List PublicKeyType} {key : PublicKeyType} {i : Nat}
    (h : (keys.findIdx? fun k => k = key) = some i) : keys[i]? = some key := by
  obtain ⟨hlt, hkey, _⟩ := findIdx?_eq_some_iff_getElem.mp h
  rw [getElem?_eq_getElem hlt]
  exact congrArg some (of_decide_eq_true hkey)

section

variable (hG : c.permissionToAuthority = G.permissionToAuthority)
include hG

variable {evaluate : Option Evaluate}

section

variable (heval : ∀ f ∈ evaluate, SoundEvaluate c G f)
include heval

theorem Visited.sound {s s' : CheckerState} (hs : CacheSound c G s)
    (h : Visited c evaluate e counted s s') : CacheSound c G s' ∧
      (counted = true → Holds c.providedKeys c.providedDelay (c.system G).Derivable e) := by
  cases h with
  | wait w => exact ⟨hs, of_decide_eq_true⟩
  | key _ hfind => exact ⟨hs, fun _ => mem_of_getElem? (mem_of_findIdx? hfind)⟩
  | keyMissing => exact ⟨hs, nofun⟩
  | cached hstatus =>
    refine ⟨hs, fun hcounted => hs _ ?_⟩
    rw [hstatus, of_decide_eq_true hcounted]
  | tooDeep => exact ⟨hs, nofun⟩
  | missing => exact ⟨hs, nofun⟩
  | @evaluated p _ s₁ f auth _ _ hf hauth hrun =>
    rw [hG] at hauth
    have hp := PermissionGraph.permissionToAuthority_ok hauth
    have hname := (G.named _ _ hp).2
    have hbeing : CacheSound c G (s.setStatus p.permission .beingEvaluated) :=
      hs.setStatus hname fun hstatus => by cases hstatus
    obtain ⟨hs₁, hr⟩ := heval f hf _ _ _ _ _ hp hbeing hrun
    refine ⟨hs₁.setStatus hname ?_, hr⟩
    intro hstatus
    cases counted with
    | true => exact hr rfl
    | false => cases hstatus

theorem TallySound.visit {done rest u u'}
    (hvalid : a.validate = true) (hsplit : A.list a = done ++ e :: rest)
    (h : TallySound c G done t u) (hvisited : Visited c evaluate e counted u u') :
    TallySound c G (done ++ [e]) (if counted then t + e.weight.toUInt32 else t) u' := by
  obtain ⟨hu', hcounted⟩ := hvisited.sound hG heval h.1
  exact ⟨hu', (toNat_tally hvalid hsplit hcounted h.2).1⟩

theorem satisfiedAuthority_sound : SoundEvaluate c G (c.satisfiedAuthority A evaluate) := by
  intro p a s r s' hp hs h
  have hvalid := G.valid p a hp
  obtain ⟨s₁, done, rest, t, hsplit, ⟨hs₁, ht⟩, hs', hr⟩ := satisfiedAuthority_rule
    (TallySound c G) (Authority.validate_threshold hvalid)
    (fun done e rest counted t u u' hsplit _ hQ hvisited => hQ.visit hG heval hvalid hsplit hvisited)
    ⟨hs, Nat.le_refl 0⟩ h
  have hcache : CacheSound c G s' := by
    rw [hs']
    split
    · exact hs₁
    · exact hs₁
  refine ⟨hcache, ?_⟩
  intro hrtrue
  cases hr with
  | inr hfalse =>
    rw [hrtrue] at hfalse
    cases hfalse.1
  | inl htrue =>
    refine derivable_iff.mpr (.inr ⟨a.rule c.providedKeys c.providedDelay, ?_, ?_⟩)
    · exact congrArg (Option.map _) hp
    · rw [Authority.reached_iff A, hsplit, weighted_append, weight_append]
      omega

end

theorem evaluator_sound (n : Nat) : ∀ f ∈ c.evaluator A n, SoundEvaluate c G f := by
  induction n with
  | zero => nofun
  | succ n ih =>
    intro f hf
    cases hf
    exact satisfiedAuthority_sound hG ih

theorem derivable_of_satisfied {c' : AuthorityChecker}
    (h : c.satisfied A p = .ok (true, c')) : (c.system G).Derivable p := by
  simp only [satisfied, bind_eq_ok] at h
  obtain ⟨⟨t, s⟩, hvisit, hok⟩ := h
  obtain ⟨counted, hvisited, ht⟩ := visitPermission_ok hvisit
  have hsound := (hvisited.sound hG (evaluator_sound hG _) (cacheSound_freshState c G)).2
  cases counted with
  | true => exact hsound rfl
  | false =>
    subst ht
    cases hok

end

end AuthorityChecker

inductive CheckerCall where
  | permission (p : PermissionLevel) (overrideDelay : Option Int)
  | authority (a : Authority) (overrideDelay : Option Int)

namespace AuthorityChecker

variable (A : Arrangement)

def withOverride (c : AuthorityChecker) (overrideDelay : Option Int)
    (call : AuthorityChecker → Fallible (Bool × AuthorityChecker)) :
    Fallible (Bool × AuthorityChecker) :=
  match overrideDelay with
  | some delay => c.withDelay delay call
  | none => call c

def call (c : AuthorityChecker) : CheckerCall → Fallible (Bool × AuthorityChecker)
  | .permission p overrideDelay => c.withOverride overrideDelay fun c => c.satisfied A p
  | .authority a overrideDelay => c.withOverride overrideDelay fun c => c.satisfiedAuth A a

/-- The checker after a sequence of calls, some of which may throw. -/
def afterCalls (c : AuthorityChecker) (calls : List CheckerCall) : AuthorityChecker :=
  calls.foldl (fun c call => ((c.call A call).toOption.map Prod.snd).getD c) c

variable {A} {c c' : AuthorityChecker} {r : Bool}

/-- Calls change nothing but the marks of the keys. -/
def SameSetup (c c' : AuthorityChecker) : Prop := ∃ usedKeys, c' = { c with usedKeys }

theorem withOverride_sameSetup
    {call : AuthorityChecker → Fallible (Bool × AuthorityChecker)}
    (hcall : ∀ c r c', call c = .ok (r, c') → SameSetup c c') {overrideDelay : Option Int}
    (h : c.withOverride overrideDelay call = .ok (r, c')) : SameSetup c c' := by
  cases overrideDelay with
  | none => exact hcall _ _ _ h
  | some delay =>
    simp only [withOverride, withDelay, bind_eq_ok] at h
    obtain ⟨⟨r₁, c₁⟩, hrun, hok⟩ := h
    cases hok
    obtain ⟨usedKeys, rfl⟩ := hcall _ _ _ hrun
    exact ⟨usedKeys, rfl⟩

theorem call_sameSetup {x : CheckerCall} (h : c.call A x = .ok (r, c')) : SameSetup c c' := by
  cases x with
  | permission p overrideDelay =>
    refine withOverride_sameSetup (fun c r c' h => ?_) h
    simp only [satisfied, bind_eq_ok] at h
    obtain ⟨_, _, hok⟩ := h
    cases hok
    exact ⟨_, rfl⟩
  | authority a overrideDelay =>
    refine withOverride_sameSetup (fun c r c' h => ?_) h
    simp only [satisfiedAuth, bind_eq_ok] at h
    obtain ⟨_, _, hok⟩ := h
    cases hok
    exact ⟨_, rfl⟩

theorem afterCalls_sameSetup (c : AuthorityChecker) (calls : List CheckerCall) :
    SameSetup c (c.afterCalls A calls) := by
  induction calls generalizing c with
  | nil => exact ⟨c.usedKeys, rfl⟩
  | cons x calls ih =>
    have hone : SameSetup c (((c.call A x).toOption.map Prod.snd).getD c) := by
      cases hx : c.call A x with
      | error e => exact ⟨c.usedKeys, rfl⟩
      | ok result => exact call_sameSetup (r := result.1) hx
    obtain ⟨marks, hone⟩ := hone
    obtain ⟨marks', hrest⟩ := ih (((c.call A x).toOption.map Prod.snd).getD c)
    refine ⟨marks', hrest.trans ?_⟩
    rw [hone]

end AuthorityChecker

/-- Whenever a checker calls a permission satisfied, after whatever calls, the permission has a
derivation from what was provided and the delay in force. -/
theorem satisfied_sound (A : Arrangement) (G : PermissionGraph) (recursionDepthLimit : Nat)
    (keys : List PublicKeyType) (permissions : List PermissionLevel) (delay : Int)
    (calls : List CheckerCall) (p : PermissionLevel) (overrideDelay : Option Int)
    (c' : AuthorityChecker)
    (h : ((makeAuthChecker G.permissionToAuthority recursionDepthLimit keys permissions
      delay).afterCalls A calls).call A (.permission p overrideDelay) = .ok (true, c')) :
    (G.system keys permissions (overrideDelay.getD delay)).Derivable p := by
  obtain ⟨marks, hsetup⟩ := afterCalls_sameSetup (A := A)
    (makeAuthChecker G.permissionToAuthority recursionDepthLimit keys permissions delay) calls
  rw [hsetup] at h
  cases overrideDelay with
  | none => exact derivable_of_satisfied (G := G) rfl h
  | some delay' =>
    simp only [call, withOverride, withDelay,
      bind_eq_ok] at h
    obtain ⟨⟨r, c₁⟩, hcall, hok⟩ := h
    cases hok
    exact derivable_of_satisfied (G := G) rfl hcall

def sampleLevel (n : Nat) : PermissionLevel := ⟨n, 1⟩

def sampleKey (n : UInt8) : PublicKeyType := [n]

def sampleAuthority (threshold : UInt32) (keys : List (UInt8 × UInt16))
    (accounts : List (Nat × UInt16)) : Authority where
  threshold
  keys := keys.map fun k => ⟨sampleKey k.1, k.2⟩
  accounts := accounts.map fun p => ⟨sampleLevel p.1, p.2⟩

def verdict (G : PermissionGraph) (recursionDepthLimit : Nat) (keys : List PublicKeyType)
    (p : PermissionLevel) : Option Bool :=
  ((makeAuthChecker G.permissionToAuthority recursionDepthLimit keys [] 0).satisfied
    metaPermissionSet p).toOption.map Prod.fst

theorem exists_of_verdict {G recursionDepthLimit keys r} (h : verdict G recursionDepthLimit keys p = some r) :
    ∃ c', (makeAuthChecker G.permissionToAuthority recursionDepthLimit keys [] 0).satisfied
      metaPermissionSet p = .ok (r, c') := by
  rw [verdict] at h
  cases hrun : (makeAuthChecker G.permissionToAuthority recursionDepthLimit keys [] 0).satisfied
      metaPermissionSet p with
  | error e =>
    rw [hrun] at h
    cases h
  | ok result =>
    rw [hrun] at h
    exact ⟨result.2, by rw [← Option.some.inj h]⟩

/-- Permissions 3 and 4 are in each other's authorities. -/
def cyclicGraph : PermissionGraph :=
  .ofTable [(sampleLevel 1, sampleAuthority 6 [] [(2, 3), (3, 2), (4, 1)]),
    (sampleLevel 2, sampleAuthority 1 [(2, 2)] [(4, 1)]),
    (sampleLevel 3, sampleAuthority 1 [(1, 1)] [(4, 2)]),
    (sampleLevel 4, sampleAuthority 1 [] [(3, 1)])] (by decide +kernel)

/-- A permission that is reached through the cycle has a derivation. -/
theorem satisfied_sound_cyclicGraph :
    (cyclicGraph.system [sampleKey 1] [] 0).Derivable (sampleLevel 1) := by
  obtain ⟨c', h⟩ := exists_of_verdict
    (show verdict cyclicGraph 6 [sampleKey 1] (sampleLevel 1) = some true by decide +kernel)
  exact satisfied_sound metaPermissionSet cyclicGraph 6 [sampleKey 1] [] 0 [] (sampleLevel 1) none
    c' h

end DreamChain
