import DreamChain.Chain.Authority

/-!
The authority checker. It evaluates permissions down to a recursion limit, from the heaviest
entry of an authority to the lightest, stops when the threshold is reached and remembers for
the rest of the call what became of each permission. The keys an authority used are marked;
the marks, but not what is remembered, are taken back when the authority is not satisfied.

The recursion is on the depth that is left, `recursion_depth_limit - recursion_depth`. An
exception leaves the marks as they were before the call.
-/

namespace DreamChain
open Library

inductive PermissionCacheStatus where
  | beingEvaluated
  | permissionUnsatisfied
  | permissionSatisfied
deriving DecidableEq, Repr

abbrev PermissionCacheType := FlatMap PermissionLevel PermissionCacheStatus

def permissionStatusInCache (permissions : PermissionCacheType) (level : PermissionLevel) :
    Option PermissionCacheStatus :=
  match permissions.find? level with
  | some status => some status
  | none => permissions.find? ⟨level.actor, 0⟩

structure AuthorityChecker where
  permissionToAuthority : PermissionLevel → Fallible Authority
  recursionDepthLimit : Nat
  providedKeys : List PublicKeyType
  providedPermissions : List PermissionLevel
  usedKeys : List Bool
  providedDelay : Int

/-- The marks of the keys and the cache, which change while a permission is evaluated. -/
structure CheckerState where
  usedKeys : List Bool
  cachedPermissions : PermissionCacheType

def CheckerState.setStatus (s : CheckerState) (p : PermissionLevel)
    (status : PermissionCacheStatus) : CheckerState :=
  { s with cachedPermissions := s.cachedPermissions.insert p status }

def PermissionCacheStatus.ofResult (r : Bool) : PermissionCacheStatus :=
  if r then .permissionSatisfied else .permissionUnsatisfied

/-- What evaluating an authority does at some depth. -/
abbrev Evaluate := Authority → CheckerState → Fallible (Bool × CheckerState)

def makeAuthChecker (permissionToAuthority : PermissionLevel → Fallible Authority)
    (recursionDepthLimit : Nat) (providedKeys : List PublicKeyType)
    (providedPermissions : List PermissionLevel) (providedDelay : Int) : AuthorityChecker :=
  { permissionToAuthority, recursionDepthLimit, providedKeys, providedPermissions
    usedKeys := List.replicate providedKeys.length false
    providedDelay }

namespace AuthorityChecker

variable (A : Arrangement) (c : AuthorityChecker)

def initializePermissionCache : PermissionCacheType :=
  c.providedPermissions.foldl (fun cache p => cache.insert p .permissionSatisfied) .empty

def visitWait (w : WaitWeight) (totalWeight : UInt32) : UInt32 :=
  if (w.waitSec.toNat : Int) * 1000000 ≤ c.providedDelay then totalWeight + w.weight.toUInt32
  else totalWeight

def visitKey (k : KeyWeight) (totalWeight : UInt32) (s : CheckerState) : UInt32 × CheckerState :=
  match c.providedKeys.findIdx? fun key => key = k.key with
  | some i => (totalWeight + k.weight.toUInt32, { s with usedKeys := s.usedKeys.set i true })
  | none => (totalWeight, s)

/-- `evaluate` is missing where the recursion limit is reached. -/
def visitPermission (evaluate : Option Evaluate) (p : PermissionLevelWeight)
    (totalWeight : UInt32) (s : CheckerState) : Fallible (UInt32 × CheckerState) :=
  match permissionStatusInCache s.cachedPermissions p.permission with
  | some status =>
    .ok (if status = .permissionSatisfied then totalWeight + p.weight.toUInt32 else totalWeight, s)
  | none =>
    match evaluate with
    | none => .ok (totalWeight, s)
    | some evaluate =>
      match c.permissionToAuthority p.permission with
      | .error e => if e.type = .permissionQueryException then .ok (totalWeight, s) else .error e
      | .ok auth => do
        let (r, s') ← evaluate auth (s.setStatus p.permission .beingEvaluated)
        .ok (if r then totalWeight + p.weight.toUInt32 else totalWeight,
          s'.setStatus p.permission (.ofResult r))

def visit (evaluate : Option Evaluate) (e : MetaPermission) (totalWeight : UInt32)
    (s : CheckerState) : Fallible (UInt32 × CheckerState) :=
  match e with
  | .waitWeight w => .ok (c.visitWait w totalWeight, s)
  | .keyWeight k => .ok (c.visitKey k totalWeight s)
  | .permissionLevelWeight p => c.visitPermission evaluate p totalWeight s

def tally (evaluate : Option Evaluate) (threshold : UInt32) :
    List MetaPermission → UInt32 → CheckerState → Fallible (Bool × CheckerState)
  | [], _, s => .ok (false, s)
  | e :: rest, totalWeight, s => do
    let (totalWeight, s) ← c.visit evaluate e totalWeight s
    if threshold ≤ totalWeight then .ok (true, s) else tally evaluate threshold rest totalWeight s

def satisfiedAuthority (evaluate : Option Evaluate) : Evaluate := fun auth s => do
  let (r, s') ← c.tally evaluate auth.threshold (A.list auth) 0 s
  .ok (r, if r then s' else { s' with usedKeys := s.usedKeys })

/-- The evaluation of authorities with the depth that is left. -/
def evaluator : Nat → Option Evaluate
  | 0 => none
  | n + 1 => some (c.satisfiedAuthority A (evaluator n))

def freshState : CheckerState := ⟨c.usedKeys, c.initializePermissionCache⟩

def satisfied (permission : PermissionLevel) : Fallible (Bool × AuthorityChecker) := do
  let (totalWeight, s) ← c.visitPermission (c.evaluator A c.recursionDepthLimit) ⟨permission, 1⟩ 0
    c.freshState
  .ok (decide (0 < totalWeight), { c with usedKeys := s.usedKeys })

def satisfiedAuth (auth : Authority) : Fallible (Bool × AuthorityChecker) := do
  let (r, s) ← c.satisfiedAuthority A (c.evaluator A c.recursionDepthLimit) auth c.freshState
  .ok (r, { c with usedKeys := s.usedKeys })

/-- The overloads with a delay, which holds for the one call. -/
def withDelay (delay : Int)
    (call : AuthorityChecker → Fallible (Bool × AuthorityChecker)) :
    Fallible (Bool × AuthorityChecker) := do
  let (r, c') ← call { c with providedDelay := delay }
  .ok (r, { c' with providedDelay := c.providedDelay })

def allKeysUsed : Bool := c.usedKeys.all id

def keysMarked (usedKeys : List Bool) : List PublicKeyType :=
  ((c.providedKeys.zip usedKeys).filter Prod.snd).map Prod.fst

def getUsedKeys : List PublicKeyType := c.keysMarked c.usedKeys

variable {A c} {evaluate : Option Evaluate}

/-- What visiting an entry can do, and whether the weight of the entry is counted. -/
inductive Visited (c : AuthorityChecker) (evaluate : Option Evaluate) :
    MetaPermission → Bool → CheckerState → CheckerState → Prop
  | wait (w : WaitWeight) (s : CheckerState) : Visited c evaluate (.waitWeight w)
      (decide ((w.waitSec.toNat : Int) * 1000000 ≤ c.providedDelay)) s s
  | key {k i} (s : CheckerState) :
      (c.providedKeys.findIdx? fun key => key = k.key) = some i →
        Visited c evaluate (.keyWeight k) true s { s with usedKeys := s.usedKeys.set i true }
  | keyMissing {k} (s : CheckerState) :
      (c.providedKeys.findIdx? fun key => key = k.key) = none →
        Visited c evaluate (.keyWeight k) false s s
  | cached {p s status} :
      permissionStatusInCache s.cachedPermissions p.permission = some status →
        Visited c evaluate (.permissionLevelWeight p) (decide (status = .permissionSatisfied)) s s
  | tooDeep {p s} :
      permissionStatusInCache s.cachedPermissions p.permission = none → evaluate = none →
        Visited c evaluate (.permissionLevelWeight p) false s s
  | missing {p s e} :
      permissionStatusInCache s.cachedPermissions p.permission = none →
        c.permissionToAuthority p.permission = .error e →
          Visited c evaluate (.permissionLevelWeight p) false s s
  | evaluated {p s s' f auth r} : permissionStatusInCache s.cachedPermissions p.permission = none →
        evaluate = some f → c.permissionToAuthority p.permission = .ok auth →
          f auth (s.setStatus p.permission .beingEvaluated) = .ok (r, s') →
            Visited c evaluate (.permissionLevelWeight p) r s
              (s'.setStatus p.permission (.ofResult r))

variable {t t' : UInt32} {s s' : CheckerState} {r : Bool}

theorem visitPermission_ok {p : PermissionLevelWeight}
    (h : c.visitPermission evaluate p t s = .ok (t', s')) :
    ∃ counted, Visited c evaluate (.permissionLevelWeight p) counted s s' ∧
      t' = if counted then t + p.weight.toUInt32 else t := by
  cases hstatus : permissionStatusInCache s.cachedPermissions p.permission with
  | some status =>
    simp only [visitPermission, hstatus] at h
    cases h
    exact ⟨_, .cached hstatus, by simp⟩
  | none =>
    simp only [visitPermission, hstatus] at h
    cases evaluate with
    | none =>
      cases h
      exact ⟨false, .tooDeep hstatus rfl, rfl⟩
    | some f =>
      cases hauth : c.permissionToAuthority p.permission with
      | error e =>
        simp only [hauth] at h
        split at h
        · cases h
          exact ⟨false, .missing hstatus hauth, rfl⟩
        · cases h
      | ok auth =>
        simp only [hauth, bind_eq_ok] at h
        obtain ⟨⟨r, s₁⟩, heval, hok⟩ := h
        cases hok
        exact ⟨r, .evaluated hstatus rfl hauth heval, rfl⟩

theorem visit_ok {e : MetaPermission} (h : c.visit evaluate e t s = .ok (t', s')) :
    ∃ counted, Visited c evaluate e counted s s' ∧
      t' = if counted then t + e.weight.toUInt32 else t := by
  cases e with
  | waitWeight w =>
    cases h
    exact ⟨_, .wait w s, by simp [visitWait, MetaPermission.weight]⟩
  | keyWeight k =>
    simp only [visit, visitKey] at h
    cases hfind : c.providedKeys.findIdx? fun key => key = k.key with
    | some i =>
      rw [hfind] at h
      cases h
      exact ⟨true, .key s hfind, rfl⟩
    | none =>
      rw [hfind] at h
      cases h
      exact ⟨false, .keyMissing s hfind, rfl⟩
  | permissionLevelWeight p => exact visitPermission_ok h

/-- The rule for the loop: `Q` relates the entries visited so far, their weight and the state. An
entry is visited only as long as the threshold is not reached. -/
theorem tally_rule (Q : List MetaPermission → UInt32 → CheckerState → Prop) {threshold : UInt32}
    {all : List MetaPermission} (hstep : ∀ done e rest counted t u u', all = done ++ e :: rest →
      ¬ threshold ≤ t → Q done t u → Visited c evaluate e counted u u' →
        Q (done ++ [e]) (if counted then t + e.weight.toUInt32 else t) u')
    {es done : List MetaPermission} (hall : all = done ++ es) (hQ : Q done t s)
    (ht : ¬ threshold ≤ t) (h : c.tally evaluate threshold es t s = .ok (r, s')) :
    ∃ done rest t, all = done ++ rest ∧ Q done t s' ∧
      ((r = true ∧ threshold ≤ t) ∨ (r = false ∧ rest = [] ∧ ¬ threshold ≤ t)) := by
  induction es generalizing done t s with
  | nil =>
    cases h
    exact ⟨done, [], t, hall, hQ, .inr ⟨rfl, rfl, ht⟩⟩
  | cons e rest ih =>
    simp only [tally, bind_eq_ok] at h
    obtain ⟨⟨t₁, s₁⟩, hvisit, h⟩ := h
    obtain ⟨counted, hvisited, ht₁⟩ := visit_ok hvisit
    have hQ₁ := hstep done e rest counted t s s₁ hall ht hQ hvisited
    rw [← ht₁] at hQ₁
    have hall₁ : all = (done ++ [e]) ++ rest := by simpa using hall
    by_cases hreached : threshold ≤ t₁
    · rw [if_pos hreached] at h
      cases h
      exact ⟨done ++ [e], rest, t₁, hall₁, hQ₁, .inl ⟨rfl, hreached⟩⟩
    · rw [if_neg hreached] at h
      exact ih hall₁ hQ₁ hreached h

/-- The same for an authority, with what the source does after the loop. -/
theorem satisfiedAuthority_rule (Q : List MetaPermission → UInt32 → CheckerState → Prop)
    {auth : Authority} (hthreshold : 0 < auth.threshold.toNat)
    (hstep : ∀ done e rest counted t u u', A.list auth = done ++ e :: rest →
      t.toNat < auth.threshold.toNat → Q done t u → Visited c evaluate e counted u u' →
        Q (done ++ [e]) (if counted then t + e.weight.toUInt32 else t) u') (hQ : Q [] 0 s)
    (h : c.satisfiedAuthority A evaluate auth s = .ok (r, s')) :
    ∃ s₁ done rest t, A.list auth = done ++ rest ∧ Q done t s₁ ∧
      s' = (if r then s₁ else { s₁ with usedKeys := s.usedKeys }) ∧
      ((r = true ∧ auth.threshold.toNat ≤ t.toNat) ∨
        (r = false ∧ rest = [] ∧ t.toNat < auth.threshold.toNat)) := by
  simp only [satisfiedAuthority, bind_eq_ok] at h
  obtain ⟨⟨r₁, s₁⟩, htally, hok⟩ := h
  cases hok
  obtain ⟨done, rest, t, hsplit, hdone, hr⟩ := tally_rule Q
    (fun done e rest counted t u u' hsplit ht =>
      hstep done e rest counted t u u' hsplit (Nat.not_le.mp ht))
    (List.nil_append _).symm hQ (Nat.not_le.mpr hthreshold) htally
  refine ⟨s₁, done, rest, t, hsplit, hdone, rfl, ?_⟩
  cases hr with
  | inl htrue => exact .inl htrue
  | inr hfalse => exact .inr ⟨hfalse.1, hfalse.2.1, Nat.not_le.mp hfalse.2.2⟩

end AuthorityChecker

end DreamChain
