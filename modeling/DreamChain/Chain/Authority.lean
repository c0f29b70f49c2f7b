import DreamChain.Chain.Types
import DreamChain.Library.ThresholdSystem

/-!
Authorities: a threshold with weighted keys, permissions and waits. `validate` accepts those
whose entries are sorted without repetition, whose threshold can be reached and which are
short enough that the weights of their entries add up without overflow.

A permission graph gives some permission levels an authority. The native actions that store
an authority only accept valid ones, whose entries have an actor and a permission name.
-/

namespace DreamChain
open Library List

abbrev PermissionName := Nat

structure PermissionLevel where
  actor : AccountName
  permission : PermissionName
deriving DecidableEq, Repr, Inhabited

namespace PermissionLevel

def names (p : PermissionLevel) : Nat ×ₗ Nat := toLex (p.actor, p.permission)

theorem names_injective : Function.Injective names := by
  intro a b h
  cases a
  cases b
  simpa [names] using h

instance : LinearOrder PermissionLevel := LinearOrder.lift' names names_injective

/-- Neither name is empty, which `get_permission` asks for. -/
def Named (p : PermissionLevel) : Prop := p.actor ≠ 0 ∧ p.permission ≠ 0

instance (p : PermissionLevel) : Decidable p.Named := inferInstanceAs (Decidable (_ ∧ _))

end PermissionLevel

structure PermissionLevelWeight where
  permission : PermissionLevel
  weight : UInt16
deriving DecidableEq, Repr

structure KeyWeight where
  key : PublicKeyType
  weight : UInt16
deriving DecidableEq, Repr

structure WaitWeight where
  waitSec : UInt32
  weight : UInt16
deriving DecidableEq, Repr

structure Authority where
  threshold : UInt32 := 0
  keys : List KeyWeight := []
  accounts : List PermissionLevelWeight := []
  waits : List WaitWeight := []
deriving DecidableEq, Repr, Inhabited

inductive MetaPermission where
  | permissionLevelWeight (p : PermissionLevelWeight)
  | keyWeight (k : KeyWeight)
  | waitWeight (w : WaitWeight)
deriving DecidableEq, Repr

namespace MetaPermission

def weight : MetaPermission → UInt16
  | permissionLevelWeight p => p.weight
  | keyWeight k => k.weight
  | waitWeight w => w.weight

/-- The index of the type in the variant. -/
def which : MetaPermission → Nat
  | permissionLevelWeight _ => 0
  | keyWeight _ => 1
  | waitWeight _ => 2

/-- The order of `meta_permission_comparator`, where equivalent elements are related both
ways. -/
def NotAfter (a b : MetaPermission) : Prop :=
  b.weight.toNat < a.weight.toNat ∨ (b.weight.toNat = a.weight.toNat ∧ b.which ≤ a.which)

instance (a b : MetaPermission) : Decidable (NotAfter a b) :=
  inferInstanceAs (Decidable (_ ∨ _))

instance : Std.Total NotAfter where
  total a b := by
    simp only [NotAfter]
    omega

instance : IsTrans MetaPermission NotAfter where
  trans a b c hab hbc := by
    simp only [NotAfter] at *
    omega

end MetaPermission

namespace Authority

def entries (a : Authority) : List MetaPermission :=
  a.waits.map .waitWeight ++ a.keys.map .keyWeight ++ a.accounts.map .permissionLevelWeight

/-- The sum of the weights, as the 32-bit number the source adds them up in. -/
def totalWeight (a : Authority) : UInt32 :=
  a.waits.foldl (fun t w => t + w.weight.toUInt32)
    (a.accounts.foldl (fun t p => t + p.weight.toUInt32)
      (a.keys.foldl (fun t k => t + k.weight.toUInt32) 0))

def validate (a : Authority) : Bool :=
  decide (a.keys.length + a.accounts.length + a.waits.length ≤ 2 ^ 16) &&
  decide (a.threshold ≠ 0) &&
  decide ((a.keys.map KeyWeight.key).IsChain (· < ·)) &&
  decide ((a.accounts.map PermissionLevelWeight.permission).IsChain (· < ·)) &&
  decide (a.waits.head?.map WaitWeight.waitSec ≠ some 0) &&
  decide ((a.waits.map WaitWeight.waitSec).IsChain (· < ·)) &&
  decide (a.threshold ≤ a.totalWeight)

variable {a : Authority}

theorem validate_length (h : a.validate = true) : a.entries.length ≤ 2 ^ 16 := by
  simp only [validate, Bool.and_eq_true, decide_eq_true_eq] at h
  simp only [entries, length_append, length_map]
  omega

theorem validate_threshold (h : a.validate = true) : 0 < a.threshold.toNat := by
  simp only [validate, Bool.and_eq_true, decide_eq_true_eq] at h
  refine Nat.pos_of_ne_zero fun hzero => h.1.1.1.1.1.2 ?_
  exact UInt32.toNat_inj.mp hzero

end Authority

/-- A way to list the entries of an authority by descending weight. The set in the source
leaves the order of equivalent entries to its implementation. -/
structure Arrangement where
  list : Authority → List MetaPermission
  perm : ∀ a, (list a).Perm a.entries
  descending : ∀ a, (list a).Pairwise fun x y => y.weight.toNat ≤ x.weight.toNat

/-- The entries of a `meta_permission_set` whose insertions keep the order of equivalents. -/
def metaPermissionSet : Arrangement where
  list a := a.entries.insertionSort MetaPermission.NotAfter
  perm a := perm_insertionSort _ _
  descending a := (pairwise_insertionSort _ _).imp fun h => by
    simp only [MetaPermission.NotAfter] at h
    omega

structure PermissionGraph where
  authority : PermissionLevel → Option Authority
  named : ∀ p a, authority p = some a → p.Named
  valid : ∀ p a, authority p = some a → a.validate = true
  entriesNamed : ∀ p a, authority p = some a → ∀ e ∈ a.accounts, e.permission.Named

namespace PermissionGraph

/-- `get_permission(p).auth`. A missing permission is an exception of the database, which is
rethrown as a failed query; an empty name is a failed assertion, which is not. -/
def permissionToAuthority (G : PermissionGraph) (p : PermissionLevel) : Fallible Authority := do
  eosAssert p.Named .invalidPermission "Invalid permission"
  match G.authority p with
  | some a => .ok a
  | none => .error ⟨.permissionQueryException, "Failed to retrieve permission: ${level}"⟩

variable {G : PermissionGraph} {p : PermissionLevel} {a : Authority}

theorem permissionToAuthority_some (h : G.authority p = some a) :
    G.permissionToAuthority p = .ok a := by
  have hnamed := G.named p a h
  simp [permissionToAuthority, eosAssert, hnamed, h, bind, Except.bind]

theorem permissionToAuthority_none (hp : p.Named) (h : G.authority p = none) :
    G.permissionToAuthority p =
      .error ⟨.permissionQueryException, "Failed to retrieve permission: ${level}"⟩ := by
  simp [permissionToAuthority, eosAssert, hp, h, bind, Except.bind]

theorem permissionToAuthority_ok (h : G.permissionToAuthority p = .ok a) :
    G.authority p = some a := by
  simp only [permissionToAuthority, bind_eq_ok] at h
  obtain ⟨_, _, h⟩ := h
  cases hp : G.authority p with
  | none =>
    rw [hp] at h
    cases h
  | some a' =>
    rw [hp] at h
    rw [Except.ok.inj h]

def ofTable (table : List (PermissionLevel × Authority))
    (h : ∀ e ∈ table, e.1.Named ∧ e.2.validate = true ∧ ∀ x ∈ e.2.accounts, x.permission.Named) :
    PermissionGraph where
  authority p := (table.find? fun e => e.1 = p).map Prod.snd
  named p a ha := by
    obtain ⟨e, he, rfl⟩ := Option.map_eq_some_iff.mp ha
    have hp : e.1 = p := by simpa using find?_some he
    exact hp ▸ (h e (mem_of_find?_eq_some he)).1
  valid p a ha := by
    obtain ⟨e, he, rfl⟩ := Option.map_eq_some_iff.mp ha
    exact (h e (mem_of_find?_eq_some he)).2.1
  entriesNamed p a ha := by
    obtain ⟨e, he, rfl⟩ := Option.map_eq_some_iff.mp ha
    exact (h e (mem_of_find?_eq_some he)).2.2

end PermissionGraph

end DreamChain
