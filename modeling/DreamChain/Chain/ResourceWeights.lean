import DreamChain.Chain.ResourceLimits
import DreamChain.Library.ExceptSpec
import DreamChain.Library.FlatMapSum
import DreamChain.Library.UndoStack

/-!
The totals of the resource limits. The limits of accounts are shares, so the manager keeps the
sum of the memory, CPU and NET limits that are set, where a negative limit counts for nothing.
New limits wait in pending entries until the end of the block.

The totals are compared with the entries along every sequence of operations, sessions and undos.
What a state remembers of the operations that led to it is kept next to it and undone with it.
-/

namespace DreamChain
open Library List FlatMap

inductive LimitKind where
  | ram
  | cpu
  | net
deriving DecidableEq, Repr

namespace LimitKind

def value : LimitKind → ResourceLimitsObject → Int64
  | ram, l => l.ramBytes
  | cpu, l => l.cpuWeight
  | net, l => l.netWeight

def total : LimitKind → ResourceLimitsState → Nat
  | ram, s => s.totalRamBytes
  | cpu, s => s.totalCpuWeight
  | net, s => s.totalNetWeight

def share (k : LimitKind) (l : ResourceLimitsObject) : Nat := (max 0 (k.value l).toInt).toNat

def sum (k : LimitKind) (limits : FlatMap AccountName ResourceLimitsObject) : Nat :=
  limits.sum fun _ l => k.share l

end LimitKind

def overflowOfTotal : ChainException :=
  ⟨.rateLimitingStateInconsistent, "overflow when applying new value to ${which}"⟩

inductive LimitsOperation where
  | initializeAccount (account : AccountName)
  | setAccountLimits (account : AccountName) (ramBytes netWeight cpuWeight : Int64)
  | processAccountLimitUpdates
deriving DecidableEq, Repr

namespace LimitsOperation

def apply (m : ResourceLimitsManager) : LimitsOperation → Fallible ResourceLimitsManager
  | initializeAccount account => m.initializeAccount account
  | setAccountLimits account ramBytes netWeight cpuWeight => do
    let result ← m.setAccountLimits account ramBytes netWeight cpuWeight
    return result.1
  | processAccountLimitUpdates => m.processAccountLimitUpdates

/-- The limits last set for an account by a list of operations, the newest first. A new account
has the default limits. -/
def lastLimits : List LimitsOperation → AccountName → Option ResourceLimitsObject
  | [], _ => none
  | initializeAccount b :: rest, a => if a = b then some {} else lastLimits rest a
  | setAccountLimits b ramBytes netWeight cpuWeight :: rest, a =>
    if a = b then some ⟨netWeight, cpuWeight, ramBytes⟩ else lastLimits rest a
  | processAccountLimitUpdates :: rest, a => lastLimits rest a

end LimitsOperation

/-- The limits with the operations that led to them and were not undone, the newest first. -/
structure LimitsHistory where
  limits : ResourceLimitsManager := .initializeDatabase
  operations : List LimitsOperation := []

namespace LimitsHistory

/-- What the database of the limits can be brought to. An operation that throws is undone with
the session it is in. -/
inductive Reachable : UndoStack LimitsHistory → Prop
  | initial : Reachable { state := {} }
  | operation {d} (h : Reachable d) (op : LimitsOperation)
      {m : ResourceLimitsManager} (hok : op.apply d.state.limits = .ok m) :
      Reachable { d with state := ⟨m, op :: d.state.operations⟩ }
  | startSession {d} (h : Reachable d) : Reachable (d.push d.state)
  | undo {d} (h : Reachable d) : Reachable d.undo
  /-- The newest session becomes part of the one below. -/
  | squash {d} (h : Reachable d) :
      Reachable { d with undoStack := d.undoStack.tail, revision := d.revision - 1 }
  | commit {d} (h : Reachable d) (revision : Nat) :
      Reachable (d.commit revision)

/-- Totals and entries agree, an account with a pending entry has an actual one, and the entry
that counts for the next block is the one set last. -/
structure Consistent (s : LimitsHistory) : Prop where
  total_eq : ∀ k : LimitKind, k.total s.limits.state = k.sum s.limits.limits
  pending_known : ∀ a ∈ s.limits.pendingLimits.keys, a ∈ s.limits.limits.keys
  last_eq : ∀ a, (s.limits.pendingLimits.find? a).or (s.limits.limits.find? a) =
    LimitsOperation.lastLimits s.operations a

end LimitsHistory

section Process

open ResourceLimitsManager

theorem updateStateAndValue_meets {total value} (pendingValue : Int64)
    (h : (max 0 value.toInt).toNat ≤ total) : Meets (updateStateAndValue total value pendingValue)
      (fun t => t + (max 0 value.toInt).toNat = total + (max 0 pendingValue.toInt).toNat)
      (fun e => e = overflowOfTotal ∧
        2 ^ 64 + (max 0 value.toInt).toNat ≤ total + (max 0 pendingValue.toInt).toNat) := by
  have hrevert : value.toInt ≤ 0 ∨ value.toInt ≤ total := by omega
  by_cases hfits : pendingValue.toInt ≤ 0 ∨
      pendingValue.toInt ≤ 2 ^ 64 - 1 - ((total - value.toInt.toNat : Nat) : Int)
  · have hok : updateStateAndValue total value pendingValue =
        .ok (total - value.toInt.toNat + pendingValue.toInt.toNat) := by
      simp only [updateStateAndValue, eosAssert, if_pos hrevert, if_pos hfits]
      rfl
    rw [hok]
    change _ = _
    omega
  · have herror : updateStateAndValue total value pendingValue = .error overflowOfTotal := by
      simp only [updateStateAndValue, eosAssert, if_pos hrevert, if_neg hfits]
      rfl
    rw [herror]
    refine ⟨rfl, ?_⟩
    omega

variable {m : ResourceLimitsManager}

theorem updateTotal_meets {k : LimitKind} {a : AccountName} {old : ResourceLimitsObject}
    (new : ResourceLimitsObject) (htotal : k.total m.state = k.sum m.limits) (hold : m.limits.find? a = some old) :
    Meets (updateStateAndValue (k.total m.state) (k.value old) (k.value new))
      (fun t => t = k.sum (m.limits.insert a new))
      (fun e => e = overflowOfTotal ∧ 2 ^ 64 ≤ k.sum (m.limits.insert a new)) := by
  have hle : k.share old ≤ k.sum m.limits := m.limits.le_sum (fun _ l => k.share l) hold
  have hsum : k.sum (m.limits.insert a new) + k.share old = k.sum m.limits + k.share new :=
    m.limits.sum_insert_present (fun _ l => k.share l) new hold
  have hspec := updateStateAndValue_meets (k.value new) (htotal ▸ hle)
  simp only [LimitKind.share] at hle hsum
  cases hresult : updateStateAndValue (k.total m.state) (k.value old) (k.value new) with
  | ok t =>
    have hnew := hspec.of_ok hresult
    change t = _
    omega
  | error e =>
    obtain ⟨he, hlarge⟩ := hspec.of_error hresult
    refine ⟨he, ?_⟩
    omega

/-- Some total would not fit after the first entries of the list were applied. -/
def Overflows (limits : FlatMap AccountName ResourceLimitsObject)
    (entries : List (AccountName × ResourceLimitsObject)) : Prop :=
  ∃ done rest, entries = done ++ rest ∧ ∃ k : LimitKind, 2 ^ 64 ≤ k.sum (limits.insertAll done)

variable (htotal : ∀ k : LimitKind, k.total m.state = k.sum m.limits)
include htotal

theorem applyPendingLimits_meets {entry : AccountName × ResourceLimitsObject}
    (hknown : entry.1 ∈ m.limits.keys) : Meets (m.applyPendingLimits entry)
      (fun m' => (∀ k : LimitKind, k.total m'.state = k.sum m'.limits) ∧
        m'.limits = m.limits.insert entry.1 entry.2 ∧
        m'.pendingLimits = m.pendingLimits.erase entry.1)
      (fun e => e = overflowOfTotal ∧
        ∃ k : LimitKind, 2 ^ 64 ≤ k.sum (m.limits.insert entry.1 entry.2)) := by
  obtain ⟨old, hold⟩ := (m.limits.mem_keys_iff entry.1).mp hknown
  have hkind (k : LimitKind) := (updateTotal_meets entry.2 (htotal k) hold).mono_error
    (R := fun e => e = overflowOfTotal ∧
      ∃ k : LimitKind, 2 ^ 64 ≤ k.sum (m.limits.insert entry.1 entry.2))
    fun e h => ⟨h.1, k, h.2⟩
  simp only [applyPendingLimits, hold]
  refine (hkind .ram).bind fun ram hram => (hkind .cpu).bind fun cpu hcpu =>
    (hkind .net).bind fun net hnet => ?_
  refine ⟨fun k => ?_, rfl, rfl⟩
  cases k with
  | ram => exact hram
  | cpu => exact hcpu
  | net => exact hnet

theorem foldlM_applyPendingLimits_meets {entries : List (AccountName × ResourceLimitsObject)}
    (hknown : ∀ e ∈ entries, e.1 ∈ m.limits.keys) : Meets (entries.foldlM applyPendingLimits m)
      (fun m' => (∀ k : LimitKind, k.total m'.state = k.sum m'.limits) ∧
        m'.limits = m.limits.insertAll entries ∧
        m'.pendingLimits = m.pendingLimits.eraseAll (entries.map Prod.fst))
      (fun e => e = overflowOfTotal ∧ Overflows m.limits entries) := by
  induction entries generalizing m with
  | nil => exact ⟨htotal, rfl, rfl⟩
  | cons entry rest ih =>
    have hfirst := applyPendingLimits_meets htotal (hknown entry mem_cons_self)
    refine (hfirst.mono_error ?_).bind fun m₁ h₁ => ?_
    · rintro e ⟨he, k, hlarge⟩
      exact ⟨he, [entry], rest, rfl, k, hlarge⟩
    · obtain ⟨htotal₁, hlimits, hpending⟩ := h₁
      have hrest : ∀ e ∈ rest, e.1 ∈ m₁.limits.keys := fun e he => by
        rw [hlimits, mem_keys_insert]
        exact .inr (hknown e (mem_cons_of_mem entry he))
      refine ((ih htotal₁ hrest).mono ?_).mono_error ?_
      · rintro m' ⟨htotal', hlimits', hpending'⟩
        rw [hlimits] at hlimits'
        rw [hpending] at hpending'
        exact ⟨htotal', hlimits', hpending'⟩
      · rintro e ⟨he, done, rest', rfl, k, hlarge⟩
        rw [hlimits] at hlarge
        exact ⟨he, entry :: done, rest', rfl, k, hlarge⟩

end Process

namespace LimitsHistory

variable {s : LimitsHistory} {m : ResourceLimitsManager} {account : AccountName}

section

variable (h : s.Consistent)
include h

theorem Consistent.process : Meets s.limits.processAccountLimitUpdates
      (fun m => (∀ k : LimitKind, k.total m.state = k.sum m.limits) ∧ m.pendingLimits = .empty ∧
        ∀ a, m.limits.find? a = LimitsOperation.lastLimits s.operations a)
      (fun e => e = overflowOfTotal ∧ Overflows s.limits.limits s.limits.pendingLimits.entries) := by
  have hknown : ∀ e ∈ s.limits.pendingLimits.entries, e.1 ∈ s.limits.limits.keys :=
    fun e he => h.pending_known e.1 (mem_map_of_mem he)
  refine (foldlM_applyPendingLimits_meets h.total_eq hknown).mono ?_
  rintro m ⟨htotal, hlimits, hpending⟩
  refine ⟨htotal, hpending.trans (eraseAll_keys _), fun a => ?_⟩
  rw [hlimits, find?_insertAll_entries]
  exact h.last_eq a

theorem Consistent.initializeAccount (hok : s.limits.initializeAccount account = .ok m) :
    Consistent ⟨m, .initializeAccount account :: s.operations⟩ := by
  rw [ResourceLimitsManager.initializeAccount] at hok
  split at hok
  · cases hok
  · rename_i habsent
    cases hok
    have hnew : account ∉ s.limits.limits.keys := fun hmem => habsent (.inl hmem)
    have hpending : s.limits.pendingLimits.find? account = none :=
      (find?_eq_none_iff _ _).mpr fun hmem => hnew (h.pending_known account hmem)
    refine ⟨fun k => ?_, fun a ha => ?_, fun a => ?_⟩
    · -- The default limits are negative and count for nothing.
      have hsum := s.limits.limits.sum_insert_absent (fun _ l => k.share l) {} hnew
      have hzero : k.share {} = 0 := by cases k <;> rfl
      exact (h.total_eq k).trans (hsum.trans (by rw [hzero]; rfl)).symm
    · exact (mem_keys_insert _ _ _ _).mpr (.inr (h.pending_known a ha))
    · rw [LimitsOperation.lastLimits]
      split
      · rename_i heq
        subst heq
        simp [hpending]
      · rename_i hne
        rw [find?_insert_of_ne _ _ (Ne.symm hne)]
        exact h.last_eq a

theorem Consistent.setAccountLimits {ramBytes netWeight cpuWeight : Int64}
    (hok : (LimitsOperation.setAccountLimits account ramBytes netWeight cpuWeight).apply s.limits =
      .ok m) :
    Consistent ⟨m, .setAccountLimits account ramBytes netWeight cpuWeight :: s.operations⟩ := by
  simp only [LimitsOperation.apply, ResourceLimitsManager.setAccountLimits, bind_eq_ok] at hok
  obtain ⟨_, ⟨limits, hlimits, hresult⟩, hok⟩ := hok
  cases hresult
  cases hok
  have hknown : account ∈ s.limits.limits.keys := by
    rw [ResourceLimitsManager.getAccountLimits] at hlimits
    split at hlimits
    · rename_i hpending
      exact h.pending_known account (mem_keys_of_find? hpending)
    · split at hlimits
      · rename_i hactual
        exact mem_keys_of_find? hactual
      · cases hlimits
  refine ⟨h.total_eq, fun a ha => ?_, fun a => ?_⟩
  · cases (mem_keys_insert _ _ _ _).mp ha with
    | inl heq => exact heq ▸ hknown
    | inr hold => exact h.pending_known a hold
  · rw [LimitsOperation.lastLimits]
    split
    · rename_i heq
      subst heq
      simp
    · rename_i hne
      rw [find?_insert_of_ne _ _ (Ne.symm hne)]
      exact h.last_eq a

theorem Consistent.apply {op : LimitsOperation} (hok : op.apply s.limits = .ok m)
    : Consistent ⟨m, op :: s.operations⟩ := by
  cases op with
  | initializeAccount account => exact h.initializeAccount hok
  | setAccountLimits account ramBytes netWeight cpuWeight => exact h.setAccountLimits hok
  | processAccountLimitUpdates =>
    obtain ⟨htotal, hpending, hlast⟩ := h.process.of_ok hok
    refine ⟨htotal, fun a ha => ?_, fun a => ?_⟩
    · rw [hpending] at ha
      cases ha
    · rw [hpending]
      exact hlast a

end

theorem consistent_initial : Consistent {} :=
  ⟨fun k => by cases k <;> rfl, nofun, fun _ => rfl⟩

/-- The states that can still be returned to are consistent as well. -/
theorem consistent_of_reachable {d : UndoStack LimitsHistory} (h : Reachable d) :
    d.state.Consistent ∧ ∀ s ∈ d.undoStack, s.Consistent := by
  induction h with
  | initial => exact ⟨consistent_initial, nofun⟩
  | operation _ op hok ih => exact ⟨ih.1.apply hok, ih.2⟩
  | startSession _ ih => exact ⟨ih.1, forall_mem_cons.mpr ih⟩
  | @undo d _ ih =>
    obtain ⟨state, undoStack, revision⟩ := d
    cases undoStack with
    | nil => exact ih
    | cons s rest => exact forall_mem_cons.mp ih.2
  | squash _ ih => exact ⟨ih.1, fun s hs => ih.2 s (mem_of_mem_tail hs)⟩
  | commit _ revision ih => exact ⟨ih.1, fun s hs => ih.2 s (mem_of_mem_take hs)⟩

/-- The totals are the sums of the entries. Only a sum that does not fit can make the end of a
block throw, and after it nothing is pending and every account has the limits set last. -/
theorem weights_consistent {d : UndoStack LimitsHistory} (h : Reachable d) :
    (∀ k : LimitKind, k.total d.state.limits.state = k.sum d.state.limits.limits) ∧
    (∀ e, d.state.limits.processAccountLimitUpdates = .error e →
      e = overflowOfTotal ∧
        Overflows d.state.limits.limits d.state.limits.pendingLimits.entries) ∧
    ∀ m, d.state.limits.processAccountLimitUpdates = .ok m → m.pendingLimits = .empty ∧
      ∀ a, m.limits.find? a = LimitsOperation.lastLimits d.state.operations a := by
  have hconsistent := (consistent_of_reachable h).1
  refine ⟨hconsistent.total_eq, fun e he => hconsistent.process.of_error he, fun m hm => ?_⟩
  exact (hconsistent.process.of_ok hm).2

theorem weights_consistent_session : ∃ d : UndoStack LimitsHistory, Reachable d ∧
    d.undoStack.length = 1 ∧ d.state.limits.state.totalNetWeight = 0 ∧
    ∃ m, d.state.limits.processAccountLimitUpdates = .ok m ∧ m.state.totalNetWeight = 7 ∧
      m.pendingLimits = .empty ∧ m.limits.find? 5 = some ⟨7, -1, 100⟩ := by
  have hreach := ((Reachable.initial.operation (.initializeAccount 5) rfl).startSession).operation
    (.setAccountLimits 5 100 7 (-1)) rfl
  have hlast := (weights_consistent hreach).2.2 _ rfl
  exact ⟨_, hreach, rfl, rfl, _, rfl, by decide, hlast.1, hlast.2 5⟩

end LimitsHistory

end DreamChain
