import DreamChain.Chain.TransactionBilling

/-!
What stays true of the resource limits along a chain: a block never holds more than its
maximum, the virtual limits stay within the elastic range, and an accumulator that was brought
to the current slot holds no more than its decayed value and what this block has charged. The
last point keeps every sum and product of the billing within its width.
-/

namespace DreamChain
open Library ResourceLimitsManager FlatMap

def accountWindow : Nat := config.accountCpuUsageAverageWindowMs / config.blockIntervalMs

def charges (cpuUsage netUsage : Nat) : Resource → Nat
  | .cpu => cpuUsage
  | .net => netUsage

structure LimitsInvariant (slot : Nat) (m : ResourceLimitsManager) : Prop where
  window_eq : ∀ r : Resource, r.window m.config = accountWindow
  cpu_max_lt : m.config.cpuLimitParameters.max < 2 ^ 32
  net_max_lt : m.config.netLimitParameters.max < 2 ^ 64
  pending_le : ∀ r : Resource, r.pendingUsage m.state ≤ (r.parameters m.config).max
  virtual_le : ∀ r : Resource, r.virtualLimit m.state ≤
    (r.parameters m.config).max * config.maximumElasticResourceMultiplier
  bounded : ∀ a u, m.usage.find? a = some u → ∀ r : Resource,
    (r.usage u).Bounded slot accountWindow (r.pendingUsage m.state)

def CurrentUsage (slot : Nat) (m : ResourceLimitsManager) (a : AccountName) : Prop :=
  ∃ u, m.usage.find? a = some u ∧ ∀ r : Resource, (r.usage u).lastOrdinal = slot

theorem forall_resource {P : Resource → Prop} : (∀ r, P r) ↔ P .cpu ∧ P .net :=
  ⟨fun h => ⟨h .cpu, h .net⟩, fun h r => by cases r; exacts [h.1, h.2]⟩

variable {slot : Nat}

theorem LimitsInvariant.max_lt {m : ResourceLimitsManager} (h : LimitsInvariant slot m)
    (r : Resource) : (r.parameters m.config).max < 2 ^ 64 := by
  cases r with
  | cpu => exact h.cpu_max_lt.trans (by decide)
  | net => exact h.net_max_lt

variable {u : ResourceUsageObject} {v : ResourceUsageObject}

section Lookups

variable {m m' : ResourceLimitsManager} {a : AccountName}

theorem getUsage_ok : m.getUsage a = .ok u ↔ m.usage.find? a = some u := by
  rw [getUsage]
  cases m.usage.find? a <;> simp

theorem charge_ok {cpuUsage netUsage : Nat} : m.charge u cpuUsage netUsage slot = .ok v ↔
      (∀ r : Resource, (r.usage u).add (charges cpuUsage netUsage r) slot (r.window m.config) =
        .ok (r.usage v)) ∧ v.ramUsage = u.ramUsage := by
  simp only [charge, bind_eq_ok, forall_resource]
  constructor
  · rintro ⟨net, hnet, cpu, hcpu, hok⟩
    cases hok
    exact ⟨⟨hcpu, hnet⟩, rfl⟩
  · rintro ⟨⟨hcpu, hnet⟩, hram⟩
    refine ⟨v.netUsage, hnet, v.cpuUsage, hcpu, ?_⟩
    rw [← hram]
    rfl

theorem refreshUsage_ok : m.refreshUsage slot a = .ok m' ↔ ∃ u v, m.usage.find? a = some u ∧
      m.charge u 0 0 slot = .ok v ∧ m' = { m with usage := m.usage.insert a v } := by
  simp only [refreshUsage, bind_eq_ok, getUsage_ok]
  constructor
  · rintro ⟨u, hu, v, hv, hok⟩
    cases hok
    exact ⟨u, v, hu, hv, rfl⟩
  · rintro ⟨u, v, hu, hv, rfl⟩
    exact ⟨u, hu, v, hv, rfl⟩

theorem checkQuota_ok {r l x} : m.checkQuota r l u = .ok x ↔ m.WithinQuota r l u := by
  rw [checkQuota]
  split
  · rename_i h
    exact iff_of_true rfl h
  · rename_i h
    exact iff_of_false nofun h

theorem billAccount_ok {cpuUsage netUsage : Nat} :
    m.billAccount cpuUsage netUsage slot a = .ok m' ↔ ∃ u l v, m.usage.find? a = some u ∧
      m.getAccountLimits a = .ok l ∧ m.charge u cpuUsage netUsage slot = .ok v ∧
      (∀ r, m.WithinQuota r l v) ∧ m' = { m with usage := m.usage.insert a v } := by
  simp only [billAccount, bind_eq_ok, getUsage_ok, checkQuota_ok,
    forall_resource]
  constructor
  · rintro ⟨u, hu, l, hl, v, hv, -, hcpu, -, hnet, hok⟩
    cases hok
    exact ⟨u, l, v, hu, hl, hv, ⟨hcpu, hnet⟩, rfl⟩
  · rintro ⟨u, l, v, hu, hl, hv, ⟨hcpu, hnet⟩, rfl⟩
    exact ⟨u, hu, l, hl, v, hv, (), hcpu, (), hnet, rfl⟩

end Lookups

variable {a : AccountName}

section Usage

variable {slot : Nat} {m m' : ResourceLimitsManager}

theorem LimitsInvariant.insertUsage (h : LimitsInvariant slot m)
    (hv : ∀ r : Resource, (r.usage v).Bounded slot accountWindow (r.pendingUsage m.state)) :
    LimitsInvariant slot { m with usage := m.usage.insert a v } := by
  refine ⟨h.window_eq, h.cpu_max_lt, h.net_max_lt, h.pending_le, h.virtual_le, ?_⟩
  intro b u hu
  rw [find?_insert] at hu
  split at hu
  · cases hu
    exact hv
  · exact h.bounded b u hu

variable {cpuUsage netUsage : Nat} {accounts : List AccountName}

section

variable (h : LimitsInvariant slot m)
include h

theorem LimitsInvariant.charge (hu : m.usage.find? a = some u)
    (hok : m.charge u cpuUsage netUsage slot = .ok v) (r : Resource) :
    (r.usage v).lastOrdinal = slot ∧ (r.usage v).Bounded slot accountWindow
      (r.pendingUsage m.state + charges cpuUsage netUsage r) := by
  have hadd := (charge_ok.mp hok).1 r
  rw [h.window_eq r] at hadd
  exact UsageAccumulator.add_bounded (by decide) (h.bounded a u hu r) hadd

theorem LimitsInvariant.refreshUsage (hok : m.refreshUsage slot a = .ok m')
    : LimitsInvariant slot m' := by
  obtain ⟨u, v, hu, hv, rfl⟩ := refreshUsage_ok.mp hok
  refine h.insertUsage fun r => ?_
  have hbounded := (h.charge hu hv r).2
  cases r <;> exact hbounded

theorem refreshUsage_current (hok : m.refreshUsage slot a = .ok m') : CurrentUsage slot m' a := by
  obtain ⟨u, v, hu, hv, rfl⟩ := refreshUsage_ok.mp hok
  exact ⟨v, find?_insert_self _ _ _, fun r => (h.charge hu hv r).1⟩

end

structure SameLimits (m m' : ResourceLimitsManager) : Prop where
  config_eq : m'.config = m.config
  state_eq : m'.state = m.state

theorem updateAccountUsage_spec (h : LimitsInvariant slot m)
    (hok : m.updateAccountUsage accounts slot = .ok m') :
    SameLimits m m' ∧ LimitsInvariant slot m' ∧ ∀ a ∈ accounts, CurrentUsage slot m' a := by
  induction accounts generalizing m with
  | nil =>
    cases hok
    exact ⟨⟨rfl, rfl⟩, h, nofun⟩
  | cons a rest ih =>
    obtain ⟨m₁, hfirst, hrest⟩ := foldlM_cons_ok.mp hok
    have hkeep : ∀ s s' b, LimitsInvariant slot s ∧ CurrentUsage slot s a →
        s.refreshUsage slot b = .ok s' → LimitsInvariant slot s' ∧ CurrentUsage slot s' a := by
      rintro s s' b ⟨hinv, u, hu, hslot⟩ hb
      refine ⟨hinv.refreshUsage hb, ?_⟩
      by_cases hab : a = b
      · exact hab ▸ refreshUsage_current hinv hb
      · obtain ⟨w, v, -, -, rfl⟩ := refreshUsage_ok.mp hb
        exact ⟨u, (find?_insert_of_ne _ _ (Ne.symm hab)).trans hu, hslot⟩
    have hlater := foldlM_ok_induction (fun b _ s s' => hkeep s s' b)
      ⟨h.refreshUsage hfirst, refreshUsage_current h hfirst⟩ hrest
    obtain ⟨hsame, hinv, hcurrent⟩ := ih (h.refreshUsage hfirst) hrest
    obtain ⟨u, v, -, -, rfl⟩ := refreshUsage_ok.mp hfirst
    exact ⟨⟨hsame.config_eq, hsame.state_eq⟩, hinv,
      List.forall_mem_cons.mpr ⟨hlater.2, hcurrent⟩⟩

theorem foldlM_billAccount_spec (hnodup : accounts.Nodup)
    (hok : accounts.foldlM (billAccount cpuUsage netUsage slot) m = .ok m') :
    SameLimits m m' ∧ ∀ a v, m'.usage.find? a = some v → m.usage.find? a = some v ∨
      (a ∈ accounts ∧ ∃ u, m.usage.find? a = some u ∧ m.charge u cpuUsage netUsage slot = .ok v) := by
  induction accounts generalizing m with
  | nil =>
    cases hok
    exact ⟨⟨rfl, rfl⟩, fun a v hv => .inl hv⟩
  | cons a rest ih =>
    obtain ⟨hnew, hrest⟩ := List.nodup_cons.mp hnodup
    obtain ⟨m₁, hfirst, hok⟩ := foldlM_cons_ok.mp hok
    obtain ⟨u, l, w, hu, -, hw, -, rfl⟩ := billAccount_ok.mp hfirst
    obtain ⟨hsame, husage⟩ := ih hrest hok
    refine ⟨⟨hsame.config_eq, hsame.state_eq⟩, fun b v hv => ?_⟩
    by_cases hab : a = b
    · subst hab
      have hcases := husage a v hv
      rw [find?_insert_self] at hcases
      cases hcases with
      | inl h =>
        cases h
        exact .inr ⟨List.mem_cons_self, u, hu, hw⟩
      | inr h => exact absurd h.1 hnew
    · have hcases := husage b v hv
      rw [find?_insert_of_ne _ _ hab] at hcases
      exact hcases.imp id fun h => ⟨List.mem_cons_of_mem a h.1, h.2⟩

theorem pendingUsage_addPendingUsage (cpuUsage netUsage : Nat) (r : Resource) :
    r.pendingUsage (m.addPendingUsage cpuUsage netUsage).state =
      u64 (r.pendingUsage m.state + charges cpuUsage netUsage r) := by
  cases r <;> rfl

theorem virtualLimit_addPendingUsage (cpuUsage netUsage : Nat) (r : Resource) :
    r.virtualLimit (m.addPendingUsage cpuUsage netUsage).state = r.virtualLimit m.state := by
  cases r <;> rfl

theorem addTransactionUsage_ok :
    m.addTransactionUsage accounts cpuUsage netUsage slot = .ok m' ↔ ∃ m₁,
      accounts.foldlM (billAccount cpuUsage netUsage slot) m = .ok m₁ ∧
      (∀ r : Resource, r.pendingUsage (m₁.addPendingUsage cpuUsage netUsage).state ≤
        (r.parameters m₁.config).max) ∧ m' = m₁.addPendingUsage cpuUsage netUsage := by
  simp only [addTransactionUsage, bind_eq_ok, eosAssert_eq_ok, forall_resource]
  constructor
  · rintro ⟨m₁, hfold, -, hcpu, -, hnet, hok⟩
    cases hok
    exact ⟨m₁, hfold, ⟨hcpu, hnet⟩, rfl⟩
  · rintro ⟨m₁, hfold, ⟨hcpu, hnet⟩, rfl⟩
    exact ⟨m₁, hfold, (), hcpu, (), hnet, rfl⟩

theorem LimitsInvariant.addTransactionUsage (h : LimitsInvariant slot m) (hnodup : accounts.Nodup)
    (hfits : ∀ r : Resource, r.pendingUsage m.state + charges cpuUsage netUsage r < 2 ^ 64)
    (hok : m.addTransactionUsage accounts cpuUsage netUsage slot = .ok m') :
    LimitsInvariant slot m' := by
  obtain ⟨m₁, hfold, hmax, rfl⟩ := addTransactionUsage_ok.mp hok
  obtain ⟨⟨hconfig, hstate⟩, husage⟩ := foldlM_billAccount_spec hnodup hfold
  have hpending (r : Resource) : r.pendingUsage (m₁.addPendingUsage cpuUsage netUsage).state =
      r.pendingUsage m.state + charges cpuUsage netUsage r := by
    rw [pendingUsage_addPendingUsage, hstate]
    exact Nat.mod_eq_of_lt (hfits r)
  refine ⟨fun r => ?_, ?_, ?_, hmax, fun r => ?_, fun a v hv r => ?_⟩
  · exact (congrArg r.window hconfig).trans (h.window_eq r)
  · exact hconfig ▸ h.cpu_max_lt
  · exact hconfig ▸ h.net_max_lt
  · rw [virtualLimit_addPendingUsage, hstate]
    exact hconfig ▸ h.virtual_le r
  · rw [hpending r]
    obtain hold | ⟨-, u, hu, hcharge⟩ := husage a v hv
    · exact (h.bounded a v hold r).mono (Nat.le_add_right _ _)
    · exact (h.charge hu hcharge r).2

end Usage

section Frames

variable {slot : Nat} {m m' : ResourceLimitsManager}

/-- What actions do to the limits: usage objects keep their accumulators, and new ones are
empty. -/
structure KeepsUsage (m m' : ResourceLimitsManager) : Prop where
  same : SameLimits m m'
  keeps : ∀ a u, m.usage.find? a = some u →
    ∃ v, m'.usage.find? a = some v ∧ ∀ r : Resource, r.usage v = r.usage u
  comes : ∀ a v, m'.usage.find? a = some v →
    (∃ u, m.usage.find? a = some u ∧ ∀ r : Resource, r.usage v = r.usage u) ∨
      ∀ r : Resource, r.usage v = {}

theorem KeepsUsage.of_usage_eq (hsame : SameLimits m m') (h : m'.usage = m.usage) :
    KeepsUsage m m' :=
  ⟨hsame, fun _ u hu => ⟨u, h ▸ hu, fun _ => rfl⟩,
    fun _ v hv => .inl ⟨v, h ▸ hv, fun _ => rfl⟩⟩

theorem LimitsInvariant.keepsUsage (h : LimitsInvariant slot m) (hk : KeepsUsage m m') :
    LimitsInvariant slot m' := by
  obtain ⟨⟨hconfig, hstate⟩, -, hcomes⟩ := hk
  refine ⟨?_, ?_, ?_, ?_, ?_, fun a v hv r => ?_⟩
  · exact hconfig ▸ h.window_eq
  · exact hconfig ▸ h.cpu_max_lt
  · exact hconfig ▸ h.net_max_lt
  · rw [hconfig, hstate]
    exact h.pending_le
  · rw [hconfig, hstate]
    exact h.virtual_le
  · rw [hstate]
    obtain ⟨u, hu, heq⟩ | hnew := hcomes a v hv
    · exact heq r ▸ h.bounded a u hu r
    · exact hnew r ▸ UsageAccumulator.bounded_empty _ _ _

theorem CurrentUsage.keepsUsage (h : CurrentUsage slot m a)
    (hk : KeepsUsage m m') : CurrentUsage slot m' a := by
  obtain ⟨u, hu, hslot⟩ := h
  obtain ⟨v, hv, heq⟩ := hk.keeps a u hu
  exact ⟨v, hv, fun r => (heq r).symm ▸ hslot r⟩

theorem initializeAccount_keepsUsage (h : m.initializeAccount a = .ok m') : KeepsUsage m m' := by
  rw [initializeAccount] at h
  split at h
  · cases h
  · rename_i habsent
    cases h
    have hnone : a ∉ m.usage.keys := fun hmem => habsent (.inr hmem)
    refine ⟨⟨rfl, rfl⟩, fun b u hu => ?_, fun b v hv => ?_⟩
    · exact ⟨u, (find?_insert_absent _ hnone).mpr (.inr hu), fun _ => rfl⟩
    · cases (find?_insert_absent _ hnone).mp hv with
      | inl hnew =>
        rw [hnew.2]
        exact .inr fun r => by cases r <;> rfl
      | inr hold => exact .inl ⟨v, hold, fun _ => rfl⟩

theorem setAccountLimits_keepsUsage {ramBytes netWeight cpuWeight result}
    (h : m.setAccountLimits a ramBytes netWeight cpuWeight = .ok result) :
    KeepsUsage m result.1 := by
  simp only [setAccountLimits, bind_eq_ok] at h
  obtain ⟨limits, -, h⟩ := h
  cases h
  exact .of_usage_eq ⟨rfl, rfl⟩ rfl

theorem addPendingRamUsage_keepsUsage {ramDelta : Int}
    (h : m.addPendingRamUsage a ramDelta = .ok m') : KeepsUsage m m' := by
  rw [addPendingRamUsage] at h
  split at h
  · cases h
    exact .of_usage_eq ⟨rfl, rfl⟩ rfl
  · simp only [bind_eq_ok, getUsage_ok] at h
    obtain ⟨u, hu, -, -, -, -, h⟩ := h
    cases h
    refine ⟨⟨rfl, rfl⟩, fun b w hw => ?_, fun b v hv => ?_⟩
    · by_cases hab : a = b
      · subst hab
        cases hu.symm.trans hw
        exact ⟨_, find?_insert_self _ _ _, fun r => by cases r <;> rfl⟩
      · exact ⟨w, (find?_insert_of_ne _ _ hab).trans hw, fun _ => rfl⟩
    · rw [find?_insert] at hv
      split at hv
      · rename_i hab
        cases hv
        exact .inl ⟨u, hab ▸ hu, fun r => by cases r <;> rfl⟩
      · exact .inl ⟨v, hv, fun _ => rfl⟩

end Frames

section BlockEnd

variable {slot : Nat} {m m' : ResourceLimitsManager} {blockNum : Nat}

theorem processAccountLimitUpdates_frame (h : m.processAccountLimitUpdates = .ok m') :
    m'.config = m.config ∧ m'.usage = m.usage := by
  refine foldlM_ok_induction (I := fun s => s.config = m.config ∧ s.usage = m.usage) ?_ ⟨rfl, rfl⟩ h
  rintro entry - s s' ⟨hconfig, husage⟩ hstep
  rw [applyPendingLimits] at hstep
  split at hstep
  · cases hstep
  · simp only [bind_eq_ok] at hstep
    obtain ⟨ram, -, cpu, -, net, -, hstep⟩ := hstep
    cases hstep
    exact ⟨hconfig, husage⟩

theorem setBlockParameters_spec {cpu net : ElasticLimitParameters}
    (h : m.setBlockParameters cpu net = .ok m') :
    m'.config = { m.config with cpuLimitParameters := cpu, netLimitParameters := net } ∧
      m'.usage = m.usage := by
  simp only [setBlockParameters, bind_eq_ok] at h
  obtain ⟨-, -, -, -, h⟩ := h
  split at h
  · rename_i heq
    cases h
    exact ⟨by rw [← heq.1, ← heq.2], rfl⟩
  · cases h
    exact ⟨rfl, rfl⟩

theorem updateElasticLimit_le {currentLimit averageUsage limit params}
    (h : updateElasticLimit currentLimit averageUsage params = .ok limit) :
    limit ≤ params.max * params.maxMultiplier := by
  simp only [updateElasticLimit, bind_eq_ok] at h
  obtain ⟨result, -, h⟩ := h
  cases h
  exact (min_le_right _ _).trans (Nat.mod_le _ _)

theorem processBlockUsage_spec (h : m.processBlockUsage blockNum = .ok m') :
    m'.config = m.config ∧ m'.usage = m.usage ∧ (∀ r : Resource, r.pendingUsage m'.state = 0) ∧
      ∀ r : Resource, r.virtualLimit m'.state ≤
        (r.parameters m.config).max * (r.parameters m.config).maxMultiplier := by
  simp only [processBlockUsage, bind_eq_ok] at h
  obtain ⟨averageCpu, -, cpu, hcpu, averageNet, -, net, hnet, h⟩ := h
  cases h
  refine ⟨rfl, rfl, fun r => by cases r <;> rfl, fun r => ?_⟩
  cases r with
  | cpu => exact updateElasticLimit_le hcpu
  | net => exact updateElasticLimit_le hnet

theorem LimitsInvariant.finalizeBlock {cfg next} (h : LimitsInvariant slot m) (hlt : slot < next)
    (hok : finalizeBlockLimits cfg blockNum m = .ok m') : LimitsInvariant next m' := by
  simp only [finalizeBlockLimits, bind_eq_ok] at hok
  obtain ⟨m₁, hlimits, m₂, hparameters, hblock⟩ := hok
  obtain ⟨hconfig₁, husage₁⟩ := processAccountLimitUpdates_frame hlimits
  obtain ⟨hconfig₂, husage₂⟩ := setBlockParameters_spec hparameters
  obtain ⟨hconfig, husage, hpending, hvirtual⟩ := processBlockUsage_spec hblock
  refine ⟨fun r => ?_, ?_, ?_, fun r => ?_, fun r => ?_, fun a u hu r => ?_⟩
  · have hold := h.window_eq r
    rw [hconfig, hconfig₂, hconfig₁]
    cases r <;> exact hold
  · rw [hconfig, hconfig₂]
    exact cfg.maxBlockCpuUsage.toNat_lt
  · rw [hconfig, hconfig₂]
    exact cfg.maxBlockNetUsage.toNat_lt
  · rw [hpending r]
    exact Nat.zero_le _
  · refine (hvirtual r).trans_eq ?_
    rw [hconfig, hconfig₂]
    cases r <;> rfl
  · rw [husage, husage₂, husage₁] at hu
    exact (h.bounded a u hu r).later hlt

end BlockEnd

end DreamChain
