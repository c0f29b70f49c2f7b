import DreamChain.Chain.BillingChecks

/-!
When a billing succeeds after its own checks. A charge that is offered to an account can be
added to its usage, whatever the roundings, as long as the account is not over its quota
already. An account can come to be over its quota when its share shrinks, and it is then offered
nothing. A charge of nothing passes the checks all the same, and the billing throws.
-/

namespace DreamChain
open Library

variable {u : ResourceUsageObject}

section Quota

variable {slot : Nat} {m : ResourceLimitsManager} {r : Resource} {a : AccountName}
  {greylistLimit : Nat} {greylisted : Bool} {capacity : Nat}

def OverQuota (m : ResourceLimitsManager) (r : Resource) (a : AccountName) : Prop :=
  ∃ u l, m.usage.find? a = some u ∧ m.getAccountLimits a = .ok l ∧ ¬ m.WithinQuota r l u

theorem precision_ceilDiv_accountWindow : config.rateLimitingPrecision ⌈/⌉ accountWindow = 6 := by
  decide

theorem scaledUse_eq (h : LimitsInvariant slot m) (hlt : (r.usage u).valueEx < 2 ^ 64) :
    m.scaledUse r u = (r.usage u).valueEx * accountWindow := by
  rw [ResourceLimitsManager.scaledUse, h.window_eq r]
  have hle := Nat.mul_le_mul_right accountWindow hlt.le
  exact Nat.mod_eq_of_lt (hle.trans_lt (by decide))

theorem maxUserUse_eq (h : LimitsInvariant slot m) (hmax : (r.parameters m.config).max < 2 ^ 32)
    (l : ResourceLimitsObject) (hle : capacity ≤ r.virtualLimit m.state) :
    m.maxUserUse r l capacity =
      capacity * accountWindow * (r.weight l).toInt.toNat / r.totalWeight m.state := by
  have hcapacity : capacity ≤ 2 ^ 32 * config.maximumElasticResourceMultiplier :=
    (hle.trans (h.virtual_le r)).trans (Nat.mul_le_mul_right _ hmax.le)
  have hweight : (r.weight l).toInt.toNat ≤ 2 ^ 63 := by
    have hlt := (r.weight l).toInt_lt
    omega
  have hproduct := Nat.mul_le_mul_right accountWindow hcapacity
  have hwhole := Nat.mul_le_mul hproduct hweight
  rw [ResourceLimitsManager.maxUserUse, h.window_eq r, u128, u128,
    Nat.mod_eq_of_lt (hproduct.trans_lt (by decide)), Nat.mod_eq_of_lt (hwhole.trans_lt (by decide))]

theorem offeredCapacity_le (greylistLimit : Nat) :
    (m.offeredCapacity r greylistLimit).1 ≤ r.virtualLimit m.state := by
  rw [ResourceLimitsManager.offeredCapacity]
  split
  · rename_i hlt
    exact hlt.le
  · exact le_rfl

theorem getAccountLimitEx_ok {limit : AccountResourceLimit}
    (h : m.getAccountLimitEx r a greylistLimit = .ok (limit, greylisted)) :
    ∃ u l, m.usage.find? a = some u ∧ m.getAccountLimits a = .ok l ∧
      (m.Limited r l → greylisted = (m.offeredCapacity r greylistLimit).2 ∧
        limit.available = ((m.maxUserUse r l (m.offeredCapacity r greylistLimit).1 -
          integerDivideCeil (m.scaledUse r u) config.rateLimitingPrecision : Nat) : Int)) ∧
      (¬ m.Limited r l → limit.available = -1) := by
  simp only [ResourceLimitsManager.getAccountLimitEx, bind_eq_ok, getUsage_ok] at h
  obtain ⟨u, hu, l, hl, h⟩ := h
  refine ⟨u, l, hu, hl, fun hlimited => ?_, fun hfree => ?_⟩
  · rw [if_pos hlimited] at h
    simp only [bind_eq_ok, downgradeCast_ok] at h
    obtain ⟨available, ⟨-, rfl⟩, used, -, maximum, -, h⟩ := h
    cases h
    exact ⟨rfl, rfl⟩
  · rw [if_neg hfree] at h
    cases h
    rfl

theorem getAccountLimit_ok {x : Int}
    (h : m.getAccountLimit r a greylistLimit = .ok (x, greylisted)) :
    ∃ u l, m.usage.find? a = some u ∧ m.getAccountLimits a = .ok l ∧
      (m.Limited r l → x = ((m.maxUserUse r l (m.offeredCapacity r greylistLimit).1 -
        integerDivideCeil (m.scaledUse r u) config.rateLimitingPrecision : Nat) : Int)) := by
  obtain ⟨arl, harl, hx⟩ := bind_eq_ok.mp h
  cases hx
  obtain ⟨u, l, hu, hl, havailable, -⟩ := getAccountLimitEx_ok harl
  exact ⟨u, l, hu, hl, fun hlimited => (havailable hlimited).2⟩

theorem withinQuota_charged (h : LimitsInvariant slot m)
    (hmax : (r.parameters m.config).max < 2 ^ 32) {v : ResourceUsageObject}
    {l : ResourceLimitsObject} {amount : Nat} (hvalue : (r.usage v).valueEx =
      (r.usage u).valueEx + (amount * config.rateLimitingPrecision) ⌈/⌉ accountWindow)
    (hlt : (r.usage v).valueEx < 2 ^ 64) (hcapacity : capacity ≤ r.virtualLimit m.state)
    (hoffered : m.Limited r l → amount ≤ m.maxUserUse r l capacity -
      integerDivideCeil (m.scaledUse r u) config.rateLimitingPrecision) :
    m.WithinQuota r l v ↔ m.WithinQuota r l u := by
  have hle : (r.usage u).valueEx ≤ (r.usage v).valueEx := hvalue ▸ Nat.le_add_right _ _
  have hu := scaledUse_eq (r := r) h (hle.trans_lt hlt)
  have hv := scaledUse_eq (r := r) h hlt
  have hmono : m.maxUserUse r l capacity ≤ m.maxUserUse r l (r.virtualLimit m.state) := by
    rw [maxUserUse_eq h hmax l hcapacity, maxUserUse_eq h hmax l le_rfl]
    exact Nat.div_le_div_right (Nat.mul_le_mul_right _ (Nat.mul_le_mul_right _ hcapacity))
  constructor
  · intro hwithin hlimited
    refine le_trans ?_ (hwithin hlimited)
    rw [hu, hv]
    exact Nat.div_le_div_right (Nat.mul_le_mul_right _ hle)
  · intro hwithin hlimited
    have hamount := hoffered hlimited
    rcases Nat.eq_zero_or_pos amount with hzero | hpos
    · have heq : (r.usage v).valueEx = (r.usage u).valueEx := by
        rw [hvalue, hzero, Nat.zero_mul, zero_ceilDiv, Nat.add_zero]
      rw [hv, heq, ← hu]
      exact hwithin hlimited
    · have hread := div_add_ceilDiv_le (r.usage u).valueEx amount
        (by decide : 0 < accountWindow) (by decide : accountWindow ≤ config.rateLimitingPrecision)
      rw [integerDivideCeil_eq _ (by decide), hu] at hamount
      rw [hv, hvalue]
      omega

/-- What an account is told to have left it can use, and with two more it is over its quota. -/
theorem reported_availability_exact {u v : ResourceUsageObject} {l : ResourceLimitsObject}
    {limit : AccountResourceLimit} {greylistLimit amount : Nat}
    (hwindow : 1 ≤ r.window m.config ∧ r.window m.config ≤ 1000000) (hu : m.getUsage a = .ok u)
    (hslot : (r.usage u).lastOrdinal = slot) (hl : m.getAccountLimits a = .ok l)
    (hreport : m.getAccountLimitEx r a greylistLimit = .ok (limit, false))
    (havailable : 0 ≤ limit.available) (hamount : 1 ≤ amount)
    (hadd : (r.usage u).add amount slot (r.window m.config) = .ok (r.usage v)) :
    (amount ≤ limit.available → m.checkQuota r l v = .ok ()) ∧
      (limit.available + 2 ≤ amount → m.checkQuota r l v = .error r.exceeded) := by
  obtain ⟨u', l', hu', hl', hlimit, hfree⟩ := getAccountLimitEx_ok hreport
  cases (getUsage_ok.mp hu).symm.trans hu'
  cases hl.symm.trans hl'
  have hlimited : m.Limited r l := by
    by_contra hnot
    rw [hfree hnot] at havailable
    exact absurd havailable (by decide)
  obtain ⟨hgreylisted, hrest⟩ := hlimit hlimited
  have hcapacity : (m.offeredCapacity r greylistLimit).1 = r.virtualLimit m.state := by
    rw [ResourceLimitsManager.offeredCapacity] at hgreylisted ⊢
    split at hgreylisted
    · cases hgreylisted
    · rename_i hlarge
      rw [if_neg hlarge]
  obtain ⟨-, -, hfits, c, hcurrent, hv⟩ := (UsageAccumulator.add_ok_iff hwindow.1).mp hadd
  rw [UsageAccumulator.advance, if_pos hslot] at hcurrent
  cases hcurrent
  have hcharge : 0 < (amount * config.rateLimitingPrecision) ⌈/⌉ r.window m.config := by
    by_contra hzero
    have hle := (ceilDiv_le_iff_le_mul hwindow.1).mp (Nat.le_of_not_lt hzero)
    rw [config.rateLimitingPrecision] at hle
    omega
  have hscaled {x : ResourceUsageObject} (hx : (r.usage x).valueEx < 2 ^ 64) :
      m.scaledUse r x = (r.usage x).valueEx * r.window m.config :=
    Nat.mod_eq_of_lt ((Nat.mul_le_mul hx.le hwindow.2).trans_lt (by decide))
  have hvalue : (r.usage v).valueEx = (r.usage u).valueEx +
      (amount * config.rateLimitingPrecision) ⌈/⌉ r.window m.config := by
    rw [hv]
    exact Nat.mod_eq_of_lt (by omega)
  have hupper : _ / config.rateLimitingPrecision ≤ _ :=
    div_add_ceilDiv_le (r.usage u).valueEx amount hwindow.1 hwindow.2
  have hlower : _ ≤ _ / config.rateLimitingPrecision + 1 :=
    ceilDiv_add_le (r.usage u).valueEx amount hwindow.1 (by decide)
  have hnew := hscaled (x := v) (by omega)
  rw [hcapacity, integerDivideCeil_eq _ (by decide), hscaled (by omega)] at hrest
  rw [← hvalue, ← hnew] at hupper hlower
  refine ⟨fun hle => if_pos fun _ => ?_, fun hle => if_neg fun hwithin => ?_⟩
  · omega
  · have hquota := hwithin hlimited
    omega

/-- An account with a tenth of the weight uses all it is told to have left. -/
theorem reported_availability_tenth : let m : ResourceLimitsManager :=
      { state := { totalCpuWeight := 10, virtualCpuLimit := config.defaultMaxBlockCpuUsage }
        limits := FlatMap.empty.insert 1 { cpuWeight := 1 }
        usage := FlatMap.empty.insert 1 {} }
    m.getAccountCpuLimitEx 1 1000 = .ok (⟨0, 3456000000, 3456000000⟩, false) ∧
      m.checkQuota .cpu { cpuWeight := 1 } { cpuUsage := ⟨0, 20000000000, 3456000000⟩ } = .ok () := by
  intro m
  have hreport : m.getAccountLimitEx .cpu 1 1000 = .ok (⟨0, 3456000000, 3456000000⟩, false) := by
    decide +kernel
  exact ⟨hreport, (reported_availability_exact (by decide) rfl rfl rfl hreport (by decide)
    (by decide : 1 ≤ 3456000000) (by decide +kernel)).1 le_rfl⟩

end Quota

section Billing

variable {slot : Nat} {m : ResourceLimitsManager} {a : AccountName} {cpuUsage netUsage : Nat}
variable {accounts : List AccountName}

theorem exists_billAccount_ok : (∃ m', m.billAccount cpuUsage netUsage slot a = .ok m') ↔ ∃ u l v,
      m.usage.find? a = some u ∧ m.getAccountLimits a = .ok l ∧
        m.charge u cpuUsage netUsage slot = .ok v ∧ ∀ r, m.WithinQuota r l v := by
  simp only [billAccount_ok]
  constructor
  · rintro ⟨m', u, l, v, hu, hl, hv, hwithin, -⟩
    exact ⟨u, l, v, hu, hl, hv, hwithin⟩
  · rintro ⟨u, l, v, hu, hl, hv, hwithin⟩
    exact ⟨_, u, l, v, hu, hl, hv, hwithin, rfl⟩

theorem independent_billAccount (cpuUsage netUsage slot : Nat) :
    Independent (ResourceLimitsManager.billAccount cpuUsage netUsage slot) := by
  intro s s' a b hok hab
  obtain ⟨u, l, v, -, -, -, -, rfl⟩ := billAccount_ok.mp hok
  simp only [exists_billAccount_ok, FlatMap.find?_insert_of_ne _ _ hab]
  exact Iff.rfl

section

variable (h : ChargeReady slot m accounts (charges cpuUsage netUsage))
include h

theorem ChargeReady.add_ok (hu : m.usage.find? a = some u) (r : Resource)
    (hslot : (r.usage u).lastOrdinal = slot) (hmax : (r.parameters m.config).max < 2 ^ 32) :
    (r.usage u).valueEx + (charges cpuUsage netUsage r * config.rateLimitingPrecision) ⌈/⌉
        accountWindow < 2 ^ 64 ∧
      (r.usage u).add (charges cpuUsage netUsage r) slot (r.window m.config) = .ok
        ⟨slot, (r.usage u).valueEx +
          (charges cpuUsage netUsage r * config.rateLimitingPrecision) ⌈/⌉ accountWindow,
          (r.usage u).consumed + charges cpuUsage netUsage r⟩ := by
  have hbounded := h.limits.bounded a u hu r
  have hvalue := hbounded.value_le hslot
  have hconsumed := hbounded.consumed_le hslot
  have hblock := h.block_le r
  have hcontrib := mul_ceilDiv_le (charges cpuUsage netUsage r) config.rateLimitingPrecision
    (by decide : 0 < accountWindow)
  rw [precision_ceilDiv_accountWindow] at hvalue hconsumed hcontrib
  have hquotient : (2 ^ 64 - 1) / accountWindow ≤ 2 ^ 47 := by decide
  have hraw : 2 ^ 32 ≤ UsageAccumulator.maxRawValue := by decide
  refine ⟨by omega, ?_⟩
  rw [h.limits.window_eq r]
  exact UsageAccumulator.add_current hslot (by decide) (by omega) (by omega) (by omega)

variable (hmax : ∀ r : Resource, (r.parameters m.config).max < 2 ^ 32)
include hmax

theorem ChargeReady.billAccount_ok_iff (ha : a ∈ accounts) :
    (∃ m', m.billAccount cpuUsage netUsage slot a = .ok m') ↔ ∀ r, ¬ OverQuota m r a := by
  obtain ⟨u, hu, hslot⟩ := h.current a ha
  obtain ⟨greylistLimit, x, greylisted, hlimit, -⟩ := h.offered a ha .cpu
  obtain ⟨w, l, -, hl, -⟩ := getAccountLimit_ok hlimit
  have hroom (r : Resource) := h.add_ok hu r (hslot r) (hmax r)
  let charged (r : Resource) : UsageAccumulator :=
    ⟨slot, (r.usage u).valueEx +
      (charges cpuUsage netUsage r * config.rateLimitingPrecision) ⌈/⌉ accountWindow,
      (r.usage u).consumed + charges cpuUsage netUsage r⟩
  let v : ResourceUsageObject := { u with cpuUsage := charged .cpu, netUsage := charged .net }
  have hcharge : m.charge u cpuUsage netUsage slot = .ok v :=
    charge_ok.mpr ⟨forall_resource.mpr ⟨(hroom .cpu).2, (hroom .net).2⟩, rfl⟩
  have hv (r : Resource) : r.usage v = charged r := by cases r <;> rfl
  have hquota (r : Resource) : m.WithinQuota r l v ↔ m.WithinQuota r l u := by
    obtain ⟨greylistLimit, x, greylisted, hx, hle⟩ := h.offered a ha r
    obtain ⟨u', l', hu', hl', havailable⟩ := getAccountLimit_ok hx
    cases hu.symm.trans hu'
    cases hl.symm.trans hl'
    have hvalue : (r.usage v).valueEx = (charged r).valueEx := by rw [hv r]
    refine withinQuota_charged h.limits (hmax r) hvalue (hvalue ▸ (hroom r).1)
      (offeredCapacity_le greylistLimit) fun hlimited => ?_
    have hx := havailable hlimited
    have hle : (charges cpuUsage netUsage r : Int) ≤ x := hle (by omega)
    omega
  rw [exists_billAccount_ok]
  constructor
  · rintro ⟨u', l', v', hu', hl', hv', hwithin⟩ r ⟨u'', l'', hu'', hl'', hover⟩
    cases hu.symm.trans hu'
    cases hu.symm.trans hu''
    cases hl.symm.trans hl'
    cases hl.symm.trans hl''
    cases hcharge.symm.trans hv'
    exact hover ((hquota r).mp (hwithin r))
  · intro hquotas
    refine ⟨u, l, v, hu, hl, hcharge, fun r => (hquota r).mpr ?_⟩
    by_contra hover
    exact hquotas r ⟨u, l, hu, hl, hover⟩

theorem ChargeReady.billing_ok_iff :
    (∃ m', m.addTransactionUsage accounts cpuUsage netUsage slot = .ok m') ↔
      ∀ a ∈ accounts, ∀ r, ¬ OverQuota m r a := by
  have hrounds := exists_foldlM_ok_iff (s := m)
    (independent_billAccount cpuUsage netUsage slot) h.nodup
  have heach : (∀ a ∈ accounts, ∃ m', m.billAccount cpuUsage netUsage slot a = .ok m') ↔
      ∀ a ∈ accounts, ∀ r, ¬ OverQuota m r a :=
    forall₂_congr fun a ha => h.billAccount_ok_iff hmax ha
  rw [← heach, ← hrounds]
  constructor
  · rintro ⟨m', hok⟩
    obtain ⟨m₁, hfold, -⟩ := addTransactionUsage_ok.mp hok
    exact ⟨m₁, hfold⟩
  · rintro ⟨m₁, hfold⟩
    obtain ⟨⟨hconfig, hstate⟩, -⟩ := foldlM_billAccount_spec h.nodup hfold
    refine ⟨_, addTransactionUsage_ok.mpr ⟨m₁, hfold, fun r => ?_, rfl⟩⟩
    rw [pendingUsage_addPendingUsage, hconfig, hstate]
    exact (Nat.mod_le _ _).trans (h.block_le r)

end

end Billing

variable {b : BillingState}

section Runs

variable {slot : Nat} {m m' : ResourceLimitsManager}

theorem amount_eq_charges (c : TransactionContext) :
    c.amount = charges (c.amount .cpu) (c.amount .net) := by
  funext r
  cases r <;> rfl

theorem ChargeReady.invariant {accounts : List AccountName} {cpuUsage netUsage : Nat}
    (h : ChargeReady slot m accounts (charges cpuUsage netUsage))
    (hok : m.addTransactionUsage accounts cpuUsage netUsage slot = .ok m') :
    LimitsInvariant slot m' :=
  h.limits.addTransactionUsage h.nodup (fun r => (h.block_le r).trans_lt (h.limits.max_lt r)) hok

theorem run_invariant {t : TransactionStart} {x : TransactionExecution} (hchecked : x.Checked)
    (h : LimitsInvariant slot m) (hok : t.run x slot m = .ok m') : LimitsInvariant slot m' := by
  simp only [TransactionStart.run, bind_eq_ok] at hok
  obtain ⟨c, hc, hbill⟩ := hok
  have hready := upToBilling_ready hchecked h hc
  exact hready.invariant hbill

namespace ScheduledTransaction

variable {s : ScheduledTransaction}

theorem failedCpuTime_lt (s : ScheduledTransaction) (x : TransactionExecution) :
    s.failedCpuTime x < 2 ^ 32 := by
  rw [failedCpuTime]
  split
  · exact s.billedCpuTimeUs.toNat_lt
  · omega

theorem retire_invariant {cpuTimeToBillUs : Nat} (hcpu : cpuTimeToBillUs < 2 ^ 32)
    (h : LimitsInvariant slot m) (hok : s.retire slot m cpuTimeToBillUs = .ok m') :
    LimitsInvariant slot m' := by
  simp only [retire, bind_eq_ok] at hok
  obtain ⟨settled, hsettled, hbill⟩ := hok
  cases hexplicit : s.explicitBilledCpuTime with
  | false => exact (settleHardFail_ready hexplicit h hsettled).invariant hbill
  | true =>
    rw [settleHardFail, hexplicit] at hsettled
    cases hsettled
    refine h.addTransactionUsage (FlatMap.keys_nodup _) (forall_resource.mpr ⟨?_, ?_⟩) hbill
    · have hpending := h.pending_le .cpu
      have hmax := h.cpu_max_lt
      simp only [Resource.parameters, charges] at hpending ⊢
      omega
    · exact (h.pending_le .net).trans_lt (h.max_lt .net)

end ScheduledTransaction

/-- What the transactions of a block keep: the runs, the actions and the retirements do. -/
structure KeptBy (slot : Nat) (P : ResourceLimitsManager → Prop) : Prop where
  run : ∀ {t : TransactionStart} {x : TransactionExecution} {m m'}, x.Checked → P m →
    t.run x slot m = .ok m' → P m'
  keepsUsage : ∀ {m m'}, KeepsUsage m m' → P m → P m'
  retire : ∀ {s : ScheduledTransaction} {cpuTimeToBillUs : Nat} {m m'}, cpuTimeToBillUs < 2 ^ 32 →
    P m → s.retire slot m cpuTimeToBillUs = .ok m' → P m'

def BlockOperation.InBlock : BlockOperation → Prop
  | nextBlock _ _ _ => False
  | _ => True

section KeptBy

variable {P : ResourceLimitsManager → Prop} (hP : KeptBy slot P)
include hP

/-- What is known of an attempt: the limits it leaves, or the width of the time to bill. -/
theorem KeptBy.attempt {s : ScheduledTransaction} {result : ScheduledAttempt} (hchecked : s.Checked)
    (h : P m) (hok : s.attempt slot m = .ok result) : match result with
    | .done limits => P limits
    | .failed _ cpuTimeToBillUs => cpuTimeToBillUs < 2 ^ 32 := by
  rw [ScheduledTransaction.attempt] at hok
  split at hok
  · rename_i limits hrun
    cases hok
    exact hP.run hchecked.1 h hrun
  · split at hok
    · cases hok
    · split at hok
      · rw [ScheduledTransaction.applyOnerror] at hok
        split at hok
        · rename_i limits hrun
          cases hok
          exact hP.run hchecked.2 h hrun
        · split at hok
          · cases hok
          · cases hok
            exact s.failedCpuTime_lt _
      · cases hok
        exact s.failedCpuTime_lt _

theorem KeptBy.push {s : ScheduledTransaction} (hchecked : s.Checked) (h : P m)
    (hok : s.push slot m = .ok m') : P m' := by
  simp only [ScheduledTransaction.push, bind_eq_ok] at hok
  obtain ⟨removed, hremoved, hok⟩ := hok
  have hremain := hP.keepsUsage (addPendingRamUsage_keepsUsage hremoved) h
  split at hok
  · cases hok
    exact hremain
  · simp only [bind_eq_ok] at hok
    obtain ⟨result, hresult, hok⟩ := hok
    have hspec := hP.attempt hchecked hremain hresult
    split at hok
    · cases hok
      exact hspec
    · split at hok
      · cases hok
        exact h
      · exact hP.retire hspec hremain hok

end KeptBy

theorem KeptBy.apply {b' : BillingState} {op : BlockOperation} {P : ResourceLimitsManager → Prop}
    (hP : KeptBy b.slot P) (hin : op.InBlock) (hchecked : op.Checked) (h : P b.limits)
    (hok : op.apply b = .ok b') : b'.slot = b.slot ∧ P b'.limits := by
  cases op with
  | input trx unprunable prunable billedCpuTimeUs explicitBilledCpuTime x
  | implicit trx billedCpuTimeUs explicitBilledCpuTime x =>
    simp only [BlockOperation.apply, bind_eq_ok] at hok
    obtain ⟨limits, hrun, hok⟩ := hok
    cases hok
    exact ⟨rfl, hP.run hchecked h hrun⟩
  | scheduled s =>
    simp only [BlockOperation.apply, bind_eq_ok] at hok
    obtain ⟨limits, hpush, hok⟩ := hok
    cases hok
    exact ⟨rfl, hP.push hchecked h hpush⟩
  | nextBlock configuration blockNum slot => exact hin.elim

theorem keptBy_invariant (slot : Nat) : KeptBy slot (LimitsInvariant slot) where
  run hchecked h hok := run_invariant hchecked h hok
  keepsUsage hk h := h.keepsUsage hk
  retire hcpu h hok := ScheduledTransaction.retire_invariant hcpu h hok

theorem genesisLimits_invariant (slot : Nat) (h : genesisLimits = .ok m) : LimitsInvariant slot m := by
  have hinitial : LimitsInvariant slot .initializeDatabase := by
    refine ⟨?_, by decide, by decide, ?_, ?_, nofun⟩
    · exact forall_resource.mpr ⟨rfl, rfl⟩
    · exact forall_resource.mpr ⟨by decide, by decide⟩
    · exact forall_resource.mpr ⟨by decide, by decide⟩
  exact foldlM_ok_induction (fun a _ s s' hs hstep => hs.keepsUsage (initializeAccount_keepsUsage hstep))
    hinitial h

theorem BillingState.Reachable.invariant (h : b.Reachable) : LimitsInvariant b.slot b.limits := by
  induction h with
  | genesis slot h => exact genesisLimits_invariant slot h
  | step h op hchecked hok ih =>
    cases op with
    | input | implicit | scheduled =>
      obtain ⟨hslot, hinv⟩ := (keptBy_invariant _).apply (by trivial) hchecked ih hok
      exact hslot ▸ hinv
    | nextBlock configuration blockNum slot =>
      simp only [BlockOperation.apply, bind_eq_ok, eosAssert_eq_ok] at hok
      obtain ⟨limits, hfinalize, -, hlt, hok⟩ := hok
      cases hok
      exact ih.finalizeBlock hlt hfinalize

end Runs

/-- The calls of `add_transaction_usage` in a run of which the source says that they should never
fail: the slot, the limits they are made on, the billed accounts and the charges. -/
inductive BillingCall : Nat → ResourceLimitsManager → List AccountName → Nat → Nat → Prop
  | input {b : BillingState} {c : TransactionContext} (h : b.Reachable) (trx : Transaction)
      (unprunable prunable : Nat) (billedCpuTimeUs : UInt32) (explicitBilledCpuTime : Bool)
      (x : TransactionExecution) (hchecked : x.Checked)
      (hc : (BlockOperation.inputStart trx unprunable prunable billedCpuTimeUs explicitBilledCpuTime
        x).upToBilling x b.slot b.limits = .ok c) :
      BillingCall b.slot c.limits c.billToAccounts.keys (c.amount .cpu) (c.amount .net)
  | implicit {b : BillingState} {c : TransactionContext} (h : b.Reachable) (trx : Transaction)
      (billedCpuTimeUs : UInt32) (explicitBilledCpuTime : Bool) (x : TransactionExecution)
      (hchecked : x.Checked)
      (hc : (BlockOperation.implicitStart trx billedCpuTimeUs explicitBilledCpuTime).upToBilling x
        b.slot b.limits = .ok c) :
      BillingCall b.slot c.limits c.billToAccounts.keys (c.amount .cpu) (c.amount .net)
  | deferred {b : BillingState} {m : ResourceLimitsManager} {c : TransactionContext}
      (h : b.Reachable) (s : ScheduledTransaction) (hchecked : s.Checked) (hlive : s.expired = false)
      (hremoved : s.remove b.limits = .ok m)
      (hc : s.deferredStart.upToBilling s.execution b.slot m = .ok c) :
      BillingCall b.slot c.limits c.billToAccounts.keys (c.amount .cpu) (c.amount .net)
  | onerror {b : BillingState} {m : ResourceLimitsManager} {c : TransactionContext}
      {e : ChainException} (h : b.Reachable) (s : ScheduledTransaction) (hchecked : s.Checked)
      (hlive : s.expired = false) (hremoved : s.remove b.limits = .ok m)
      (hfailed : s.deferredStart.run s.execution b.slot m = .error e) (hcaught : ¬ Propagates e)
      (hreports : s.ReportsError e)
      (hc : s.onerrorStart.upToBilling s.onerrorExecution b.slot m = .ok c) :
      BillingCall b.slot c.limits c.billToAccounts.keys (c.amount .cpu) (c.amount .net)
  | hardFail {b : BillingState} {m : ResourceLimitsManager} {e : ChainException}
      {cpuTimeToBillUs : Nat} {settled : ResourceLimitsManager × Nat} (h : b.Reachable)
      (s : ScheduledTransaction) (hchecked : s.Checked) (hlive : s.expired = false)
      (hcapped : s.explicitBilledCpuTime = false) (hremoved : s.remove b.limits = .ok m)
      (hfailed : s.attempt b.slot m = .ok (.failed e cpuTimeToBillUs)) (hobjective : ¬ s.IsSubjective e)
      (hsettled : s.settleHardFail b.slot m cpuTimeToBillUs = .ok settled) :
      BillingCall b.slot settled.1 (s.failedContext m).billToAccounts.keys settled.2 0

theorem BillingCall.ready {slot m accounts cpuUsage netUsage} (h : BillingCall slot m accounts cpuUsage netUsage) :
    ChargeReady slot m accounts (charges cpuUsage netUsage) := by
  cases h with
  | input h trx unprunable prunable billedCpuTimeUs explicitBilledCpuTime x hchecked hc
  | implicit h trx billedCpuTimeUs explicitBilledCpuTime x hchecked hc =>
    exact amount_eq_charges _ ▸ upToBilling_ready hchecked h.invariant hc
  | deferred h s hchecked hlive hremoved hc =>
    have hinv := h.invariant.keepsUsage (addPendingRamUsage_keepsUsage hremoved)
    exact amount_eq_charges _ ▸ upToBilling_ready hchecked.1 hinv hc
  | onerror h s hchecked hlive hremoved hfailed hcaught hreports hc =>
    have hinv := h.invariant.keepsUsage (addPendingRamUsage_keepsUsage hremoved)
    exact amount_eq_charges _ ▸ upToBilling_ready hchecked.2 hinv hc
  | hardFail h s hchecked hlive hcapped hremoved hfailed hobjective hsettled =>
    have hinv := h.invariant.keepsUsage (addPendingRamUsage_keepsUsage hremoved)
    exact settleHardFail_ready hcapped hinv hsettled

/-- A billing that should never fail succeeds exactly when no billed account is over its quota
at the time. -/
theorem billing_succeeds_iff {slot : Nat} {m : ResourceLimitsManager} {accounts : List AccountName}
    {cpuUsage netUsage : Nat} (h : BillingCall slot m accounts cpuUsage netUsage)
    (hmax : ∀ r : Resource, (r.parameters m.config).max < 2 ^ 32) :
    (∃ m', m.addTransactionUsage accounts cpuUsage netUsage slot = .ok m') ↔
      ∀ a ∈ accounts, ∀ r, ¬ OverQuota m r a :=
  h.ready.billing_ok_iff hmax

section Sample

def billingTransaction (actor : AccountName) : Transaction :=
  { actions := [⟨config.systemAccountName, 0, [⟨actor, config.activeName⟩], .bytes []⟩] }

def billingInput (actor : AccountName) (size : Nat) (operations : List TransactionOperation) :
    BlockOperation :=
  .input (billingTransaction actor) size 0 0 false { operations }

def fullShare : List BlockOperation :=
  [billingInput config.systemAccountName 100
      [.initializeAccount 1, .initializeAccount 2, .setResourceLimits 1 (-1) 1 (-1)],
    .nextBlock {} 2 11]

/-- The account uses some of its share and schedules a delayed transaction. Then another account
gets most of the weight. -/
def shrunkShare : List BlockOperation :=
  fullShare ++
    [billingInput 1 1000 [.addRamUsage 1 400],
      billingInput config.systemAccountName 100 [.setResourceLimits 2 (-1) 1000000000000000 (-1)],
      .nextBlock {} 3 12]

def delayedTransaction : ScheduledTransaction :=
  { trx := billingTransaction 1, payer := 1, billableSize := 400 }

def billingRun (operations : List BlockOperation) : Fallible BillingState := do
  let limits ← genesisLimits
  operations.foldlM BlockOperation.apply ⟨10, limits⟩

theorem reachable_billingRun {operations : List BlockOperation}
    (hchecked : ∀ op ∈ operations, op.Checked) (h : billingRun operations = .ok b) :
    b.Reachable := by
  simp only [billingRun, bind_eq_ok] at h
  obtain ⟨limits, hgenesis, h⟩ := h
  exact foldlM_ok_induction (fun op hop s s' hs hstep => .step hs op (hchecked op hop) hstep)
    (.genesis 10 hgenesis) h

theorem fullShare_checked : ∀ op ∈ fullShare, op.Checked := by
  simp [fullShare, billingInput, BlockOperation.Checked, TransactionExecution.Checked]

theorem shrunkShare_checked : ∀ op ∈ shrunkShare, op.Checked := by
  simp [shrunkShare, fullShare, billingInput, BlockOperation.Checked, TransactionExecution.Checked]

/-- The whole share pays for the transaction. -/
theorem billing_succeeds_fullShare : ∃ slot m accounts cpuUsage netUsage,
    BillingCall slot m accounts cpuUsage netUsage ∧
      (∃ m', m.addTransactionUsage accounts cpuUsage netUsage slot = .ok m') ∧
      ∀ a ∈ accounts, ∀ r, ¬ OverQuota m r a := by
  obtain ⟨b, hb, c, hc, hmax, hbill⟩ : ∃ b, billingRun fullShare = .ok b ∧
      ∃ c, (BlockOperation.inputStart (billingTransaction 1) 1000 0 0 false {}).upToBilling {} b.slot
        b.limits = .ok c ∧ (c.limits.config.cpuLimitParameters.max < 2 ^ 32 ∧
          c.limits.config.netLimitParameters.max < 2 ^ 32) ∧ ∃ m', c.bill b.slot = .ok m' := by
    decide +kernel
  have hcall := BillingCall.input (reachable_billingRun fullShare_checked hb) (billingTransaction 1)
    1000 0 0 false {} ⟨rfl, rfl⟩ hc
  exact ⟨_, _, _, _, _, hcall, hbill,
    (billing_succeeds_iff hcall (forall_resource.mpr hmax)).mp hbill⟩

/-- With the share gone, the delayed transaction passes the checks with no NET usage to bill and
its billing throws. So does the billing of its retirement, and the transaction stays where it
is. -/
theorem billing_throws_shrunkShare : ∃ b m c cpuTimeToBillUs settled,
    BillingState.Reachable b ∧ (∀ r : Resource, (r.parameters b.limits.config).max < 2 ^ 32) ∧
      delayedTransaction.Checked ∧ delayedTransaction.remove b.limits = .ok m ∧
      delayedTransaction.deferredStart.upToBilling delayedTransaction.execution b.slot m = .ok c ∧
      c.bill b.slot = .error Resource.net.exceeded ∧
      delayedTransaction.attempt b.slot m = .ok (.failed Resource.net.exceeded cpuTimeToBillUs) ∧
      ¬ delayedTransaction.IsSubjective Resource.net.exceeded ∧
      delayedTransaction.settleHardFail b.slot m cpuTimeToBillUs = .ok settled ∧
      settled.1.addTransactionUsage (delayedTransaction.failedContext m).billToAccounts.keys
        settled.2 0 b.slot = .error Resource.net.exceeded := by
  let s := delayedTransaction
  obtain ⟨b, hb, hmax, m, hm, ⟨c, hc, hbill⟩, settled, hsettled, hretiring⟩ :
      ∃ b, billingRun shrunkShare = .ok b ∧ (b.limits.config.cpuLimitParameters.max < 2 ^ 32 ∧
        b.limits.config.netLimitParameters.max < 2 ^ 32) ∧ ∃ m, s.remove b.limits = .ok m ∧
        (∃ c, s.deferredStart.upToBilling s.execution b.slot m = .ok c ∧
          c.bill b.slot = .error Resource.net.exceeded) ∧
        ∃ settled, s.settleHardFail b.slot m (s.failedCpuTime s.execution) = .ok settled ∧
          settled.1.addTransactionUsage (s.failedContext m).billToAccounts.keys settled.2 0
            b.slot = .error Resource.net.exceeded := by
    decide +kernel
  have hfailed : s.deferredStart.run s.execution b.slot m = .error Resource.net.exceeded := by
    rw [TransactionStart.run, hc]
    exact hbill
  have hattempt : s.attempt b.slot m =
      .ok (.failed Resource.net.exceeded (s.failedCpuTime s.execution)) := by
    rw [ScheduledTransaction.attempt, hfailed]
    rfl
  exact ⟨b, m, c, s.failedCpuTime s.execution, settled,
    reachable_billingRun shrunkShare_checked hb, forall_resource.mpr hmax,
    ⟨⟨rfl, rfl⟩, rfl, rfl⟩, hm, hc, hbill, hattempt, by decide, hsettled, hretiring⟩

end Sample

end DreamChain
