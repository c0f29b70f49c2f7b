import DreamChain.Chain.BillingSafety

/-!
The limits of blocks. At the end of a block the averages take the usage of the block, and the
virtual limits move towards or away from the maxima of the configuration. The arithmetic is
checked in the averages and in products with ratios, and wraps around elsewhere.

A maximum is safe if averages of blocks that are filled up to it never overflow. `validate` bounds
the CPU maximum by its type alone, which is safe, and does not bound the NET maximum.
-/

namespace DreamChain
open Library TransactionContext

namespace config

def minNetUsageDeltaBetweenBaseAndMaxForTrx : Nat := 10 * 1024

end config

structure ChainConfiguration extends ChainConfig where
  maxAuthorityDepth : UInt16 := 6
deriving DecidableEq, Repr

def ChainConfiguration.validate (c : ChainConfiguration) : Fallible Unit := do
  eosAssert (c.targetBlockNetUsagePct.toNat ≤ config.percent100) .actionValidateException
    "target block net usage percentage cannot exceed 100%"
  eosAssert (config.percent1 / 10 ≤ c.targetBlockNetUsagePct.toNat) .actionValidateException
    "target block net usage percentage must be at least 0.1%"
  eosAssert (c.targetBlockCpuUsagePct.toNat ≤ config.percent100) .actionValidateException
    "target block cpu usage percentage cannot exceed 100%"
  eosAssert (config.percent1 / 10 ≤ c.targetBlockCpuUsagePct.toNat) .actionValidateException
    "target block cpu usage percentage must be at least 0.1%"
  eosAssert (c.maxTransactionNetUsage.toNat < c.maxBlockNetUsage.toNat) .actionValidateException
    "max transaction net usage must be less than max block net usage"
  eosAssert (c.maxTransactionCpuUsage < c.maxBlockCpuUsage) .actionValidateException
    "max transaction cpu usage must be less than max block cpu usage"
  eosAssert (c.basePerTransactionNetUsage < c.maxTransactionNetUsage) .actionValidateException
    "base net usage per transaction must be less than the max transaction net usage"
  eosAssert (config.minNetUsageDeltaBetweenBaseAndMaxForTrx ≤
      (c.maxTransactionNetUsage - c.basePerTransactionNetUsage).toNat) .actionValidateException
    "max transaction net usage must be at least ${delta} bytes larger than base net usage per transaction"
  eosAssert (0 < c.contextFreeDiscountNetUsageDen) .actionValidateException
    "net usage discount ratio for context free data cannot have a 0 denominator"
  eosAssert (c.contextFreeDiscountNetUsageNum ≤ c.contextFreeDiscountNetUsageDen)
    .actionValidateException "net usage discount ratio for context free data cannot exceed 1"
  eosAssert (c.minTransactionCpuUsage ≤ c.maxTransactionCpuUsage) .actionValidateException
    "min transaction cpu usage cannot exceed max transaction cpu usage"
  eosAssert (c.maxTransactionCpuUsage < c.maxBlockCpuUsage - c.minTransactionCpuUsage)
    .actionValidateException
    "max transaction cpu usage must be at less than the difference between the max block cpu usage and the min transaction cpu usage"
  eosAssert (1 ≤ c.maxAuthorityDepth) .actionValidateException
    "max authority depth should be at least 1"

/-- A configuration that privileged code can set. -/
structure ValidConfiguration extends ChainConfiguration where
  valid : toChainConfiguration.validate = .ok ()

namespace Resource

def maxBlockUsage : Resource → ChainConfig → Nat
  | cpu, c => c.maxBlockCpuUsage.toNat
  | net, c => c.maxBlockNetUsage.toNat

def targetBlockUsagePct : Resource → ChainConfig → Nat
  | cpu, c => c.targetBlockCpuUsagePct.toNat
  | net, c => c.targetBlockNetUsagePct.toNat

def averageBlockUsage : Resource → ResourceLimitsState → UsageAccumulator
  | cpu, s => s.averageBlockCpuUsage
  | net, s => s.averageBlockNetUsage

end Resource

def blockWindow : Nat := config.blockCpuUsageAverageWindowMs / config.blockIntervalMs

def elasticParameters (cfg : ChainConfig) (r : Resource) : ElasticLimitParameters :=
  ⟨eosPercent (r.maxBlockUsage cfg) (r.targetBlockUsagePct cfg), r.maxBlockUsage cfg, blockWindow,
    config.maximumElasticResourceMultiplier, ⟨99, 100⟩, ⟨1000, 999⟩⟩

def endBlock (cfg : ChainConfig) (blockNum : Nat) (m : ResourceLimitsManager) :
    Fallible ResourceLimitsManager := do
  let m ← m.setBlockParameters (elasticParameters cfg .cpu) (elasticParameters cfg .net)
  m.processBlockUsage blockNum

structure SameElastic (m m' : ResourceLimitsManager) : Prop where
  config_eq : m'.config = m.config
  average_eq : ∀ r : Resource, r.averageBlockUsage m'.state = r.averageBlockUsage m.state
  virtual_eq : ∀ r : Resource, r.virtualLimit m'.state = r.virtualLimit m.state

/-- What the transactions of a block and the updates of account limits can do: they fill the block
up to the maxima in force. -/
structure WithinBlock (m m' : ResourceLimitsManager) : Prop extends SameElastic m m' where
  pending_le : ∀ r : Resource, r.pendingUsage m'.state ≤ (r.parameters m.config).max

/-- The limits after a number of blocks with configurations that keep the NET maximum of a block
to a bound. The first argument after it is the number of the last block. -/
inductive ElasticRun (bound : Nat) : Nat → ResourceLimitsManager → Prop
  | genesis : ElasticRun bound 1 .initializeDatabase
  | block {blockNum m m₁ m₂} (h : ElasticRun bound blockNum m)
      (hwithin : WithinBlock m m₁) (cfg : ValidConfiguration)
      (hbound : cfg.maxBlockNetUsage.toNat ≤ bound)
      (hok : endBlock cfg.toChainConfig (blockNum + 1) m₁ = .ok m₂) :
      ElasticRun bound (blockNum + 1) m₂

def safeBlockUsage : Nat := 155014656081

section Average

def averageContribution : Nat := (safeBlockUsage * config.rateLimitingPrecision) ⌈/⌉ blockWindow

/-- Blocks that are all filled up to the safe maximum bring an average this far and no further. -/
def averageBound : Nat := (averageContribution - 1) * blockWindow + 1

namespace UsageAccumulator

theorem averageBound_block : AverageBound blockWindow safeBlockUsage averageBound := by
  constructor <;> decide

structure Safe (a : UsageAccumulator) (blockNum : Nat) : Prop where
  ordinal_le : a.lastOrdinal ≤ blockNum
  value_le : a.valueEx ≤ averageBound
  consumed_le : a.consumed ≤ averageBound + safeBlockUsage

variable {a : UsageAccumulator} {blockNum : Nat}

theorem Safe.add (h : a.Safe blockNum) {units : Nat} (hunits : units ≤ safeBlockUsage) :
    ∃ b, a.add units (blockNum + 1) blockWindow = .ok b ∧ b.Safe (blockNum + 1) := by
  obtain ⟨b, hadd, hordinal, hvalue, hconsumed⟩ := averageBound_block.add h.value_le h.consumed_le
    (Nat.lt_succ_of_le h.ordinal_le) hunits
  exact ⟨b, hadd, hordinal.le, hvalue, hconsumed⟩

end UsageAccumulator

end Average

section VirtualLimit

variable {cfg : ChainConfig} {r : Resource}

theorem updateElasticLimit_range {currentLimit : Nat} (averageUsage : Nat)
    (hmax : r.maxBlockUsage cfg ≤ safeBlockUsage)
    (hcurrent : currentLimit ≤ safeBlockUsage * config.maximumElasticResourceMultiplier) :
    ∃ limit, updateElasticLimit currentLimit averageUsage (elasticParameters cfg r) = .ok limit ∧
      r.maxBlockUsage cfg ≤ limit ∧
      limit ≤ r.maxBlockUsage cfg * config.maximumElasticResourceMultiplier := by
  have hscale (rate : Ratio) (hrate : rate.numerator ≤ 1000) : ∃ x, rate.scale currentLimit = .ok x := by
    have hproduct := Nat.mul_le_mul hcurrent hrate
    exact ⟨_, Ratio.scale_ok.mpr ⟨hproduct.trans_lt (by decide), rfl⟩⟩
  have hproduct : u64 (r.maxBlockUsage cfg * config.maximumElasticResourceMultiplier) =
      r.maxBlockUsage cfg * config.maximumElasticResourceMultiplier :=
    Nat.mod_eq_of_lt ((Nat.mul_le_mul_right _ hmax).trans_lt (by decide))
  have hrange : r.maxBlockUsage cfg ≤ r.maxBlockUsage cfg * config.maximumElasticResourceMultiplier :=
    Nat.le_mul_of_pos_right _ (by decide)
  have hrate : (if (elasticParameters cfg r).target < averageUsage then
      (elasticParameters cfg r).contractRate else (elasticParameters cfg r).expandRate).numerator ≤
      1000 := by
    split
    · exact (by decide : 99 ≤ 1000)
    · exact le_rfl
  obtain ⟨x, hx⟩ := hscale _ hrate
  refine ⟨min (max x (r.maxBlockUsage cfg))
    (r.maxBlockUsage cfg * config.maximumElasticResourceMultiplier), ?_, ?_, min_le_right _ _⟩
  · simp only [updateElasticLimit, hx]
    change Except.ok (min (max x (r.maxBlockUsage cfg))
      (u64 (r.maxBlockUsage cfg * config.maximumElasticResourceMultiplier))) = _
    rw [hproduct]
  · exact le_min (le_max_right _ _) hrange

end VirtualLimit

section Run

structure ElasticInvariant (blockNum : Nat) (m : ResourceLimitsManager) : Prop where
  max_le : ∀ r : Resource, (r.parameters m.config).max ≤ safeBlockUsage
  average_safe : ∀ r : Resource, (r.averageBlockUsage m.state).Safe blockNum
  virtual_le : ∀ r : Resource, r.virtualLimit m.state ≤
    safeBlockUsage * config.maximumElasticResourceMultiplier

theorem elasticInvariant_initial (blockNum : Nat) :
    ElasticInvariant blockNum .initializeDatabase := by
  refine ⟨fun r => ?_, fun r => ?_, fun r => ?_⟩
  · cases r <;> decide
  · cases r <;> exact ⟨Nat.zero_le _, Nat.zero_le _, Nat.zero_le _⟩
  · cases r <;> decide

variable {blockNum : Nat} {m m₁ : ResourceLimitsManager} {cfg : ChainConfig}

theorem setBlockParameters_ok (m : ResourceLimitsManager) (cfg : ChainConfig) :
    m.setBlockParameters (elasticParameters cfg .cpu) (elasticParameters cfg .net) =
      .ok { m with config := { m.config with
        cpuLimitParameters := elasticParameters cfg .cpu
        netLimitParameters := elasticParameters cfg .net } } := by
  have hvalid (r : Resource) : (elasticParameters cfg r).validate = .ok () := rfl
  simp only [ResourceLimitsManager.setBlockParameters, hvalid]
  split
  · rename_i heq
    rw [← heq.1, ← heq.2]
    rfl
  · rfl

theorem endBlock_ok {averageCpu averageNet cpuLimit netLimit}
    (hcpu : m.state.averageBlockCpuUsage.add m.state.pendingCpuUsage blockNum blockWindow =
      .ok averageCpu)
    (hcpuLimit : updateElasticLimit m.state.virtualCpuLimit averageCpu.average
      (elasticParameters cfg .cpu) = .ok cpuLimit)
    (hnet : m.state.averageBlockNetUsage.add m.state.pendingNetUsage blockNum blockWindow =
      .ok averageNet)
    (hnetLimit : updateElasticLimit m.state.virtualNetLimit averageNet.average
      (elasticParameters cfg .net) = .ok netLimit) : endBlock cfg blockNum m = .ok { m with
      config := { m.config with
        cpuLimitParameters := elasticParameters cfg .cpu
        netLimitParameters := elasticParameters cfg .net }
      state := { m.state with
        averageBlockCpuUsage := averageCpu
        virtualCpuLimit := cpuLimit
        pendingCpuUsage := 0
        averageBlockNetUsage := averageNet
        virtualNetLimit := netLimit
        pendingNetUsage := 0 } } := by
  have hperiods (r : Resource) : (elasticParameters cfg r).periods = blockWindow := rfl
  simp only [endBlock, setBlockParameters_ok, ResourceLimitsManager.processBlockUsage, bind,
    Except.bind, hperiods, hcpu, hcpuLimit, hnet, hnetLimit]
  rfl

theorem ElasticInvariant.endBlock (h : ElasticInvariant blockNum m) (hwithin : WithinBlock m m₁)
    (hmax : ∀ r : Resource, r.maxBlockUsage cfg ≤ safeBlockUsage) :
    ∃ m₂, endBlock cfg (blockNum + 1) m₁ = .ok m₂ ∧ ElasticInvariant (blockNum + 1) m₂ ∧
      ∀ r : Resource, r.maxBlockUsage cfg ≤ r.virtualLimit m₂.state ∧
        r.virtualLimit m₂.state ≤ r.maxBlockUsage cfg * config.maximumElasticResourceMultiplier := by
  have haverage (r : Resource) := (hwithin.average_eq r ▸ h.average_safe r).add
    ((hwithin.pending_le r).trans (h.max_le r))
  have hlimit (r : Resource) (averageUsage : Nat) := updateElasticLimit_range averageUsage (hmax r)
    (hwithin.virtual_eq r ▸ h.virtual_le r)
  obtain ⟨averageCpu, hcpu, hcpuSafe⟩ := haverage .cpu
  obtain ⟨averageNet, hnet, hnetSafe⟩ := haverage .net
  obtain ⟨cpuLimit, hcpuLimit, hcpuRange⟩ := hlimit .cpu averageCpu.average
  obtain ⟨netLimit, hnetLimit, hnetRange⟩ := hlimit .net averageNet.average
  have hrange (r : Resource) {limit : Nat}
      (hle : limit ≤ r.maxBlockUsage cfg * config.maximumElasticResourceMultiplier) :
      limit ≤ safeBlockUsage * config.maximumElasticResourceMultiplier :=
    hle.trans (Nat.mul_le_mul_right _ (hmax r))
  refine ⟨_, endBlock_ok hcpu hcpuLimit hnet hnetLimit, ⟨fun r => ?_, fun r => ?_, fun r => ?_⟩,
    fun r => ?_⟩
  · cases r with
    | cpu => exact hmax .cpu
    | net => exact hmax .net
  · cases r with
    | cpu => exact hcpuSafe
    | net => exact hnetSafe
  · cases r with
    | cpu => exact hrange .cpu hcpuRange.2
    | net => exact hrange .net hnetRange.2
  · cases r with
    | cpu => exact hcpuRange
    | net => exact hnetRange

theorem maxBlockUsage_le_safe (hnet : cfg.maxBlockNetUsage.toNat ≤ safeBlockUsage) (r : Resource) :
    r.maxBlockUsage cfg ≤ safeBlockUsage := by
  cases r with
  | cpu => exact cfg.maxBlockCpuUsage.toNat_lt.le.trans (by decide)
  | net => exact hnet

theorem ElasticRun.mono {bound larger : Nat} (hle : bound ≤ larger)
    (h : ElasticRun bound blockNum m) : ElasticRun larger blockNum m := by
  induction h with
  | genesis => exact .genesis
  | block _ hwithin cfg hbound hok ih => exact .block ih hwithin cfg (hbound.trans hle) hok

theorem ElasticRun.invariant (h : ElasticRun safeBlockUsage blockNum m) :
    ElasticInvariant blockNum m := by
  induction h with
  | genesis => exact elasticInvariant_initial 1
  | block _ hwithin cfg hbound hok ih =>
    obtain ⟨m₂, hend, hinv, -⟩ := ih.endBlock hwithin (maxBlockUsage_le_safe hbound)
    cases hend.symm.trans hok
    exact hinv

end Run

section Transactions

variable {m m' m'' : ResourceLimitsManager} {slot : Nat} {ctx c : TransactionContext}
  {env : BillingEnvironment} {accounts : List AccountName}

theorem SameElastic.refl (m : ResourceLimitsManager) : SameElastic m m :=
  ⟨rfl, fun _ => rfl, fun _ => rfl⟩

theorem SameElastic.trans (h : SameElastic m m') (h' : SameElastic m' m'') : SameElastic m m'' :=
  ⟨h'.config_eq.trans h.config_eq, fun r => (h'.average_eq r).trans (h.average_eq r),
    fun r => (h'.virtual_eq r).trans (h.virtual_eq r)⟩

theorem SameLimits.sameElastic (h : SameLimits m m') : SameElastic m m' :=
  ⟨h.config_eq, fun _ => h.state_eq ▸ rfl, fun _ => h.state_eq ▸ rfl⟩

theorem updateAccountUsage_sameElastic
    (hok : m.updateAccountUsage accounts slot = .ok m') : SameElastic m m' := by
  refine foldlM_ok_induction (I := SameElastic m) (fun a _ s s' hs hstep => hs.trans ?_) (.refl m) hok
  obtain ⟨u, v, -, -, rfl⟩ := refreshUsage_ok.mp hstep
  exact ⟨rfl, fun _ => rfl, fun _ => rfl⟩

theorem addTransactionUsage_sameElastic {cpuUsage netUsage : Nat}
    (hok : m.addTransactionUsage accounts cpuUsage netUsage slot = .ok m') : SameElastic m m' := by
  obtain ⟨m₁, hfold, -, rfl⟩ := addTransactionUsage_ok.mp hok
  have hbilled : SameElastic m m₁ := by
    refine foldlM_ok_induction (I := SameElastic m) (fun a _ s s' hs hstep => hs.trans ?_) (.refl m)
      hfold
    obtain ⟨u, l, v, -, -, -, -, rfl⟩ := billAccount_ok.mp hstep
    exact ⟨rfl, fun _ => rfl, fun _ => rfl⟩
  refine hbilled.trans ⟨rfl, fun r => ?_, virtualLimit_addPendingUsage _ _⟩
  cases r <;> rfl

theorem init_sameElastic {trx initialNetUsage}
    (hok : ctx.init env slot trx initialNetUsage = .ok c) : SameElastic ctx.limits c.limits := by
  simp only [TransactionContext.init, recordBilledAccounts, bind_eq_ok] at hok
  obtain ⟨-, -, -, -, c₁, ⟨limits, hupdate, hrecord⟩, c₂, heager, c₃, hadd, -, -, hok⟩ := hok
  cases hrecord
  cases hok
  rw [limits_fixLimits] at hupdate
  rw [(addNetUsage_same hadd).limits_eq, (setEagerLimits_same heager).limits_eq]
  exact updateAccountUsage_sameElastic hupdate

theorem run_sameElastic {t : TransactionStart} {x : TransactionExecution}
    (hok : t.run x slot m = .ok m') : SameElastic m m' := by
  simp only [TransactionStart.run, TransactionStart.upToBilling, checkBilling,
    bill, bind_eq_ok] at hok
  obtain ⟨c, ⟨c₁, hinit, c₂, hexecute, -, -, -, -, offer, -, -, -, -, -, hchecks⟩, hbill⟩ := hok
  cases hchecks
  rw [(updateBilledCpuTime_spec _ _ _).1, (settleLimits_spec c₂ offer).1] at hbill
  have hstart : SameElastic m c₁.limits := init_sameElastic hinit
  have hend := execute_induction (P := fun s => SameElastic m s.limits) (fun op s s' hs hstep =>
    hs.trans (applyOperation_frame hstep).1.same.sameElastic) hstart hexecute
  exact hend.trans (addTransactionUsage_sameElastic hbill)

namespace ScheduledTransaction

variable {s : ScheduledTransaction}

theorem retire_sameElastic {cpuTimeToBillUs : Nat}
    (hok : s.retire slot m cpuTimeToBillUs = .ok m') : SameElastic m m' := by
  simp only [retire, bind_eq_ok] at hok
  obtain ⟨settled, hsettled, hbill⟩ := hok
  refine SameElastic.trans ?_ (addTransactionUsage_sameElastic hbill)
  rw [settleHardFail] at hsettled
  split at hsettled
  · cases hsettled
    exact .refl m
  · simp only [bind_eq_ok] at hsettled
    obtain ⟨limits, hupdate, offer, -, hsettled⟩ := hsettled
    cases hsettled
    exact updateAccountUsage_sameElastic hupdate

end ScheduledTransaction

theorem keptBy_sameElastic (slot : Nat) (m : ResourceLimitsManager) : KeptBy slot (SameElastic m) where
  run _ h hok := h.trans (run_sameElastic hok)
  keepsUsage hk h := h.trans hk.same.sameElastic
  retire _ h hok := h.trans (ScheduledTransaction.retire_sameElastic hok)

theorem processAccountLimitUpdates_sameElastic (hok : m.processAccountLimitUpdates = .ok m') :
    SameElastic m m' ∧ ∀ r : Resource, r.pendingUsage m'.state = r.pendingUsage m.state := by
  refine foldlM_ok_induction (I := fun s => SameElastic m s ∧
    ∀ r : Resource, r.pendingUsage s.state = r.pendingUsage m.state) ?_ ⟨.refl m, fun _ => rfl⟩ hok
  rintro entry - s s' ⟨hsame, hpending⟩ hstep
  rw [ResourceLimitsManager.applyPendingLimits] at hstep
  split at hstep
  · cases hstep
  · simp only [bind_eq_ok] at hstep
    obtain ⟨ram, -, cpu, -, net, -, hstep⟩ := hstep
    cases hstep
    refine ⟨hsame.trans ⟨rfl, fun r => ?_, fun r => ?_⟩, fun r => ?_⟩
    · cases r <;> rfl
    · cases r <;> rfl
    · rw [← hpending r]
      cases r <;> rfl

/-- The transactions of a block and the updates at its end keep within the block. -/
theorem BillingState.Reachable.withinBlock {b b' : BillingState} {operations : List BlockOperation}
    (h : b.Reachable) (hchecked : ∀ op ∈ operations, op.Checked)
    (hin : ∀ op ∈ operations, op.InBlock) (hok : operations.foldlM (fun b op => op.apply b) b = .ok b')
    (hupdates : b'.limits.processAccountLimitUpdates = .ok m) : WithinBlock b.limits m := by
  obtain ⟨hreach, hsame⟩ := foldlM_ok_induction
    (I := fun s : BillingState => s.Reachable ∧ SameElastic b.limits s.limits)
    (fun op hop s s' hs hstep => ⟨.step hs.1 op (hchecked op hop) hstep,
      ((keptBy_sameElastic _ _).apply (hin op hop) (hchecked op hop) hs.2 hstep).2⟩) ⟨h, .refl _⟩ hok
  obtain ⟨hlater, hpending⟩ := processAccountLimitUpdates_sameElastic hupdates
  refine ⟨hsame.trans hlater, fun r => ?_⟩
  rw [hpending r, ← hsame.config_eq]
  exact hreach.invariant.pending_le r

theorem withinBlock_fullShare : ∃ b m, billingRun fullShare = .ok b ∧
    m.state.pendingNetUsage ≠ 0 ∧ WithinBlock b.limits m := by
  obtain ⟨b, hb, b', hb', m, hm, hused⟩ : ∃ b, billingRun fullShare = .ok b ∧
      ∃ b', [billingInput 1 1000 []].foldlM (fun b op => op.apply b) b = .ok b' ∧
        ∃ m, b'.limits.processAccountLimitUpdates = .ok m ∧ m.state.pendingNetUsage ≠ 0 := by
    decide +kernel
  exact ⟨b, m, hb, hused, (reachable_billingRun fullShare_checked hb).withinBlock
    (by simp [billingInput, BlockOperation.Checked, TransactionExecution.Checked])
    (by simp [billingInput, BlockOperation.InBlock]) hb' hm⟩

end Transactions

section Overflow

variable {a b : UsageAccumulator} {blockNum units : Nat}

theorem UsageAccumulator.add_next (hord : a.lastOrdinal = blockNum)
    (hok : a.add units (blockNum + 1) blockWindow = .ok b) :
    a.valueEx ≤ (2 ^ 64 - 1) / (blockWindow - 1) ∧ b.lastOrdinal = blockNum + 1 ∧
      b.valueEx = a.valueEx * (blockWindow - 1) / blockWindow +
        (units * config.rateLimitingPrecision) ⌈/⌉ blockWindow := by
  obtain ⟨-, -, hfits, c, hadvance, rfl⟩ := (UsageAccumulator.add_ok_iff (by decide)).mp hok
  obtain ⟨rfl, hchecks⟩ := UsageAccumulator.advance_ok.mp hadvance
  have hne : a.lastOrdinal ≠ blockNum + 1 := by omega
  have hlt : blockNum + 1 < a.lastOrdinal + blockWindow := by
    rw [show blockWindow = 120 from rfl]
    omega
  have hproduct := (hchecks hne).2 hlt
  rw [hord, Nat.add_sub_cancel_left] at hproduct
  have hle : a.valueEx ≤ (2 ^ 64 - 1) / (blockWindow - 1) :=
    (Nat.le_div_iff_mul_le (by decide)).mpr (by omega)
  refine ⟨hle, UsageAccumulator.exactAdvance_ordinal, ?_⟩
  have hdecayed := a.exactDecay_le (blockNum + 1) blockWindow
  have hvalue : a.exactDecay (blockNum + 1) blockWindow =
      a.valueEx * (blockWindow - 1) / blockWindow := by
    rw [UsageAccumulator.exactDecay, if_pos hlt, hord, Nat.add_sub_cancel_left]
  have hbound : (2 ^ 64 - 1) / (blockWindow - 1) < 2 ^ 63 := by decide
  rw [UsageAccumulator.exactAdvance, if_neg hne, ← hvalue]
  exact Nat.mod_eq_of_lt (by dsimp only; omega)

theorem UsageAccumulator.add_ordinal (hok : a.add units blockNum blockWindow = .ok b) :
    b.lastOrdinal = blockNum := by
  obtain ⟨-, -, -, c, hadvance, rfl⟩ := (UsageAccumulator.add_ok_iff (by decide)).mp hok
  obtain ⟨rfl, -⟩ := UsageAccumulator.advance_ok.mp hadvance
  exact UsageAccumulator.exactAdvance_ordinal

theorem endBlock_net {cfg m m₂} (hok : endBlock cfg blockNum m = .ok m₂) :
    m.state.averageBlockNetUsage.add m.state.pendingNetUsage blockNum blockWindow =
        .ok m₂.state.averageBlockNetUsage ∧
      m₂.config.netLimitParameters = elasticParameters cfg .net := by
  simp only [endBlock, setBlockParameters_ok, ResourceLimitsManager.processBlockUsage, bind_eq_ok,
    Except.ok.injEq] at hok
  obtain ⟨_, rfl, averageCpu, -, cpuLimit, -, averageNet, hnet, netLimit, -, hok⟩ := hok
  cases hok
  exact ⟨hnet, rfl⟩

/-- The default configuration with the least NET maximum that is not safe. -/
def unsafeConfiguration : ValidConfiguration where
  maxBlockNetUsage := 155014656082
  valid := by decide

/-- The limit of averages of blocks that are filled up to this maximum, from below. -/
def unsafeAverage : Nat :=
  (((safeBlockUsage + 1) * config.rateLimitingPrecision) ⌈/⌉ blockWindow - 1) * blockWindow

/-- Each full block takes away one part in the window of what is missing to the limit. -/
theorem unsafeAverage_step {value k : Nat} (h : unsafeAverage * blockWindow ^ k ≤
      value * blockWindow ^ k + unsafeAverage * (blockWindow - 1) ^ k) :
    unsafeAverage * blockWindow ^ (k + 1) ≤
      (value * (blockWindow - 1) / blockWindow +
        ((safeBlockUsage + 1) * config.rateLimitingPrecision) ⌈/⌉ blockWindow) *
          blockWindow ^ (k + 1) + unsafeAverage * (blockWindow - 1) ^ (k + 1) := by
  have hround : value * (blockWindow - 1) + unsafeAverage ≤
      (value * (blockWindow - 1) / blockWindow +
        ((safeBlockUsage + 1) * config.rateLimitingPrecision) ⌈/⌉ blockWindow) * blockWindow := by
    have hdiv := Nat.div_add_mod (value * (blockWindow - 1)) blockWindow
    have hmod := Nat.mod_lt (value * (blockWindow - 1)) (by decide : 0 < blockWindow)
    have hlimit : unsafeAverage + blockWindow =
      ((safeBlockUsage + 1) * config.rateLimitingPrecision) ⌈/⌉ blockWindow * blockWindow := by
      decide
    rw [Nat.add_mul]
    rw [Nat.mul_comm] at hdiv
    omega
  have hscaled := Nat.mul_le_mul_right (blockWindow ^ k) hround
  rw [show blockWindow = 120 from rfl] at *
  rw [pow_succ, pow_succ]
  linarith

variable {bound : Nat} {m : ResourceLimitsManager}

def fillBlock (m : ResourceLimitsManager) : ResourceLimitsManager :=
  { m with state := { m.state with pendingCpuUsage := 0
                                   pendingNetUsage := m.config.netLimitParameters.max } }

theorem withinBlock_fillBlock (m : ResourceLimitsManager) : WithinBlock m (fillBlock m) := by
  refine ⟨⟨rfl, fun r => ?_, fun r => ?_⟩, fun r => ?_⟩
  · cases r <;> rfl
  · cases r <;> rfl
  · cases r with
    | cpu => exact Nat.zero_le _
    | net => exact le_rfl

/-- If blocks could always be ended, full blocks would bring the average as close to its limit as
one likes. -/
theorem exists_run_near_unsafeAverage (hbound : safeBlockUsage + 1 ≤ bound)
    (hends : ∀ blockNum m, ElasticRun bound blockNum m →
      ∃ m₂, endBlock unsafeConfiguration.toChainConfig (blockNum + 1) (fillBlock m) = .ok m₂)
    (k : Nat) : ∃ blockNum m, ElasticRun bound blockNum m ∧
      m.config.netLimitParameters.max = safeBlockUsage + 1 ∧
      m.state.averageBlockNetUsage.lastOrdinal = blockNum ∧
      unsafeAverage * blockWindow ^ k ≤ m.state.averageBlockNetUsage.valueEx * blockWindow ^ k +
        unsafeAverage * (blockWindow - 1) ^ k := by
  induction k with
  | zero =>
    obtain ⟨m₂, hok⟩ := hends 1 _ .genesis
    obtain ⟨hadd, hconfig⟩ := endBlock_net hok
    refine ⟨2, m₂, .block .genesis (withinBlock_fillBlock _) unsafeConfiguration hbound hok, ?_,
      UsageAccumulator.add_ordinal hadd, ?_⟩
    · rw [hconfig]
      rfl
    · rw [pow_zero, pow_zero]
      omega
  | succ k ih =>
    obtain ⟨blockNum, m, hrun, hmax, hord, hnear⟩ := ih
    obtain ⟨m₂, hok⟩ := hends blockNum m hrun
    obtain ⟨hadd, hconfig⟩ := endBlock_net hok
    obtain ⟨-, hord₂, hvalue⟩ := UsageAccumulator.add_next hord hadd
    refine ⟨blockNum + 1, m₂, .block hrun (withinBlock_fillBlock m) unsafeConfiguration hbound hok,
      ?_, hord₂, ?_⟩
    · rw [hconfig]
      rfl
    · rw [hvalue]
      change _ ≤ (_ + (m.config.netLimitParameters.max * _) ⌈/⌉ _) * _ + _
      rw [hmax]
      exact unsafeAverage_step hnear

end Overflow

/-- Blocks within the limits can always be ended, with the virtual limits in their range, exactly
if the NET maximum is kept safe in every configuration. -/
theorem block_end_succeeds_iff (bound : Nat) :
    (∀ blockNum m m₁, ElasticRun bound blockNum m → WithinBlock m m₁ →
      ∀ cfg : ValidConfiguration, cfg.maxBlockNetUsage.toNat ≤ bound →
        ∃ m₂, endBlock cfg.toChainConfig (blockNum + 1) m₁ = .ok m₂ ∧
          ∀ r : Resource, r.maxBlockUsage cfg.toChainConfig ≤ r.virtualLimit m₂.state ∧
            r.virtualLimit m₂.state ≤
              r.maxBlockUsage cfg.toChainConfig * config.maximumElasticResourceMultiplier) ↔
      bound ≤ safeBlockUsage := by
  constructor
  · intro hall
    by_contra hlt
    have hbound : safeBlockUsage + 1 ≤ bound := by omega
    have hends (blockNum : Nat) (m : ResourceLimitsManager) (hrun : ElasticRun bound blockNum m) :
        ∃ m₂, endBlock unsafeConfiguration.toChainConfig (blockNum + 1) (fillBlock m) = .ok m₂ :=
      (hall blockNum m _ hrun (withinBlock_fillBlock m) unsafeConfiguration hbound).imp
        fun _ h => h.1
    obtain ⟨blockNum, m, hrun, -, hord, hnear⟩ :=
      exists_run_near_unsafeAverage hbound hends 3200
    obtain ⟨m₂, hok⟩ := hends blockNum m hrun
    have hle : m.state.averageBlockNetUsage.valueEx ≤ (2 ^ 64 - 1) / (blockWindow - 1) :=
      (UsageAccumulator.add_next hord (endBlock_net hok).1).1
    have hfar : (2 ^ 64 - 1) / (blockWindow - 1) * blockWindow ^ 3200 +
        unsafeAverage * (blockWindow - 1) ^ 3200 < unsafeAverage * blockWindow ^ 3200 := by
      decide +kernel
    have hmul := Nat.mul_le_mul_right (blockWindow ^ 3200) hle
    omega
  · intro hsafe blockNum m m₁ hrun hwithin cfg hcfg
    obtain ⟨m₂, hend, -, hrange⟩ := (hrun.mono hsafe).invariant.endBlock hwithin
      (maxBlockUsage_le_safe (hcfg.trans hsafe))
    exact ⟨m₂, hend, hrange⟩

/-- The default configuration with the largest NET maximum that fits its type. -/
def unboundedConfiguration : ValidConfiguration where
  maxBlockNetUsage := 18446744073709551615
  valid := by decide

/-- The multiple of the largest maximum wraps around. After one empty block the virtual limit is
below the maximum. A full block after it can not be ended. -/
theorem block_end_throws_unboundedNet : ∃ m,
    endBlock unboundedConfiguration.toChainConfig 2 .initializeDatabase = .ok m ∧
      m.state.virtualNetLimit < unboundedConfiguration.maxBlockNetUsage.toNat ∧
      WithinBlock m (fillBlock m) ∧
      endBlock unboundedConfiguration.toChainConfig 3 (fillBlock m) =
        .error ⟨.rateLimitingStateInconsistent,
          "Usage exceeds maximum value representable after extending for precision"⟩ := by
  obtain ⟨m, hm, hlt, hthrows⟩ : ∃ m,
      endBlock unboundedConfiguration.toChainConfig 2 .initializeDatabase = .ok m ∧
        m.state.virtualNetLimit < unboundedConfiguration.maxBlockNetUsage.toNat ∧
        endBlock unboundedConfiguration.toChainConfig 3 (fillBlock m) =
          .error ⟨.rateLimitingStateInconsistent,
            "Usage exceeds maximum value representable after extending for precision"⟩ := by
    decide +kernel
  exact ⟨m, hm, hlt, withinBlock_fillBlock m, hthrows⟩

end DreamChain
