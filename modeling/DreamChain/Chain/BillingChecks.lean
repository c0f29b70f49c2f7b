import DreamChain.Chain.BillingInvariant

/-!
What the checks before a billing establish. A context keeps its limits within what is left in
the block, and `finalize` lowers them to what every billed account is offered. The retirement
of a failed deferred transaction is capped in the same way. Both lead to `ChargeReady`, from
which it is decided whether the billing succeeds.
-/

namespace DreamChain
open Library TransactionContext

section Offers

variable {env : BillingEnvironment} {m : ResourceLimitsManager} {a : AccountName}

def BandwidthLimits.limit (offer : BandwidthLimits) : Resource → Int
  | .cpu => offer.accountCpuLimit
  | .net => offer.accountNetLimit

/-- A negative limit stands for no limit. -/
def lowered (limit x : Int) : Int := if 0 ≤ x then min limit x else limit

theorem lowered_le (limit x : Int) : lowered limit x ≤ limit := by
  rw [lowered]
  split
  · exact min_le_left _ _
  · exact le_rfl

variable {limit x : Int} {force : Bool} {offer : BandwidthLimits}

theorem lowered_le_of_nonneg (h : 0 ≤ x) : lowered limit x ≤ x := by
  rw [lowered, if_pos h]
  exact min_le_right _ _

theorem lowered_nonneg (h : 0 ≤ limit) : 0 ≤ lowered limit x := by
  rw [lowered]
  split
  · rename_i hx
    exact le_min h hx
  · exact h

def Offered (m : ResourceLimitsManager) (a : AccountName) (amount : Resource → Int) : Prop :=
  ∀ r : Resource, ∃ greylistLimit x greylisted,
    m.getAccountLimit r a greylistLimit = .ok (x, greylisted) ∧ (0 ≤ x → amount r ≤ x)

theorem Offered.mono {amount less : Resource → Int} (h : Offered m a amount)
    (hle : ∀ r, less r ≤ amount r) : Offered m a less := by
  intro r
  obtain ⟨greylistLimit, x, greylisted, hx, hamount⟩ := h r
  exact ⟨greylistLimit, x, greylisted, hx, fun hnonneg => (hle r).trans (hamount hnonneg)⟩

theorem offerAccount_ok {offer' : BandwidthLimits}
    (h : env.offerAccount m force offer a = .ok offer') : ∀ r : Resource, ∃ x greylisted,
      m.getAccountLimit r a (env.greylistLimitFor force a) = .ok (x, greylisted) ∧
        offer'.limit r = lowered (offer.limit r) x := by
  simp only [BillingEnvironment.offerAccount, bind_eq_ok] at h
  obtain ⟨net, hnet, cpu, hcpu, h⟩ := h
  cases h
  rw [forall_resource]
  refine ⟨⟨cpu.1, cpu.2, hcpu, ?_⟩, ⟨net.1, net.2, hnet, ?_⟩⟩ <;>
    simp only [BillingEnvironment.offerCpu, BillingEnvironment.offerNet,
      lowered] <;> split <;> split <;> rfl

theorem maxBandwidth_spec {accounts : AccountSet}
    (h : env.maxBandwidthBilledAccountsCanPay m accounts force = .ok offer) :
    (∀ r, 0 ≤ offer.limit r) ∧ ∀ a ∈ accounts.keys, Offered m a offer.limit := by
  constructor
  · refine foldlM_ok_induction (I := fun offer => ∀ r, 0 ≤ offer.limit r) ?_ ?_ h
    · intro a _ offer offer' hnonneg hstep r
      obtain ⟨x, greylisted, -, hx⟩ := offerAccount_ok hstep r
      exact hx ▸ lowered_nonneg (hnonneg r)
    · intro r
      cases r <;> exact (by decide : (0 : Int) ≤ (2 ^ 63 - 1) / 2)
  · refine foldlM_ok_forall (Q := fun offer a => Offered m a offer.limit) ?_ ?_ h
    · intro offer offer' a hstep r
      obtain ⟨x, greylisted, hx, hlimit⟩ := offerAccount_ok hstep r
      exact ⟨_, x, greylisted, hx, fun hnonneg => hlimit ▸ lowered_le_of_nonneg hnonneg⟩
    · intro offer offer' a b hstep hoffered
      refine hoffered.mono fun r => ?_
      obtain ⟨x, greylisted, -, hx⟩ := offerAccount_ok hstep r
      exact hx ▸ lowered_le _ _

end Offers

variable {x : TransactionExecution}

section Contexts

variable {slot : Nat} {env : BillingEnvironment} {ctx c : TransactionContext}

structure FitsBlock (ctx : TransactionContext) : Prop where
  net_le : ctx.netLimit + ctx.limits.state.pendingNetUsage ≤ ctx.limits.config.netLimitParameters.max
  duration_le : ctx.objectiveDurationLimit + ctx.limits.state.pendingCpuUsage ≤
    ctx.limits.config.cpuLimitParameters.max
  duration_nonneg : 0 ≤ ctx.objectiveDurationLimit

structure ContextInvariant (slot : Nat) (ctx : TransactionContext) : Prop where
  limits : LimitsInvariant slot ctx.limits
  current : ∀ a ∈ ctx.billToAccounts.keys, CurrentUsage slot ctx.limits a
  fits : FitsBlock ctx

structure SameContext (ctx c : TransactionContext) : Prop where
  limits_eq : c.limits = ctx.limits
  billToAccounts_eq : c.billToAccounts = ctx.billToAccounts
  netLimit_eq : c.netLimit = ctx.netLimit
  objectiveDurationLimit_eq : c.objectiveDurationLimit = ctx.objectiveDurationLimit

theorem ContextInvariant.keepsUsage (h : ContextInvariant slot ctx)
    (hk : KeepsUsage ctx.limits c.limits) (haccounts : c.billToAccounts = ctx.billToAccounts)
    (hnet : c.netLimit = ctx.netLimit)
    (hduration : c.objectiveDurationLimit = ctx.objectiveDurationLimit) :
    ContextInvariant slot c := by
  obtain ⟨hconfig, hstate⟩ := hk.same
  refine ⟨h.limits.keepsUsage hk, fun a ha => ?_, ?_, ?_, hduration ▸ h.fits.duration_nonneg⟩
  · exact (h.current a (haccounts ▸ ha)).keepsUsage hk
  · rw [hconfig, hstate, hnet]
    exact h.fits.net_le
  · rw [hconfig, hstate, hduration]
    exact h.fits.duration_le

theorem ContextInvariant.of_same (h : ContextInvariant slot ctx) (hsame : SameContext ctx c) :
    ContextInvariant slot c := by
  obtain ⟨hlimits, haccounts, hnet, hduration⟩ := hsame
  exact h.keepsUsage (hlimits ▸ .of_usage_eq ⟨rfl, rfl⟩ rfl) haccounts hnet hduration

theorem getBlockLimit_eq {m : ResourceLimitsManager} (h : LimitsInvariant slot m) (r : Resource) :
    m.getBlockLimit r = (r.parameters m.config).max - r.pendingUsage m.state := by
  have hmax := h.max_lt r
  have hpending := h.pending_le r
  rw [ResourceLimitsManager.getBlockLimit, subU64, u64, u64]
  omega

@[simp] theorem lowerNetLimit_spec (ctx : TransactionContext) (n : Nat) :
    (ctx.lowerNetLimit n).limits = ctx.limits ∧
      (ctx.lowerNetLimit n).billToAccounts = ctx.billToAccounts ∧
      (ctx.lowerNetLimit n).netLimit = min n ctx.netLimit ∧
      (ctx.lowerNetLimit n).objectiveDurationLimit = ctx.objectiveDurationLimit := by
  rw [TransactionContext.lowerNetLimit, min_def]
  split <;> exact ⟨rfl, rfl, rfl, rfl⟩

@[simp] theorem lowerDurationLimit_spec (ctx : TransactionContext) (n : Int) :
    (ctx.lowerDurationLimit n).limits = ctx.limits ∧
      (ctx.lowerDurationLimit n).billToAccounts = ctx.billToAccounts ∧
      (ctx.lowerDurationLimit n).netLimit = ctx.netLimit ∧
      (ctx.lowerDurationLimit n).objectiveDurationLimit = min n ctx.objectiveDurationLimit := by
  rw [TransactionContext.lowerDurationLimit, min_def]
  split <;> exact ⟨rfl, rfl, rfl, rfl⟩

theorem FitsBlock.lowerNetLimit (h : FitsBlock ctx) (n : Nat) : FitsBlock (ctx.lowerNetLimit n) := by
  obtain ⟨hlimits, -, hnet, hduration⟩ := lowerNetLimit_spec ctx n
  have hle := min_le_right n ctx.netLimit
  refine ⟨?_, ?_, hduration ▸ h.duration_nonneg⟩
  · rw [hlimits, hnet]
    exact (Nat.add_le_add_right hle _).trans h.net_le
  · rw [hlimits, hduration]
    exact h.duration_le

theorem FitsBlock.lowerDurationLimit (h : FitsBlock ctx) (n : Nat) :
    FitsBlock (ctx.lowerDurationLimit n) := by
  obtain ⟨hlimits, -, hnet, hduration⟩ := lowerDurationLimit_spec ctx n
  have hle := min_le_right (n : Int) ctx.objectiveDurationLimit
  refine ⟨?_, ?_, hduration ▸ le_min (Int.natCast_nonneg n) h.duration_nonneg⟩
  · rw [hlimits, hnet]
    exact h.net_le
  · rw [hlimits, hduration]
    exact (Int.add_le_add_right hle _).trans h.duration_le

theorem blockLimits_fits (h : LimitsInvariant slot ctx.limits) : FitsBlock ctx.blockLimits := by
  have hnet := getBlockLimit_eq h .net
  have hcpu := getBlockLimit_eq h .cpu
  have hnetPending := h.pending_le .net
  have hcpuPending := h.pending_le .cpu
  have hcpuMax := h.cpu_max_lt
  simp only [Resource.parameters, Resource.pendingUsage] at hnet hcpu hnetPending hcpuPending
  constructor
  · dsimp only [blockLimits, ResourceLimitsManager.getBlockNetLimit]
    omega
  · dsimp only [blockLimits, ResourceLimitsManager.getBlockCpuLimit]
    rw [Int.bmod_eq_of_le_mul_two (by omega) (by omega)]
    omega
  · dsimp only [blockLimits, ResourceLimitsManager.getBlockCpuLimit]
    rw [Int.bmod_eq_of_le_mul_two (by omega) (by omega)]
    omega

@[simp] theorem limits_headerLimits (trx : Transaction) :
    (ctx.headerLimits trx).limits = ctx.limits := by
  rw [TransactionContext.headerLimits]
  split <;> split <;> simp

theorem FitsBlock.headerLimits (h : FitsBlock ctx) (trx : Transaction) :
    FitsBlock (ctx.headerLimits trx) := by
  rw [TransactionContext.headerLimits]
  split
  · split
    · exact (h.lowerNetLimit _).lowerDurationLimit (trx.maxCpuUsageMs.toNat * 1000)
    · exact h.lowerDurationLimit (trx.maxCpuUsageMs.toNat * 1000)
  · split
    · exact h.lowerNetLimit _
    · exact h

theorem limits_fixLimits (ctx : TransactionContext) (env : BillingEnvironment) (trx : Transaction) :
    (ctx.fixLimits env trx).limits = ctx.limits := by
  simp [fixLimits, blockLimits]

theorem fixLimits_fits (env : BillingEnvironment) (trx : Transaction)
    (h : LimitsInvariant slot ctx.limits) : FitsBlock (ctx.fixLimits env trx) := by
  have hfits := (((blockLimits_fits h).lowerNetLimit
    env.configuration.maxTransactionNetUsage.toNat).lowerDurationLimit
      env.configuration.maxTransactionCpuUsage.toNat).headerLimits trx
  exact ⟨hfits.net_le, hfits.duration_le, hfits.duration_nonneg⟩

theorem addNetUsage_same {u : Nat} (h : ctx.addNetUsage env u = .ok c) : SameContext ctx c := by
  simp only [addNetUsage, bind_eq_ok] at h
  obtain ⟨-, -, h⟩ := h
  cases h
  exact ⟨rfl, rfl, rfl, rfl⟩

theorem setEagerLimits_same (h : ctx.setEagerLimits env = .ok c) : SameContext ctx c := by
  simp only [setEagerLimits, bind_eq_ok] at h
  obtain ⟨offer, -, h⟩ := h
  cases h
  exact ⟨rfl, rfl, rfl, rfl⟩

variable {trx : Transaction}

theorem recordBilledAccounts_invariant (h : LimitsInvariant slot ctx.limits) (hfits : FitsBlock ctx)
    (hok : ctx.recordBilledAccounts env slot trx = .ok c) : ContextInvariant slot c := by
  simp only [recordBilledAccounts, bind_eq_ok] at hok
  obtain ⟨limits, hupdate, hok⟩ := hok
  cases hok
  obtain ⟨⟨hconfig, hstate⟩, hinv, hcurrent⟩ := updateAccountUsage_spec h hupdate
  refine ⟨hinv, hcurrent, ?_, ?_, hfits.duration_nonneg⟩
  · rw [hconfig, hstate]
    exact hfits.net_le
  · rw [hconfig, hstate]
    exact hfits.duration_le

theorem init_invariant {initialNetUsage : Nat} (h : LimitsInvariant slot ctx.limits)
    (hok : ctx.init env slot trx initialNetUsage = .ok c) : ContextInvariant slot c := by
  simp only [TransactionContext.init, bind_eq_ok] at hok
  obtain ⟨-, -, -, -, c₁, hrecord, c₂, heager, c₃, hadd, -, -, hok⟩ := hok
  cases hok
  have hinv := recordBilledAccounts_invariant ((limits_fixLimits ctx env trx).symm ▸ h)
    (fixLimits_fits env trx h) hrecord
  exact ((hinv.of_same (setEagerLimits_same heager)).of_same (addNetUsage_same hadd)).of_same
    ⟨rfl, rfl, rfl, rfl⟩

theorem applyOperation_frame {op : TransactionOperation} (hok : applyOperation env ctx op = .ok c) :
    KeepsUsage ctx.limits c.limits ∧ c.billToAccounts = ctx.billToAccounts ∧
      c.netLimit = ctx.netLimit ∧ c.objectiveDurationLimit = ctx.objectiveDurationLimit := by
  cases op with
  | initializeAccount account =>
    simp only [applyOperation, initializeAccount, bind_eq_ok] at hok
    obtain ⟨limits, hlimits, hok⟩ := hok
    cases hok
    exact ⟨initializeAccount_keepsUsage hlimits, rfl, rfl, rfl⟩
  | setResourceLimits account ramBytes netWeight cpuWeight =>
    simp only [applyOperation, setResourceLimits, bind_eq_ok] at hok
    obtain ⟨-, -, -, -, -, -, result, hresult, hok⟩ := hok
    cases hok
    exact ⟨setAccountLimits_keepsUsage hresult, rfl, rfl, rfl⟩
  | addNetUsage u =>
    obtain ⟨hlimits, haccounts, hnet, hduration⟩ := addNetUsage_same hok
    exact ⟨hlimits ▸ .of_usage_eq ⟨rfl, rfl⟩ rfl, haccounts, hnet, hduration⟩
  | addRamUsage account ramDelta =>
    simp only [applyOperation, addRamUsage, bind_eq_ok] at hok
    obtain ⟨limits, hlimits, hok⟩ := hok
    cases hok
    exact ⟨addPendingRamUsage_keepsUsage hlimits, rfl, rfl, rfl⟩

theorem execute_induction {P : TransactionContext → Prop}
    (hP : ∀ op s s', P s → applyOperation x.finishEnvironment s op = .ok s' → P s') (h : P ctx)
    (hok : TransactionStart.execute x ctx = .ok c) : P c := by
  simp only [TransactionStart.execute, bind_eq_ok] at hok
  obtain ⟨c', hfold, hok⟩ := hok
  cases hrun : x.operations.foldlM (applyOperation x.finishEnvironment) ctx with
  | error e =>
    rw [hrun] at hfold
    cases hfold
  | ok c'' =>
    rw [hrun] at hfold
    cases hfold
    have hend := foldlM_ok_induction (fun op _ s s' => hP op s s') h hrun
    split at hok
    · cases hok
      exact hend
    · cases hok

theorem execute_invariant (h : ContextInvariant slot ctx)
    (hok : TransactionStart.execute x ctx = .ok c) : ContextInvariant slot c := by
  refine execute_induction (fun op s s' hs hstep => ?_) h hok
  obtain ⟨hkeeps, haccounts, hnet, hduration⟩ := applyOperation_frame hstep
  exact hs.keepsUsage hkeeps haccounts hnet hduration

end Contexts

section Ready

variable {slot : Nat} {m : ResourceLimitsManager} {ctx c : TransactionContext}

/-- What holds when a billing is attempted: the accounts are up to date, and the charges fit
into the block and into what each account is offered. -/
structure ChargeReady (slot : Nat) (m : ResourceLimitsManager) (accounts : List AccountName)
    (amount : Resource → Nat) : Prop where
  limits : LimitsInvariant slot m
  nodup : accounts.Nodup
  current : ∀ a ∈ accounts, CurrentUsage slot m a
  block_le : ∀ r : Resource, r.pendingUsage m.state + amount r ≤ (r.parameters m.config).max
  offered : ∀ a ∈ accounts, Offered m a fun r => amount r

variable {u : Unit} {env : BillingEnvironment}

theorem checkNetUsage_le (hchecked : env.skipTrxChecks = false)
    (h : ctx.checkNetUsage env = .ok u) : ctx.netUsage ≤ ctx.eagerNetLimit := by
  rw [checkNetUsage] at h
  split at h
  · rename_i hor
    cases hor with
    | inl hskip => exact absurd hskip (by simp [hchecked])
    | inr hle => exact hle
  · split at h
    · cases h
    · split at h <;> cases h

theorem validateCpuUsageToBill_le {billedUs : Int}
    (hchecked : env.skipTrxChecks = false) (h : ctx.validateCpuUsageToBill env billedUs = .ok u) :
    0 ≤ billedUs ∧ billedUs ≤ ctx.objectiveDurationLimit := by
  rw [validateCpuUsageToBill, hchecked] at h
  simp only [Bool.false_eq_true, if_false, bind_eq_ok, eosAssert_eq_ok, true_imp_iff] at h
  obtain ⟨-, hminimum, h⟩ := h
  split at h
  · rename_i hle
    exact ⟨(Int.natCast_nonneg _).trans hminimum, hle⟩
  · cases h

theorem settleLimits_spec (ctx : TransactionContext) (offer : BandwidthLimits) :
    (ctx.settleLimits offer).limits = ctx.limits ∧
      (ctx.settleLimits offer).billToAccounts = ctx.billToAccounts ∧
      (ctx.settleLimits offer).eagerNetLimit = min offer.accountNetLimit.toNat ctx.netLimit ∧
      (ctx.settleLimits offer).objectiveDurationLimit =
        min offer.accountCpuLimit ctx.objectiveDurationLimit := by
  simp [settleLimits, noteGreylist]

theorem updateBilledCpuTime_spec (ctx : TransactionContext) (env : BillingEnvironment)
    (elapsed : Int) : (ctx.updateBilledCpuTime env elapsed).limits = ctx.limits ∧
      (ctx.updateBilledCpuTime env elapsed).billToAccounts = ctx.billToAccounts ∧
      (ctx.updateBilledCpuTime env elapsed).netUsage = ctx.netUsage ∧
      (ctx.updateBilledCpuTime env elapsed).objectiveDurationLimit = ctx.objectiveDurationLimit := by
  rw [updateBilledCpuTime]
  split <;> exact ⟨rfl, rfl, rfl, rfl⟩

theorem checkBilling_ready {elapsed : Int} (hchecked : env.skipTrxChecks = false)
    (h : ContextInvariant slot ctx) (hok : ctx.checkBilling env elapsed = .ok c) :
    ChargeReady slot c.limits c.billToAccounts.keys c.amount := by
  simp only [checkBilling, bind_eq_ok] at hok
  obtain ⟨-, -, -, -, offer, hoffer, u, hnet, v, hcpu, hok⟩ := hok
  cases hok
  obtain ⟨hlimits, haccounts, heager, hduration⟩ := settleLimits_spec ctx offer
  obtain ⟨hlimits', haccounts', husage, hduration'⟩ :=
    updateBilledCpuTime_spec (ctx.settleLimits offer) env elapsed
  obtain ⟨hnonneg, hoffered⟩ := maxBandwidth_spec hoffer
  have hnetLe := checkNetUsage_le hchecked hnet
  obtain ⟨hbilledNonneg, hbilledLe⟩ := validateCpuUsageToBill_le hchecked hcpu
  set billed := ((ctx.settleLimits offer).updateBilledCpuTime env elapsed).billedCpuTimeUs
  have hnetOffer := hnonneg .net
  have hfitsNet := h.fits.net_le
  have hfitsCpu := h.fits.duration_le
  rw [hlimits', hlimits, haccounts', haccounts]
  refine ⟨h.limits, ctx.billToAccounts.keys_nodup, h.current, fun r => ?_, fun a ha => ?_⟩
  · cases r with
    | cpu =>
      change ctx.limits.state.pendingCpuUsage + (billed % 2 ^ 64).toNat ≤ _
      simp only [Resource.parameters]
      omega
    | net =>
      change ctx.limits.state.pendingNetUsage +
        ((ctx.settleLimits offer).updateBilledCpuTime env elapsed).netUsage ≤ _
      simp only [Resource.parameters]
      omega
  · refine (hoffered a ha).mono fun r => ?_
    cases r with
    | cpu =>
      change (((billed % 2 ^ 64).toNat : Nat) : Int) ≤ offer.accountCpuLimit
      omega
    | net =>
      change ((((ctx.settleLimits offer).updateBilledCpuTime env elapsed).netUsage : Nat) : Int) ≤
        offer.accountNetLimit
      change 0 ≤ offer.accountNetLimit at hnetOffer
      omega

theorem upToBilling_ready {t : TransactionStart} (hchecked : x.Checked)
    (h : LimitsInvariant slot m) (hok : t.upToBilling x slot m = .ok c) :
    ChargeReady slot c.limits c.billToAccounts.keys c.amount := by
  simp only [TransactionStart.upToBilling, bind_eq_ok] at hok
  obtain ⟨c₁, hinit, c₂, hexecute, hok⟩ := hok
  exact checkBilling_ready hchecked.2 (execute_invariant (init_invariant h hinit) hexecute) hok

theorem failedContext_spec (s : ScheduledTransaction) (h : LimitsInvariant slot m) :
    0 ≤ (s.failedContext m).initialObjectiveDurationLimit ∧
      (s.failedContext m).initialObjectiveDurationLimit + m.state.pendingCpuUsage ≤
        m.config.cpuLimitParameters.max := by
  let ctx := s.deferredStart.context s.execution m
  have hctx : LimitsInvariant slot ctx.limits := h
  have hfits := fixLimits_fits s.execution.startEnvironment s.trx hctx
  have hlimits := limits_fixLimits ctx s.execution.startEnvironment s.trx
  have hle := hfits.duration_le
  rw [hlimits] at hle
  rw [ScheduledTransaction.failedContext]
  split <;> exact ⟨hfits.duration_nonneg, hle⟩

theorem settleHardFail_ready {s : ScheduledTransaction} {cpuTimeToBillUs : Nat}
    {settled : ResourceLimitsManager × Nat} (hcapped : s.explicitBilledCpuTime = false)
    (h : LimitsInvariant slot m) (hok : s.settleHardFail slot m cpuTimeToBillUs = .ok settled) :
    ChargeReady slot settled.1 (s.failedContext m).billToAccounts.keys (charges settled.2 0) := by
  simp only [ScheduledTransaction.settleHardFail, hcapped, Bool.false_eq_true, if_false,
    bind_eq_ok] at hok
  obtain ⟨m', hupdate, offer, hoffer, hok⟩ := hok
  cases hok
  obtain ⟨⟨hconfig, hstate⟩, hinv, hcurrent⟩ := updateAccountUsage_spec h hupdate
  obtain ⟨hnonneg, hoffered⟩ := maxBandwidth_spec hoffer
  obtain ⟨hinitialNonneg, hinitialLe⟩ := failedContext_spec s h
  have hcpuOffer : 0 ≤ offer.accountCpuLimit := hnonneg .cpu
  have hnetOffer : 0 ≤ offer.accountNetLimit := hnonneg .net
  set capped := min (min (cpuTimeToBillUs : Int) offer.accountCpuLimit)
    (s.failedContext m).initialObjectiveDurationLimit with hcappedEq
  refine ⟨hinv, FlatMap.keys_nodup _, hcurrent, fun r => ?_, fun a ha => ?_⟩
  · rw [hconfig, hstate]
    cases r with
    | cpu =>
      change m.state.pendingCpuUsage + (capped % 2 ^ 32).toNat ≤ m.config.cpuLimitParameters.max
      omega
    | net => exact h.pending_le .net
  · refine (hoffered a ha).mono fun r => ?_
    cases r with
    | cpu =>
      change (((capped % 2 ^ 32).toNat : Nat) : Int) ≤ offer.accountCpuLimit
      omega
    | net => exact hnetOffer

end Ready

end DreamChain
