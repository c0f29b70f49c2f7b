import DreamChain.Chain.ResourceLimits

/-!
How transactions are billed. A transaction context fixes its limits when it is initialized,
runs the actions of the transaction, and checks in `finalize` what it is about to bill. A
deferred transaction that cannot be executed is retired with a receipt for a hard failure.

Actions appear as the calls they make that the limits depend on, in any order. Readings of the
clock are inputs, and so is the result of `checktime`, which can only abort a transaction.
-/

namespace DreamChain
open Library

structure ChainConfig where
  maxBlockNetUsage : UInt64 := 1024 * 1024
  targetBlockNetUsagePct : UInt32 := 10 * 100
  maxTransactionNetUsage : UInt32 := 1024 * 1024 / 2
  basePerTransactionNetUsage : UInt32 := 12
  netUsageLeeway : UInt32 := 500
  contextFreeDiscountNetUsageNum : UInt32 := 20
  contextFreeDiscountNetUsageDen : UInt32 := 100
  maxBlockCpuUsage : UInt32 := 200000
  targetBlockCpuUsagePct : UInt32 := 10 * 100
  maxTransactionCpuUsage : UInt32 := 3 * 200000 / 4
  minTransactionCpuUsage : UInt32 := 100
deriving DecidableEq, Repr

/-- What a transaction context reads from the controller. -/
structure BillingEnvironment where
  configuration : ChainConfig := {}
  onlyBillFirstAuthorizer : Bool := true
  isProducingBlock : Bool := false
  greylistLimit : Nat := config.maximumElasticResourceMultiplier
  resourceGreylist : List AccountName := []
  skipTrxChecks : Bool := false
  checktime : Fallible Unit := .ok ()

abbrev AccountSet := FlatMap AccountName Unit

def AccountSet.ofList (accounts : List AccountName) : AccountSet :=
  accounts.foldl (fun s a => s.insert a ()) .empty

def billedAccounts (env : BillingEnvironment) (trx : Transaction) : AccountSet :=
  if env.onlyBillFirstAuthorizer then AccountSet.ofList [trx.firstAuthorizer]
  else AccountSet.ofList ((trx.actions.flatMap Action.authorization).map PermissionLevel.actor)

structure BandwidthLimits where
  accountNetLimit : Int := (2 ^ 63 - 1) / 2
  accountCpuLimit : Int := (2 ^ 63 - 1) / 2
  greylistedNet : Bool := false
  greylistedCpu : Bool := false
deriving DecidableEq, Repr

namespace BillingEnvironment

variable (env : BillingEnvironment)

def greylistLimitFor (forceElasticLimits : Bool) (a : AccountName) : Nat :=
  if !forceElasticLimits && env.isProducingBlock then
    if a ∈ env.resourceGreylist then 1 else env.greylistLimit
  else config.maximumElasticResourceMultiplier

def offerNet (offer : BandwidthLimits) (limit : Int × Bool) : BandwidthLimits :=
  if 0 ≤ limit.1 then
    { offer with accountNetLimit := min offer.accountNetLimit limit.1
                 greylistedNet := offer.greylistedNet || limit.2 }
  else offer

def offerCpu (offer : BandwidthLimits) (limit : Int × Bool) : BandwidthLimits :=
  if 0 ≤ limit.1 then
    { offer with accountCpuLimit := min offer.accountCpuLimit limit.1
                 greylistedCpu := offer.greylistedCpu || limit.2 }
  else offer

def offerAccount (m : ResourceLimitsManager) (forceElasticLimits : Bool)
    (offer : BandwidthLimits) (a : AccountName) : Fallible BandwidthLimits := do
  let net ← m.getAccountNetLimit a (env.greylistLimitFor forceElasticLimits a)
  let cpu ← m.getAccountCpuLimit a (env.greylistLimitFor forceElasticLimits a)
  return offerCpu (offerNet offer net) cpu

def maxBandwidthBilledAccountsCanPay (m : ResourceLimitsManager)
    (accounts : AccountSet) (forceElasticLimits : Bool := false) : Fallible BandwidthLimits :=
  accounts.keys.foldlM (env.offerAccount m forceElasticLimits) {}

end BillingEnvironment

/-- The fields of a transaction context that concern billing, with the limits manager it works
on. Durations are in microseconds. -/
structure TransactionContext where
  limits : ResourceLimitsManager
  billToAccounts : AccountSet := .empty
  validateRamUsage : AccountSet := .empty
  leeway : Int := 31000
  billedCpuTimeUs : Int := 0
  explicitBilledCpuTime : Bool := false
  isInitialized : Bool := false
  netLimit : Nat := 0
  netLimitDueToBlock : Bool := true
  netLimitDueToGreylist : Bool := false
  eagerNetLimit : Nat := 0
  netUsage : Nat := 0
  cpuLimitDueToGreylist : Bool := false
  initialObjectiveDurationLimit : Int := 0
  objectiveDurationLimit : Int := 0
  billingTimerExceptionCode : ExceptionType := .blockCpuUsageExceeded

namespace TransactionContext

variable (ctx : TransactionContext)

def checkNetUsage (env : BillingEnvironment) : Fallible Unit :=
  if env.skipTrxChecks ∨ ctx.netUsage ≤ ctx.eagerNetLimit then .ok ()
  else if ctx.netLimitDueToBlock then
    .error ⟨.blockNetUsageExceeded, "not enough space left in block: ${net_usage} > ${net_limit}"⟩
  else if ctx.netLimitDueToGreylist then
    .error ⟨.greylistNetUsageExceeded,
      "greylisted transaction net usage is too high: ${net_usage} > ${net_limit}"⟩
  else
    .error ⟨.txNetUsageExceeded, "transaction net usage is too high: ${net_usage} > ${net_limit}"⟩

def addNetUsage (env : BillingEnvironment) (u : Nat) : Fallible TransactionContext := do
  let ctx := { ctx with netUsage := u64 (ctx.netUsage + u) }
  ctx.checkNetUsage env
  return ctx

def cpuUsageExceeded : ChainException :=
  if ctx.billingTimerExceptionCode = .blockCpuUsageExceeded then
    ⟨.blockCpuUsageExceeded, "billed CPU time (${billed} us) is greater than the billable CPU time left in the block (${billable} us)"⟩
  else if ctx.cpuLimitDueToGreylist then
    ⟨.greylistCpuUsageExceeded, "billed CPU time (${billed} us) is greater than the maximum greylisted billable CPU time for the transaction (${billable} us)"⟩
  else
    ⟨.txCpuUsageExceeded, "billed CPU time (${billed} us) is greater than the maximum billable CPU time for the transaction (${billable} us)"⟩

def validateCpuUsageToBill (env : BillingEnvironment) (billedUs : Int)
    (checkMinimum : Bool := true) : Fallible Unit :=
  if env.skipTrxChecks then .ok ()
  else do
    eosAssert (checkMinimum = true → env.configuration.minTransactionCpuUsage.toNat ≤ billedUs)
      .transactionException "cannot bill CPU time less than the minimum of ${min_billable} us"
    if billedUs ≤ ctx.objectiveDurationLimit then .ok () else .error ctx.cpuUsageExceeded

def lowerNetLimit (limit : Nat) : TransactionContext :=
  if limit ≤ ctx.netLimit then { ctx with netLimit := limit, netLimitDueToBlock := false } else ctx

def lowerDurationLimit (limit : Int) : TransactionContext :=
  if limit ≤ ctx.objectiveDurationLimit then
    { ctx with objectiveDurationLimit := limit, billingTimerExceptionCode := .txCpuUsageExceeded }
  else ctx

def blockLimits : TransactionContext :=
  { ctx with
    netLimit := ctx.limits.getBlockNetLimit
    objectiveDurationLimit := (ctx.limits.getBlockCpuLimit : Int).bmod (2 ^ 64) }

def headerLimits (trx : Transaction) : TransactionContext :=
  let ctx :=
    if 0 < trx.maxNetUsageWords then ctx.lowerNetLimit (trx.maxNetUsageWords.toNat * 8) else ctx
  if 0 < trx.maxCpuUsageMs then ctx.lowerDurationLimit (trx.maxCpuUsageMs.toNat * 1000) else ctx

def fixLimits (env : BillingEnvironment) (trx : Transaction) : TransactionContext :=
  let ctx := ctx.blockLimits.lowerNetLimit env.configuration.maxTransactionNetUsage.toNat
  let ctx := ctx.lowerDurationLimit env.configuration.maxTransactionCpuUsage.toNat
  let ctx := ctx.headerLimits trx
  { ctx with initialObjectiveDurationLimit := ctx.objectiveDurationLimit }

/-- Fails early if the amount to be billed is known and too high. -/
def validateKnownCpuUsage (env : BillingEnvironment) : Fallible Unit :=
  if 0 < ctx.billedCpuTimeUs then ctx.validateCpuUsageToBill env ctx.billedCpuTimeUs false
  else .ok ()

def recordBilledAccounts (env : BillingEnvironment) (slot : Nat)
    (trx : Transaction) : Fallible TransactionContext := do
  let accounts := billedAccounts env trx
  let limits ← ctx.limits.updateAccountUsage accounts.keys slot
  return { ctx with billToAccounts := accounts, limits }

def noteGreylist (offer : BandwidthLimits) : TransactionContext :=
  { ctx with netLimitDueToGreylist := ctx.netLimitDueToGreylist || offer.greylistedNet
             cpuLimitDueToGreylist := ctx.cpuLimitDueToGreylist || offer.greylistedCpu }

/-- The eager limit leaves the billed accounts some leeway and is a number of words. -/
def setEagerLimits (env : BillingEnvironment) : Fallible TransactionContext := do
  let offer ← env.maxBandwidthBilledAccountsCanPay ctx.limits ctx.billToAccounts
  let ctx := ctx.noteGreylist offer
  let eagerNetLimit := min ctx.netLimit
    (u64 (offer.accountNetLimit + env.configuration.netUsageLeeway.toNat).toNat)
  return { ctx with
    eagerNetLimit := eagerNetLimit / 8 * 8
    netLimitDueToBlock := ctx.netLimitDueToBlock && decide (ctx.netLimit ≤ eagerNetLimit)
    billingTimerExceptionCode :=
      if offer.accountCpuLimit + ctx.leeway ≤ ctx.objectiveDurationLimit then .leewayDeadlineException
      else ctx.billingTimerExceptionCode }

def init (env : BillingEnvironment) (slot : Nat) (trx : Transaction)
    (initialNetUsage : Nat) : Fallible TransactionContext := do
  eosAssert (ctx.isInitialized = false) .transactionException "cannot initialize twice"
  let ctx := ctx.fixLimits env trx
  ctx.validateKnownCpuUsage env
  let ctx ← ctx.recordBilledAccounts env slot trx
  let ctx ← ctx.setEagerLimits env
  -- Adding nothing to the usage of a new context passes every limit.
  let ctx ← ctx.addNetUsage env initialNetUsage
  env.checktime
  return { ctx with isInitialized := true }

end TransactionContext

/-- The calls of executed actions that the billing of the transaction depends on. -/
inductive TransactionOperation where
  | initializeAccount (account : AccountName)
  | setResourceLimits (account : AccountName) (ramBytes netWeight cpuWeight : Int64)
  | addNetUsage (u : Nat)
  | addRamUsage (account : AccountName) (ramDelta : Int)
deriving DecidableEq, Repr

namespace TransactionContext

def setResourceLimits (ctx : TransactionContext) (account : AccountName)
    (ramBytes netWeight cpuWeight : Int64) : Fallible TransactionContext := do
  eosAssert (-1 ≤ ramBytes.toInt) .wasmExecutionError
    "invalid value for ram resource limit expected [-1,INT64_MAX]"
  eosAssert (-1 ≤ netWeight.toInt) .wasmExecutionError
    "invalid value for net resource weight expected [-1,INT64_MAX]"
  eosAssert (-1 ≤ cpuWeight.toInt) .wasmExecutionError
    "invalid value for cpu resource weight expected [-1,INT64_MAX]"
  let result ← ctx.limits.setAccountLimits account ramBytes netWeight cpuWeight
  return { ctx with
    limits := result.1
    validateRamUsage :=
      if result.2 then ctx.validateRamUsage.insert account () else ctx.validateRamUsage }

def addRamUsage (ctx : TransactionContext) (account : AccountName) (ramDelta : Int) :
    Fallible TransactionContext := do
  let limits ← ctx.limits.addPendingRamUsage account ramDelta
  return { ctx with
    limits
    validateRamUsage :=
      if 0 < ramDelta then ctx.validateRamUsage.insert account () else ctx.validateRamUsage }

def initializeAccount (ctx : TransactionContext) (account : AccountName) :
    Fallible TransactionContext := do
  let limits ← ctx.limits.initializeAccount account
  return { ctx with limits }

def applyOperation (env : BillingEnvironment) (ctx : TransactionContext) :
    TransactionOperation → Fallible TransactionContext
  | .initializeAccount account => ctx.initializeAccount account
  | .setResourceLimits account ramBytes netWeight cpuWeight =>
    ctx.setResourceLimits account ramBytes netWeight cpuWeight
  | .addNetUsage u => ctx.addNetUsage env u
  | .addRamUsage account ramDelta => ctx.addRamUsage account ramDelta

/-- `elapsed` is the time since the pseudo start of the transaction. -/
def updateBilledCpuTime (ctx : TransactionContext) (env : BillingEnvironment) (elapsed : Int) :
    TransactionContext :=
  if ctx.explicitBilledCpuTime then ctx
  else { ctx with billedCpuTimeUs := max elapsed env.configuration.minTransactionCpuUsage.toNat }

def verifyRamUsage (ctx : TransactionContext) : Fallible Unit :=
  ctx.validateRamUsage.keys.forM ctx.limits.verifyAccountRamUsage

/-- Lowers the limits to what the billed accounts can pay and rounds the usage up to words. -/
def settleLimits (ctx : TransactionContext) (offer : BandwidthLimits) : TransactionContext :=
  let ctx := ctx.noteGreylist offer
  let ctx := ctx.lowerNetLimit offer.accountNetLimit.toNat
  let ctx := ctx.lowerDurationLimit offer.accountCpuLimit
  { ctx with netUsage := u64 (ctx.netUsage + 7) / 8 * 8, eagerNetLimit := ctx.netLimit }

def checkBilling (ctx : TransactionContext) (env : BillingEnvironment) (elapsed : Int) :
    Fallible TransactionContext := do
  eosAssert (ctx.isInitialized = true) .transactionException "must first initialize"
  ctx.verifyRamUsage
  let offer ← env.maxBandwidthBilledAccountsCanPay ctx.limits ctx.billToAccounts
  let ctx := ctx.settleLimits offer
  ctx.checkNetUsage env
  let ctx := ctx.updateBilledCpuTime env elapsed
  ctx.validateCpuUsageToBill env ctx.billedCpuTimeUs
  return ctx

def amount (ctx : TransactionContext) : Resource → Nat
  | .cpu => (ctx.billedCpuTimeUs % 2 ^ 64).toNat
  | .net => ctx.netUsage

def bill (ctx : TransactionContext) (slot : Nat) : Fallible ResourceLimitsManager :=
  ctx.limits.addTransactionUsage ctx.billToAccounts.keys (ctx.amount .cpu) (ctx.amount .net) slot

end TransactionContext

/-- Exceptions of the database, which have no code of their own, are wrapped when they leave an
action. -/
def leaveAction (e : ChainException) : ChainException :=
  if e.type = .other 0 then ⟨.other 13, e.message⟩ else e

/-- What happens to a transaction while its context lives. The environment can change between
the start and `finalize`, since actions can change the configuration of the chain. -/
structure TransactionExecution where
  startEnvironment : BillingEnvironment := {}
  finishEnvironment : BillingEnvironment := {}
  leeway : Int := 31000
  operations : List TransactionOperation := []
  /-- Set when the checks of the authorization or the actions throw. -/
  failure : Option ChainException := none
  elapsed : Int := 0
  /-- The reading when the exception that ends the execution is caught. -/
  elapsedAtFailure : Int := 0

def TransactionExecution.Checked (x : TransactionExecution) : Prop :=
  x.startEnvironment.skipTrxChecks = false ∧ x.finishEnvironment.skipTrxChecks = false

/-- A transaction with what its context is created and initialized with. -/
structure TransactionStart where
  trx : Transaction
  initialNetUsage : Nat := 0
  billedCpuTimeUs : UInt32 := 0
  explicitBilledCpuTime : Bool := false

namespace TransactionStart

def context (t : TransactionStart) (x : TransactionExecution) (m : ResourceLimitsManager) : TransactionContext :=
  { limits := m
    leeway := x.leeway
    billedCpuTimeUs := t.billedCpuTimeUs.toNat
    explicitBilledCpuTime := t.explicitBilledCpuTime }

def execute (x : TransactionExecution) (ctx : TransactionContext) :
    Fallible TransactionContext := do
  let ctx ← (x.operations.foldlM (TransactionContext.applyOperation x.finishEnvironment) ctx).mapError
    leaveAction
  match x.failure with
  | none => .ok ctx
  | some e => .error e

def upToBilling (t : TransactionStart) (x : TransactionExecution) (slot : Nat) (m : ResourceLimitsManager) :
    Fallible TransactionContext := do
  let ctx ← (t.context x m).init x.startEnvironment slot t.trx t.initialNetUsage
  let ctx ← execute x ctx
  ctx.checkBilling x.finishEnvironment x.elapsed

def run (t : TransactionStart) (x : TransactionExecution) (slot : Nat) (m : ResourceLimitsManager) :
    Fallible ResourceLimitsManager := do
  let ctx ← t.upToBilling x slot m
  ctx.bill slot

end TransactionStart

def inputNetUsage (cfg : ChainConfig) (trx : Transaction)
    (packedTrxUnprunableSize packedTrxPrunableSize : Nat) : Nat :=
  let num := cfg.contextFreeDiscountNetUsageNum.toNat
  let den := cfg.contextFreeDiscountNetUsageDen.toNat
  let discounted :=
    if 0 < den ∧ num < den then u64 (u64 (packedTrxPrunableSize * num) + den - 1) / den
    else packedTrxPrunableSize
  let size := u64 (cfg.basePerTransactionNetUsage.toNat + packedTrxUnprunableSize + discounted)
  if 0 < trx.delaySec then u64 (size + cfg.basePerTransactionNetUsage.toNat + 32) else size

def failureIsSubjective (e : ChainException) : Bool :=
  match e.type with
  | .subjectiveBlockProductionException | .blockNetUsageExceeded | .greylistNetUsageExceeded
  | .blockCpuUsageExceeded | .greylistCpuUsageExceeded | .deadlineException
  | .leewayDeadlineException | .actorWhitelistException | .actorBlacklistException
  | .contractWhitelistException | .contractBlacklistException | .actionBlacklistException
  | .keyBlacklistException => true
  | _ => false

def scheduledFailureIsSubjective (e : ChainException) : Bool :=
  decide (e.type = .txCpuUsageExceeded) || failureIsSubjective e

/-- Exceptions the handlers let through: those that make the block bad, and those of the
database, which are not chain exceptions. -/
def Propagates (e : ChainException) : Prop :=
  e.type = .disallowedTransactionExtensionsBadBlockException ∨
    e.type = .protocolFeatureBadBlockException ∨ e.type = .other 0

instance (e : ChainException) : Decidable (Propagates e) := inferInstanceAs (Decidable (_ ∨ _ ∨ _))

def onerrorTransaction (sender : AccountName) : Transaction :=
  { actions := [⟨config.systemAccountName, stringToName "onerror", [⟨sender, config.activeName⟩],
      .bytes []⟩] }

structure ScheduledTransaction where
  trx : Transaction
  payer : AccountName
  sender : AccountName := 0
  /-- What is refunded when the transaction leaves the table. -/
  billableSize : Nat := 0
  expired : Bool := false
  billedCpuTimeUs : UInt32 := 0
  explicitBilledCpuTime : Bool := false
  execution : TransactionExecution := {}
  onerrorExecution : TransactionExecution := {}

/-- Where the attempts to execute a scheduled transaction and to report its failure lead. -/
inductive ScheduledAttempt where
  | done (limits : ResourceLimitsManager)
  | failed (e : ChainException) (cpuTimeToBillUs : Nat)

namespace ScheduledTransaction

variable (s : ScheduledTransaction)

def deferredStart : TransactionStart :=
  { trx := s.trx
    billedCpuTimeUs := s.billedCpuTimeUs
    explicitBilledCpuTime := s.explicitBilledCpuTime }

def onerrorStart : TransactionStart :=
  { trx := onerrorTransaction s.sender
    billedCpuTimeUs := s.billedCpuTimeUs
    explicitBilledCpuTime := s.explicitBilledCpuTime }

def remove (m : ResourceLimitsManager) : Fallible ResourceLimitsManager :=
  m.addPendingRamUsage s.payer (-s.billableSize)

/-- The time a failed context returns, narrowed to 32 bits. -/
def failedCpuTime (x : TransactionExecution) : Nat :=
  if s.explicitBilledCpuTime then s.billedCpuTimeUs.toNat
  else
    ((max x.elapsedAtFailure x.finishEnvironment.configuration.minTransactionCpuUsage.toNat) % 2 ^ 32).toNat

def ReportsError (e : ChainException) : Prop :=
  s.sender ≠ 0 ∧ failureIsSubjective e = false

instance (s : ScheduledTransaction) (e : ChainException) : Decidable (s.ReportsError e) :=
  inferInstanceAs (Decidable (_ ∧ _))

def applyOnerror (slot : Nat) (m : ResourceLimitsManager) : Fallible ScheduledAttempt :=
  match s.onerrorStart.run s.onerrorExecution slot m with
  | .ok limits => .ok (.done limits)
  | .error e =>
    if Propagates e then .error e else .ok (.failed e (s.failedCpuTime s.onerrorExecution))

def attempt (slot : Nat) (m : ResourceLimitsManager) : Fallible ScheduledAttempt :=
  match s.deferredStart.run s.execution slot m with
  | .ok limits => .ok (.done limits)
  | .error e =>
    if Propagates e then .error e
    else if s.ReportsError e then s.applyOnerror slot m
    else .ok (.failed e (s.failedCpuTime s.execution))

def IsSubjective (e : ChainException) : Prop :=
  if s.explicitBilledCpuTime then failureIsSubjective e = true
  else scheduledFailureIsSubjective e = true

instance (s : ScheduledTransaction) (e : ChainException) : Decidable (s.IsSubjective e) := by
  unfold IsSubjective
  infer_instance

/-- The context as it was left behind: its own limits, and no billed accounts if it failed
before they were recorded. -/
def failedContext (m : ResourceLimitsManager) : TransactionContext :=
  let env := s.execution.startEnvironment
  let ctx := (s.deferredStart.context s.execution m).fixLimits env s.trx
  match ctx.validateKnownCpuUsage env with
  | .ok _ => { ctx with billToAccounts := billedAccounts env s.trx }
  | .error _ => ctx

def settleHardFail (slot : Nat) (m : ResourceLimitsManager)
    (cpuTimeToBillUs : Nat) : Fallible (ResourceLimitsManager × Nat) :=
  let ctx := s.failedContext m
  if s.explicitBilledCpuTime then .ok (m, cpuTimeToBillUs)
  else do
    let m ← m.updateAccountUsage ctx.billToAccounts.keys slot
    let offer ←
      s.execution.finishEnvironment.maxBandwidthBilledAccountsCanPay m ctx.billToAccounts true
    return (m, ((min (min (cpuTimeToBillUs : Int) offer.accountCpuLimit)
      ctx.initialObjectiveDurationLimit) % 2 ^ 32).toNat)

def retire (slot : Nat) (m : ResourceLimitsManager)
    (cpuTimeToBillUs : Nat) : Fallible ResourceLimitsManager := do
  let settled ← s.settleHardFail slot m cpuTimeToBillUs
  settled.1.addTransactionUsage (s.failedContext m).billToAccounts.keys settled.2 0 slot

/-- `push_scheduled_transaction`. A subjective failure leaves everything as it was. -/
def push (slot : Nat) (m : ResourceLimitsManager) : Fallible ResourceLimitsManager := do
  let removed ← s.remove m
  if s.expired then return removed
  else
    match ← s.attempt slot removed with
    | .done limits => return limits
    | .failed e cpuTimeToBillUs =>
      if s.IsSubjective e then return m else s.retire slot removed cpuTimeToBillUs

def Checked (s : ScheduledTransaction) : Prop :=
  s.execution.Checked ∧ s.onerrorExecution.Checked

end ScheduledTransaction

structure BillingState where
  slot : Nat
  limits : ResourceLimitsManager

inductive BlockOperation where
  | input (trx : Transaction) (packedTrxUnprunableSize packedTrxPrunableSize : Nat)
      (billedCpuTimeUs : UInt32) (explicitBilledCpuTime : Bool) (x : TransactionExecution)
  | implicit (trx : Transaction) (billedCpuTimeUs : UInt32) (explicitBilledCpuTime : Bool)
      (x : TransactionExecution)
  | scheduled (s : ScheduledTransaction)
  /-- The block is finalized with the configuration of the chain and the next one started. -/
  | nextBlock (configuration : ChainConfig) (blockNum slot : Nat)

def finalizeBlockLimits (cfg : ChainConfig) (blockNum : Nat) (m : ResourceLimitsManager) :
    Fallible ResourceLimitsManager := do
  let m ← m.processAccountLimitUpdates
  let m ← m.setBlockParameters
    ⟨eosPercent cfg.maxBlockCpuUsage.toNat cfg.targetBlockCpuUsagePct.toNat,
      cfg.maxBlockCpuUsage.toNat, config.blockCpuUsageAverageWindowMs / config.blockIntervalMs,
      config.maximumElasticResourceMultiplier, ⟨99, 100⟩, ⟨1000, 999⟩⟩
    ⟨eosPercent cfg.maxBlockNetUsage.toNat cfg.targetBlockNetUsagePct.toNat,
      cfg.maxBlockNetUsage.toNat, config.blockSizeAverageWindowMs / config.blockIntervalMs,
      config.maximumElasticResourceMultiplier, ⟨99, 100⟩, ⟨1000, 999⟩⟩
  m.processBlockUsage blockNum

namespace BlockOperation

def inputStart (trx : Transaction) (unprunable prunable : Nat) (billedCpuTimeUs : UInt32)
    (explicitBilledCpuTime : Bool) (x : TransactionExecution) : TransactionStart :=
  { trx
    initialNetUsage := inputNetUsage x.startEnvironment.configuration trx unprunable prunable
    billedCpuTimeUs
    explicitBilledCpuTime }

def implicitStart (trx : Transaction) (billedCpuTimeUs : UInt32) (explicitBilledCpuTime : Bool) :
    TransactionStart :=
  { trx, billedCpuTimeUs, explicitBilledCpuTime }

def Checked : BlockOperation → Prop
  | input _ _ _ _ _ x => x.Checked
  | implicit _ _ _ x => x.Checked
  | scheduled s => s.Checked
  | nextBlock _ _ _ => True

def apply (b : BillingState) : BlockOperation → Fallible BillingState
  | input trx unprunable prunable billedCpuTimeUs explicitBilledCpuTime x => do
    let start := inputStart trx unprunable prunable billedCpuTimeUs explicitBilledCpuTime x
    let limits ← start.run x b.slot b.limits
    return { b with limits }
  | implicit trx billedCpuTimeUs explicitBilledCpuTime x => do
    let limits ← (implicitStart trx billedCpuTimeUs explicitBilledCpuTime).run x b.slot b.limits
    return { b with limits }
  | scheduled s => do
    let limits ← s.push b.slot b.limits
    return { b with limits }
  | nextBlock configuration blockNum slot => do
    let limits ← finalizeBlockLimits configuration blockNum b.limits
    eosAssert (b.slot < slot) .blockValidateException "next block must be in the future"
    return ⟨slot, limits⟩

end BlockOperation

def genesisLimits : Fallible ResourceLimitsManager :=
  [config.systemAccountName, config.nullAccountName, config.producersAccountName].foldlM
    ResourceLimitsManager.initializeAccount .initializeDatabase

namespace BillingState

/-- States of a chain in which the checks of transactions are not skipped. A transaction that
fails leaves the state as it was. -/
inductive Reachable : BillingState → Prop
  | genesis {m} (slot : Nat) (h : genesisLimits = .ok m) : Reachable ⟨slot, m⟩
  | step {b b'} (h : Reachable b) (op : BlockOperation) (hchecked : op.Checked)
      (hok : op.apply b = .ok b') : Reachable b'

end BillingState

end DreamChain
