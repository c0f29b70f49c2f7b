import DreamChain.Chain.ChainDb
import DreamChain.Library.ExceptLoop
import DreamChain.Library.RoundedQuota

/-!
The resource limits manager: usage accumulators, the quotas they are held against, and the
limits of a block. NET and CPU are handled alike; what the source writes out for each of them
is stated once for a `Resource`.

The index of limits holds an actual and possibly a pending entry for an account. They are two
maps here.
-/

namespace DreamChain
open Library List

def u128 (n : Nat) : Nat := n % 2 ^ 128

/-- Subtraction of 64-bit operands, which wraps around. -/
def subU64 (a b : Nat) : Nat := u64 (a + (2 ^ 64 - u64 b))

namespace config

def percent100 : Nat := 10000

def percent1 : Nat := 100

def blockIntervalMs : Nat := 500

def accountCpuUsageAverageWindowMs : Nat := 24 * 60 * 60 * 1000

def accountNetUsageAverageWindowMs : Nat := 24 * 60 * 60 * 1000

def blockCpuUsageAverageWindowMs : Nat := 60 * 1000

def blockSizeAverageWindowMs : Nat := 60 * 1000

def maximumElasticResourceMultiplier : Nat := 1000

def rateLimitingPrecision : Nat := 1000 * 1000

def defaultMaxBlockNetUsage : Nat := 1024 * 1024

def defaultTargetBlockNetUsagePct : Nat := 10 * percent1

def defaultMaxBlockCpuUsage : Nat := 200000

def defaultTargetBlockCpuUsagePct : Nat := 10 * percent1

end config

def eosPercent (value percentage : Nat) : Nat := u64 (value * percentage) / config.percent100

section Arithmetic

structure Ratio where
  numerator : Nat
  denominator : Nat
deriving DecidableEq, Repr

def Ratio.scale (r : Ratio) (value : Nat) : Fallible Nat := do
  eosAssert (r.numerator = 0 ∨ value ≤ (2 ^ 64 - 1) / r.numerator) .rateLimitingStateInconsistent
    "Usage exceeds maximum value representable after extending for precision"
  return u64 (value * r.numerator) / r.denominator

def integerDivideCeil (num den : Nat) : Nat := num / den + if 0 < num % den then 1 else 0

/-- The cast of an unsigned value to a type with the given maximum. -/
def downgradeCast (max val : Nat) : Fallible Nat := do
  eosAssert (val ≤ max) .rateLimitingStateInconsistent
    "Casting a higher bit integer value ${v} to a lower bit integer value which cannot contain the value, valid range is [${min}, ${max}]"
  return val

theorem integerDivideCeil_eq (num : Nat) {den : Nat} (h : 0 < den) :
    integerDivideCeil num den = num ⌈/⌉ den := by
  have hdiv := Nat.div_add_mod num den
  have hmod := Nat.mod_lt num h
  rw [Nat.ceilDiv_eq_add_pred_div, integerDivideCeil]
  split
  · symm
    rw [Nat.div_eq_iff h, Nat.add_mul, Nat.mul_comm (num / den)]
    omega
  · symm
    rw [Nat.div_eq_iff h, Nat.add_zero, Nat.mul_comm (num / den)]
    omega

theorem downgradeCast_ok {max val x : Nat} : downgradeCast max val = .ok x ↔ val ≤ max ∧ val = x := by
  simp [downgradeCast, bind_eq_ok, eosAssert_eq_ok, pure, Except.pure]

theorem Ratio.scale_ok {r : Ratio} {value x : Nat} :
    r.scale value = .ok x ↔ value * r.numerator < 2 ^ 64 ∧ value * r.numerator / r.denominator = x := by
  have hcheck : r.numerator = 0 ∨ value ≤ (2 ^ 64 - 1) / r.numerator ↔
      value * r.numerator < 2 ^ 64 := by
    cases hpos : r.numerator with
    | zero => simp
    | succ =>
      rw [Nat.le_div_iff_mul_le (by omega)]
      omega
  simp only [Ratio.scale, bind_eq_ok, eosAssert_eq_ok, hcheck, exists_const, pure, Except.pure,
    Except.ok.injEq]
  refine and_congr_right fun hlt => ?_
  rw [u64, Nat.mod_eq_of_lt hlt]

end Arithmetic

section Accumulator

/-- `exponential_moving_average_accumulator`: the value is the precision times the sum of the
inputs. -/
structure UsageAccumulator where
  lastOrdinal : Nat := 0
  valueEx : Nat := 0
  consumed : Nat := 0
deriving DecidableEq, Repr

namespace UsageAccumulator

def maxRawValue : Nat := (2 ^ 64 - 1) / config.rateLimitingPrecision

def average (a : UsageAccumulator) : Nat := integerDivideCeil a.valueEx config.rateLimitingPrecision

/-- `value_ex * decay`, nothing when the window has passed. -/
def decayedValue (a : UsageAccumulator) (ordinal windowSize : Nat) : Fallible Nat :=
  if ordinal < a.lastOrdinal + windowSize then
    Ratio.scale ⟨windowSize - (ordinal - a.lastOrdinal), windowSize⟩ a.valueEx
  else .ok 0

/-- The part of `add` that moves the accumulator to a new ordinal. -/
def advance (a : UsageAccumulator) (ordinal windowSize : Nat) : Fallible UsageAccumulator :=
  if a.lastOrdinal = ordinal then .ok a
  else do
    eosAssert (a.lastOrdinal < ordinal) .resourceLimitException
      "new ordinal cannot be less than the previous ordinal"
    let valueEx ← a.decayedValue ordinal windowSize
    return ⟨ordinal, valueEx, integerDivideCeil valueEx config.rateLimitingPrecision⟩

/-- The window must be positive. -/
def add (a : UsageAccumulator) (units ordinal windowSize : Nat) : Fallible UsageAccumulator := do
  eosAssert (units ≤ maxRawValue) .rateLimitingStateInconsistent
    "Usage exceeds maximum value representable after extending for precision"
  eosAssert (units ≤ 2 ^ 64 - 1 - a.consumed) .rateLimitingStateInconsistent
    "Overflow in tracked usage when adding usage!"
  let valueExContrib ← downgradeCast (2 ^ 64 - 1)
    (integerDivideCeil (u128 (units * config.rateLimitingPrecision)) windowSize)
  eosAssert (valueExContrib ≤ 2 ^ 64 - 1 - a.valueEx) .rateLimitingStateInconsistent
    "Overflow in accumulated value when adding usage!"
  let b ← a.advance ordinal windowSize
  return { b with consumed := u64 (b.consumed + units), valueEx := u64 (b.valueEx + valueExContrib) }

/-- `add` as the source has it, assigning the fields one after the other. -/
def addInPlace (units ordinal windowSize : Nat) :
    ExceptT ChainException (StateM UsageAccumulator) Unit := do
  eosAssert (units ≤ maxRawValue) .rateLimitingStateInconsistent
    "Usage exceeds maximum value representable after extending for precision"
  eosAssert (units ≤ 2 ^ 64 - 1 - (← get).consumed) .rateLimitingStateInconsistent
    "Overflow in tracked usage when adding usage!"
  let valueExContrib ← downgradeCast (2 ^ 64 - 1)
    (integerDivideCeil (u128 (units * config.rateLimitingPrecision)) windowSize)
  eosAssert (valueExContrib ≤ 2 ^ 64 - 1 - (← get).valueEx) .rateLimitingStateInconsistent
    "Overflow in accumulated value when adding usage!"
  if (← get).lastOrdinal ≠ ordinal then
    eosAssert ((← get).lastOrdinal < ordinal) .resourceLimitException
      "new ordinal cannot be less than the previous ordinal"
    let valueEx ← (← get).decayedValue ordinal windowSize
    modify fun a => { a with valueEx }
    modify fun a => { a with lastOrdinal := ordinal }
    modify fun a => { a with consumed := a.average }
  modify fun a => { a with consumed := u64 (a.consumed + units) }
  modify fun a => { a with valueEx := u64 (a.valueEx + valueExContrib) }

def exactDecay (a : UsageAccumulator) (ordinal windowSize : Nat) : Nat :=
  if ordinal < a.lastOrdinal + windowSize then
    a.valueEx * (windowSize - (ordinal - a.lastOrdinal)) / windowSize
  else 0

def exactAdvance (a : UsageAccumulator) (ordinal windowSize : Nat) : UsageAccumulator :=
  if a.lastOrdinal = ordinal then a
  else ⟨ordinal, a.exactDecay ordinal windowSize,
    a.exactDecay ordinal windowSize ⌈/⌉ config.rateLimitingPrecision⟩

/-- What `add` computes when no field wraps around. -/
def exactAdd (a : UsageAccumulator) (units ordinal windowSize : Nat) : UsageAccumulator :=
  let b := a.exactAdvance ordinal windowSize
  ⟨b.lastOrdinal, b.valueEx + (units * config.rateLimitingPrecision) ⌈/⌉ windowSize,
    b.consumed + units⟩

/-- What an accumulator can hold in the period `slot` after `charged` units were added in it:
the value it was moved to the period with has passed the check of the decay. -/
structure Bounded (a : UsageAccumulator) (slot windowSize charged : Nat) : Prop where
  ordinal_le : a.lastOrdinal ≤ slot
  value_le : a.lastOrdinal = slot → a.valueEx ≤
    (2 ^ 64 - 1) / windowSize + charged * (config.rateLimitingPrecision ⌈/⌉ windowSize)
  consumed_le : a.lastOrdinal = slot → a.consumed ≤
    (2 ^ 64 - 1) / windowSize + charged * (config.rateLimitingPrecision ⌈/⌉ windowSize)

theorem bounded_empty (slot windowSize charged : Nat) :
    ({} : UsageAccumulator).Bounded slot windowSize charged :=
  ⟨Nat.zero_le _, fun _ => Nat.zero_le _, fun _ => Nat.zero_le _⟩

variable {a : UsageAccumulator} {slot windowSize charged : Nat}

theorem exactAdvance_ordinal : (a.exactAdvance slot windowSize).lastOrdinal = slot := by
  rw [exactAdvance]
  split
  · assumption
  · rfl

theorem exactDecay_le (a : UsageAccumulator) (slot windowSize : Nat) :
    a.exactDecay slot windowSize ≤ a.valueEx := by
  rw [exactDecay]
  split
  · exact Nat.div_le_of_le_mul (Nat.mul_comm windowSize _ ▸ Nat.mul_le_mul_left _ (Nat.sub_le _ _))
  · exact Nat.zero_le _

theorem decayedValue_ok {value : Nat} :
    a.decayedValue slot windowSize = .ok value ↔ value = a.exactDecay slot windowSize ∧
      (slot < a.lastOrdinal + windowSize →
        a.valueEx * (windowSize - (slot - a.lastOrdinal)) < 2 ^ 64) := by
  rw [decayedValue, exactDecay]
  split
  · rw [Ratio.scale_ok]
    exact ⟨fun h => ⟨h.2.symm, fun _ => h.1⟩, fun h => ⟨h.2 ‹_›, h.1.symm⟩⟩
  · exact ⟨fun h => ⟨(Except.ok.inj h).symm, fun hlt => absurd hlt ‹_›⟩, fun h => h.1 ▸ rfl⟩

theorem advance_ok {c : UsageAccumulator} :
    a.advance slot windowSize = .ok c ↔ c = a.exactAdvance slot windowSize ∧
      (a.lastOrdinal ≠ slot → a.lastOrdinal < slot ∧ (slot < a.lastOrdinal + windowSize →
        a.valueEx * (windowSize - (slot - a.lastOrdinal)) < 2 ^ 64)) := by
  rw [advance, exactAdvance]
  split
  · exact ⟨fun h => ⟨(Except.ok.inj h).symm, fun hne => absurd ‹_› hne⟩, fun h => h.1 ▸ rfl⟩
  · simp only [bind_eq_ok, eosAssert_eq_ok, decayedValue_ok]
    constructor
    · rintro ⟨-, hlt, -, ⟨rfl, hfits⟩, hok⟩
      cases hok
      exact ⟨by rw [integerDivideCeil_eq _ (by decide)], fun _ => ⟨hlt, hfits⟩⟩
    · rintro ⟨rfl, hchecks⟩
      obtain ⟨hlt, hfits⟩ := hchecks ‹_›
      refine ⟨(), hlt, _, ⟨rfl, hfits⟩, ?_⟩
      rw [integerDivideCeil_eq _ (by decide)]
      rfl

variable {b : UsageAccumulator}

section

variable (h : a.Bounded slot windowSize charged)
include h

theorem Bounded.mono {more : Nat} (hle : charged ≤ more) : a.Bounded slot windowSize more := by
  have hmul := Nat.mul_le_mul_right (config.rateLimitingPrecision ⌈/⌉ windowSize) hle
  exact ⟨h.ordinal_le, fun hs => (h.value_le hs).trans (Nat.add_le_add_left hmul _),
    fun hs => (h.consumed_le hs).trans (Nat.add_le_add_left hmul _)⟩

theorem Bounded.later {next more : Nat} (hlt : slot < next) : a.Bounded next windowSize more :=
  have hne : a.lastOrdinal ≠ next := (h.ordinal_le.trans_lt hlt).ne
  ⟨(h.ordinal_le.trans_lt hlt).le, fun hs => absurd hs hne, fun hs => absurd hs hne⟩

theorem advance_bounded (hok : a.advance slot windowSize = .ok b) :
    b.lastOrdinal = slot ∧ b.Bounded slot windowSize charged := by
  obtain ⟨rfl, hchecks⟩ := advance_ok.mp hok
  rw [exactAdvance]
  split
  · exact ⟨‹_›, h⟩
  · have hle : a.exactDecay slot windowSize ≤ (2 ^ 64 - 1) / windowSize := by
      rw [exactDecay]
      split
      · exact Nat.div_le_div_right (Nat.le_sub_one_of_lt ((hchecks ‹_›).2 ‹_›))
      · exact Nat.zero_le _
    have haverage := ceilDiv_le_self (a.exactDecay slot windowSize)
      (by decide : 0 < config.rateLimitingPrecision)
    exact ⟨rfl, le_rfl, fun _ => hle.trans (Nat.le_add_right _ _),
      fun _ => (haverage.trans hle).trans (Nat.le_add_right _ _)⟩

end

variable {units : Nat}

theorem contrib_eq (hraw : units ≤ maxRawValue) (hw : 0 < windowSize) :
    integerDivideCeil (u128 (units * config.rateLimitingPrecision)) windowSize =
      (units * config.rateLimitingPrecision) ⌈/⌉ windowSize := by
  have hle := Nat.mul_le_mul_right config.rateLimitingPrecision hraw
  rw [u128, Nat.mod_eq_of_lt (hle.trans_lt (by decide)), integerDivideCeil_eq _ hw]

theorem add_ok_iff (hw : 0 < windowSize) :
    a.add units slot windowSize = .ok b ↔ units ≤ maxRawValue ∧ units ≤ 2 ^ 64 - 1 - a.consumed ∧
      (units * config.rateLimitingPrecision) ⌈/⌉ windowSize ≤ 2 ^ 64 - 1 - a.valueEx ∧
      ∃ c, a.advance slot windowSize = .ok c ∧ b = ⟨c.lastOrdinal,
        u64 (c.valueEx + (units * config.rateLimitingPrecision) ⌈/⌉ windowSize),
        u64 (c.consumed + units)⟩ := by
  simp only [add, bind_eq_ok, eosAssert_eq_ok, downgradeCast_ok]
  constructor
  · rintro ⟨-, hraw, -, hconsumed, _, ⟨-, rfl⟩, -, hvalue, c, hc, hok⟩
    cases hok
    rw [contrib_eq hraw hw] at hvalue ⊢
    exact ⟨hraw, hconsumed, hvalue, c, hc, rfl⟩
  · rintro ⟨hraw, hconsumed, hvalue, c, hc, rfl⟩
    rw [contrib_eq hraw hw]
    exact ⟨(), hraw, (), hconsumed, _, ⟨by omega, rfl⟩, (), hvalue, c, hc, rfl⟩

theorem add_bounded (hw : 0 < windowSize)
    (h : a.Bounded slot windowSize charged) (hok : a.add units slot windowSize = .ok b) :
    b.lastOrdinal = slot ∧ b.Bounded slot windowSize (charged + units) := by
  obtain ⟨-, -, -, c, hc, rfl⟩ := (add_ok_iff hw).mp hok
  obtain ⟨hs, hbound⟩ := advance_bounded h hc
  have hone : 1 ≤ config.rateLimitingPrecision ⌈/⌉ windowSize := by
    by_contra hzero
    have hle : config.rateLimitingPrecision ≤ windowSize * 0 :=
      (ceilDiv_le_iff_le_mul hw).mp (by omega)
    rw [Nat.mul_zero] at hle
    exact absurd hle (by decide)
  have hunits := Nat.le_mul_of_pos_right units hone
  refine ⟨hs, hs.le, fun _ => ?_, fun _ => ?_⟩
  · calc u64 _ ≤ c.valueEx + _ := Nat.mod_le _ _
      _ ≤ _ := Nat.add_le_add (hbound.value_le hs) (mul_ceilDiv_le units _ hw)
      _ = _ := by rw [Nat.add_mul, Nat.add_assoc]
  · calc u64 _ ≤ c.consumed + units := Nat.mod_le _ _
      _ ≤ _ := Nat.add_le_add (hbound.consumed_le hs) hunits
      _ = _ := by rw [Nat.add_mul, Nat.add_assoc]

theorem add_current (hs : a.lastOrdinal = slot) (hw : 0 < windowSize)
    (hraw : units ≤ maxRawValue) (hconsumed : a.consumed + units < 2 ^ 64)
    (hvalue : a.valueEx + (units * config.rateLimitingPrecision) ⌈/⌉ windowSize < 2 ^ 64) :
    a.add units slot windowSize = .ok
      ⟨slot, a.valueEx + (units * config.rateLimitingPrecision) ⌈/⌉ windowSize,
        a.consumed + units⟩ := by
  refine (add_ok_iff hw).mpr ⟨hraw, by omega, by omega, a, if_pos hs, ?_⟩
  rw [u64, u64, Nat.mod_eq_of_lt hconsumed, Nat.mod_eq_of_lt hvalue, hs]

section InPlace

variable {ε σ α : Type} {s : σ}

/-- A computation in place leaves the state that a function returns, and leaves it unchanged when
it throws. -/
def Commits (x : ExceptT ε (StateM σ) Unit) (s : σ) (y : Except ε σ) : Prop :=
  x.run.run s = match y with
    | .ok s' => (.ok (), s')
    | .error e => (.error e, s)

theorem Commits.check {u : Except ε α} {f : α → ExceptT ε (StateM σ) Unit} {g : α → Except ε σ}
    (h : ∀ a, Commits (f a) s (g a)) : Commits (liftM u >>= f) s (u >>= g) := by
  cases u with
  | error => rfl
  | ok a => exact h a

theorem Commits.read {f : σ → ExceptT ε (StateM σ) Unit} {y : Except ε σ} (h : Commits (f s) s y) :
    Commits (get >>= f) s y := h

end InPlace

/-- Every check is made before the first assignment. -/
theorem commits_addInPlace (a : UsageAccumulator) (units ordinal windowSize : Nat) :
    Commits (addInPlace units ordinal windowSize) a (a.add units ordinal windowSize) := by
  refine .check fun _ => .read (.check fun _ => .check fun contrib => .read (.check fun _ => .read ?_))
  by_cases hs : a.lastOrdinal = ordinal
  · rw [advance, if_pos hs, if_neg (not_not.mpr hs)]
    rfl
  · rw [advance, if_neg hs, if_pos hs, bind_assoc]
    refine .read (.check fun _ => ?_)
    rw [bind_assoc]
    exact .read (.check fun _ => rfl)

/-- What the calls of `add` leave in the fields. -/
structure Represented (a : UsageAccumulator) : Prop where
  value_lt : a.valueEx < 2 ^ 64
  consumed_lt : a.consumed < 2 ^ 64
  average_le : a.valueEx ⌈/⌉ config.rateLimitingPrecision ≤ a.consumed

/-- The checks are made against the values before the decay, which only lowers them. -/
theorem Represented.exactAdvance_le (h : a.Represented) (slot windowSize : Nat) :
    (a.exactAdvance slot windowSize).valueEx ≤ a.valueEx ∧
      (a.exactAdvance slot windowSize).consumed ≤ a.consumed ∧
      (a.exactAdvance slot windowSize).valueEx ⌈/⌉ config.rateLimitingPrecision ≤
        (a.exactAdvance slot windowSize).consumed := by
  rw [exactAdvance]
  split
  · exact ⟨le_rfl, le_rfl, h.average_le⟩
  · have hdecay := a.exactDecay_le slot windowSize
    exact ⟨hdecay, (ceilDiv_mono (by decide) hdecay).trans h.average_le, le_rfl⟩

theorem Represented.add (h : a.Represented)
    (hw : 0 < windowSize) (hok : a.add units slot windowSize = .ok b) :
    b = a.exactAdd units slot windowSize ∧ b.Represented := by
  obtain ⟨-, hconsumed, hvalue, c, hc, rfl⟩ := (add_ok_iff hw).mp hok
  obtain ⟨rfl, -⟩ := advance_ok.mp hc
  obtain ⟨hdecay, hmoved, haverage⟩ := h.exactAdvance_le slot windowSize
  have hvalue' := h.value_lt
  have hconsumed' := h.consumed_lt
  have hcontrib := ceilDiv_le_self (units * config.rateLimitingPrecision) hw
  rw [ceilDiv_le_iff_le_mul (by decide)] at haverage
  rw [u64, u64, Nat.mod_eq_of_lt (by omega), Nat.mod_eq_of_lt (by omega)]
  refine ⟨rfl, ?_, ?_, (ceilDiv_le_iff_le_mul (by decide)).mpr ?_⟩
  · dsimp only
    omega
  · dsimp only
    omega
  · rw [Nat.mul_add, Nat.mul_comm _ units]
    exact Nat.add_le_add haverage hcontrib

structure AddCall where
  units : Nat
  ordinal : Nat
  windowSize : Nat

def afterCall (a : UsageAccumulator) (c : AddCall) : UsageAccumulator :=
  ((addInPlace c.units c.ordinal c.windowSize).run.run a).2

theorem represented_foldl {calls : List AddCall} (hw : ∀ c ∈ calls, 0 < c.windowSize)
    (h : a.Represented) : (calls.foldl afterCall a).Represented := by
  induction calls generalizing a with
  | nil => exact h
  | cons c _ ih =>
    refine ih (fun d hd => hw d (mem_cons_of_mem c hd)) ?_
    rw [afterCall, commits_addInPlace]
    cases hadd : a.add c.units c.ordinal c.windowSize with
    | error => exact h
    | ok => exact (h.add (hw c mem_cons_self) hadd).2

/-- A bound of the value from which the decay of one period makes room for a full one. -/
structure AverageBound (windowSize maxUnits bound : Nat) : Prop where
  window_pos : 0 < windowSize
  raw_le : maxUnits ≤ maxRawValue
  decay_le : bound * (windowSize - 1) / windowSize +
    (maxUnits * config.rateLimitingPrecision) ⌈/⌉ windowSize ≤ bound
  product_lt : bound * (windowSize - 1) < 2 ^ 64
  value_lt : bound + (maxUnits * config.rateLimitingPrecision) ⌈/⌉ windowSize < 2 ^ 64
  consumed_lt : bound + 2 * maxUnits < 2 ^ 64

/-- Calls with one window, given by their units and ordinals, up to one that throws. -/
def addEach (windowSize : Nat) (a : UsageAccumulator) (calls : List (Nat × Nat)) :
    Fallible UsageAccumulator :=
  calls.foldlM (fun a c => a.add c.1 c.2 windowSize) a

section AverageBound

variable {maxUnits bound : Nat} (h : AverageBound windowSize maxUnits bound)
  {calls : List (Nat × Nat)}
include h

theorem AverageBound.add (hvalue : a.valueEx ≤ bound) (hconsumed : a.consumed ≤ bound + maxUnits)
    (hlt : a.lastOrdinal < slot) (hunits : units ≤ maxUnits) :
    ∃ b, a.add units slot windowSize = .ok b ∧ b.lastOrdinal = slot ∧ b.valueEx ≤ bound ∧
      b.consumed ≤ bound + maxUnits := by
  have hproduct : a.valueEx * (windowSize - (slot - a.lastOrdinal)) ≤ bound * (windowSize - 1) :=
    Nat.mul_le_mul hvalue (by omega)
  have hdecay : a.exactDecay slot windowSize ≤ bound * (windowSize - 1) / windowSize := by
    rw [exactDecay]
    split
    · exact Nat.div_le_div_right hproduct
    · exact Nat.zero_le _
  have haverage := ceilDiv_le_self (a.exactDecay slot windowSize)
    (by decide : 0 < config.rateLimitingPrecision)
  have hcontrib : (units * config.rateLimitingPrecision) ⌈/⌉ windowSize ≤
      (maxUnits * config.rateLimitingPrecision) ⌈/⌉ windowSize :=
    ceilDiv_mono h.window_pos (Nat.mul_le_mul_right _ hunits)
  have ⟨hpos, hraw, hroom, hfits, hvalue', hconsumed'⟩ := h
  have hmove : a.exactAdvance slot windowSize = ⟨slot, a.exactDecay slot windowSize,
      a.exactDecay slot windowSize ⌈/⌉ config.rateLimitingPrecision⟩ := if_neg hlt.ne
  have hadvance := advance_ok.mpr ⟨hmove.symm, fun _ => ⟨hlt, fun _ => hproduct.trans_lt hfits⟩⟩
  refine ⟨_, (add_ok_iff hpos).mpr ⟨hunits.trans hraw, by omega, by omega, _, hadvance, rfl⟩,
    rfl, ?_, ?_⟩
  · exact (Nat.mod_le _ _).trans (by dsimp only; omega)
  · exact (Nat.mod_le _ _).trans (by dsimp only; omega)

theorem AverageBound.each (hvalue : a.valueEx ≤ bound) (hconsumed : a.consumed ≤ bound + maxUnits)
    (hsorted : (a.lastOrdinal :: calls.map Prod.snd).Pairwise (· < ·))
    (hunits : ∀ c ∈ calls, c.1 ≤ maxUnits) :
    ∃ b, addEach windowSize a calls = .ok b ∧ b.valueEx ≤ bound := by
  induction calls generalizing a with
  | nil => exact ⟨a, rfl, hvalue⟩
  | cons c _ ih =>
    obtain ⟨hlt, hrest⟩ := pairwise_cons.mp hsorted
    obtain ⟨b, hadd, hordinal, hvalue', hconsumed'⟩ := h.add hvalue hconsumed
      (hlt c.2 mem_cons_self) (hunits c mem_cons_self)
    rw [addEach, foldlM_cons, hadd]
    refine ih hvalue' hconsumed' ?_ fun d hd => hunits d (mem_cons_of_mem c hd)
    rwa [hordinal]

theorem AverageBound.each_empty
    (hsorted : (calls.map Prod.snd).Pairwise (· < ·)) (hunits : ∀ c ∈ calls, c.1 ≤ maxUnits) :
    ∃ b, addEach windowSize {} calls = .ok b ∧ b.valueEx ≤ bound := by
  cases calls with
  | nil => exact ⟨{}, rfl, Nat.zero_le _⟩
  | cons c =>
    have ⟨hpos, hraw, hroom, hfits, hvalue, hconsumed⟩ := h
    by_cases hzero : c.2 = 0
    · have hc := hunits c mem_cons_self
      have hcontrib := ceilDiv_mono hpos (Nat.mul_le_mul_right config.rateLimitingPrecision hc)
      have hone := (Nat.le_add_left _ _).trans hroom
      rw [addEach, foldlM_cons, add_current hzero.symm hpos (hc.trans hraw)
        (show 0 + c.1 < _ by omega) (show 0 + _ < _ by omega)]
      exact h.each (show 0 + _ ≤ _ by omega) (show 0 + c.1 ≤ _ by omega) hsorted
        fun d hd => hunits d (mem_cons_of_mem c hd)
    · refine h.each (Nat.zero_le _) (Nat.zero_le _) (pairwise_cons.mpr ⟨?_, hsorted⟩) hunits
      intro o ho
      cases mem_cons.mp ho with
      | inl heq => exact heq ▸ Nat.pos_of_ne_zero hzero
      | inr hrest => exact Nat.zero_lt_of_lt ((pairwise_cons.mp hsorted).1 o hrest)

end AverageBound

/-- A bound that is a fixed point up to the rounding. -/
theorem averageBound_window {maxUnits : Nat} (hw : 0 < windowSize)
    (hsquare : (maxUnits * config.rateLimitingPrecision + windowSize) * windowSize < 2 ^ 64)
    (hdouble : 2 * (maxUnits * config.rateLimitingPrecision) + windowSize < 2 ^ 64) :
    AverageBound windowSize maxUnits (maxUnits * config.rateLimitingPrecision + windowSize) := by
  have hcontrib := ceilDiv_le_self (maxUnits * config.rateLimitingPrecision) hw
  have hunits : maxUnits * 2 ≤ maxUnits * config.rateLimitingPrecision :=
    Nat.mul_le_mul_left _ (by decide)
  refine ⟨hw, ?_, ?_, (Nat.mul_le_mul_left _ (Nat.sub_le _ _)).trans_lt hsquare, by omega, by omega⟩
  · exact (Nat.le_div_iff_mul_le (by decide)).mpr (by omega)
  · generalize maxUnits * config.rateLimitingPrecision = p at *
    have hround := ceilDiv_mul_lt p hw
    have hdecay := Nat.div_mul_le_self ((p + windowSize) * (windowSize - 1)) windowSize
    have hsplit : (p + windowSize) * (windowSize - 1) + (p + windowSize) =
        (p + windowSize) * windowSize := by
      rw [← Nat.mul_succ, Nat.succ_eq_add_one, Nat.sub_add_cancel hw]
    refine Nat.le_of_lt (Nat.lt_of_mul_lt_mul_right (a := windowSize) ?_)
    rw [Nat.add_mul]
    omega

/-- A call that throws changes nothing, and one that is accepted computes in exact arithmetic. With
one call a period the value stays below a bound, when twice the units of a period still fit. -/
theorem usageAccumulator_safe : (∀ (a : UsageAccumulator) units ordinal windowSize,
      Commits (addInPlace units ordinal windowSize) a (a.add units ordinal windowSize)) ∧
    (∀ calls : List AddCall, (∀ c ∈ calls, 0 < c.windowSize) →
      ∀ units ordinal windowSize b, 0 < windowSize →
        (calls.foldl afterCall {}).add units ordinal windowSize = .ok b →
          b = (calls.foldl afterCall {}).exactAdd units ordinal windowSize ∧ b.Represented) ∧
    ∀ maxUnits windowSize, 0 < windowSize →
      (maxUnits * config.rateLimitingPrecision + windowSize) * windowSize < 2 ^ 64 →
      2 * (maxUnits * config.rateLimitingPrecision) + windowSize < 2 ^ 64 →
      ∀ calls : List (Nat × Nat), (calls.map Prod.snd).Pairwise (· < ·) →
        (∀ c ∈ calls, c.1 ≤ maxUnits) →
          ∃ b, addEach windowSize {} calls = .ok b ∧
            b.valueEx ≤ maxUnits * config.rateLimitingPrecision + windowSize := by
  refine ⟨commits_addInPlace, ?_, ?_⟩
  · intro calls hcalls _ _ windowSize b hw hok
    have h := represented_foldl hcalls (a := {}) ⟨by decide, by decide, by decide⟩
    exact h.add hw hok
  · intro _ _ hw hsquare hdouble _ hsorted hunits
    exact (averageBound_window hw hsquare hdouble).each_empty hsorted hunits

theorem usageAccumulator_safe_day :
    (∃ b, ([⟨100, 1, 172800⟩].foldl afterCall {}).add 7 2 172800 = .ok b ∧ b.Represented) ∧
      ∃ b, addEach 172800 {} [(100, 1), (0, 2), (100, 3)] = .ok b ∧
        b.valueEx ≤ 100 * config.rateLimitingPrecision + 172800 := by
  constructor
  · obtain ⟨b, hok⟩ : ∃ b, ([⟨100, 1, 172800⟩].foldl afterCall {}).add 7 2 172800 = .ok b := by
      decide +kernel
    exact ⟨b, hok, (usageAccumulator_safe.2.1 _ (by decide) 7 2 172800 b (by decide) hok).2⟩
  · exact usageAccumulator_safe.2.2 100 172800 (by decide) (by decide) (by decide) _ (by decide)
      (by decide)

/-- The value is checked before its decay: with a window of one period the second call of the
largest size is refused, although nothing would be left of the first. -/
theorem add_refused_before_decay : ¬ ∀ maxUnits windowSize, 0 < windowSize →
      (maxUnits * config.rateLimitingPrecision + windowSize) * windowSize < 2 ^ 64 →
      ∀ calls : List (Nat × Nat), (calls.map Prod.snd).Pairwise (· < ·) →
        (∀ c ∈ calls, c.1 ≤ maxUnits) → ∃ b, addEach windowSize {} calls = .ok b := by
  intro h
  exact absurd (h 18446744073709 1 (by decide) (by decide) [(18446744073709, 1), (18446744073709, 2)]
    (by decide) (by decide)) (by decide)

end UsageAccumulator

end Accumulator

structure ElasticLimitParameters where
  target : Nat
  max : Nat
  periods : Nat
  maxMultiplier : Nat
  contractRate : Ratio
  expandRate : Ratio
deriving DecidableEq, Repr

def ElasticLimitParameters.validate (p : ElasticLimitParameters) : Fallible Unit := do
  eosAssert (0 < p.periods) .resourceLimitException
    "elastic limit parameter 'periods' cannot be zero"
  eosAssert (0 < p.contractRate.denominator) .resourceLimitException
    "elastic limit parameter 'contract_rate' is not a well-defined ratio"
  eosAssert (0 < p.expandRate.denominator) .resourceLimitException
    "elastic limit parameter 'expand_rate' is not a well-defined ratio"

def updateElasticLimit (currentLimit averageUsage : Nat) (params : ElasticLimitParameters) :
    Fallible Nat := do
  let rate := if params.target < averageUsage then params.contractRate else params.expandRate
  let result ← rate.scale currentLimit
  return min (max result params.max) (u64 (params.max * params.maxMultiplier))

structure ResourceLimitsObject where
  netWeight : Int64 := -1
  cpuWeight : Int64 := -1
  ramBytes : Int64 := -1
deriving DecidableEq, Repr

structure ResourceUsageObject where
  netUsage : UsageAccumulator := {}
  cpuUsage : UsageAccumulator := {}
  ramUsage : Nat := 0
deriving DecidableEq, Repr

structure ResourceLimitsConfig where
  cpuLimitParameters : ElasticLimitParameters :=
    ⟨eosPercent config.defaultMaxBlockCpuUsage config.defaultTargetBlockCpuUsagePct,
      config.defaultMaxBlockCpuUsage, config.blockCpuUsageAverageWindowMs / config.blockIntervalMs,
      1000, ⟨99, 100⟩, ⟨1000, 999⟩⟩
  netLimitParameters : ElasticLimitParameters :=
    ⟨eosPercent config.defaultMaxBlockNetUsage config.defaultTargetBlockNetUsagePct,
      config.defaultMaxBlockNetUsage, config.blockSizeAverageWindowMs / config.blockIntervalMs,
      1000, ⟨99, 100⟩, ⟨1000, 999⟩⟩
  accountCpuUsageAverageWindow : Nat :=
    config.accountCpuUsageAverageWindowMs / config.blockIntervalMs
  accountNetUsageAverageWindow : Nat :=
    config.accountNetUsageAverageWindowMs / config.blockIntervalMs
deriving DecidableEq, Repr

structure ResourceLimitsState where
  averageBlockNetUsage : UsageAccumulator := {}
  averageBlockCpuUsage : UsageAccumulator := {}
  pendingNetUsage : Nat := 0
  pendingCpuUsage : Nat := 0
  totalNetWeight : Nat := 0
  totalCpuWeight : Nat := 0
  totalRamBytes : Nat := 0
  virtualNetLimit : Nat := 0
  virtualCpuLimit : Nat := 0
deriving DecidableEq, Repr

structure ResourceLimitsManager where
  config : ResourceLimitsConfig := {}
  state : ResourceLimitsState := {}
  /-- By owner, with `pending` false. -/
  limits : FlatMap AccountName ResourceLimitsObject := .empty
  /-- By owner, with `pending` true. -/
  pendingLimits : FlatMap AccountName ResourceLimitsObject := .empty
  usage : FlatMap AccountName ResourceUsageObject := .empty
deriving DecidableEq

inductive Resource where
  | cpu
  | net
deriving DecidableEq, Repr

namespace Resource

def weight : Resource → ResourceLimitsObject → Int64
  | cpu, l => l.cpuWeight
  | net, l => l.netWeight

def usage : Resource → ResourceUsageObject → UsageAccumulator
  | cpu, u => u.cpuUsage
  | net, u => u.netUsage

def parameters : Resource → ResourceLimitsConfig → ElasticLimitParameters
  | cpu, c => c.cpuLimitParameters
  | net, c => c.netLimitParameters

def window : Resource → ResourceLimitsConfig → Nat
  | cpu, c => c.accountCpuUsageAverageWindow
  | net, c => c.accountNetUsageAverageWindow

def totalWeight : Resource → ResourceLimitsState → Nat
  | cpu, s => s.totalCpuWeight
  | net, s => s.totalNetWeight

def virtualLimit : Resource → ResourceLimitsState → Nat
  | cpu, s => s.virtualCpuLimit
  | net, s => s.virtualNetLimit

def pendingUsage : Resource → ResourceLimitsState → Nat
  | cpu, s => s.pendingCpuUsage
  | net, s => s.pendingNetUsage

def exceeded : Resource → ChainException
  | cpu => ⟨.txCpuUsageExceeded,
      "authorizing account '${n}' has insufficient cpu resources for this transaction"⟩
  | net => ⟨.txNetUsageExceeded,
      "authorizing account '${n}' has insufficient net resources for this transaction"⟩

end Resource

structure AccountResourceLimit where
  used : Int
  available : Int
  max : Int
deriving DecidableEq, Repr

namespace ResourceLimitsManager

/-- `initialize_database`: the chain starts congested. -/
def initializeDatabase : ResourceLimitsManager :=
  { state :=
      { virtualCpuLimit := config.defaultMaxBlockCpuUsage
        virtualNetLimit := config.defaultMaxBlockNetUsage } }

variable (m : ResourceLimitsManager)

def initializeAccount (account : AccountName) : Fallible ResourceLimitsManager :=
  if account ∈ m.limits.keys ∨ account ∈ m.usage.keys then .error uniquenessViolated
  else .ok { m with limits := m.limits.insert account {}, usage := m.usage.insert account {} }

def setBlockParameters (cpuLimitParameters netLimitParameters :
    ElasticLimitParameters) : Fallible ResourceLimitsManager := do
  cpuLimitParameters.validate
  netLimitParameters.validate
  if m.config.cpuLimitParameters = cpuLimitParameters ∧
      m.config.netLimitParameters = netLimitParameters then return m
  else
    return { m with config := { m.config with cpuLimitParameters, netLimitParameters } }

def getUsage (account : AccountName) : Fallible ResourceUsageObject :=
  match m.usage.find? account with
  | some usage => .ok usage
  | none => .error unknownKey

def getAccountLimits (account : AccountName) : Fallible ResourceLimitsObject :=
  match m.pendingLimits.find? account with
  | some limits => .ok limits
  | none =>
    match m.limits.find? account with
    | some limits => .ok limits
    | none => .error unknownKey

/-- One round of the loops over billed accounts: both accumulators take what they are charged. -/
def charge (usage : ResourceUsageObject)
    (cpuUsage netUsage timeSlot : Nat) : Fallible ResourceUsageObject := do
  let net ← usage.netUsage.add netUsage timeSlot m.config.accountNetUsageAverageWindow
  let cpu ← usage.cpuUsage.add cpuUsage timeSlot m.config.accountCpuUsageAverageWindow
  return { usage with netUsage := net, cpuUsage := cpu }

def refreshUsage (timeSlot : Nat) (m : ResourceLimitsManager) (account : AccountName) :
    Fallible ResourceLimitsManager := do
  let usage ← m.getUsage account
  let usage ← m.charge usage 0 0 timeSlot
  return { m with usage := m.usage.insert account usage }

def updateAccountUsage (accounts : List AccountName) (timeSlot : Nat) :
    Fallible ResourceLimitsManager :=
  accounts.foldlM (refreshUsage timeSlot) m

def Limited (r : Resource) (limits : ResourceLimitsObject) : Prop :=
  0 ≤ (r.weight limits).toInt ∧ 0 < r.totalWeight m.state

instance (m : ResourceLimitsManager) (r : Resource) (limits : ResourceLimitsObject) :
    Decidable (m.Limited r limits) :=
  inferInstanceAs (Decidable (_ ∧ _))

/-- `max_user_use_in_window`, for a capacity of a block. -/
def maxUserUse (r : Resource) (limits : ResourceLimitsObject)
    (capacity : Nat) : Nat :=
  u128 (u128 (capacity * r.window m.config) * (r.weight limits).toInt.toNat) / r.totalWeight m.state

def scaledUse (r : Resource) (usage : ResourceUsageObject) : Nat :=
  u128 ((r.usage usage).valueEx * r.window m.config)

def WithinQuota (r : Resource) (limits : ResourceLimitsObject)
    (usage : ResourceUsageObject) : Prop :=
  m.Limited r limits →
    m.scaledUse r usage / config.rateLimitingPrecision ≤
      m.maxUserUse r limits (r.virtualLimit m.state)

instance (m : ResourceLimitsManager) (r : Resource) (limits : ResourceLimitsObject)
    (usage : ResourceUsageObject) : Decidable (m.WithinQuota r limits usage) :=
  inferInstanceAs (Decidable (_ → _))

def checkQuota (r : Resource) (limits : ResourceLimitsObject)
    (usage : ResourceUsageObject) : Fallible Unit :=
  if m.WithinQuota r limits usage then .ok () else .error r.exceeded

def billAccount (cpuUsage netUsage timeSlot : Nat) (m : ResourceLimitsManager)
    (account : AccountName) : Fallible ResourceLimitsManager := do
  let usage ← m.getUsage account
  let limits ← m.getAccountLimits account
  let usage ← m.charge usage cpuUsage netUsage timeSlot
  m.checkQuota .cpu limits usage
  m.checkQuota .net limits usage
  return { m with usage := m.usage.insert account usage }

def addPendingUsage (cpuUsage netUsage : Nat) : ResourceLimitsManager :=
  { m with state := { m.state with pendingCpuUsage := u64 (m.state.pendingCpuUsage + cpuUsage)
                                   pendingNetUsage := u64 (m.state.pendingNetUsage + netUsage) } }

def addTransactionUsage (accounts : List AccountName)
    (cpuUsage netUsage timeSlot : Nat) : Fallible ResourceLimitsManager := do
  let m ← accounts.foldlM (billAccount cpuUsage netUsage timeSlot) m
  let m := m.addPendingUsage cpuUsage netUsage
  eosAssert (m.state.pendingCpuUsage ≤ m.config.cpuLimitParameters.max) .blockResourceExhausted
    "Block has insufficient cpu resources"
  eosAssert (m.state.pendingNetUsage ≤ m.config.netLimitParameters.max) .blockResourceExhausted
    "Block has insufficient net resources"
  return m

def addPendingRamUsage (account : AccountName) (ramDelta : Int) : Fallible ResourceLimitsManager :=
  if ramDelta = 0 then .ok m
  else do
    let usage ← m.getUsage account
    eosAssert (ramDelta ≤ 0 ∨ ramDelta ≤ 2 ^ 64 - 1 - (usage.ramUsage : Int)) .transactionException
      "Ram usage delta would overflow UINT64_MAX"
    eosAssert (0 ≤ ramDelta ∨ -ramDelta ≤ (usage.ramUsage : Int)) .transactionException
      "Ram usage delta would underflow UINT64_MAX"
    return { m with usage :=
      m.usage.insert account { usage with ramUsage := (usage.ramUsage + ramDelta).toNat } }

def verifyAccountRamUsage (account : AccountName) : Fallible Unit := do
  let limits ← m.getAccountLimits account
  let usage ← m.getUsage account
  eosAssert (limits.ramBytes.toInt < 0 ∨ (usage.ramUsage : Int) ≤ limits.ramBytes.toInt)
    .ramUsageExceeded
    "account ${account} has insufficient ram; needs ${needs} bytes has ${available} bytes"

/-- The second result says whether the limit on memory got smaller. -/
def setAccountLimits (account : AccountName)
    (ramBytes netWeight cpuWeight : Int64) : Fallible (ResourceLimitsManager × Bool) := do
  let limits ← m.getAccountLimits account
  let decreasedLimit := 0 ≤ ramBytes.toInt ∧
    (limits.ramBytes.toInt < 0 ∨ ramBytes.toInt < limits.ramBytes.toInt)
  return ({ m with pendingLimits := m.pendingLimits.insert account ⟨netWeight, cpuWeight, ramBytes⟩ },
    decide decreasedLimit)

/-- `update_state_and_value`, for the total. -/
def updateStateAndValue (total : Nat) (value pendingValue : Int64) : Fallible Nat := do
  eosAssert (value.toInt ≤ 0 ∨ value.toInt ≤ total) .rateLimitingStateInconsistent
    "underflow when reverting old value to ${which}"
  let total := total - value.toInt.toNat
  eosAssert (pendingValue.toInt ≤ 0 ∨ pendingValue.toInt ≤ 2 ^ 64 - 1 - (total : Int))
    .rateLimitingStateInconsistent "overflow when applying new value to ${which}"
  return total + pendingValue.toInt.toNat

def applyPendingLimits (entry : AccountName × ResourceLimitsObject) :
    Fallible ResourceLimitsManager :=
  match m.limits.find? entry.1 with
  | none => .error unknownKey
  | some actual => do
    let totalRamBytes ← updateStateAndValue m.state.totalRamBytes actual.ramBytes entry.2.ramBytes
    let totalCpuWeight ←
      updateStateAndValue m.state.totalCpuWeight actual.cpuWeight entry.2.cpuWeight
    let totalNetWeight ←
      updateStateAndValue m.state.totalNetWeight actual.netWeight entry.2.netWeight
    return { m with
      state := { m.state with totalRamBytes
                              totalCpuWeight
                              totalNetWeight }
      limits := m.limits.insert entry.1 entry.2
      pendingLimits := m.pendingLimits.erase entry.1 }

def processAccountLimitUpdates : Fallible ResourceLimitsManager :=
  m.pendingLimits.entries.foldlM applyPendingLimits m

def processBlockUsage (blockNum : Nat) : Fallible ResourceLimitsManager := do
  let cpu := m.config.cpuLimitParameters
  let net := m.config.netLimitParameters
  let averageCpu ← m.state.averageBlockCpuUsage.add m.state.pendingCpuUsage blockNum cpu.periods
  let virtualCpuLimit ← updateElasticLimit m.state.virtualCpuLimit averageCpu.average cpu
  let averageNet ← m.state.averageBlockNetUsage.add m.state.pendingNetUsage blockNum net.periods
  let virtualNetLimit ← updateElasticLimit m.state.virtualNetLimit averageNet.average net
  return { m with
    state := { m.state with averageBlockCpuUsage := averageCpu
                            virtualCpuLimit
                            pendingCpuUsage := 0
                            averageBlockNetUsage := averageNet
                            virtualNetLimit
                            pendingNetUsage := 0 } }

def getBlockLimit (r : Resource) : Nat :=
  subU64 (r.parameters m.config).max (r.pendingUsage m.state)

def getBlockCpuLimit : Nat := m.getBlockLimit .cpu

def getBlockNetLimit : Nat := m.getBlockLimit .net

/-- The capacity of a block that an account is offered a share of, and whether the greylist
lowers it. -/
def offeredCapacity (r : Resource) (greylistLimit : Nat) : Nat × Bool :=
  let greylistedVirtualLimit := u64 ((r.parameters m.config).max * greylistLimit)
  if greylistedVirtualLimit < r.virtualLimit m.state then (greylistedVirtualLimit, true)
  else (r.virtualLimit m.state, false)

def getAccountLimitEx (r : Resource) (name : AccountName)
    (greylistLimit : Nat) : Fallible (AccountResourceLimit × Bool) := do
  let usage ← m.getUsage name
  let limits ← m.getAccountLimits name
  if m.Limited r limits then
    let capacity := m.offeredCapacity r greylistLimit
    let max := m.maxUserUse r limits capacity.1
    let used := integerDivideCeil (m.scaledUse r usage) config.rateLimitingPrecision
    -- Nothing is left when the use has reached the maximum.
    let available ← downgradeCast (2 ^ 63 - 1) (max - used)
    let used ← downgradeCast (2 ^ 63 - 1) used
    let max ← downgradeCast (2 ^ 63 - 1) max
    return (⟨used, available, max⟩, capacity.2)
  else return (⟨-1, -1, -1⟩, false)

def getAccountCpuLimitEx (name : AccountName) (greylistLimit : Nat) :
    Fallible (AccountResourceLimit × Bool) :=
  m.getAccountLimitEx .cpu name greylistLimit

def getAccountNetLimitEx (name : AccountName) (greylistLimit : Nat) :
    Fallible (AccountResourceLimit × Bool) :=
  m.getAccountLimitEx .net name greylistLimit

def getAccountLimit (r : Resource) (name : AccountName)
    (greylistLimit : Nat) : Fallible (Int × Bool) := do
  let arl ← m.getAccountLimitEx r name greylistLimit
  return (arl.1.available, arl.2)

def getAccountCpuLimit (name : AccountName) (greylistLimit : Nat) : Fallible (Int × Bool) :=
  m.getAccountLimit .cpu name greylistLimit

def getAccountNetLimit (name : AccountName) (greylistLimit : Nat) : Fallible (Int × Bool) :=
  m.getAccountLimit .net name greylistLimit

end ResourceLimitsManager

end DreamChain
