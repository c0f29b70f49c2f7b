import DreamChain.Dreamoji.Effects
import DreamChain.Library.FlatMapSum

/-!
The payments for a batch. Each revenue partner gets the fees of the tokens of its types and the
seller what they leave. The fee of a token is taken here in exact arithmetic, cut to an integer;
the contract computes it in doubles.
-/

namespace DreamChain.Dreamoji
open Library List FlatMap

abbrev Fees := FlatMap AccountName Asset × Int

section
variable (fee : ℚ → Int) (askAmount : Asset) (s : Contract)

/-- The loop of `_calcfees`, whatever fee a split leads to. -/
def calcFeeBy (fees : Fees) (nftId : Nat) : Guarded Fees := do
  let token ← get s.dreams nftId "token does not exist"
  let dreamStats ← get s.dreamStats token.type "asset stats not found"
  if dreamStats.revSplit = 0 then .ok fees
  else
    let feeAsset ← Asset.make (fee dreamStats.revSplit) askAmount.symbol
    let feeMap ← addFee dreamStats.revPartner feeAsset fees.1
    .ok (feeMap, fees.2 + feeAsset.amount)

def calcFeesBy (seller : AccountName) (nftIds : List Nat) :
    Guarded (FlatMap AccountName Asset) := do
  let fees ← nftIds.foldlM (calcFeeBy fee askAmount s) (.empty, 0)
  let sellerAmount ← Asset.make (askAmount.amount - fees.2) askAmount.symbol
  addFee seller sellerAmount fees.1

def exactFee (size : Nat) (revSplit : ℚ) : Int := truncate (askAmount.amount * revSplit / size)

def exactFees (seller : AccountName) (nftIds : List Nat) : Guarded (FlatMap AccountName Asset) :=
  calcFeesBy (exactFee askAmount nftIds.length) askAmount s seller nftIds

/-- What a token brings to the partner of its type. -/
def tokenFee (nftId : Nat) : Option (AccountName × Int) := do
  let token ← s.dreams.find? nftId
  let dreamStats ← s.dreamStats.find? token.type
  if dreamStats.revSplit = 0 then none else some (dreamStats.revPartner, fee dreamStats.revSplit)

def tokenFees (nftIds : List Nat) : List (AccountName × Int) := nftIds.filterMap (tokenFee fee s)

end

def owedTo (p : AccountName) (l : List (AccountName × Int)) : Int :=
  ((l.filter fun e => e.1 = p).map Prod.snd).sum

/-- The payments are those of a list, added up for each account and in all. -/
structure PaysOut (l : List (AccountName × Int)) (fees : Fees) : Prop where
  amount : ∀ p, (fees.1.find? p).elim 0 Asset.amount = owedTo p l
  keys : ∀ p, p ∈ fees.1.keys ↔ p ∈ l.map Prod.fst
  total : (fees.1.total fun _ a => a.amount) = fees.2
  sum : fees.2 = (l.map Prod.snd).sum

variable {fee : ℚ → Int} {askAmount : Asset} {s : Contract} {l : List (AccountName × Int)}
  {fees fees' : Fees} {feeMap : FlatMap AccountName Asset} {seller p : AccountName}
  {nftIds : List Nat} {x : Nat}

theorem owedTo_append_singleton (e : AccountName × Int) :
    owedTo p (l ++ [e]) = owedTo p l + if e.1 = p then e.2 else 0 := by
  by_cases he : e.1 = p <;> simp [owedTo, he]

theorem addFee_ok {a : Asset} (h : addFee p a fees.1 = .ok feeMap) :
    ∃ b, feeMap = fees.1.insert p b ∧
      b.amount = (fees.1.find? p).elim 0 Asset.amount + a.amount ∧
      (feeMap.total fun _ a => a.amount) = (fees.1.total fun _ a => a.amount) + a.amount := by
  rw [addFee] at h
  split at h
  · rename_i hnone
    cases h
    refine ⟨a, rfl, by simp [hnone], total_insert_absent _ _ _ ?_⟩
    exact (fees.1.find?_eq_none_iff p).mp hnone
  · rename_i b hb
    obtain ⟨c, hc, h⟩ := bind_eq_ok.mp h
    cases h
    obtain ⟨-, rfl⟩ := Asset.add_ok hc
    have hpresent := total_insert_present fees.1 (fun _ a => a.amount)
      { b with amount := b.amount + a.amount } hb
    refine ⟨_, rfl, by simp [hb], ?_⟩
    dsimp only at hpresent
    omega

theorem PaysOut.addFee {a : Asset} (h : PaysOut l fees) (hok : addFee p a fees.1 = .ok feeMap) :
    PaysOut (l ++ [(p, a.amount)]) (feeMap, fees.2 + a.amount) := by
  obtain ⟨b, rfl, hsum, htotal⟩ := addFee_ok hok
  refine ⟨fun q => ?_, fun q => ?_, htotal.trans (by rw [h.total]), by simp [h.sum]⟩
  · rw [find?_insert, owedTo_append_singleton, ← h.amount]
    by_cases hq : p = q
    · subst hq
      simp [hsum]
    · simp [hq]
  · rw [mem_keys_insert, h.keys]
    simp [or_comm]

theorem PaysOut.calcFeeBy (h : PaysOut l fees)
    (hok : calcFeeBy fee askAmount s fees x = .ok fees') :
    PaysOut (l ++ (tokenFee fee s x).toList) fees' := by
  simp only [Dreamoji.calcFeeBy, bind_eq_ok, get_eq_ok] at hok
  obtain ⟨token, htoken, st, hst, hok⟩ := hok
  split at hok
  · rename_i hzero
    cases hok
    simpa [tokenFee, htoken, hst, hzero] using h
  · rename_i hsplit
    simp only [bind_eq_ok] at hok
    obtain ⟨a, ha, m, hm, hok⟩ := hok
    cases hok
    obtain rfl := Asset.make_ok ha
    simpa [tokenFee, htoken, hst, hsplit] using h.addFee hm

theorem PaysOut.foldlM (h : PaysOut l fees)
    (hok : nftIds.foldlM (Dreamoji.calcFeeBy fee askAmount s) fees = .ok fees') :
    PaysOut (l ++ tokenFees fee s nftIds) fees' := by
  induction nftIds generalizing l fees with
  | nil =>
    cases hok
    simpa [tokenFees] using h
  | cons x rest ih =>
    obtain ⟨middle, hx, hok⟩ := foldlM_cons_ok.mp hok
    have hrest := ih (h.calcFeeBy hx) hok
    cases hfee : tokenFee fee s x <;> simpa [tokenFees, hfee] using hrest

/-- Every fee is owed to the partner of its type, and the rest to the seller. -/
theorem calcFeesBy_paysOut (hok : calcFeesBy fee askAmount s seller nftIds = .ok feeMap) :
    PaysOut (tokenFees fee s nftIds ++
      [(seller, askAmount.amount - ((tokenFees fee s nftIds).map Prod.snd).sum)])
      (feeMap, askAmount.amount) := by
  simp only [calcFeesBy, bind_eq_ok] at hok
  obtain ⟨fees, hfees, rest, hrest, hadd⟩ := hok
  have hnone : PaysOut [] (.empty, 0) := ⟨fun _ => rfl, by simp, rfl, rfl⟩
  have hpaid := hnone.foldlM hfees
  obtain rfl := Asset.make_ok hrest
  simpa [hpaid.sum] using hpaid.addFee hadd

theorem exactFee_bounds {size revSplit} (hask : 0 ≤ askAmount.amount)
    (hsplit : 0 ≤ revSplit ∧ revSplit ≤ 1) : 0 ≤ exactFee askAmount size revSplit ∧
      exactFee askAmount size revSplit ≤ askAmount.amount / size := by
  have hamount : (0 : ℚ) ≤ askAmount.amount := Int.cast_nonneg hask
  have hfee : 0 ≤ askAmount.amount * revSplit / size :=
    div_nonneg (mul_nonneg hamount hsplit.1) (Nat.cast_nonneg size)
  rw [exactFee, truncate, if_pos hfee, ← Rat.floor_intCast_div_natCast]
  refine ⟨Int.floor_nonneg.mpr hfee, Int.floor_mono ?_⟩
  gcongr
  exact mul_le_of_le_one_right hamount hsplit.2

theorem tokenFee_fee {e : AccountName × Int} (h : tokenFee fee s x = some e) :
    ∃ st ∈ s.dreamStats.values, e.2 = fee st.revSplit := by
  simp only [tokenFee, Option.bind_eq_bind, Option.bind_eq_some_iff] at h
  obtain ⟨token, -, st, hst, h⟩ := h
  split at h
  · cases h
  · cases h
    exact ⟨st, (s.dreamStats.mem_values_iff st).mpr ⟨_, hst⟩, rfl⟩

/-- Two tokens of a type that leaves a part of the price to the issuer are listed. -/
def offering (revSplit : ℚ) (amount : Int) : List Call :=
  [.signedBy 1 0 (.instantiate dreamSymbol.code "1"),
    .signedBy 2 0 (.create 2 2 10 11 false true true true revSplit "" 0 ⟨5, dreamSymbol⟩),
    .signedBy 2 0 (.issue 3 10 11 ⟨2, dreamSymbol⟩ "" []),
    .signedBy 3 0 (.nftokensale 3 [0, 1] ⟨amount, drmi⟩ 60)]

theorem offering_halves : ∃ l s, ContractRun 1 l s ∧
    ∃ m, exactFees ⟨205, drmi⟩ s 3 [0, 1] = .ok m ∧ m.find? 2 = some ⟨102, drmi⟩ ∧
      (∀ st ∈ s.dreamStats.values, 0 ≤ st.revSplit ∧ st.revSplit ≤ 1) ∧
      tokenFees (exactFee ⟨205, drmi⟩ [0, 1].length) s [0, 1] = [(2, 51), (2, 51)] :=
  exists_run 1 (offering (1 / 2) 205) _ (by decide +kernel)

end DreamChain.Dreamoji
