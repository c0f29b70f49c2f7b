import DreamChain.Dreamoji.Effects
import DreamChain.Library.FlatMapSum

/-!
Conservation of supply. The supply that a type records is what its accounts hold together, every
account belongs to a type that is there, and no more is in circulation than was issued and may
be issued.

Accounts are found by a number, types by a pair of names. The numbers are drawn from a counter,
so two types share none as long as the counter does not wrap around.
-/

namespace DreamChain.Dreamoji
open Library FlatMap

abbrev Stats := FlatMap TokenType DreamStats

variable {self : AccountName} {ctx : Context} {s s' : Contract} {stats : Stats}
  {accounts accounts' : Accounts} {owner : AccountName} {id : Nat} {quantity : Asset}

def heldOf (accounts : Accounts) (id : Nat) : Int :=
  accounts.total fun k acct => if (ofLex k).2 = id then acct.amount.amount else 0

/-- Every account is positive and belongs to a type with its number. -/
def Backed (stats : Stats) (accounts : Accounts) : Prop :=
  ∀ k acct, accounts.find? k = some acct → 0 < acct.amount.amount ∧
    ∃ dreamStats, stats.find? acct.type = some dreamStats ∧ dreamStats.categoryNameId = (ofLex k).2

structure Numbered (counter : Nat) (stats : Stats) : Prop where
  below : ∀ {k dreamStats}, stats.find? k = some dreamStats → dreamStats.categoryNameId < counter
  distinct : ∀ {k k' st st'}, stats.find? k = some st → stats.find? k' = some st' →
    st.categoryNameId = st'.categoryNameId → k = k'

structure Conserved (stats : Stats) (accounts : Accounts) : Prop where
  supply : ∀ {k dreamStats}, stats.find? k = some dreamStats →
    heldOf accounts dreamStats.categoryNameId = dreamStats.currentSupply.amount
  backed : Backed stats accounts
  issued : ∀ {k dreamStats}, stats.find? k = some dreamStats →
    dreamStats.currentSupply.amount ≤ dreamStats.issuedSupply.amount
  bounded : ∀ {k dreamStats}, stats.find? k = some dreamStats → dreamStats.maxSupply.amount ≠ 0 →
    dreamStats.issuedSupply.amount ≤ dreamStats.maxSupply.amount

variable {st : DreamStats}

section Balances

theorem subBalance_ok (h : subBalance owner id quantity accounts = .ok accounts') :
    ∃ acct, accounts.find? (toLex (owner, id)) = some acct ∧
      (acct.amount.amount = quantity.amount ∧ accounts' = accounts.erase (toLex (owner, id)) ∨
        quantity.amount < acct.amount.amount ∧
          accounts' = accounts.insert (toLex (owner, id))
            { acct with amount := ⟨acct.amount.amount - quantity.amount, acct.amount.symbol⟩ }) := by
  simp only [subBalance, bind_eq_ok, get_eq_ok, check_eq_ok, exists_const] at h
  obtain ⟨acct, hacct, hle, h⟩ := h
  refine ⟨acct, hacct, ?_⟩
  by_cases heq : acct.amount.amount = quantity.amount
  · rw [if_pos heq] at h
    exact .inl ⟨heq, (Except.ok.inj h).symm⟩
  · rw [if_neg heq] at h
    obtain ⟨amount, hamount, h⟩ := bind_eq_ok.mp h
    obtain ⟨-, rfl⟩ := Asset.sub_ok hamount
    exact .inr ⟨lt_of_le_of_ne hle (Ne.symm heq), (Except.ok.inj h).symm⟩

variable {category tokenName : Nat} {acct : Account}

theorem addBalance_ok (h : addBalance owner category tokenName id quantity accounts = .ok accounts') :
    (accounts.find? (toLex (owner, id)) = none ∧
        accounts' = accounts.insert (toLex (owner, id)) ⟨category, tokenName, quantity⟩) ∨
      ∃ acct, accounts.find? (toLex (owner, id)) = some acct ∧
        accounts' = accounts.insert (toLex (owner, id))
          { acct with amount := ⟨acct.amount.amount + quantity.amount, acct.amount.symbol⟩ } := by
  unfold addBalance at h
  cases hacct : accounts.find? (toLex (owner, id)) with
  | none =>
    rw [hacct] at h
    exact .inl ⟨rfl, (Except.ok.inj h).symm⟩
  | some acct =>
    rw [hacct] at h
    obtain ⟨amount, hamount, h⟩ := bind_eq_ok.mp h
    obtain ⟨-, rfl⟩ := Asset.add_ok hamount
    exact .inr ⟨acct, rfl, (Except.ok.inj h).symm⟩

theorem heldOf_erase (h : accounts.find? (toLex (owner, id)) = some acct) (i : Nat) :
    heldOf (accounts.erase (toLex (owner, id))) i +
      (if id = i then acct.amount.amount else 0) = heldOf accounts i :=
  accounts.total_erase (fun k (a : Account) => if (ofLex k).2 = i then a.amount.amount else 0) h

theorem heldOf_insert (h : accounts.find? (toLex (owner, id)) = some acct) (a : Account) (i : Nat) :
    heldOf (accounts.insert (toLex (owner, id)) a) i +
      (if id = i then acct.amount.amount else 0) =
        heldOf accounts i + if id = i then a.amount.amount else 0 :=
  accounts.total_insert_present
    (fun k (a : Account) => if (ofLex k).2 = i then a.amount.amount else 0) a h

theorem heldOf_subBalance (h : subBalance owner id quantity accounts = .ok accounts') (i : Nat) :
    heldOf accounts' i = heldOf accounts i + if id = i then -quantity.amount else 0 := by
  obtain ⟨acct, hacct, hcase⟩ := subBalance_ok h
  obtain ⟨heq, rfl⟩ | ⟨-, rfl⟩ := hcase
  · have htotal := heldOf_erase hacct i
    split at htotal <;> omega
  · have htotal := heldOf_insert hacct
      { acct with amount := ⟨acct.amount.amount - quantity.amount, acct.amount.symbol⟩ } i
    dsimp only at htotal
    split
    · rename_i heq
      omega
    · rename_i hne
      omega

theorem heldOf_addBalance
    (h : addBalance owner category tokenName id quantity accounts = .ok accounts') (i : Nat) :
    heldOf accounts' i = heldOf accounts i + if id = i then quantity.amount else 0 := by
  obtain ⟨hnone, rfl⟩ | ⟨acct, hacct, rfl⟩ := addBalance_ok h
  · exact accounts.total_insert_absent
      (fun k (a : Account) => if (ofLex k).2 = i then a.amount.amount else 0)
      ⟨category, tokenName, quantity⟩ ((accounts.find?_eq_none_iff _).mp hnone)
  · have htotal := heldOf_insert hacct
      { acct with amount := ⟨acct.amount.amount + quantity.amount, acct.amount.symbol⟩ } i
    dsimp only at htotal
    split
    · rename_i heq
      omega
    · rename_i hne
      omega

section

variable (hb : Backed stats accounts)
include hb

theorem Backed.sub (h : subBalance owner id quantity accounts = .ok accounts') :
    Backed stats accounts' := by
  obtain ⟨acct, hacct, hcase⟩ := subBalance_ok h
  intro k a ha
  obtain ⟨-, rfl⟩ | ⟨hlt, rfl⟩ := hcase
  · exact hb k a ((accounts.find?_erase_eq_some_iff).mp ha).2
  · rw [find?_insert] at ha
    split at ha
    · rename_i hk
      subst hk
      cases ha
      exact ⟨Int.sub_pos_of_lt hlt, (hb _ _ hacct).2⟩
    · exact hb k a ha

theorem Backed.add {dreamStats : DreamStats}
    (h : addBalance owner category tokenName id quantity accounts = .ok accounts')
    (hpos : 0 < quantity.amount)
    (hstats : stats.find? (toLex (category, tokenName)) = some dreamStats)
    (hid : dreamStats.categoryNameId = id) : Backed stats accounts' := by
  have hcase := addBalance_ok h
  intro k a ha
  obtain ⟨-, rfl⟩ | ⟨acct, hacct, rfl⟩ := hcase
  · rw [find?_insert] at ha
    split at ha
    · rename_i hk
      subst hk
      cases ha
      exact ⟨hpos, dreamStats, hstats, hid⟩
    · exact hb k a ha
  · rw [find?_insert] at ha
    split at ha
    · rename_i hk
      subst hk
      cases ha
      exact ⟨Int.add_pos (hb _ _ hacct).1 hpos, (hb _ _ hacct).2⟩
    · exact hb k a ha

theorem Backed.heldOf_nonneg (i : Nat) : 0 ≤ heldOf accounts i := by
  refine accounts.total_nonneg fun k a ha => ?_
  split
  · exact (hb k a ha).1.le
  · exact le_refl 0

theorem Backed.find?_eq_none {i : Nat} (h : heldOf accounts i = 0) (o : AccountName) :
    accounts.find? (toLex (o, i)) = none := by
  cases ha : accounts.find? (toLex (o, i)) with
  | none => rfl
  | some a =>
    have hle := accounts.le_total
      (f := fun k (a : Account) => if (ofLex k).2 = i then a.amount.amount else 0)
      (fun k a ha => by
        split
        · exact (hb k a ha).1.le
        · exact le_refl 0) ha
    simp only [ofLex_toLex] at hle
    exact absurd (h ▸ hle) (not_le.mpr (hb _ _ ha).1)

theorem Backed.insert {k st'} (hst : stats.find? k = some st)
    (hid : st'.categoryNameId = st.categoryNameId) : Backed (stats.insert k st') accounts := by
  intro j a ha
  obtain ⟨hpos, sa, hsa, hsaid⟩ := hb j a ha
  refine ⟨hpos, ?_⟩
  by_cases hk : k = a.type
  · subst hk
    refine ⟨st', find?_insert_self .., ?_⟩
    rw [hst] at hsa
    cases hsa
    exact hid.trans hsaid
  · exact ⟨sa, (stats.find?_insert_of_ne st' hk).trans hsa, hsaid⟩

end

end Balances

section Ledger

variable {n : Nat} {k : TokenType} {st st' : DreamStats}

theorem Numbered.insert (h : Numbered n stats) (hst : stats.find? k = some st)
    (hid : st'.categoryNameId = st.categoryNameId) : Numbered n (stats.insert k st') := by
  have hold : ∀ {j sj}, (stats.insert k st').find? j = some sj →
      ∃ sj', stats.find? j = some sj' ∧ sj'.categoryNameId = sj.categoryNameId := by
    intro j sj hj
    rw [find?_insert] at hj
    split at hj
    · rename_i hkj
      subst hkj
      cases hj
      exact ⟨st, hst, hid.symm⟩
    · exact ⟨sj, hj, rfl⟩
  constructor
  · intro j sj hj
    obtain ⟨sj', hj', heq⟩ := hold hj
    exact heq ▸ h.below hj'
  · intro i j si sj hi hj heq
    obtain ⟨si', hi', hsi⟩ := hold hi
    obtain ⟨sj', hj', hsj⟩ := hold hj
    exact h.distinct hi' hj' (hsi.trans (heq.trans hsj.symm))

theorem Numbered.erase (h : Numbered n stats) : Numbered n (stats.erase k) where
  below hj := h.below (stats.find?_erase_eq_some_iff.mp hj).2
  distinct hi hj := h.distinct (stats.find?_erase_eq_some_iff.mp hi).2
    (stats.find?_erase_eq_some_iff.mp hj).2

variable (h : Conserved stats accounts)
include h

theorem Conserved.update (hn : Numbered n stats) {d : Int} (hst : stats.find? k = some st)
    (hid : st'.categoryNameId = st.categoryNameId) (hbacked : Backed stats accounts')
    (hheld : ∀ i, heldOf accounts' i = heldOf accounts i + if st.categoryNameId = i then d else 0)
    (hcurrent : st'.currentSupply.amount = st.currentSupply.amount + d)
    (hissued : st'.currentSupply.amount ≤ st'.issuedSupply.amount)
    (hbounded : st'.maxSupply.amount ≠ 0 → st'.issuedSupply.amount ≤ st'.maxSupply.amount) :
    Conserved (stats.insert k st') accounts' := by
  refine ⟨fun {j sj} hj => ?_, hbacked.insert hst hid, fun {j sj} hj => ?_,
    fun {j sj} hj => ?_⟩ <;> rw [find?_insert] at hj <;> split at hj
  · cases hj
    rw [hid, hheld, if_pos rfl, h.supply hst, hcurrent]
  · rename_i hkj
    have hne : st.categoryNameId ≠ sj.categoryNameId := fun heq => hkj (hn.distinct hst hj heq)
    rw [hheld, if_neg hne, h.supply hj, add_zero]
  · cases hj
    exact hissued
  · exact h.issued hj
  · cases hj
    exact hbounded
  · exact h.bounded hj

theorem Conserved.redistribute (hbacked : Backed stats accounts')
    (hheld : ∀ i, heldOf accounts' i = heldOf accounts i) : Conserved stats accounts' where
  supply hj := (hheld _).trans (h.supply hj)
  backed := hbacked
  issued := h.issued
  bounded := h.bounded

theorem Conserved.eraseType (hn : Numbered n stats) (hst : stats.find? k = some st)
    (hbacked : Backed stats accounts')
    (hheld : ∀ i, st.categoryNameId ≠ i → heldOf accounts' i = heldOf accounts i)
    (hzero : heldOf accounts' st.categoryNameId = 0) : Conserved (stats.erase k) accounts' := by
  refine ⟨fun {j sj} hj => ?_, fun j a ha => ?_,
    fun hj => h.issued (stats.find?_erase_eq_some_iff.mp hj).2,
    fun hj => h.bounded (stats.find?_erase_eq_some_iff.mp hj).2⟩
  · obtain ⟨hkj, hj⟩ := stats.find?_erase_eq_some_iff.mp hj
    rw [hheld _ fun heq => hkj (hn.distinct hst hj heq), h.supply hj]
  · obtain ⟨hpos, sa, hsa, hid⟩ := hbacked j a ha
    refine ⟨hpos, sa, stats.find?_erase_eq_some_iff.mpr ⟨fun hk => ?_, hsa⟩, hid⟩
    -- an account of the type would be held under its number
    rw [← hk, hst] at hsa
    cases hsa
    have hnone := hbacked.find?_eq_none hzero (ofLex j).1
    rw [hid] at hnone
    exact absurd (hnone.symm.trans ha) nofun

end Ledger

/-- The numbering and the conservation law at a count of `create` calls. -/
structure Ledger (creates : Nat) (s : Contract) : Prop where
  counter : (s.tokenConfigs.map TokenConfigs.categoryNameId).getD 0 = creates
  numbered : Numbered creates s.dreamStats
  conserved : Conserved s.dreamStats s.accounts

namespace Ledger

variable {creates : Nat} {fromAccount toAccount : AccountName} {l : List Nat}

variable {x category tokenName : Nat} {current : Asset}

section

variable (h : Ledger creates s)
include h

theorem relocate (hmove : Dreamoji.relocate fromAccount toAccount s x = .ok s') :
    Ledger creates s' := by
  obtain ⟨token, -, -, hmove⟩ := relocate_eq_ok.mp hmove
  obtain ⟨st, accounts₁, accounts, hst, -, hsub, hadd, rfl⟩ := moveToken_ok hmove
  refine ⟨h.counter, h.numbered, h.conserved.redistribute ?_ fun i => ?_⟩
  · exact (h.conserved.backed.sub hsub).add hadd Int.one_pos hst rfl
  · rw [heldOf_addBalance hadd, heldOf_subBalance hsub]
    split <;> omega

theorem changeOwner {depth istransfer}
    (hmove : Dreamoji.changeOwner fromAccount toAccount depth istransfer l s = .ok s') :
    Ledger creates s' :=
  foldlM_ok_induction (I := Ledger creates) (fun _ _ _ _ ht hx => ht.relocate hx) h
    (changeOwner_postorder hmove).2

theorem burnToken (hburn : Dreamoji.burnToken owner s x = .ok s') : Ledger creates s' := by
  obtain ⟨token, st, accounts, current, issued, -, -, hst, -, -, -, hcurrent, hissued, hsub,
    rfl⟩ := burnToken_ok hburn
  obtain ⟨-, rfl⟩ := Asset.sub_ok hcurrent
  obtain ⟨-, rfl⟩ := Asset.sub_ok hissued
  have hbacked := h.conserved.backed.sub hsub
  have hheld := heldOf_subBalance hsub
  have hle := h.conserved.issued hst
  refine ⟨h.counter, ?_, ?_⟩
  · split
    · exact h.numbered.erase
    · exact h.numbered.insert hst rfl
  · split
    · rename_i hzero
      refine h.conserved.eraseType h.numbered hst hbacked (fun i hi => ?_) ?_
      · rw [hheld, if_neg hi, add_zero]
      · rw [hheld, if_pos rfl, h.conserved.supply hst]
        exact hzero
    · refine h.conserved.update h.numbered hst rfl hbacked hheld rfl (Int.sub_le_sub_right hle 1)
        fun hmax => ?_
      exact (Int.sub_le_self _ Int.one_nonneg).trans (h.conserved.bounded hst hmax)

theorem issue {issued : Asset}
    (hst : s.dreamStats.find? (toLex (category, tokenName)) = some st) (hpos : 0 < quantity.amount)
    (hmax : st.maxSupply.amount ≠ 0 →
      quantity.amount ≤ st.maxSupply.amount - st.issuedSupply.amount)
    (haccounts : addBalance toAccount category tokenName st.categoryNameId quantity s.accounts =
      .ok accounts') (hcurrent : st.currentSupply.add quantity = .ok current)
    (hissued : st.issuedSupply.add quantity = .ok issued) :
    Conserved (s.dreamStats.insert (toLex (category, tokenName))
      { st with currentSupply := current, issuedSupply := issued }) accounts' := by
  obtain ⟨-, rfl⟩ := Asset.add_ok hcurrent
  obtain ⟨-, rfl⟩ := Asset.add_ok hissued
  refine h.conserved.update h.numbered hst rfl
    (h.conserved.backed.add haccounts hpos hst rfl) (heldOf_addBalance haccounts) rfl
    (Int.add_le_add_right (h.conserved.issued hst) _) fun hne => ?_
  have hroom := hmax hne
  dsimp only
  omega

theorem burnft {acct : Account} (hacct : s.accounts.find? (toLex (owner, id)) = some acct)
    (hst : s.dreamStats.find? acct.type = some st) (hpos : 0 < quantity.amount)
    (haccounts : subBalance owner id quantity s.accounts = .ok accounts')
    (hcurrent : st.currentSupply.sub quantity = .ok current) :
    Conserved (s.dreamStats.insert acct.type { st with currentSupply := current }) accounts' := by
  obtain ⟨-, rfl⟩ := Asset.sub_ok hcurrent
  obtain ⟨-, sa, hsa, hid⟩ := h.conserved.backed _ _ hacct
  rw [hst] at hsa
  cases hsa
  obtain rfl : st.categoryNameId = id := hid
  have hle := h.conserved.issued hst
  have hbounded := h.conserved.bounded hst
  refine h.conserved.update h.numbered hst rfl (h.conserved.backed.sub haccounts)
    (heldOf_subBalance haccounts) rfl ?_ hbounded
  dsimp only
  omega

theorem create {config : TokenConfigs} {row : DreamStats} (hbound : creates + 1 < 2 ^ 64)
    (hconfig : s.tokenConfigs = some config)
    (hnew : s.dreamStats.find? (toLex (category, tokenName)) = none)
    (hid : row.categoryNameId = config.categoryNameId) (hcurrent : row.currentSupply.amount = 0)
    (hissued : row.issuedSupply.amount = 0) (hmax : 0 ≤ row.maxSupply.amount) : Ledger (creates + 1)
      { s with
        categoryInfo := s.categoryInfo.insert category ()
        dreamStats := s.dreamStats.insert (toLex (category, tokenName)) row
        tokenConfigs := some { config with categoryNameId := u64 (config.categoryNameId + 1) } } := by
  have hcount : config.categoryNameId = creates := by
    have hcounter := h.counter
    rwa [hconfig] at hcounter
  have habsent := (s.dreamStats.find?_eq_none_iff _).mp hnew
  have hcases := fun {j sj} => (s.dreamStats.find?_insert_absent (j := j) (y := sj) (x := row)
    habsent).mp
  have hne : ∀ {j sj}, s.dreamStats.find? j = some sj → sj.categoryNameId ≠ creates :=
    fun hj => (h.numbered.below hj).ne
  refine ⟨?_, ⟨fun {j sj} hj => ?_, fun {i j si sj} hi hj heq => ?_⟩, ⟨fun {j sj} hj => ?_,
    fun j a ha => ?_, fun {j sj} hj => ?_, fun {j sj} hj => ?_⟩⟩
  · rw [hcount]
    exact Nat.mod_eq_of_lt hbound
  · cases hcases hj with
    | inl hrow => exact hrow.2 ▸ (hid.trans hcount) ▸ Nat.lt_succ_self _
    | inr hold => exact (h.numbered.below hold).trans (Nat.lt_succ_self _)
  · have hrow : row.categoryNameId = creates := hid.trans hcount
    cases hcases hi with
    | inl hi =>
      cases hcases hj with
      | inl hj => exact hi.1.trans hj.1.symm
      | inr hj => exact absurd (heq.symm.trans (hi.2 ▸ hrow)) (hne hj)
    | inr hi =>
      cases hcases hj with
      | inl hj => exact absurd (heq.trans (hj.2 ▸ hrow)) (hne hi)
      | inr hj => exact h.numbered.distinct hi hj heq
  · obtain ⟨-, rfl⟩ | hold := hcases hj
    · -- an account under the new number would belong to an old type
      refine Eq.trans (s.accounts.total_eq_zero fun k a ha => if_neg fun hk => ?_) hcurrent.symm
      obtain ⟨-, sa, hsa, hsaid⟩ := h.conserved.backed k a ha
      exact hne hsa (hsaid.trans (hk.trans (hid.trans hcount)))
    · exact h.conserved.supply hold
  · obtain ⟨hpos, sa, hsa, hsaid⟩ := h.conserved.backed j a ha
    exact ⟨hpos, sa, (s.dreamStats.find?_insert_absent habsent).mpr (.inr hsa), hsaid⟩
  · obtain ⟨-, rfl⟩ | hold := hcases hj
    · rw [hcurrent, hissued]
    · exact h.conserved.issued hold
  · obtain ⟨-, rfl⟩ | hold := hcases hj
    · exact fun _ => hissued ▸ hmax
    · exact h.conserved.bounded hold

end

end Ledger

def ContractAction.isCreate : ContractAction → Bool
  | .create .. => true
  | _ => false

theorem Ledger.effect {creates a} (h : Ledger creates s)
    (heff : Effect self ctx a s s') (hbound : creates + (if a.isCreate then 1 else 0) < 2 ^ 64) :
    Ledger (creates + if a.isCreate then 1 else 0) s' := by
  have hsame : ∀ {config : Option TokenConfigs},
      config.map TokenConfigs.categoryNameId = s.tokenConfigs.map TokenConfigs.categoryNameId →
      (config.map TokenConfigs.categoryNameId).getD 0 = creates :=
    fun heq => (congrArg (Option.getD · 0) heq).trans h.counter
  cases heff with
  | create hconfig hnew hid hcurrent hissued hmax =>
    exact h.create hbound hconfig hnew hid hcurrent hissued hmax
  | instantiate =>
    refine ⟨?_, h.numbered, h.conserved⟩
    have hcounter := h.counter
    cases hconfig : s.tokenConfigs <;> rw [hconfig] at hcounter <;> exact hcounter
  | issue hst hpos hmax _ hid _ haccounts hcurrent hissued =>
    exact ⟨hsame hid, h.numbered.insert hst rfl, h.issue hst hpos hmax haccounts hcurrent hissued⟩
  | freezemaxsup hst =>
    have hissued := h.conserved.issued hst
    refine ⟨h.counter, h.numbered.insert hst rfl, ?_⟩
    exact h.conserved.update h.numbered hst rfl h.conserved.backed
      (fun i => by rw [ite_self, add_zero]) (add_zero _).symm hissued fun _ => le_refl _
  | burnnft hburn _ _ =>
    exact foldlM_ok_induction (I := Ledger creates) (fun _ _ _ _ ht hx => ht.burnToken hx) h hburn
  | burnft hacct hst hpos haccounts hcurrent =>
    exact ⟨h.counter, h.numbered.insert hst rfl, h.burnft hacct hst hpos haccounts hcurrent⟩
  | transfernft _ _ _ hmove => exact h.changeOwner hmove
  | transferft hst _ hpos hsub hadd =>
    refine ⟨h.counter, h.numbered, h.conserved.redistribute ?_ fun i => ?_⟩
    · exact (h.conserved.backed.sub hsub).add hadd hpos hst rfl
    · rw [heldOf_addBalance hadd, heldOf_subBalance hsub]
      split <;> omega
  | license _ _ hid => exact ⟨hsame hid, h.numbered, h.conserved⟩
  | nftPurchase _ _ _ _ _ hmove =>
    have hpaid : ∀ locks sent, Ledger creates { s with lockedNfts := locks, sent } :=
      fun _ _ => ⟨h.counter, h.numbered, h.conserved⟩
    have hmoved := (hpaid _ _).changeOwner hmove
    exact ⟨hmoved.counter, hmoved.numbered, hmoved.conserved⟩
  | licencePurchase _ _ _ _ hid => exact ⟨hsame hid, h.numbered, h.conserved⟩
  | _ => exact ⟨h.counter, h.numbered, h.conserved⟩

def creations (l : List (Transition Contract Call)) : Nat :=
  l.countP fun t => t.action.action.isCreate

theorem run_ledger {l : List (Transition Contract Call)} (h : ContractRun self l s)
    (hcreates : creations l < 2 ^ 64) : Ledger (creations l) s := by
  induction h with
  | start => exact ⟨rfl, ⟨nofun, nofun⟩, ⟨nofun, nofun, nofun, nofun⟩⟩
  | @next l s s' c _ hstep ih =>
    have hcount : creations (⟨s, c, s'⟩ :: l) =
        creations l + if c.action.isCreate then 1 else 0 := List.countP_cons
    rw [hcount] at hcreates ⊢
    exact (ih (by omega)).effect (apply_effect hstep) hcreates

/-- Whatever actions are executed in whatever order, the supply of every type is what its
accounts hold, every account belongs to a type, and the supplies keep their bounds. -/
theorem supply_conserved {l : List (Transition Contract Call)} (h : ContractRun self l s)
    (hcreates : creations l < 2 ^ 64) : (∀ k dreamStats, s.dreamStats.find? k = some dreamStats →
      heldOf s.accounts dreamStats.categoryNameId = dreamStats.currentSupply.amount) ∧
    (∀ owner id acct, s.accounts.find? (toLex (owner, id)) = some acct → 0 < acct.amount.amount ∧
      ∃ dreamStats, s.dreamStats.find? (toLex (acct.category, acct.tokenName)) = some dreamStats ∧
        dreamStats.categoryNameId = id) ∧
    ∀ k dreamStats, s.dreamStats.find? k = some dreamStats →
      0 ≤ dreamStats.currentSupply.amount ∧
      dreamStats.currentSupply.amount ≤ dreamStats.issuedSupply.amount ∧
      (dreamStats.maxSupply.amount ≠ 0 →
        dreamStats.issuedSupply.amount ≤ dreamStats.maxSupply.amount) := by
  have hledger := (run_ledger h hcreates).conserved
  refine ⟨fun k st hst => hledger.supply hst, fun o i a ha => hledger.backed _ a ha,
    fun k st hst => ⟨?_, hledger.issued hst, hledger.bounded hst⟩⟩
  rw [← hledger.supply hst]
  exact hledger.backed.heldOf_nonneg _

theorem supply_conserved_burned : ∃ l s, ContractRun 1 l s ∧ creations l < 2 ^ 64 ∧
    ∃ dreamStats, s.dreamStats.find? (toLex (10, 11)) = some dreamStats ∧
      dreamStats.currentSupply.amount = 1 ∧ heldOf s.accounts dreamStats.categoryNameId = 1 := by
  obtain ⟨l, s, hrun, hcreates, st, hst, hone⟩ := exists_run 1 (deployment true true ++
      [.signedBy 3 0 (.burnnft 3 [0]), .signedBy 3 0 (.burnft 3 0 ⟨1, dreamSymbol⟩),
        .signedBy 3 0 (.transfernft 3 4 [2])])
    (fun l s => creations l < 2 ^ 64 ∧
      ∃ st, s.dreamStats.find? (toLex (10, 11)) = some st ∧ st.currentSupply.amount = 1)
    (by decide +kernel)
  have hsupply := (supply_conserved hrun hcreates).1 _ st hst
  exact ⟨l, s, hrun, hcreates, st, hst, hone, hsupply.trans hone⟩

section Minting

variable {l : List (Transition Contract Call)} {c : Call}

/-- Every type can be issued up to a time or up to an amount only. -/
def Limited (s : Contract) : Prop :=
  ∀ k st, s.dreamStats.find? k = some st → st.maxIssueWindow ≠ 0 ∨ st.maxSupply.amount ≠ 0

/-- The window of a created type ends the given number of days later. -/
def WindowExact (t : Transition Contract Call) : Prop :=
  match t.action.action with
  | .create _ _ category tokenName _ _ _ _ _ _ maxIssueDays _ => 0 < maxIssueDays →
    ∃ st, t.after.dreamStats.find? (toLex (category, tokenName)) = some st ∧
      st.maxIssueWindow = t.action.context.now + 86400 * maxIssueDays
  | _ => True

def WindowFits (t : Transition Contract Call) : Prop :=
  match t.action.action with
  | .create _ _ _ _ _ _ _ _ _ _ maxIssueDays _ => 0 < maxIssueDays →
    t.action.context.now + 86400 * maxIssueDays < 2 ^ 32
  | _ => True

instance (t : Transition Contract Call) : Decidable (WindowFits t) := by
  obtain ⟨_, ⟨_, action⟩, _⟩ := t
  cases action <;> unfold WindowFits <;> infer_instance

theorem Limited.insert {k : TokenType} (h : Limited s)
    (hs : s'.dreamStats = s.dreamStats.insert k st)
    (hst : st.maxIssueWindow ≠ 0 ∨ st.maxSupply.amount ≠ 0) : Limited s' := by
  intro j sj hj
  rw [hs, find?_insert] at hj
  split at hj
  · cases hj
    exact hst
  · exact h j sj hj

theorem Limited.burnToken {x : Nat} (h : Limited s) (hok : burnToken owner s x = .ok s') :
    Limited s' := by
  obtain ⟨token, st, _, current, _, -, -, hst, -, -, -, -, -, -, rfl⟩ := burnToken_ok hok
  by_cases hzero : current.amount = 0
  · intro k sk hk
    rw [if_pos hzero] at hk
    exact h k sk (s.dreamStats.find?_erase_eq_some_iff.mp hk).2
  · exact h.insert (if_neg hzero) (h _ st hst)

theorem after_eq_iff (days : Nat) :
    ctx.after (days * 24 * 3600) = ctx.now + 86400 * days ↔ ctx.now + 86400 * days < 2 ^ 32 := by
  simp only [Context.after, u32]
  omega

theorem create_stats
    {issuer revPartner category tokenName maxIssueDays fungible burnable sellable transferable
    revSplit baseUri maxSupply}
    (h : create ctx issuer revPartner category tokenName fungible burnable sellable transferable
      revSplit baseUri maxIssueDays maxSupply s = .ok s') :
    ∃ row, s'.dreamStats = s.dreamStats.insert (toLex (category, tokenName)) row ∧
      if 0 < maxIssueDays then row.maxIssueWindow = ctx.after (maxIssueDays * 24 * 3600)
      else row.maxSupply.amount ≠ 0 := by
  simp only [create, bind_eq_ok, emplace_eq_ok] at h
  obtain ⟨_, -, _, -, window, hwindow, _, -, _, -, _, -, _, -, _, -, _, -, stats, ⟨-, rfl⟩, h⟩ := h
  cases h
  refine ⟨_, rfl, ?_⟩
  unfold issueWindow at hwindow
  split at hwindow
  · rename_i hdays
    obtain ⟨_, hcheck, -⟩ := bind_eq_ok.mp hwindow
    simpa [hdays] using (checkAsset_ok hcheck).ne'
  · simp only [bind_eq_ok, check_eq_ok, exists_const] at hwindow
    rw [if_pos (by omega)]
    exact (Except.ok.inj hwindow.2.2).symm

theorem windowExact_iff (h : Step self s c s') :
    WindowExact ⟨s, c, s'⟩ ↔ WindowFits ⟨s, c, s'⟩ := by
  obtain ⟨ctx, action⟩ := c
  cases action with
  | create =>
    obtain ⟨row, hrow, hwindow⟩ := create_stats h
    refine forall_congr' fun hdays => ?_
    rw [if_pos hdays] at hwindow
    simp [hrow, hwindow, after_eq_iff]
  | _ => rfl

theorem Limited.step (h : Step self s c s') (hfits : WindowFits ⟨s, c, s'⟩)
    (hlimited : Limited s) : Limited s' := by
  obtain ⟨ctx, action⟩ := c
  cases apply_effect h with
  | create =>
    obtain ⟨row, hrow, hwindow⟩ := create_stats h
    refine hlimited.insert hrow ?_
    split at hwindow
    · rename_i hdays
      rw [(after_eq_iff _).mpr (hfits hdays)] at hwindow
      exact .inl (by omega)
    · exact .inr hwindow
  | freezemaxsup hstats =>
    simp only [Step, apply, freezemaxsup, bind_eq_ok, get_eq_ok, check_eq_ok, exists_const,
      hstats] at h
    obtain ⟨_, -, st, hst, -, hissued, -⟩ := h
    cases hst
    exact hlimited.insert rfl (.inr hissued)
  | issue hstats | burnft _ hstats =>
    have hold := hlimited _ _ hstats
    exact hlimited.insert rfl hold
  | burnnft hburn => exact foldlM_ok_induction (fun _ _ _ _ => Limited.burnToken) hlimited hburn
  | _ => exact hlimited

/-- The windows of a run are exact exactly when none wraps around, and then every type is
limited. -/
theorem minting_limited (h : ContractRun self l s) :
    ((∀ t ∈ l, WindowExact t) ↔ ∀ t ∈ l, WindowFits t) ∧
      ((∀ t ∈ l, WindowFits t) → ∀ k st, s.dreamStats.find? k = some st →
        st.maxIssueWindow ≠ 0 ∨ st.maxSupply.amount ≠ 0) := by
  refine ⟨forall₂_congr fun t ht => windowExact_iff (h.step_of_mem t ht), fun hfits => ?_⟩
  have hlimited : Limited s := (h.guarded (fun _ _ hst => nomatch hst)
    (fun _ => Limited.step) hfits).1
  exact hlimited

def timedCreate (days : Nat) : List Call :=
  [.signedBy 1 1606000000 (.instantiate dreamSymbol.code "1"),
    .signedBy 2 1606000000
      (.create 2 2 10 11 false true true true 0 "" days ⟨0, dreamSymbol⟩)]

theorem minting_limited_day : ∃ l s, ContractRun 1 l s ∧ (∀ t ∈ l, WindowExact t) ∧
    ∃ st, s.dreamStats.find? (toLex (10, 11)) = some st ∧ st.maxIssueWindow = 1606086400 :=
  exists_run_of (timedCreate 1) (fun hrun => (minting_limited hrun).1.mpr) (by decide +kernel)

/-- The end of the window wraps around to the value that means none. -/
theorem minting_unlimited : ∃ l s, ContractRun 1 l s ∧ ∃ st,
    s.dreamStats.find? (toLex (10, 11)) = some st ∧ st.maxIssueWindow = 0 ∧
      st.maxSupply.amount = 0 :=
  exists_run 1 (timedCreate 4952439) _ (by decide +kernel)

end Minting

end DreamChain.Dreamoji
