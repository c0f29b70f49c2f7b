import DreamChain.Dreamoji.Ownership
import DreamChain.Dreamoji.Supply

/-!
Tokens are counted twice: as rows, and as the balances and the supply of their type. The two
counts agree as long as every move takes a token from the account it belongs to, and no amount
is burned without the tokens.

One change of a type shifts both counts by the same amounts, and leaves those of the other types
alone because the numbers of the types are distinct.
-/

namespace DreamChain.Dreamoji
open Library Library.Worklist Library.Descent FlatMap List

variable {self : AccountName} {ctx : Context} {s s' : Contract} {n : Nat}
  {accounts accounts' : Accounts} {dreams : Dreams} {owner : AccountName} {id x : Nat}
  {quantity : Asset} {token : Dream} {p : TokenType → AccountName → Bool} {relativeUri : String}
  {istransfer : Bool} {depth : Nat}

section Balances

def balanceOf (accounts : Accounts) (owner : AccountName) (id : Nat) : Int :=
  ((accounts.find? (toLex (owner, id))).map fun acct => acct.amount.amount).getD 0

theorem balanceOf_insert (acct : Account) (o : AccountName) (i : Nat) :
    balanceOf (accounts.insert (toLex (owner, id)) acct) o i =
      if owner = o ∧ id = i then acct.amount.amount else balanceOf accounts o i := by
  unfold balanceOf
  rw [find?_insert]
  by_cases h : owner = o ∧ id = i
  · simp [h]
  · have hne : toLex (owner, id) ≠ toLex (o, i) := fun heq => h (Prod.mk.inj (toLex.injective heq))
    rw [if_neg hne, if_neg h]

theorem balanceOf_erase (o : AccountName) (i : Nat) :
    balanceOf (accounts.erase (toLex (owner, id))) o i =
      if owner = o ∧ id = i then 0 else balanceOf accounts o i := by
  unfold balanceOf
  rw [find?_erase]
  by_cases h : owner = o ∧ id = i
  · simp [h]
  · have hne : toLex (owner, id) ≠ toLex (o, i) := fun heq => h (Prod.mk.inj (toLex.injective heq))
    rw [if_neg hne, if_neg h]

theorem balanceOf_sub (h : subBalance owner id quantity accounts = .ok accounts')
    (o : AccountName) (i : Nat) : balanceOf accounts' o i =
      balanceOf accounts o i - if owner = o ∧ id = i then quantity.amount else 0 := by
  obtain ⟨acct, hacct, hcase⟩ := subBalance_ok h
  have hold : balanceOf accounts owner id = acct.amount.amount := by
    rw [balanceOf, hacct]
    rfl
  obtain ⟨heq, rfl⟩ | ⟨-, rfl⟩ := hcase
  · rw [balanceOf_erase]
    split
    · rename_i hkey
      rw [← hkey.1, ← hkey.2, hold, heq, Int.sub_self]
    · rw [Int.sub_zero]
  · rw [balanceOf_insert]
    split
    · rename_i hkey
      rw [← hkey.1, ← hkey.2, hold]
    · rw [Int.sub_zero]

theorem balanceOf_add {category tokenName : Nat}
    (h : addBalance owner category tokenName id quantity accounts = .ok accounts')
    (o : AccountName) (i : Nat) : balanceOf accounts' o i =
      balanceOf accounts o i + if owner = o ∧ id = i then quantity.amount else 0 := by
  obtain ⟨hnone, rfl⟩ | ⟨acct, hacct, rfl⟩ := addBalance_ok h
  · rw [balanceOf_insert]
    split
    · rename_i hkey
      rw [← hkey.1, ← hkey.2, balanceOf, hnone]
      exact (Int.zero_add _).symm
    · rw [Int.add_zero]
  · rw [balanceOf_insert]
    split
    · rename_i hkey
      rw [← hkey.1, ← hkey.2, balanceOf, hacct]
      rfl
    · rw [Int.add_zero]

end Balances

section Rows

def tokenCount (dreams : Dreams) (p : TokenType → AccountName → Bool) : Int :=
  dreams.total fun _ token => if p token.type token.owner then 1 else 0

def ownedCount (dreams : Dreams) (k : TokenType) (o : AccountName) : Int :=
  tokenCount dreams fun k' o' => decide (k' = k ∧ o' = o)

def typeCount (dreams : Dreams) (k : TokenType) : Int :=
  tokenCount dreams fun k' _ => decide (k' = k)

theorem tokenCount_new (hx : dreams.find? x = none) : tokenCount (dreams.insert x token) p =
      tokenCount dreams p + if p token.type token.owner then 1 else 0 :=
  dreams.total_insert_absent _ token ((dreams.find?_eq_none_iff x).mp hx)

theorem tokenCount_insert (token' : Dream) (hx : dreams.find? x = some token) :
    tokenCount (dreams.insert x token') p + (if p token.type token.owner then 1 else 0) =
      tokenCount dreams p + if p token'.type token'.owner then 1 else 0 :=
  dreams.total_insert_present (fun _ (t : Dream) => if p t.type t.owner then (1 : Int) else 0) token' hx

theorem tokenCount_erase (hx : dreams.find? x = some token) :
    tokenCount (dreams.erase x) p + (if p token.type token.owner then 1 else 0) =
      tokenCount dreams p :=
  dreams.total_erase (fun _ (t : Dream) => if p t.type t.owner then (1 : Int) else 0) hx

theorem tokenCount_none
    (h : ∀ x token, dreams.find? x = some token → p token.type token.owner = false) :
    tokenCount dreams p = 0 :=
  dreams.total_eq_zero fun x token hx => by rw [h x token hx, if_neg nofun]

theorem find?_of_typeCount (h : typeCount dreams token.type = 0) : dreams.find? x ≠ some token := by
  intro hx
  have hle := dreams.le_total
    (f := fun _ (t : Dream) => if decide (t.type = token.type) then (1 : Int) else 0)
    (fun _ t _ => by split <;> decide) hx
  rw [typeCount, tokenCount] at h
  rw [h] at hle
  simp at hle

theorem mintTokens_count {toAccount category tokenName st} (hst : st.fungible = false) (hpos : 0 < quantity.amount)
    (h : mintTokens toAccount category tokenName quantity relativeUri st s = .ok s') :
    tokenCount s'.dreams p = tokenCount s.dreams p +
      if p (toLex (category, tokenName)) toAccount then quantity.amount else 0 := by
  rw [mintTokens, if_neg (by simp [hst])] at h
  simp only [bind_eq_ok] at h
  obtain ⟨_, -, one, hone, h⟩ := h
  have hloop := mintLoop_induction (I := fun m t => tokenCount t.dreams p = tokenCount s.dreams p +
    if p (toLex (category, tokenName)) toAccount then m - st.issuedSupply.amount else 0)
    (fun issued t t' ht hmint => by
      obtain ⟨config, -, hnew, rfl⟩ := mint_ok hmint
      refine (tokenCount_new hnew).trans ?_
      rw [ht]
      show _ + (if p (toLex (category, tokenName)) toAccount then (1 : Int) else 0) = _
      split <;> omega)
    (by rw [Asset.make_ok hone]) (by simp) h
  rw [hloop]
  split <;> omega

end Rows

structure Counted (s : Contract) : Prop where
  balance : ∀ {k st}, s.dreamStats.find? k = some st → st.fungible = false →
    ∀ o, balanceOf s.accounts o st.categoryNameId = ownedCount s.dreams k o
  supply : ∀ {k st}, s.dreamStats.find? k = some st → st.fungible = false →
    st.currentSupply.amount = typeCount s.dreams k
  alive : ∀ {x token}, s.dreams.find? x = some token →
    ∃ st, s.dreamStats.find? token.type = some st ∧ st.fungible = false

/-- Both counts of a type change by the same amounts: `d` for each owner, `e` in all. -/
structure Shifts (k : TokenType) (id : Nat) (d : AccountName → Int) (e : Int)
    (s s' : Contract) : Prop where
  balance : ∀ o i, balanceOf s'.accounts o i = balanceOf s.accounts o i + if id = i then d o else 0
  owned : ∀ j o, ownedCount s'.dreams j o = ownedCount s.dreams j o + if k = j then d o else 0
  count : ∀ j, typeCount s'.dreams j = typeCount s.dreams j + if k = j then e else 0

namespace Counted

variable {k : TokenType} {st : DreamStats} {fromAccount toAccount : AccountName}

theorem shift {d e} (h : Counted s) (hn : Numbered n s.dreamStats)
    (hst : s.dreamStats.find? k = some st) (hfungible : st.fungible = false)
    (hshift : Shifts k st.categoryNameId d e s s')
    (hothers : ∀ j, k ≠ j → s'.dreamStats.find? j = s.dreamStats.find? j)
    (hrow : ∀ st', s'.dreamStats.find? k = some st' → st'.categoryNameId = st.categoryNameId ∧
      st'.currentSupply.amount = st.currentSupply.amount + e)
    (halive : ∀ {x token}, s'.dreams.find? x = some token →
      ∃ st, s'.dreamStats.find? token.type = some st ∧ st.fungible = false) : Counted s' := by
  refine ⟨fun {j sj} hj hf o => ?_, fun {j sj} hj hf => ?_, halive⟩
  · by_cases hkj : k = j
    · subst hkj
      rw [(hrow sj hj).1, hshift.balance, hshift.owned, h.balance hst hfungible, if_pos rfl,
        if_pos rfl]
    · rw [hothers j hkj] at hj
      have hne : st.categoryNameId ≠ sj.categoryNameId := fun heq => hkj (hn.distinct hst hj heq)
      rw [hshift.balance, hshift.owned, if_neg hne, if_neg hkj, h.balance hj hf]
  · by_cases hkj : k = j
    · subst hkj
      rw [(hrow sj hj).2, hshift.count, if_pos rfl, h.supply hst hfungible]
    · rw [hothers j hkj] at hj
      rw [hshift.count, if_neg hkj, h.supply hj hf, Int.add_zero]

theorem frame (h : Counted s)
    (hrows : ∀ {j st'}, s'.dreamStats.find? j = some st' → st'.fungible = false →
      ∃ st, s.dreamStats.find? j = some st ∧ st.fungible = false ∧
        st'.currentSupply.amount = st.currentSupply.amount ∧
        ∀ o, balanceOf s'.accounts o st'.categoryNameId = balanceOf s.accounts o st.categoryNameId)
    (hcount : ∀ p, tokenCount s'.dreams p = tokenCount s.dreams p)
    (halive : ∀ {x token}, s'.dreams.find? x = some token →
      ∃ st, s'.dreamStats.find? token.type = some st ∧ st.fungible = false) : Counted s' := by
  refine ⟨fun hj hf o => ?_, fun hj hf => ?_, halive⟩
  · obtain ⟨st, hst, hfungible, -, hbalance⟩ := hrows hj hf
    rw [hbalance, h.balance hst hfungible, ownedCount, ownedCount, hcount]
  · obtain ⟨st, hst, hfungible, hsupply, -⟩ := hrows hj hf
    rw [hsupply, h.supply hst hfungible, typeCount, typeCount, hcount]

theorem fungible (h : Counted s) (hn : Numbered n s.dreamStats)
    (hst : s.dreamStats.find? k = some st) (hfungible : st.fungible = true)
    (hothers : ∀ j, k ≠ j → s'.dreamStats.find? j = s.dreamStats.find? j)
    (hrow : ∀ st', s'.dreamStats.find? k = some st' → st'.fungible = true)
    (hbalance : ∀ o i, st.categoryNameId ≠ i → balanceOf s'.accounts o i = balanceOf s.accounts o i)
    (hdreams : s'.dreams = s.dreams) : Counted s' := by
  refine h.frame (fun {j st'} hj hf => ?_) (fun p => by rw [hdreams]) fun {x token} hx => ?_
  · have hkj : k ≠ j := by
      rintro rfl
      exact absurd ((hrow st' hj).symm.trans hf) nofun
    rw [hothers j hkj] at hj
    exact ⟨st', hj, hf, rfl, fun o => hbalance o _ fun heq => hkj (hn.distinct hst hj heq)⟩
  · obtain ⟨sx, hsx, hf⟩ := h.alive (hdreams ▸ hx)
    refine ⟨sx, (hothers _ ?_).trans hsx, hf⟩
    rintro rfl
    rw [hst] at hsx
    cases hsx
    exact absurd (hfungible.symm.trans hf) nofun

theorem relocate (h : Counted s) (hn : Numbered n s.dreamStats) (howned : s.ownedBy x fromAccount)
    (hmove : Dreamoji.relocate fromAccount toAccount s x = .ok s') : Counted s' := by
  obtain ⟨token, htoken, -, hmove⟩ := relocate_eq_ok.mp hmove
  obtain ⟨st, accounts₁, accounts, hst, -, hsub, hadd, rfl⟩ := moveToken_ok hmove
  obtain ⟨token', htoken', howner⟩ := howned
  rw [htoken] at htoken'
  cases htoken'
  obtain ⟨st', hst', hfungible⟩ := h.alive htoken
  rw [hst] at hst'
  cases hst'
  have hcount : ∀ p, tokenCount (s.dreams.insert x { token with owner := toAccount }) p +
      (if p token.type fromAccount then 1 else 0) =
        tokenCount s.dreams p + if p token.type toAccount then 1 else 0 :=
    fun p => howner ▸ tokenCount_insert _ htoken
  refine h.shift (d := fun o => (if toAccount = o then 1 else 0) - if fromAccount = o then 1 else 0)
    (e := 0) hn hst hfungible ⟨fun o i => ?_, fun j o => ?_, fun j => ?_⟩ (fun j _ => rfl)
    (fun st' hst' => ?_) fun {y ty} hy => ?_
  · rw [balanceOf_add hadd, balanceOf_sub hsub]
    grind
  · have howned := hcount fun k' o' => decide (k' = j ∧ o' = o)
    simp only [ownedCount]
    grind
  · have htype := hcount fun k' _ => decide (k' = j)
    simp only [ite_self, Int.add_zero]
    exact add_right_cancel htype
  · rw [hst] at hst'
    cases hst'
    exact ⟨rfl, (Int.add_zero _).symm⟩
  · rw [find?_insert] at hy
    split at hy
    · cases hy
      exact ⟨st, hst, hfungible⟩
    · exact h.alive hy

variable {l : List Nat} {config : Option TokenConfigs}

variable (h : Counted s)
include h

section

variable (hn : Numbered n s.dreamStats)
include hn

theorem relocate_all (hl : l.Nodup) (howned : ∀ y ∈ l, s.ownedBy y fromAccount)
    (hmove : l.foldlM (Dreamoji.relocate fromAccount toAccount) s = .ok s') : Counted s' := by
  induction l generalizing s with
  | nil =>
    cases hmove
    exact h
  | cons y rest ih =>
    obtain ⟨s₁, hy, hrest⟩ := foldlM_cons_ok.mp hmove
    obtain ⟨hfirst, hlater⟩ := forall_mem_cons.mp howned
    obtain ⟨hnot, hrest'⟩ := nodup_cons.mp hl
    have hone := Dreamoji.relocate_all (l := [y]) (foldlM_cons_ok.mpr ⟨s₁, hy, rfl⟩)
    obtain ⟨dreams, accounts, rfl⟩ := hone.frame
    refine ih (h.relocate hn hfirst hy) hn hrest' (fun z hz => ?_) hrest
    -- the tokens that are left are where they were
    have hother : z ∉ [y] := fun hmem => hnot (mem_singleton.mp hmem ▸ hz)
    obtain ⟨token, htoken, howner⟩ := hlater z hz
    exact ⟨token, (hone.kept z hother).trans htoken, howner⟩

/-- A change of owner of roots that are not linked moves every token below them once. -/
theorem changeOwner (hparents : UniqueParents s.children) (hl : l.Nodup)
    (hroots : ∀ y ∈ l, ∀ q, y ∉ s.children q)
    (howned : ∀ y ∈ l, ∀ z, Reach s.children y z → s.ownedBy z fromAccount)
    (hmove : Dreamoji.changeOwner fromAccount toAccount depth istransfer l s = .ok s') :
    Counted s' := by
  obtain ⟨hheight, hloop⟩ := changeOwner_postorder hmove
  have hunrelated := hparents.unrelated_roots hl hroots
  refine h.relocate_all hn (hparents.nodup_postorder hheight hunrelated) (fun z hz => ?_) hloop
  obtain ⟨y, hy, hr⟩ := (mem_postorder hheight).mp hz
  exact howned y hy z hr

theorem burnToken (hburn : Dreamoji.burnToken owner s x = .ok s') : Counted s' := by
  obtain ⟨token, st, accounts, current, issued, htoken, howner, hst, -, hfungible, -, hcurrent, -,
    hsub, rfl⟩ := burnToken_ok hburn
  obtain ⟨-, rfl⟩ := Asset.sub_ok hcurrent
  have hcount : ∀ p, tokenCount (s.dreams.erase x) p + (if p token.type owner then 1 else 0) =
      tokenCount s.dreams p := fun p => howner ▸ tokenCount_erase htoken
  have htype : ∀ j, typeCount (s.dreams.erase x) j = typeCount s.dreams j +
      if token.type = j then -1 else 0 := by
    intro j
    have hj := hcount fun k' _ => decide (k' = j)
    simp only [typeCount]
    grind
  have hsupply := h.supply hst hfungible
  refine h.shift (d := fun o => if owner = o then -1 else 0) (e := -1) hn hst hfungible
    ⟨fun o i => ?_, fun j o => ?_, htype⟩ (fun j hj => ?_) (fun st' hst' => ?_)
    fun {y ty} hy => ?_
  · rw [balanceOf_sub hsub]
    grind
  · have howned := hcount fun k' o' => decide (k' = j ∧ o' = o)
    simp only [ownedCount]
    grind
  · split
    · rw [find?_erase, if_neg hj]
    · exact s.dreamStats.find?_insert_of_ne _ hj
  · split at hst'
    · rw [find?_erase, if_pos rfl] at hst'
      cases hst'
    · rw [find?_insert_self] at hst'
      cases hst'
      exact ⟨rfl, rfl⟩
  · obtain ⟨-, hold⟩ := s.dreams.find?_erase_eq_some_iff.mp hy
    obtain ⟨sy, hsy, hf⟩ := h.alive hold
    by_cases hty : token.type = ty.type
    · split
      · -- the last token of the type was burned
        rename_i hzero
        have hnone : typeCount (s.dreams.erase x) ty.type = 0 := by
          rw [htype, if_pos hty, ← hty, ← hsupply]
          exact hzero
        exact absurd hy (find?_of_typeCount hnone)
      · rw [← hty]
        refine ⟨_, s.dreamStats.find?_insert_self token.type _, ?_⟩
        exact hfungible
    · refine ⟨sy, ?_, hf⟩
      split
      · rw [find?_erase, if_neg hty]
        exact hsy
      · exact (s.dreamStats.find?_insert_of_ne _ hty).trans hsy

theorem issue {category tokenName : Nat} {current issued : Asset} {sent : List InlineAction}
    (hst : s.dreamStats.find? (toLex (category, tokenName)) = some st) (hpos : 0 < quantity.amount)
    (hmint : mintTokens toAccount category tokenName quantity relativeUri st s =
      .ok { s with tokenConfigs := config, dreams, sent })
    (hgrown : Grown (fun token => token.children = [] ∧ token.owner = toAccount ∧
      token.type = toLex (category, tokenName)) s.dreams dreams)
    (haccounts : addBalance toAccount category tokenName st.categoryNameId quantity s.accounts =
      .ok accounts) (hcurrent : st.currentSupply.add quantity = .ok current) : Counted { s with
      tokenConfigs := config, dreams, sent, accounts
      dreamStats := s.dreamStats.insert (toLex (category, tokenName))
        { st with currentSupply := current, issuedSupply := issued } } := by
  obtain ⟨-, rfl⟩ := Asset.add_ok hcurrent
  have hothers : ∀ {st'} j, toLex (category, tokenName) ≠ j →
      (s.dreamStats.insert (toLex (category, tokenName)) st').find? j = s.dreamStats.find? j :=
    fun j hj => s.dreamStats.find?_insert_of_ne _ hj
  cases hfungible : st.fungible with
  | true =>
    have hdreams : s = { s with tokenConfigs := config, dreams, sent } := by
      rw [mintTokens, if_pos hfungible] at hmint
      exact Except.ok.inj hmint
    refine h.fungible hn hst hfungible hothers (fun st' hst' => ?_) (fun o i hi => ?_)
      (congrArg Contract.dreams hdreams).symm
    · rw [find?_insert_self] at hst'
      cases hst'
      rfl
    · rw [balanceOf_add haccounts, if_neg fun hkey => hi hkey.2, Int.add_zero]
  | false =>
    have hcount := fun p => mintTokens_count (p := p) hfungible hpos hmint
    refine h.shift (d := fun o => if toAccount = o then quantity.amount else 0)
      (e := quantity.amount) hn hst hfungible ⟨fun o i => ?_, fun j o => ?_, fun j => ?_⟩ hothers
      (fun st' hst' => ?_) fun {x token} hx => ?_
    · rw [balanceOf_add haccounts]
      grind
    · simp only [ownedCount, hcount]
      grind
    · simp only [typeCount, hcount, decide_eq_true_eq]
    · rw [find?_insert_self] at hst'
      cases hst'
      exact ⟨rfl, rfl⟩
    · have htype : token.type = toLex (category, tokenName) ∨
          ∃ sx, s.dreamStats.find? token.type = some sx ∧ sx.fungible = false := by
        obtain hsame | ⟨-, token', htoken', -, -, htype⟩ := hgrown x
        · exact .inr (h.alive (hsame.symm.trans hx))
        · obtain rfl := Option.some.inj (htoken'.symm.trans hx)
          exact .inl htype
      rw [find?_insert]
      split
      · exact ⟨_, rfl, rfl⟩
      · exact htype.resolve_left fun heq => by simp_all

end

theorem create {row : DreamStats} {categories : FlatMap Nat Unit}
    (hb : Backed s.dreamStats s.accounts) (hn : Numbered n s.dreamStats)
    (hnew : s.dreamStats.find? k = none) (hid : row.categoryNameId = n)
    (hcurrent : row.currentSupply.amount = 0) : Counted { s with
      categoryInfo := categories
      dreamStats := s.dreamStats.insert k row
      tokenConfigs := config } := by
  have hcases := fun {j st} => (s.dreamStats.find?_insert_absent (j := j) (y := st) (x := row)
    ((s.dreamStats.find?_eq_none_iff k).mp hnew)).mp
  -- there are no tokens and no accounts of the new type
  have htype : ∀ x token, s.dreams.find? x = some token → token.type ≠ k := by
    rintro x token hx rfl
    obtain ⟨st, hst, -⟩ := h.alive hx
    exact absurd (hnew.symm.trans hst) nofun
  refine ⟨fun {j st} hj hf o => ?_, fun {j st} hj hf => ?_, fun hx => ?_⟩
  · obtain ⟨rfl, rfl⟩ | hold := hcases hj
    · rw [ownedCount, tokenCount_none fun x token hx => decide_eq_false fun hk =>
        htype x token hx hk.1]
      rw [balanceOf]
      cases ha : s.accounts.find? (toLex (o, st.categoryNameId)) with
      | none => rfl
      | some acct =>
        obtain ⟨-, sa, hsa, hsaid⟩ := hb _ acct ha
        exact absurd (hsaid.trans hid) (hn.below hsa).ne
    · exact h.balance hold hf o
  · obtain ⟨rfl, rfl⟩ | hold := hcases hj
    · rw [hcurrent, typeCount, tokenCount_none fun x token hx => decide_eq_false fun hk =>
        htype x token hx hk]
    · exact h.supply hold hf
  · obtain ⟨st, hst, hf⟩ := h.alive hx
    exact ⟨st, (s.dreamStats.find?_insert_of_ne row (htype _ _ hx).symm).trans hst, hf⟩

theorem relink {parent children links} (hx : s.dreams.find? x = some parent) : Counted { s with
      linkedNfts := links
      dreams := s.dreams.insert x { parent with children } } := by
  have halive := h.alive hx
  refine h.frame (fun {j st} hj hf => ⟨st, hj, hf, rfl, fun _ => rfl⟩) (fun p => ?_)
    fun {y token} hy => ?_
  · have hcount := tokenCount_insert (p := p) { parent with children } hx
    exact add_right_cancel hcount
  · rw [find?_insert] at hy
    split at hy
    · cases hy
      exact halive
    · exact h.alive hy

end Counted

def BurnsFungible (t : Transition Contract Call) : Prop :=
  match t.action.action with
  | .burnft owner categoryNameId _ =>
    ∀ acct ∈ t.before.accounts.find? (toLex (owner, categoryNameId)),
      ∀ st ∈ t.before.dreamStats.find? acct.type, st.fungible = true
  | _ => True

instance (t : Transition Contract Call) : Decidable (BurnsFungible t) := by
  obtain ⟨_, ⟨_, action⟩, _⟩ := t
  unfold BurnsFungible
  split <;> infer_instance

theorem Custody.ownedBy_below {s₁ fromAccount toAccount l}
    (h : Custody s) (hmove : changeOwner fromAccount toAccount depth istransfer l s₁ = .ok s')
    (hdreams : s₁.dreams = s.dreams) (howned : ∀ y ∈ l, s.ownedBy y fromAccount) :
    ∀ y ∈ l, ∀ z, Reach s.children y z → s.ownedBy z fromAccount := by
  intro y hy z hr
  obtain ⟨order, horder, hrelocated⟩ := changeOwner_relocated hmove
  rw [children_congr hdreams] at horder
  obtain ⟨token, htoken, -⟩ := hrelocated.moved z ((horder z).mpr ⟨y, hy, hr⟩)
  rw [hdreams] at htoken
  exact ⟨token, htoken, h.owner_of_reach hr (howned y hy) htoken⟩

theorem Counted.effect {c : Call} (h : Counted s) (hc : Custody s) (hl : Ledger n s)
    (heff : Effect self c.context c.action s s') (hburns : BurnsFungible ⟨s, c, s'⟩) :
    Counted s' := by
  have hn := hl.numbered
  obtain ⟨ctx, a⟩ := c
  cases heff with
  | create hconfig hnew hid hcurrent =>
    have hcounter := hl.counter
    rw [hconfig] at hcounter
    exact h.create hl.conserved.backed hn hnew (hid.trans hcounter) hcurrent
  | issue hst hpos _ hmint _ hgrown haccounts hcurrent =>
    exact h.issue hn hst hpos hmint hgrown haccounts hcurrent
  | freezemaxsup hst =>
    refine h.frame (fun {j st'} hj hf => ?_) (fun _ => rfl) fun {x token} hx => ?_
    · rw [find?_insert] at hj
      split at hj
      · rename_i hkj
        subst hkj
        cases hj
        exact ⟨_, hst, hf, rfl, fun _ => rfl⟩
      · exact ⟨st', hj, hf, rfl, fun _ => rfl⟩
    · obtain ⟨sx, hsx, hf⟩ := h.alive hx
      dsimp only
      rw [find?_insert]
      split
      · rename_i hkx
        rw [← hkx, hst] at hsx
        cases hsx
        exact ⟨_, rfl, hf⟩
      · exact ⟨sx, hsx, hf⟩
  | burnnft hburn =>
    exact (foldlM_ok_induction (I := fun t => Ledger n t ∧ Counted t)
      (fun x _ t t' ht hx => ⟨ht.1.burnToken hx, ht.2.burnToken ht.1.numbered hx⟩) ⟨hl, h⟩ hburn).2
  | burnft hacct hst _ haccounts =>
    have hfungible := hburns _ hacct _ hst
    obtain ⟨-, sa, hsa, hid⟩ := hl.conserved.backed _ _ hacct
    rw [hst] at hsa
    cases hsa
    refine h.fungible hn hst hfungible (fun j hj => s.dreamStats.find?_insert_of_ne _ hj)
      (fun st' hst' => ?_) (fun o i hi => ?_) rfl
    · rw [find?_insert_self] at hst'
      cases hst'
      exact hfungible
    · rw [balanceOf_sub haccounts, if_neg fun hkey => hi (hid.trans hkey.2), Int.sub_zero]
  | transfernft _ hne hfree hmove =>
    have howned : ∀ y ∈ _, s.ownedBy y _ := fun y hy => by
      obtain ⟨root, _, hroot, howner, -⟩ := changeOwner_direct hne hmove y hy
      exact ⟨root, hroot, howner⟩
    exact h.changeOwner hn hc.parents (changeOwner_nodup hne hmove)
      (fun y hy => hc.not_child_of_free (hfree y hy)) (hc.ownedBy_below hmove rfl howned) hmove
  | transferft hst hfungible _ hsub hadd =>
    refine h.fungible hn hst hfungible (fun _ _ => rfl) (fun st' hst' => ?_) (fun o i hi => ?_) rfl
    · rw [hst] at hst'
      cases hst'
      exact hfungible
    · rw [balanceOf_add hadd, balanceOf_sub hsub, if_neg fun hkey => hi hkey.2,
        if_neg fun hkey => hi hkey.2, Int.sub_zero, Int.add_zero]
  | @nftPurchase _ _ _ _ _ _ _ locks sent _ _ _ hask _ _ hnodup hmove =>
    have hpaid : Counted { s with lockedNfts := locks, sent } :=
      ⟨h.balance, h.supply, h.alive⟩
    have hbelow := hc.ownedBy_below hmove rfl fun y hy => hc.listings.owned hask hy
    have hmoved := hpaid.changeOwner hn hc.parents hnodup
      (fun y hy => hc.not_child_of_listed hask hy) hbelow hmove
    exact ⟨hmoved.balance, hmoved.supply, hmoved.alive⟩
  | linknfts hparent | unlinknfts hparent => exact h.relink hparent
  | _ => exact ⟨h.balance, h.supply, h.alive⟩

/-- Along a run of careful actions that burns no amount of a non-fungible type, every account
holds as many of a non-fungible type as it owns tokens of it, and the supply is their number. -/
theorem counts_agree {l : List (Transition Contract Call)} (h : ContractRun self l s)
    (hcreates : creations l < 2 ^ 64) (hcare : ∀ t ∈ l, Careful t)
    (hburns : ∀ t ∈ l, BurnsFungible t) :
    ∀ k st, s.dreamStats.find? k = some st → st.fungible = false →
      (∀ o, balanceOf s.accounts o st.categoryNameId = ownedCount s.dreams k o) ∧
      st.currentSupply.amount = typeCount s.dreams k := by
  have hcounted : Custody s ∧ Counted s := by
    induction h with
    | start => exact ⟨Custody.start, ⟨nofun, nofun, nofun⟩⟩
    | @next l s s' c hrun hstep ih =>
      obtain ⟨hcare', hrest⟩ := forall_mem_cons.mp hcare
      obtain ⟨hburns', hrest'⟩ := forall_mem_cons.mp hburns
      have hfew : creations l < 2 ^ 64 :=
        Nat.lt_of_le_of_lt (sublist_cons_self _ l).countP_le hcreates
      obtain ⟨hcustody, hcount⟩ := ih hfew hrest hrest'
      have heff := apply_effect hstep
      exact ⟨hcustody.effect heff hcare',
        hcount.effect hcustody (run_ledger hrun hfew) heff hburns'⟩
  exact fun k st hst hf => ⟨hcounted.2.balance hst hf, hcounted.2.supply hst hf⟩

/-- Tokens are linked, sent, sold and burned. -/
theorem counts_agree_family : ∃ l s, ContractRun 1 l s ∧ creations l < 2 ^ 64 ∧
    (∀ t ∈ l, Careful t) ∧ (∀ t ∈ l, BurnsFungible t) ∧
    ∃ st, s.dreamStats.find? (toLex (10, 11)) = some st ∧ st.fungible = false ∧
      balanceOf s.accounts 4 st.categoryNameId = 1 ∧ ownedCount s.dreams (toLex (10, 11)) 4 = 1 ∧
      st.currentSupply.amount = 2 ∧ typeCount s.dreams (toLex (10, 11)) = 2 := by
  obtain ⟨l, s, hrun, hcreates, hcare, hburns, st, hst, hfungible, hbalance, hsupply⟩ := exists_run 1
    (deployment true true ++
      [.signedBy 3 0 (.linknfts [1] 0 3), .signedBy 3 0 (.transfernft 3 4 [0]),
        .signedBy 3 0 (.nftokensale 3 [2] oneDrmi 60),
        .signedBy 6 0 (.purchase 6 1 oneDrmi "nft,aaaaaaaaaaaa,2".toList),
        .signedBy 4 0 (.burnnft 4 [1])])
    (fun l s => creations l < 2 ^ 64 ∧ (∀ t ∈ l, Careful t) ∧ (∀ t ∈ l, BurnsFungible t) ∧
      ∃ st, s.dreamStats.find? (toLex (10, 11)) = some st ∧ st.fungible = false ∧
        balanceOf s.accounts 4 st.categoryNameId = 1 ∧ st.currentSupply.amount = 2)
    (by decide +kernel)
  obtain ⟨howned, hcount⟩ := counts_agree hrun hcreates hcare hburns _ st hst hfungible
  exact ⟨l, s, hrun, hcreates, hcare, hburns, st, hst, hfungible, hbalance,
    (howned 4).symm.trans hbalance, hsupply, hcount.symm.trans hsupply⟩

/-- One of three tokens is burned as an amount, and all three rows stay. -/
theorem counts_diverge : ∃ l s st, ContractRun 1 l s ∧
    s.dreamStats.find? (toLex (10, 11)) = some st ∧ st.fungible = false ∧
    balanceOf s.accounts 3 st.categoryNameId = 2 ∧ ownedCount s.dreams (toLex (10, 11)) 3 = 3 ∧
    st.currentSupply.amount = 2 ∧ typeCount s.dreams (toLex (10, 11)) = 3 := by
  obtain ⟨l, s, hrun, st, hst⟩ := exists_run 1
    (deployment true true ++ [.signedBy 3 0 (.burnft 3 0 ⟨1, dreamSymbol⟩)])
    (fun _ s => ∃ st, s.dreamStats.find? (toLex (10, 11)) = some st ∧ st.fungible = false ∧
      balanceOf s.accounts 3 st.categoryNameId = 2 ∧ ownedCount s.dreams (toLex (10, 11)) 3 = 3 ∧
      st.currentSupply.amount = 2 ∧ typeCount s.dreams (toLex (10, 11)) = 3)
    (by decide +kernel)
  exact ⟨l, s, st, hrun, hst⟩

end DreamChain.Dreamoji
