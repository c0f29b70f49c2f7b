import DreamChain.Dreamoji.Ownership

/-!
The flags of a type. A type that is not burnable is to keep its supply and its tokens, and a
token that is not transferable is to change hands by a sale only.

The flags are asked for in `burnnft`, in `transferft` and for the tokens named in `transfernft`.
They are not asked for in `burnft`, nor for the tokens that a transfer takes along: an action
respects the flags exactly when it does nothing against them in these two places.
-/

namespace DreamChain.Dreamoji
open Library Library.Worklist Library.Descent

variable {self : AccountName} {ctx : Context} {s s' : Contract} {a : ContractAction}
  {owner : AccountName} {c : Call}

def ContractAction.isPurchase : ContractAction → Bool
  | .purchase .. => true
  | _ => false

structure RespectsFlags (t : Transition Contract Call) : Prop where
  supply : ∀ {k st}, t.before.dreamStats.find? k = some st → st.burnable = false →
    ∃ st', t.after.dreamStats.find? k = some st' ∧
      st.currentSupply.amount ≤ st'.currentSupply.amount
  kept : ∀ {x token st}, t.before.dreams.find? x = some token →
    t.before.dreamStats.find? token.type = some st → st.burnable = false →
    t.after.dreams.find? x ≠ none
  moved : ∀ {x token token' st}, t.before.dreams.find? x = some token →
    t.after.dreams.find? x = some token' → token'.owner ≠ token.owner →
    t.before.dreamStats.find? token.type = some st → st.transferable = false →
    t.action.action.isPurchase = true

/-- What the contract does not check: the type of a burned quantity, and the types of the
tokens that are moved along. -/
def SparesFlags (t : Transition Contract Call) : Prop :=
  match t.action.action with
  | .burnft owner categoryNameId _ =>
    ∀ acct st, t.before.accounts.find? (toLex (owner, categoryNameId)) = some acct →
      t.before.dreamStats.find? acct.type = some st → st.burnable = true
  | .transfernft _ toAccount nftIds =>
    ∀ y ∈ nftIds, ∀ x, Reach t.before.children y x → ∀ token st,
      t.before.dreams.find? x = some token → t.before.dreamStats.find? token.type = some st →
      st.transferable = false → token.owner = toAccount
  | _ => True

def Risen (stats stats' : FlatMap TokenType DreamStats) : Prop :=
  ∀ k st, stats.find? k = some st → ∃ st', stats'.find? k = some st' ∧
    st.currentSupply.amount ≤ st'.currentSupply.amount

theorem Risen.refl (stats : FlatMap TokenType DreamStats) : Risen stats stats :=
  fun _ st hst => ⟨st, hst, le_refl _⟩

theorem Risen.insert {stats k st st'}
    (hst : stats.find? k = some st) (hle : st.currentSupply.amount ≤ st'.currentSupply.amount) :
    Risen stats (stats.insert k st') := by
  intro j sj hj
  rw [FlatMap.find?_insert]
  split
  · rename_i hkj
    subst hkj
    rw [hst] at hj
    cases hj
    exact ⟨st', rfl, hle⟩
  · exact ⟨sj, hj, le_refl _⟩

structure SparesUnburnable (s s' : Contract) : Prop where
  stats : ∀ {k st}, s.dreamStats.find? k = some st → st.burnable = false →
    s'.dreamStats.find? k = some st
  tokens : ∀ {x token st}, s.dreams.find? x = some token →
    s.dreamStats.find? token.type = some st → st.burnable = false →
    s'.dreams.find? x = some token

theorem burnToken_spares {x : Nat} (h : burnToken owner s x = .ok s') : SparesUnburnable s s' := by
  obtain ⟨token, st, accounts, current, issued, htoken, -, hst, hburnable, -, -, -, -, -, rfl⟩ :=
    burnToken_ok h
  have hother : ∀ {k sk}, s.dreamStats.find? k = some sk → sk.burnable = false →
      token.type ≠ k := by
    rintro k sk hk hflag rfl
    rw [hst] at hk
    cases hk
    exact absurd (hburnable.symm.trans hflag) nofun
  refine ⟨fun {k sk} hk hflag => ?_, fun {y other sy} hy hsy hflag => ?_⟩
  · split
    · exact s.dreamStats.find?_erase_eq_some_iff.mpr ⟨hother hk hflag, hk⟩
    · exact (s.dreamStats.find?_insert_of_ne _ (hother hk hflag)).trans hk
  · refine s.dreams.find?_erase_eq_some_iff.mpr ⟨fun hxy => hother hsy hflag ?_, hy⟩
    subst hxy
    rw [htoken] at hy
    cases hy
    rfl

theorem burnTokens_spare {l : List Nat}
    (h : l.foldlM (burnToken owner) s = .ok s') : SparesUnburnable s s' := by
  refine foldlM_ok_induction (I := SparesUnburnable s) (fun x _ t t' ht hx => ?_)
    ⟨fun hk _ => hk, fun hx _ _ => hx⟩ h
  have hstep := burnToken_spares hx
  refine ⟨fun hk hflag => hstep.stats (ht.stats hk hflag) hflag, fun hy hst hflag => ?_⟩
  exact hstep.tokens (ht.tokens hy hst hflag) (ht.stats hst hflag) hflag

theorem RespectsFlags.of_risen (heff : Effect self c.context c.action s s')
    (hrisen : Risen s.dreamStats s'.dreamStats)
    (hkept : ∀ x, s.dreams.find? x ≠ none → s'.dreams.find? x ≠ none)
    (hmoves : c.action.moves = true → c.action.isPurchase = true) : RespectsFlags ⟨s, c, s'⟩ where
  supply hst _ := hrisen _ _ hst
  kept hx _ _ := hkept _ fun hnone => absurd (hnone.symm.trans hx) nofun
  moved hx hx' hne _ _ := by
    refine hmoves (Bool.of_not_eq_false fun ha => ?_)
    exact hne (heff.sameOwner ha ⟨_, hx, rfl⟩ hx')

theorem respectsFlags_iff (heff : Effect self c.context c.action s s') :
    RespectsFlags ⟨s, c, s'⟩ ↔ SparesFlags ⟨s, c, s'⟩ := by
  have hof := RespectsFlags.of_risen heff
  have hfamily := heff.family
  have hsame : c.action.moves = false → ∀ {x token token'}, s.dreams.find? x = some token →
      s'.dreams.find? x = some token' → token'.owner = token.owner :=
    fun ha {_ token _} hx hx' => heff.sameOwner ha ⟨token, hx, rfl⟩ hx'
  obtain ⟨ctx, a⟩ := c
  cases heff with
  | burnft hacct hst hpos haccounts hcurrent =>
    obtain ⟨-, rfl⟩ := Asset.sub_ok hcurrent
    constructor
    · intro h acct' st' hacct' hst'
      rw [hacct] at hacct'
      cases hacct'
      rw [hst] at hst'
      cases hst'
      refine Bool.of_not_eq_false fun hflag => ?_
      obtain ⟨st'', hst'', hle⟩ := h.supply hst hflag
      rw [FlatMap.find?_insert_self] at hst''
      cases hst''
      dsimp only at hle
      omega
    · intro h
      have hflag := h _ _ hacct hst
      refine ⟨fun {k sk} hk hunburnable => ⟨sk, ?_, le_refl _⟩, fun hx _ _ => ?_,
        fun hx hx' hne => ?_⟩
      · refine (s.dreamStats.find?_insert_of_ne _ ?_).trans hk
        rintro rfl
        rw [hst] at hk
        cases hk
        exact absurd (hflag.symm.trans hunburnable) nofun
      · exact fun hnone => absurd (hnone.symm.trans hx) nofun
      · rw [hx] at hx'
        cases hx'
        exact absurd rfl hne
  | transfernft _ _ _ hmove =>
    obtain ⟨order, horder, hrelocated⟩ := changeOwner_relocated hmove
    constructor
    · intro h y hy x hr token st hx hst hflag
      by_contra hne
      obtain ⟨token', hx', -, hmoved⟩ := hrelocated.moved x ((horder x).mpr ⟨y, hy, hr⟩)
      rw [hx] at hx'
      exact absurd (h.moved hx hmoved (Ne.symm hne) hst hflag) nofun
    · intro h
      refine ⟨fun hst _ => ⟨_, hst, le_refl _⟩, fun hx _ _ => ?_,
        fun {x token token' st} hx hx' hne hst hflag => ?_⟩
      · exact hrelocated.exists fun hnone => absurd (hnone.symm.trans hx) nofun
      · have hmem := hrelocated.mem_of_owner hx hx' hne
        obtain ⟨y, hy, hr⟩ := (horder x).mp hmem
        have howner := h y hy x hr token st hx hst hflag
        obtain ⟨_, -, -, hmoved⟩ := hrelocated.moved x hmem
        rw [hx'] at hmoved
        cases hmoved
        exact absurd howner.symm hne
  | burnnft hburn =>
    have hspares := burnTokens_spare hburn
    refine iff_of_true ⟨fun hst hflag => ⟨_, hspares.stats hst hflag, le_refl _⟩,
      fun hx hst hflag => ?_, fun hx hx' hne => ?_⟩ trivial
    · rw [hspares.tokens hx hst hflag]
      exact nofun
    · exact absurd (hsame rfl hx hx') hne
  | create _ hnew =>
    refine iff_of_true (hof (fun k st hst => ⟨st, ?_, le_refl _⟩) (hfamily rfl).2.2 nofun) trivial
    exact (s.dreamStats.find?_insert_absent ((s.dreamStats.find?_eq_none_iff _).mp hnew)).mpr
      (.inr hst)
  | issue hst hpos _ _ _ _ _ hcurrent =>
    obtain ⟨-, rfl⟩ := Asset.add_ok hcurrent
    refine iff_of_true (hof (Risen.insert hst ?_) (hfamily rfl).2.2 nofun) trivial
    dsimp only
    omega
  | freezemaxsup hst =>
    exact iff_of_true (hof (Risen.insert hst (le_refl _)) (hfamily rfl).2.2 nofun) trivial
  | linknfts | unlinknfts =>
    refine iff_of_true (hof (Risen.refl _) (fun x hx => ?_) nofun) trivial
    rw [FlatMap.find?_insert]
    split
    · exact nofun
    · exact hx
  | nftPurchase | licencePurchase | transferIgnored =>
    exact iff_of_true (hof (Risen.refl _) (hfamily rfl).2.2 fun _ => rfl) trivial
  | _ => exact iff_of_true (hof (Risen.refl _) (hfamily rfl).2.2 nofun) trivial

/-- A run respects the flags exactly when its calls of `burnft` and `transfernft` do what is not
checked there. -/
theorem flags_respected_iff {l : List (Transition Contract Call)} (h : ContractRun self l s) :
    (∀ t ∈ l, RespectsFlags t) ↔ ∀ t ∈ l, SparesFlags t :=
  forall₂_congr fun t ht => respectsFlags_iff (apply_effect (h.step_of_mem t ht))

/-- A token of a type with neither flag is sold. -/
theorem flags_respected_iff_sold : ∃ l s, ContractRun 1 l s ∧ (∀ t ∈ l, RespectsFlags t) ∧
    s.ownedBy 2 (stringToName "aaaaaaaaaaaa") := by
  refine exists_run_of (deployment false false ++
      [.signedBy 3 0 (.nftokensale 3 [2] oneDrmi 60),
        .signedBy 6 0 (.purchase 6 1 oneDrmi "nft,aaaaaaaaaaaa,2".toList)])
    (P := fun l _ => ∀ t ∈ l, (match t.action.action with
      | .burnft .. | .transfernft .. => false
      | _ => true) = true)
    (fun hrun hother => (flags_respected_iff hrun).mpr fun t ht => ?_) (by decide +kernel)
  replace hother := hother t ht
  unfold SparesFlags
  split
  · rename_i haction
    rw [haction] at hother
    cases hother
  · rename_i haction
    rw [haction] at hother
    cases hother
  · trivial

/-- The supply of a type that is not burnable falls, and a token that is not transferable goes
along with its parent, although both could not be burned or sent directly. -/
theorem flags_bypassed :
    (∃ l s s', ContractRun 1 l s ∧ Step 1 s (.signedBy 3 0 (.burnft 3 0 ⟨1, dreamSymbol⟩)) s' ∧
      ∃ st st', s.dreamStats.find? (toLex (10, 11)) = some st ∧ st.burnable = false ∧
        s'.dreamStats.find? (toLex (10, 11)) = some st' ∧
        st'.currentSupply.amount < st.currentSupply.amount) ∧
    ∃ l s s', ContractRun 1 l s ∧ Step 1 s (.signedBy 3 0 (.transfernft 3 4 [3])) s' ∧
      ∃ st, s.dreamStats.find? (toLex (10, 11)) = some st ∧ st.transferable = false ∧
        s.ownedBy 0 3 ∧ s'.ownedBy 0 4 ∧
        ∃ token, s.dreams.find? 0 = some token ∧ token.type = toLex (10, 11) := by
  constructor
  · obtain ⟨l, s, s', hrun, hstep, st, hst, hflag, st', hst'⟩ := exists_step 1
      (deployment false true) (.signedBy 3 0 (.burnft 3 0 ⟨1, dreamSymbol⟩))
      (fun s s' => ∃ st, s.dreamStats.find? (toLex (10, 11)) = some st ∧ st.burnable = false ∧
        ∃ st', s'.dreamStats.find? (toLex (10, 11)) = some st' ∧
          st'.currentSupply.amount < st.currentSupply.amount)
      (by decide +kernel)
    exact ⟨l, s, s', hrun, hstep, st, st', hst, hflag, hst'⟩
  · exact exists_step 1 (deployment true false ++
        [.signedBy 2 0 (.create 2 2 10 12 false true true true 0 "" 0 ⟨5, dreamSymbol⟩),
          .signedBy 2 0 (.issue 3 10 12 ⟨1, dreamSymbol⟩ "" []),
          .signedBy 3 0 (.linknfts [0] 3 3)]) _ _
      (by decide +kernel)

end DreamChain.Dreamoji
