import DreamChain.Dreamoji.Links
import DreamChain.Dreamoji.Listings

/-!
The life of a licence. `license` creates a row for every token it names and for all that lies
below, without asking whose tokens these are; a purchase does so for a token on offer.

All rows are written to the scope of the contract itself, while `revoke` looks into the scope of
the account that calls it. A licence can therefore be withdrawn by its owner exactly when the
owner is the contract, and the token has to be locked still.
-/

namespace DreamChain.Dreamoji
open Library Library.Worklist Library.Descent

variable {self : AccountName} {ctx : Context} {s s' : Contract} {a : ContractAction} {l : List Nat}

section Creation

variable {row : Nat → Licence} {P Q : Nat → Prop} {t : Contract}

/-- A licence is created for each of the tokens, and old ones stay. -/
structure Licensed (scope : AccountName) (row : Nat → Licence) (P : Nat → Prop)
    (s s' : Contract) : Prop where
  dreams : s'.dreams = s.dreams
  kept : ∀ {key licence}, s.licences.find? key = some licence →
    s'.licences.find? key = some licence
  created : ∀ {key licence}, s.licences.find? key = none → s'.licences.find? key = some licence →
    (ofLex key).1 = scope ∧ ∃ x, P x ∧ licence = row x
  named : ∀ {x}, P x → ∃ key, s.licences.find? key = none ∧ s'.licences.find? key = some (row x)

theorem Licensed.refl (s : Contract) (hP : ∀ x, ¬ P x) : Licensed self row P s s where
  dreams := rfl
  kept h := h
  created hnone h := absurd (hnone.symm.trans h) nofun
  named hx := absurd hx (hP _)

theorem Licensed.trans (h : Licensed self row P s t) (h' : Licensed self row Q t s') :
    Licensed self row (fun x => P x ∨ Q x) s s' where
  dreams := h'.dreams.trans h.dreams
  kept hkey := h'.kept (h.kept hkey)
  created := by
    intro key licence hnone hkey
    cases ht : t.licences.find? key with
    | none =>
      obtain ⟨hscope, x, hx, rfl⟩ := h'.created ht hkey
      exact ⟨hscope, x, .inr hx, rfl⟩
    | some licence' =>
      obtain rfl := Option.some.inj ((h'.kept ht).symm.trans hkey)
      obtain ⟨hscope, x, hx, rfl⟩ := h.created hnone ht
      exact ⟨hscope, x, .inl hx, rfl⟩
  named := by
    intro x hx
    cases hx with
    | inl hx =>
      obtain ⟨key, hnone, hkey⟩ := h.named hx
      exact ⟨key, hnone, h'.kept hkey⟩
    | inr hx =>
      obtain ⟨key, hnone, hkey⟩ := h'.named hx
      refine ⟨key, ?_, hkey⟩
      cases hs : s.licences.find? key with
      | none => rfl
      | some licence => exact absurd (hnone.symm.trans (h.kept hs)) nofun

theorem Licensed.congr (h : Licensed self row P s s') (hP : ∀ x, P x ↔ Q x) :
    Licensed self row Q s s' := by
  obtain rfl : P = Q := funext fun x => propext (hP x)
  exact h

theorem Licensed.single (y : Nat) {id : Nat} (hnew : s.licences.find? (toLex (self, id)) = none)
    (hdreams : s'.dreams = s.dreams)
    (hlicences : s'.licences = s.licences.insert (toLex (self, id)) (row y)) :
    Licensed self row (fun x => x = y) s s' := by
  refine ⟨hdreams, fun {key licence} hkey => ?_, fun {key licence} hnone hkey => ?_,
    fun {x} hx => ⟨_, hnew, ?_⟩⟩ <;> rw [hlicences] at *
  · refine (s.licences.find?_insert_of_ne _ ?_).trans hkey
    rintro rfl
    exact absurd (hnew.symm.trans hkey) nofun
  · rw [FlatMap.find?_insert] at hkey
    split at hkey
    · rename_i hthis
      subst hthis
      exact ⟨rfl, y, rfl, (Option.some.inj hkey).symm⟩
    · exact absurd (hnone.symm.trans hkey) nofun
  · exact hx ▸ s.licences.find?_insert_self _ _

theorem Licensed.foldlM {f : Contract → Nat → Guarded Contract} {R : Nat → Nat → Prop}
    (hf : ∀ y ∈ l, ∀ t t' : Contract, t.dreams = s.dreams → f t y = .ok t' →
      Licensed self row (R y) t t')
    (h : l.foldlM f s = .ok s') : Licensed self row (fun x => ∃ y ∈ l, R y x) s s' := by
  induction l generalizing s with
  | nil =>
    cases h
    refine Licensed.refl _ fun x hx => ?_
    obtain ⟨y, hy, -⟩ := hx
    cases hy
  | cons y rest ih =>
    obtain ⟨t, hy, hrest⟩ := foldlM_cons_ok.mp h
    obtain ⟨hfirst, hlater⟩ := List.forall_mem_cons.mp hf
    have ht := hfirst s t rfl hy
    have hloop := ih (fun z hz t₁ t₂ hdreams => hlater z hz t₁ t₂ (hdreams.trans ht.dreams)) hrest
    exact (ht.trans hloop).congr fun x => by simp

variable {owner : AccountName} {toAccounts : List AccountName} {period : Nat} {relicense : Bool}

theorem createLicence_licensed {depth y : Nat}
    (h : createLicence self ctx owner toAccounts period relicense depth s y = .ok s') :
    Licensed self (fun x => ⟨x, owner, toAccounts, ctx.after period, relicense⟩)
      (Reach s.children y) s s' := by
  induction depth generalizing s s' y with
  | zero => cases h
  | succ depth ih =>
    obtain ⟨config, token, -, htoken, hnew, hloop⟩ := createLicence_ok h
    have hbelow := Licensed.foldlM (R := fun c => Reach s.children c) (fun c _ t t' ht hc => by
      have hsame : t.children = s.children := children_congr ht
      exact hsame ▸ ih hc) hloop
    refine (Licensed.trans (Licensed.single y hnew ?_ ?_) hbelow).congr fun x => ?_
    · rfl
    · rfl
    rw [← children_of_find? htoken]
    exact reach_iff.symm

theorem licenseTokens_licensed
    (h : l.foldlM (licenseToken self ctx owner toAccounts period relicense) s = .ok s') :
    Licensed self (fun x => ⟨x, owner, toAccounts, ctx.after period, relicense⟩)
      (fun x => ∃ y ∈ l, Reach s.children y x) s s' := by
  refine Licensed.foldlM (fun y _ t t' ht hy => ?_) h
  obtain ⟨_, -, hy⟩ := bind_eq_ok.mp hy
  rw [← children_congr ht]
  exact createLicence_licensed hy

end Creation

variable {licence : Licence} {key : AccountName ×ₗ Nat}

section Revocation

variable {owner : AccountName} {fromAccounts : List AccountName} {id : Nat}

theorem mem_remainingLicensees {licensedTo account} :
    account ∈ remainingLicensees fromAccounts licensedTo ↔
      account ∈ licensedTo ∧ account ∉ fromAccounts := by
  unfold remainingLicensees
  induction fromAccounts generalizing licensedTo with
  | nil => simp
  | cons a rest ih =>
    rw [List.foldl_cons, ih]
    simp [and_assoc]

theorem remainingLicensees_self (licensedTo : List AccountName) :
    remainingLicensees licensedTo licensedTo = [] :=
  List.eq_nil_iff_forall_not_mem.mpr fun _ h =>
    (mem_remainingLicensees.mp h).2 (mem_remainingLicensees.mp h).1

theorem revokeLicence_all_iff (hrow : s.licences.find? (toLex (owner, id)) = some licence) :
    (∃ s', revokeLicence ctx owner licence.licensedTo s id = .ok s' ∧
        s'.licences.find? (toLex (owner, id)) = none) ↔
      owner = licence.owner ∧ licence.expiration < ctx.now ∧ s.locked licence.nftId := by
  simp only [revokeLicence, bind_eq_ok, get_eq_ok, check_eq_ok, exists_const, hrow,
    Option.some.injEq, exists_eq_left', le_refl, true_and, remainingLicensees_self,
    List.isEmpty_nil, if_true]
  constructor
  · rintro ⟨s', ⟨howner, hexpired, row, hlocked, -⟩, -⟩
    exact ⟨howner, hexpired, fun hnone => Option.some_ne_none row (hlocked.symm.trans hnone)⟩
  · rintro ⟨howner, hexpired, hlocked⟩
    obtain ⟨row, hlocked⟩ := Option.ne_none_iff_exists'.mp hlocked
    exact ⟨_, ⟨howner, hexpired, row, hlocked, rfl⟩, by rw [FlatMap.find?_erase, if_pos rfl]⟩

def Withdraws (s s' : Contract) : Prop :=
  ∀ key, s.licences.find? key = none → s'.licences.find? key = none

theorem withdraws_insert {licence' : Licence} (hlicence : s.licences.find? key = some licence)
    (hlicences : s'.licences = s.licences.insert key licence') : Withdraws s s' := by
  intro k hk
  rw [hlicences]
  refine (s.licences.find?_insert_of_ne _ ?_).trans hk
  rintro rfl
  exact absurd (hk.symm.trans hlicence) nofun

theorem revokeLicence_withdraws (h : revokeLicence ctx owner fromAccounts s id = .ok s') :
    Withdraws s s' := by
  simp only [revokeLicence, bind_eq_ok, get_eq_ok] at h
  obtain ⟨licence, hlicence, _, -, _, -, _, -, h⟩ := h
  intro key hkey
  split at h
  · obtain ⟨_, -, h⟩ := bind_eq_ok.mp h
    cases h
    rw [FlatMap.find?_erase, hkey, ite_self]
  · cases h
    exact withdraws_insert hlicence rfl key hkey

theorem revokeLicences_withdraw
    (h : l.foldlM (revokeLicence ctx owner fromAccounts) s = .ok s') : Withdraws s s' :=
  foldlM_ok_induction (I := Withdraws s)
    (fun _ _ _ _ ht hx key hkey => revokeLicence_withdraws hx key (ht key hkey))
    (fun _ hkey => hkey) h

end Revocation

def InScope (self : AccountName) (s : Contract) : Prop :=
  ∀ key licence, s.licences.find? key = some licence → (ofLex key).1 = self

/-- A new licence was created for its token by the owner of the token, or sold by an open
licence sale of the token or of one above it. -/
def CreatedByOwner (t : Transition Contract Call) : Prop :=
  ∀ key licence, t.before.licences.find? key = none → t.after.licences.find? key = some licence →
    match t.action.action with
    | .license .. => ∃ owner ∈ t.action.context.authorizers, t.before.ownedBy licence.nftId owner
    | .purchase _ _ _ memo =>
      ∃ receiver assetId sale, Orders memo licenceSaleTypes receiver assetId ∧
        t.before.sales.find? assetId = some sale ∧ t.action.context.now < sale.endOfSale ∧
        sale.lcncLimit ≠ 0 ∧ Reach t.before.children assetId licence.nftId
    | _ => False

/-- The tokens named in `license`, and those below them, belong to accounts that sign. -/
def LicensesOwn (t : Transition Contract Call) : Prop :=
  match t.action.action with
  | .license _ _ nftIds _ _ => ∀ y ∈ nftIds, ∀ x, Reach t.before.children y x →
      ∃ owner ∈ t.action.context.authorizers, t.before.ownedBy x owner
  | _ => True

/-- After its expiration a licence can be withdrawn by its owner from all holders. -/
def Withdrawable (s : Contract) (key : AccountName ×ₗ Nat) (licence : Licence) : Prop :=
  ∀ ctx : Context, licence.owner ∈ ctx.authorizers → licence.expiration < ctx.now →
    ∃ s', revoke ctx licence.owner licence.licensedTo [(ofLex key).2] s = .ok s' ∧
      s'.licences.find? key = none

theorem createdByOwner_iff {c : Call} (heff : Effect self c.context c.action s s') :
    CreatedByOwner ⟨s, c, s'⟩ ↔ LicensesOwn ⟨s, c, s'⟩ := by
  have hnone : Withdraws s s' → CreatedByOwner ⟨s, c, s'⟩ := by
    intro hold key licence hkey hkey'
    exact absurd ((hold key hkey).symm.trans hkey') nofun
  obtain ⟨ctx, a⟩ := c
  cases heff with
  | license _ hlicense =>
    have hlicensed := licenseTokens_licensed hlicense
    constructor
    · intro h y hy x hr
      obtain ⟨key, hold, hnew⟩ := hlicensed.named ⟨y, hy, hr⟩
      exact h key _ hold hnew
    · intro h key licence hold hnew
      obtain ⟨-, x, ⟨y, hy, hr⟩, rfl⟩ := hlicensed.created hold hnew
      exact h y hy x hr
  | licencePurchase horder hsale hopen hlicense =>
    have hlicensed := createLicence_licensed hlicense
    refine iff_of_true (fun key licence hold hnew => ?_) trivial
    obtain ⟨-, x, hr, rfl⟩ := hlicensed.created hold hnew
    exact ⟨_, _, _, horder, hsale, hopen.1, hopen.2, hr⟩
  | extend hlicence => exact iff_of_true (hnone (withdraws_insert hlicence rfl)) trivial
  | revoke hrevoke => exact iff_of_true (hnone (revokeLicences_withdraw hrevoke)) trivial
  | _ => exact iff_of_true (hnone fun _ hkey => hkey) trivial

theorem Licensed.inScope {row : Nat → Licence} {P : Nat → Prop}
    (hlicensed : Licensed self row P s s') (h : InScope self s) : InScope self s' := by
  intro key licence hkey
  cases hold : s.licences.find? key with
  | none => exact (hlicensed.created hold hkey).1
  | some licence' => exact h key licence' hold

theorem InScope.withdraws (h : InScope self s) (hold : Withdraws s s') : InScope self s' := by
  intro key licence hkey
  cases hs : s.licences.find? key with
  | none => exact absurd ((hold key hs).symm.trans hkey) nofun
  | some licence' => exact h key licence' hs

theorem InScope.effect (h : InScope self s) (heff : Effect self ctx a s s') : InScope self s' := by
  cases heff with
  | license _ hlicense => exact (licenseTokens_licensed hlicense).inScope h
  | licencePurchase _ _ _ hlicense => exact (createLicence_licensed hlicense).inScope h
  | extend hlicence => exact h.withdraws (withdraws_insert hlicence rfl)
  | revoke hrevoke => exact h.withdraws (revokeLicences_withdraw hrevoke)
  | _ => exact h

theorem withdrawable_iff (h : InScope self s) (hkey : s.licences.find? key = some licence) :
    Withdrawable s key licence ↔ licence.owner = self ∧ s.locked licence.nftId := by
  have hsame : licence.owner = self → toLex (licence.owner, (ofLex key).2) = key := by
    intro howner
    rw [howner, ← h key licence hkey]
    rfl
  constructor
  · intro hw
    obtain ⟨s', hrevoke, hgone⟩ := hw ⟨[licence.owner], fun _ => true, licence.expiration + 1, 0, 0⟩
      (List.mem_singleton_self _) (Nat.lt_succ_self _)
    simp only [revoke, bind_eq_ok, foldlM_cons_ok] at hrevoke
    obtain ⟨_, -, _, -, _, -, s₁, hone, hnil⟩ := hrevoke
    cases hnil
    -- the row is looked up in the scope of its owner
    obtain ⟨licence', hlicence', -⟩ := bind_eq_ok.mp hone
    have howner := h _ licence' (get_eq_ok.mp hlicence')
    rw [← hsame howner] at hkey hgone
    exact ⟨howner, ((revokeLicence_all_iff hkey).mp ⟨_, hone, hgone⟩).2.2⟩
  · rintro ⟨howner, hlocked⟩ ctx hauth hexpired
    rw [← hsame howner] at hkey
    obtain ⟨s', hone, hgone⟩ := (revokeLicence_all_iff hkey).mpr ⟨rfl, hexpired, hlocked⟩
    refine ⟨s', ?_, hsame howner ▸ hgone⟩
    simp only [revoke, bind_eq_ok, foldlM_cons_ok, requireAuth_eq_ok, check_eq_ok, exists_const]
    exact ⟨hauth, by simp, by simp, s', hone, rfl⟩

/-- Licences are created by the owners of their tokens exactly when `license` is called for own
tokens, and the owner of a licence can withdraw it exactly when that is the contract and the
token has kept its lock. -/
theorem licence_life_iff {l : List (Transition Contract Call)} (h : ContractRun self l s) :
    (∀ t ∈ l, CreatedByOwner t ↔ LicensesOwn t) ∧
    ∀ key licence, s.licences.find? key = some licence →
      (Withdrawable s key licence ↔ licence.owner = self ∧ s.locked licence.nftId) := by
  have hscope : InScope self s := (h.guarded (fun _ _ hkey => absurd hkey nofun)
    (fun _ hstep _ ht => ht.effect (apply_effect hstep)) fun t _ => trivial).1
  exact ⟨fun t ht => createdByOwner_iff (apply_effect (h.step_of_mem t ht)),
    fun key licence hkey => withdrawable_iff hscope hkey⟩

/-- The contract licenses a token of its own. -/
theorem licence_life_iff_own : ∃ l s licence, ContractRun 1 l s ∧
    s.licences.find? (toLex (1, 0)) = some licence ∧ licence.licensedTo = [5] ∧
    Withdrawable s (toLex (1, 0)) licence := by
  obtain ⟨l, s, hrun, licence, hlicence, hto, hown⟩ := exists_run 1 (deployment true true ++
      [.signedBy 3 0 (.transfernft 3 1 [0]), .signedBy 1 0 (.license 1 [5] [0] 60 false)])
    (fun _ s => ∃ licence, s.licences.find? (toLex (1, 0)) = some licence ∧
      licence.licensedTo = [5] ∧ licence.owner = 1 ∧ s.locked licence.nftId)
    (by decide +kernel)
  exact ⟨l, s, licence, hrun, hlicence, hto, ((licence_life_iff hrun).2 _ _ hlicence).mpr hown⟩

/-- The account 4 licenses a token of the account 3; and the account 3, having licensed its own
token, cannot revoke the expired licence. -/
theorem licence_foreign_and_stuck :
    (∃ l s s', ContractRun 1 l s ∧ Step 1 s (.signedBy 4 0 (.license 4 [5] [0] 60 false)) s' ∧
      s.ownedBy 0 3 ∧ s.licences.find? (toLex (1, 0)) = none ∧
      ∃ licence, s'.licences.find? (toLex (1, 0)) = some licence ∧ licence.nftId = 0) ∧
    ∃ l s licence, ContractRun 1 l s ∧ s.licences.find? (toLex (1, 0)) = some licence ∧
      licence.owner = 3 ∧ licence.licensedTo = [5] ∧ licence.expiration < 100 ∧
      ∀ s', ¬ Step 1 s (.signedBy 3 100 (.revoke 3 [5] [0])) s' := by
  constructor
  · exact exists_step 1 (deployment true true) _ _ (by decide +kernel)
  · obtain ⟨l, s, hrun, licence, hlicence, howner, hto, hexpired, hfails⟩ := exists_run 1
      (deployment true true ++ [.signedBy 3 0 (.license 3 [5] [0] 60 false)])
      (fun _ s => ∃ licence, s.licences.find? (toLex (1, 0)) = some licence ∧ licence.owner = 3 ∧
        licence.licensedTo = [5] ∧ licence.expiration < 100 ∧ ¬ ∃ s', apply 1
          (Call.signedBy 3 100 (.revoke 3 [5] [0])).context (.revoke 3 [5] [0]) s = .ok s')
      (by decide +kernel)
    exact ⟨l, s, licence, hrun, hlicence, howner, hto, hexpired, fun s' hstep => hfails ⟨s', hstep⟩⟩

end DreamChain.Dreamoji
