import DreamChain.Dreamoji.Actions
import DreamChain.Library.Descent

/-!
The loops of the contract that treat token after token: minting, burning, licensing, revoking
and the change of owner. Each one is described by the tables it changes and by what one round
does.

A change of owner moves a token after its children. The order is that of a recursive descent
along the children vectors, which no move changes, so the whole recursion is one loop over the
tokens in that order.
-/

namespace DreamChain.Dreamoji
open Library Library.Worklist Library.Descent List

variable {self : AccountName} {ctx : Context} {s s' : Contract} {l : List Nat}

section Minting

variable {toAccount : AccountName} {category tokenName : Nat} {issuedSupply oneToken : Asset}
  {relativeUri : String}

theorem mint_ok (h : mint toAccount category tokenName issuedSupply relativeUri s = .ok s') :
    ∃ config, s.tokenConfigs = some config ∧ s.dreams.find? config.nextNftId = none ∧
      s' = { s with
        tokenConfigs := some { config with nextNftId := u64 (config.nextNftId + 1) }
        dreams := s.dreams.insert config.nextNftId
          ⟨toU64 (issuedSupply.amount + 1), toAccount, category, tokenName, relativeUri, []⟩
        sent := s.sent ++ [.logcall config.nextNftId] } := by
  simp only [mint, nextNftId, bind_eq_ok, configOf_eq_ok] at h
  obtain ⟨_, ⟨config, hconfig, hnext⟩, h⟩ := h
  cases hnext
  simp only [emplace_eq_ok] at h
  obtain ⟨_, ⟨hnew, rfl⟩, h⟩ := h
  exact ⟨config, hconfig, hnew, (Except.ok.inj h).symm⟩

theorem mintLoop_induction {I : Int → Contract → Prop}
    (hstep : ∀ issuedSupply s s', I issuedSupply.amount s →
      mint toAccount category tokenName issuedSupply relativeUri s = .ok s' →
      I (issuedSupply.amount + 1) s')
    (hone : oneToken.amount = 1) {n : Nat} (hs : I issuedSupply.amount s)
    (h : mintLoop toAccount category tokenName oneToken relativeUri n issuedSupply s = .ok s') :
    I (issuedSupply.amount + n) s' := by
  induction n generalizing issuedSupply s with
  | zero =>
    cases h
    simpa using hs
  | succ n ih =>
    simp only [mintLoop, bind_eq_ok] at h
    obtain ⟨s₁, hmint, issued₁, hissued, h⟩ := h
    obtain ⟨-, rfl⟩ := Asset.add_ok hissued
    have hlast := ih (hone ▸ hstep _ _ _ hs hmint) h
    have hcount : issuedSupply.amount + ((n + 1 : Nat) : Int) =
        issuedSupply.amount + oneToken.amount + n := by omega
    rw [hcount]
    exact hlast

def Grown (P : Dream → Prop) (dreams dreams' : Dreams) : Prop :=
  ∀ x, dreams'.find? x = dreams.find? x ∨
    dreams.find? x = none ∧ ∃ token, dreams'.find? x = some token ∧ P token

theorem Grown.insert {P : Dream → Prop} {dreams dreams' : Dreams} {x : Nat} {token : Dream}
    (h : Grown P dreams dreams') (hx : dreams'.find? x = none) (htoken : P token) :
    Grown P dreams (dreams'.insert x token) := by
  intro y
  rw [FlatMap.find?_insert]
  by_cases hxy : x = y
  · subst hxy
    rw [if_pos rfl]
    refine .inr ⟨?_, token, rfl, htoken⟩
    cases h x with
    | inl heq => exact heq.symm.trans hx
    | inr hnew => exact hnew.1
  · rw [if_neg hxy]
    exact h y

theorem mintTokens_frame {quantity dreamStats}
    (h : mintTokens toAccount category tokenName quantity relativeUri dreamStats s = .ok s') :
    ∃ config dreams sent,
      s' = { s with tokenConfigs := config, dreams, sent } ∧
      config.map TokenConfigs.categoryNameId = s.tokenConfigs.map TokenConfigs.categoryNameId ∧
      Grown (fun token => token.children = [] ∧ token.owner = toAccount ∧
        token.type = toLex (category, tokenName)) s.dreams dreams := by
  unfold mintTokens at h
  split at h
  · cases h
    exact ⟨_, _, _, rfl, rfl, fun x => .inl rfl⟩
  · simp only [bind_eq_ok] at h
    obtain ⟨_, -, one, hone, h⟩ := h
    refine mintLoop_induction (I := fun _ t => ∃ config dreams sent,
      t = { s with tokenConfigs := config, dreams, sent } ∧
      config.map TokenConfigs.categoryNameId = s.tokenConfigs.map TokenConfigs.categoryNameId ∧
      Grown (fun token => token.children = [] ∧ token.owner = toAccount ∧
        token.type = toLex (category, tokenName)) s.dreams dreams) ?_
      (by rw [Asset.make_ok hone]) ⟨_, _, _, rfl, rfl, fun x => .inl rfl⟩ h
    rintro issued s₁ s₂ ⟨config, dreams, sent, rfl, hid, hgrown⟩ hmint
    obtain ⟨config', hconfig, hnew, rfl⟩ := mint_ok hmint
    have hconfig : config = some config' := hconfig
    refine ⟨_, _, _, rfl, ?_, hgrown.insert hnew ⟨rfl, rfl, rfl⟩⟩
    rw [← hid, hconfig]
    rfl

end Minting

section Burning

variable {owner : AccountName} {x : Nat}

theorem burnToken_ok (h : burnToken owner s x = .ok s') :
    ∃ token dreamStats accounts currentSupply issuedSupply,
      s.dreams.find? x = some token ∧ token.owner = owner ∧
      s.dreamStats.find? token.type = some dreamStats ∧ dreamStats.burnable = true ∧
      dreamStats.fungible = false ∧ ¬ s.locked x ∧
      dreamStats.currentSupply.sub ⟨1, dreamStats.maxSupply.symbol⟩ = .ok currentSupply ∧
      dreamStats.issuedSupply.sub ⟨1, dreamStats.maxSupply.symbol⟩ = .ok issuedSupply ∧
      subBalance owner dreamStats.categoryNameId ⟨1, dreamStats.maxSupply.symbol⟩ s.accounts =
        .ok accounts ∧
      s' = { s with
        dreamStats := if currentSupply.amount = 0 then s.dreamStats.erase token.type
          else s.dreamStats.insert token.type { dreamStats with currentSupply, issuedSupply }
        accounts
        dreams := s.dreams.erase x } := by
  simp only [burnToken, bind_eq_ok, get_eq_ok, check_eq_ok, exists_const] at h
  obtain ⟨token, htoken, howner, stats, hstats, hburnable, hfungible, hfree, quantity, hquantity,
    current, hcurrent, issued, hissued, burnedOut, hburned, gone, hgone, accounts, haccounts,
    h⟩ := h
  obtain rfl := Asset.make_ok hquantity
  obtain rfl := Asset.make_ok hburned
  obtain rfl := Asset.equals_ok hgone
  refine ⟨token, stats, accounts, current, issued, htoken, howner, hstats, hburnable, hfungible,
    fun hlocked => hlocked hfree, hcurrent, hissued, haccounts, ?_⟩
  rw [← Except.ok.inj h]
  by_cases hzero : current.amount = 0 <;> simp [hzero]

theorem burnTokens_frame (h : l.foldlM (burnToken owner) s = .ok s') : ∃ dreamStats accounts dreams,
      s' = { s with dreamStats, accounts, dreams } ∧
      (∀ y, dreams.find? y = if y ∈ l then none else s.dreams.find? y) ∧
      ∀ y ∈ l, s.dreams.find? y ≠ none ∧ ¬ s.locked y := by
  induction l generalizing s with
  | nil =>
    cases h
    exact ⟨_, _, _, rfl, fun y => rfl, fun y hy => absurd hy not_mem_nil⟩
  | cons a rest ih =>
    obtain ⟨s₁, ha, hrest⟩ := foldlM_cons_ok.mp h
    obtain ⟨token, _, _, _, _, htoken, _, _, _, _, hfree, _, _, _, rfl⟩ := burnToken_ok ha
    obtain ⟨stats, accounts, dreams, rfl, hdreams, hall⟩ := ih hrest
    refine ⟨stats, accounts, dreams, rfl, fun y => ?_, forall_mem_cons.mpr ⟨⟨?_, hfree⟩,
      fun y hy => ⟨fun hnone => (hall y hy).1 ?_, (hall y hy).2⟩⟩⟩
    · rw [hdreams, FlatMap.find?_erase]
      by_cases hy : y ∈ rest <;> by_cases hay : a = y <;> simp [hay, eq_comm]
    · rw [htoken]
      exact nofun
    · rw [FlatMap.find?_erase, hnone, ite_self]

end Burning

section Licensing

theorem find?_lockToken (m : FlatMap Nat Unit) (x y : Nat) :
    (lockToken m x).find? y = if x = y then some () else m.find? y := by
  unfold lockToken
  by_cases hxy : x = y
  · subst hxy
    cases hx : m.find? x <;> simp [hx]
  · cases hx : m.find? x <;> simp [hxy, m.find?_insert_of_ne]

variable {owner : AccountName} {toAccounts fromAccounts : List AccountName} {period : Nat}
  {relicense : Bool} {id : Nat}

theorem nextLicenceId_ok (h : nextLicenceId s = .ok (id, s')) :
    ∃ config, s.tokenConfigs = some config ∧ id = config.nextLicenceId ∧
      s' = { s with
        tokenConfigs := some { config with nextLicenceId := u64 (config.nextLicenceId + 1) } } := by
  simp only [nextLicenceId, bind_eq_ok, configOf_eq_ok] at h
  obtain ⟨config, hconfig, h⟩ := h
  cases h
  exact ⟨config, hconfig, rfl, rfl⟩

def LicenceFrame (s s' : Contract) : Prop :=
  ∃ config licences lockedNfts sent,
    s' = { s with tokenConfigs := config, licences, lockedNfts, sent } ∧
    config.map TokenConfigs.categoryNameId = s.tokenConfigs.map TokenConfigs.categoryNameId ∧
    ∀ y, s.locked y → lockedNfts.find? y ≠ none

theorem LicenceFrame.refl (s : Contract) : LicenceFrame s s :=
  ⟨_, _, _, _, rfl, rfl, fun _ h => h⟩

theorem LicenceFrame.trans {t : Contract} (h : LicenceFrame s t) (h' : LicenceFrame t s') :
    LicenceFrame s s' := by
  obtain ⟨config, licences, locks, sent, rfl, hid, hlocks⟩ := h
  obtain ⟨config', licences', locks', sent', rfl, hid', hlocks'⟩ := h'
  exact ⟨_, _, _, _, rfl, hid'.trans hid, fun y hy => hlocks' y (hlocks y hy)⟩

theorem createLicence_ok {depth x : Nat}
    (h : createLicence self ctx owner toAccounts period relicense (depth + 1) s x = .ok s') :
    ∃ config token, s.tokenConfigs = some config ∧ s.dreams.find? x = some token ∧
      s.licences.find? (toLex (self, config.nextLicenceId)) = none ∧
      token.children.foldlM (createLicence self ctx owner toAccounts period relicense depth)
        { s with
          tokenConfigs := some { config with nextLicenceId := u64 (config.nextLicenceId + 1) }
          licences := s.licences.insert (toLex (self, config.nextLicenceId))
            ⟨x, owner, toAccounts, ctx.after period, relicense⟩
          lockedNfts := lockToken s.lockedNfts x
          sent := s.sent ++ [.loglicense config.nextLicenceId] } = .ok s' := by
  simp only [createLicence, bind_eq_ok] at h
  obtain ⟨⟨id, s₁⟩, hnext, h⟩ := h
  obtain ⟨config, hconfig, rfl, rfl⟩ := nextLicenceId_ok hnext
  simp only [emplace_eq_ok, get_eq_ok] at h
  obtain ⟨_, ⟨hnew, rfl⟩, token, htoken, h⟩ := h
  exact ⟨config, token, hconfig, htoken, hnew, h⟩

theorem createLicence_frame {depth x : Nat}
    (h : createLicence self ctx owner toAccounts period relicense depth s x = .ok s') :
    LicenceFrame s s' := by
  induction depth generalizing s s' x with
  | zero => cases h
  | succ depth ih =>
    obtain ⟨config, token, hconfig, htoken, hnew, hloop⟩ := createLicence_ok h
    refine foldlM_ok_induction (I := LicenceFrame s)
      (fun y _ t t' ht hy => ht.trans (ih hy)) ?_ hloop
    refine ⟨_, _, _, _, rfl, ?_, fun y hy => ?_⟩
    · rw [hconfig]
      rfl
    · rw [find?_lockToken]
      split
      · exact nofun
      · exact hy

theorem licenseTokens_frame
    (h : l.foldlM (licenseToken self ctx owner toAccounts period relicense) s = .ok s') :
    LicenceFrame s s' := by
  refine foldlM_ok_induction (I := LicenceFrame s) (fun y _ t t' ht hy => ht.trans ?_)
    (LicenceFrame.refl s) h
  obtain ⟨_, -, hy⟩ := bind_eq_ok.mp hy
  exact createLicence_frame hy

def RevokeFrame (s s' : Contract) : Prop :=
  ∃ licences lockedNfts, s' = { s with licences, lockedNfts } ∧
    ∀ y, lockedNfts.find? y ≠ none → s.locked y

theorem revokeLicence_frame (h : revokeLicence ctx owner fromAccounts s id = .ok s') :
    RevokeFrame s s' := by
  simp only [revokeLicence, bind_eq_ok] at h
  obtain ⟨licence, -, _, -, _, -, _, -, h⟩ := h
  split at h
  · obtain ⟨_, -, h⟩ := bind_eq_ok.mp h
    refine ⟨_, _, (Except.ok.inj h).symm, fun y hy => ?_⟩
    split at hy
    · exact hy
    · rw [FlatMap.find?_erase] at hy
      split at hy
      · exact absurd rfl hy
      · exact hy
  · exact ⟨_, _, (Except.ok.inj h).symm, fun y hy => hy⟩

theorem revokeLicences_frame (h : l.foldlM (revokeLicence ctx owner fromAccounts) s = .ok s') :
    RevokeFrame s s' := by
  refine foldlM_ok_induction (I := RevokeFrame s) (fun y _ t t' ht hy => ?_)
    ⟨_, _, rfl, fun y hy => hy⟩ h
  obtain ⟨licences, locks, rfl, hlocks⟩ := ht
  obtain ⟨licences', locks', rfl, hlocks'⟩ := revokeLicence_frame hy
  exact ⟨_, _, rfl, fun y hy => hlocks y (hlocks' y hy)⟩

end Licensing

section Moving

variable {fromAccount toAccount : AccountName} {istransfer : Bool} {depth x : Nat} {token : Dream}

/-- One move of the change of owner, of a token on its own. -/
abbrev relocate (fromAccount toAccount : AccountName) :=
  moveFamily (fun _ s => .ok s) fromAccount toAccount false

section

variable (h : moveToken fromAccount toAccount istransfer x token s = .ok s')
include h

theorem moveToken_ok : ∃ dreamStats accounts₁ accounts,
      s.dreamStats.find? token.type = some dreamStats ∧
      (istransfer = true → token.owner = fromAccount ∧ dreamStats.transferable = true) ∧
      subBalance fromAccount dreamStats.categoryNameId ⟨1, dreamStats.maxSupply.symbol⟩ s.accounts =
        .ok accounts₁ ∧
      addBalance toAccount token.category token.tokenName dreamStats.categoryNameId
        ⟨1, dreamStats.maxSupply.symbol⟩ accounts₁ = .ok accounts ∧
      s' = { s with dreams := s.dreams.insert x { token with owner := toAccount }, accounts } := by
  simp only [moveToken, bind_eq_ok, get_eq_ok, check_eq_ok, exists_const] at h
  obtain ⟨stats, hstats, howner, hflag, quantity, hquantity, accounts₁, hsub, accounts, hadd,
    h⟩ := h
  obtain rfl := Asset.make_ok hquantity
  exact ⟨stats, accounts₁, accounts, hstats, fun hb => ⟨howner hb, hflag hb⟩, hsub, hadd,
    (Except.ok.inj h).symm⟩

theorem moveToken_false : moveToken fromAccount toAccount false x token s = .ok s' := by
  simp only [moveToken, bind_eq_ok, check_eq_ok, exists_const] at h ⊢
  obtain ⟨stats, hstats, -, -, h⟩ := h
  exact ⟨stats, hstats, (absurd · Bool.false_ne_true), (absurd · Bool.false_ne_true), h⟩

end

theorem relocate_eq_ok : relocate fromAccount toAccount s x = .ok s' ↔
    ∃ token, s.dreams.find? x = some token ∧ ¬ s.locked x ∧
      moveToken fromAccount toAccount false x token s = .ok s' := by
  simp only [moveFamily, bind_eq_ok, get_eq_ok, check_eq_ok, exists_const,
    Except.ok.injEq, exists_eq_left', Contract.locked, not_not]

structure Relocated (toAccount : AccountName) (l : List Nat) (s s' : Contract) : Prop where
  frame : ∃ dreams accounts, s' = { s with dreams, accounts }
  moved : ∀ y ∈ l, ∃ token, s.dreams.find? y = some token ∧ ¬ s.locked y ∧
    s'.dreams.find? y = some { token with owner := toAccount }
  kept : ∀ y, y ∉ l → s'.dreams.find? y = s.dreams.find? y

theorem relocate_all (h : l.foldlM (relocate fromAccount toAccount) s = .ok s') :
    Relocated toAccount l s s' := by
  induction l generalizing s with
  | nil =>
    cases h
    exact ⟨⟨_, _, rfl⟩, fun y hy => absurd hy not_mem_nil, fun y _ => rfl⟩
  | cons a rest ih =>
    obtain ⟨s₁, ha, hrest⟩ := foldlM_cons_ok.mp h
    obtain ⟨token, htoken, hfree, hmove⟩ := relocate_eq_ok.mp ha
    obtain ⟨_, _, _, _, _, _, _, rfl⟩ := moveToken_ok hmove
    obtain ⟨⟨dreams, accounts, rfl⟩, hmoved, hkept⟩ := ih hrest
    have hfind := fun y => s.dreams.find?_insert a y { token with owner := toAccount }
    refine ⟨⟨_, _, rfl⟩, forall_mem_cons.mpr ⟨⟨token, htoken, hfree, ?_⟩, fun y hy => ?_⟩,
      fun y hy => ?_⟩
    · by_cases ha : a ∈ rest
      · obtain ⟨t, ht, -, ht'⟩ := hmoved a ha
        rw [hfind, if_pos rfl] at ht
        cases ht
        exact ht'
      · rw [hkept a ha, hfind, if_pos rfl]
    · obtain ⟨t, ht, hfree', ht'⟩ := hmoved y hy
      rw [hfind] at ht
      split at ht
      · rename_i hay
        subst hay
        cases ht
        exact ⟨token, htoken, hfree', ht'⟩
      · exact ⟨t, ht, hfree', ht'⟩
    · rw [mem_cons, not_or] at hy
      obtain ⟨hya, hy⟩ := hy
      rw [hkept y hy, hfind, if_neg (Ne.symm hya)]

theorem Relocated.children (h : Relocated toAccount l s s') : s'.children = s.children := by
  funext y
  unfold Contract.children
  by_cases hy : y ∈ l
  · obtain ⟨token, htoken, -, hmoved⟩ := h.moved y hy
    rw [htoken, hmoved]
  · rw [h.kept y hy]

theorem Relocated.locked (h : Relocated toAccount l s s') (y : Nat) : s'.locked y ↔ s.locked y := by
  obtain ⟨dreams, accounts, rfl⟩ := h.frame
  exact Iff.rfl

theorem foldlM_append_ok {f : Contract → Nat → Guarded Contract} {l₁ l₂ : List Nat}
    {s t s' : Contract} (h₁ : l₁.foldlM f s = .ok t) (h₂ : l₂.foldlM f t = .ok s') :
    (l₁ ++ l₂).foldlM f s = .ok s' := by
  rw [foldlM_append, h₁]
  exact h₂

theorem children_of_find? (h : s.dreams.find? x = some token) : s.children x = token.children := by
  rw [Contract.children, h]

theorem children_congr (h : s'.dreams = s.dreams) : s'.children = s.children := by
  funext x
  rw [Contract.children, Contract.children, h]

section

variable (h : changeOwner fromAccount toAccount depth istransfer l s = .ok s')
include h

/-- The whole recursion is one loop, over tokens that lie within the nesting it is granted. -/
theorem changeOwner_postorder : (∀ y ∈ l, Height s.children depth y) ∧
      (postorder s.children depth l).foldlM (relocate fromAccount toAccount) s = .ok s' := by
  induction depth generalizing istransfer l s s' with
  | zero => cases h
  | succ depth ih =>
    simp only [changeOwner, bind_eq_ok] at h
    obtain ⟨_, -, h⟩ := h
    induction l generalizing s with
    | nil => exact ⟨fun y hy => absurd hy not_mem_nil, h⟩
    | cons a rest ihl =>
      obtain ⟨s₂, ha, hrest⟩ := foldlM_cons_ok.mp h
      simp only [moveFamily, bind_eq_ok, get_eq_ok, check_eq_ok, exists_const] at ha
      obtain ⟨token, htoken, hfree, s₁, hchildren, hmove⟩ := ha
      have hnext := children_of_find? htoken
      have hfamily : (∀ y ∈ token.children, Height s.children depth y) ∧
          (postorder s.children depth token.children).foldlM
            (relocate fromAccount toAccount) s = .ok s₁ := by
        by_cases hempty : token.children.isEmpty
        · rw [if_pos hempty] at hchildren
          cases hchildren
          rw [isEmpty_iff.mp hempty]
          refine ⟨fun y hy => absurd hy not_mem_nil, ?_⟩
          cases depth <;> rfl
        · rw [if_neg hempty] at hchildren
          exact ih hchildren
      have hheight : Height s.children (depth + 1) a := fun y hy => hfamily.1 y (hnext ▸ hy)
      have hmoved := relocate_all hfamily.2
      -- the token lies outside its own family, so it is as it was read
      have houtside : a ∉ postorder s.children depth token.children := by
        rw [mem_postorder hfamily.1]
        rintro ⟨c, hc, hca⟩
        exact hheight.not_reach (hnext ▸ hc) hca
      have hone : [a].foldlM (relocate fromAccount toAccount) s₁ = .ok s₂ := by
        refine foldlM_cons_ok.mpr ⟨s₂, relocate_eq_ok.mpr ⟨token, ?_, ?_, ?_⟩, rfl⟩
        · exact (hmoved.kept a houtside).trans htoken
        · rw [hmoved.locked]
          exact fun hlocked => hlocked hfree
        · exact moveToken_false hmove
      have hfirst := foldlM_append_ok hfamily.2 hone
      have hsame := (relocate_all hfirst).children
      obtain ⟨hheights, hloop⟩ := ihl hrest
      rw [hsame] at hheights hloop
      refine ⟨forall_mem_cons.mpr ⟨hheight, hheights⟩, ?_⟩
      rw [postorder, flatMap_cons, hnext]
      exact foldlM_append_ok hfirst hloop

/-- The tokens a change of owner moves are those that lie below the ids it is given. -/
theorem changeOwner_relocated :
    ∃ order, (∀ y, y ∈ order ↔ ∃ x ∈ l, Reach s.children x y) ∧ Relocated toAccount order s s' := by
  obtain ⟨hheight, hloop⟩ := changeOwner_postorder h
  exact ⟨_, fun y => mem_postorder hheight, relocate_all hloop⟩

end

theorem changeOwner_cons {a : Nat}
    (h : changeOwner fromAccount toAccount depth istransfer (a :: l) s = .ok s') :
    ∃ s₁, changeOwner fromAccount toAccount depth istransfer [a] s = .ok s₁ ∧
      changeOwner fromAccount toAccount depth istransfer l s₁ = .ok s' := by
  cases depth with
  | zero => cases h
  | succ depth =>
    simp only [changeOwner, bind_eq_ok, check_eq_ok, exists_const, foldlM_cons_ok] at h ⊢
    obtain ⟨hsize, s₁, ha, hrest⟩ := h
    rw [length_cons] at hsize
    exact ⟨s₁, ⟨by simp, s₁, ha, rfl⟩, by omega, hrest⟩

theorem changeOwner_direct (hne : fromAccount ≠ toAccount)
    (h : changeOwner fromAccount toAccount depth true l s = .ok s') :
    ∀ y ∈ l, ∃ token dreamStats, s.dreams.find? y = some token ∧ token.owner = fromAccount ∧
      s.dreamStats.find? token.type = some dreamStats ∧ dreamStats.transferable = true := by
  induction l generalizing s with
  | nil => exact fun y hy => absurd hy not_mem_nil
  | cons a rest ih =>
    obtain ⟨s₂, ha, hrest⟩ := changeOwner_cons h
    refine forall_mem_cons.mpr ⟨?_, fun y hy => ?_⟩
    · cases depth with
      | zero => cases ha
      | succ depth =>
        simp only [changeOwner, bind_eq_ok, foldlM_cons_ok, moveFamily, get_eq_ok] at ha
        obtain ⟨_, -, _, ⟨token, htoken, _, -, s₁, hchildren, hmove⟩, -⟩ := ha
        have hframe : s₁.dreamStats = s.dreamStats := by
          split at hchildren
          · cases hchildren
            rfl
          · obtain ⟨order, -, hrelocated⟩ := changeOwner_relocated hchildren
            obtain ⟨dreams, accounts, rfl⟩ := hrelocated.frame
            rfl
        obtain ⟨stats, _, _, hstats, hchecks, -⟩ := moveToken_ok hmove
        exact ⟨token, stats, htoken, (hchecks rfl).1, hframe ▸ hstats, (hchecks rfl).2⟩
    · obtain ⟨token, stats, htoken, howner, hstats⟩ := ih hrest y hy
      obtain ⟨order, -, hrelocated⟩ := changeOwner_relocated ha
      have hkept : y ∉ order := fun hmem => by
        obtain ⟨_, -, -, hmoved⟩ := hrelocated.moved y hmem
        rw [hmoved] at htoken
        cases htoken
        exact hne howner.symm
      obtain ⟨dreams, accounts, rfl⟩ := hrelocated.frame
      exact ⟨token, stats, (hrelocated.kept y hkept).symm.trans htoken, howner, hstats⟩

theorem changeOwner_nodup (hne : fromAccount ≠ toAccount)
    (h : changeOwner fromAccount toAccount depth true l s = .ok s') : l.Nodup := by
  induction l generalizing s with
  | nil => exact nodup_nil
  | cons a rest ih =>
    obtain ⟨s₁, ha, hrest⟩ := changeOwner_cons h
    refine nodup_cons.mpr ⟨fun hmem => ?_, ih hrest⟩
    -- a token that was moved is not the sender's any more
    obtain ⟨token, _, htoken, howner, -⟩ := changeOwner_direct hne hrest a hmem
    obtain ⟨order, horder, hrelocated⟩ := changeOwner_relocated ha
    have hmoved : a ∈ order := (horder a).mpr ⟨a, mem_singleton_self a, reach_refl⟩
    obtain ⟨_, -, -, hnew⟩ := hrelocated.moved a hmoved
    rw [hnew] at htoken
    cases htoken
    exact hne howner.symm

end Moving

end DreamChain.Dreamoji
