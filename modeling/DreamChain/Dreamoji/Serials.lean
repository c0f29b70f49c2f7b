import DreamChain.Dreamoji.Effects

/-!
Serial numbers. A batch of a type gets the numbers that follow its issued supply, so the numbers
of live tokens are distinct exactly as long as no batch starts below a number that is in use.

Burning a token lowers the issued supply, whichever number the token had; this is what makes a
later batch start too low.
-/

namespace DreamChain.Dreamoji
open Library

variable {self : AccountName} {ctx : Context} {s s' : Contract} {a : ContractAction}

def SerialsUnique (s : Contract) : Prop :=
  ∀ x y token token', s.dreams.find? x = some token → s.dreams.find? y = some token' →
    token.type = token'.type → token.serialNumber = token'.serialNumber → x = y

def SerialTaken (s : Contract) (k : TokenType) (n : Nat) : Prop :=
  ∃ token ∈ s.dreams.values, token.type = k ∧ token.serialNumber = n

instance (s : Contract) (k : TokenType) (n : Nat) : Decidable (SerialTaken s k n) :=
  inferInstanceAs (Decidable (∃ token ∈ s.dreams.values, token.type = k ∧ token.serialNumber = n))

/-- The numbers of the batch are not in use when it is issued. -/
def FreshSerials (t : Transition Contract Call) : Prop :=
  match t.action.action with
  | .issue _ category tokenName quantity _ _ =>
    ∀ st ∈ t.before.dreamStats.find? (toLex (category, tokenName)), st.fungible = false →
      ∀ j ∈ List.range quantity.amount.toNat,
        ¬ SerialTaken t.before (toLex (category, tokenName)) (toU64 (st.issuedSupply.amount + 1 + j))
  | _ => True

instance (t : Transition Contract Call) : Decidable (FreshSerials t) := by
  unfold FreshSerials
  split <;> infer_instance

theorem serialTaken_iff {k n} : SerialTaken s k n ↔
    ∃ x token, s.dreams.find? x = some token ∧ token.type = k ∧ token.serialNumber = n := by
  simp only [SerialTaken, FlatMap.mem_values_iff]
  constructor
  · rintro ⟨token, ⟨x, hx⟩, hfacts⟩
    exact ⟨x, token, hx, hfacts⟩
  · rintro ⟨x, token, hx, hfacts⟩
    exact ⟨token, ⟨x, hx⟩, hfacts⟩

section Minting

variable {x : Nat} {token : Dream}

variable {n category tokenName : Nat} {toAccount : AccountName} {relativeUri : String}

theorem serialTaken_insert (hdreams : s'.dreams = s.dreams.insert x token)
    (hx : s.dreams.find? x = none) :
    SerialTaken s' token.type n ↔ SerialTaken s token.type n ∨ token.serialNumber = n := by
  have hcases := fun {y t} => s.dreams.find?_insert_absent (j := y) (x := token) (y := t)
    ((s.dreams.find?_eq_none_iff x).mp hx)
  simp only [serialTaken_iff, hdreams]
  constructor
  · rintro ⟨y, t, hy, hfacts⟩
    cases hcases.mp hy with
    | inl hnew => exact .inr (hnew.2 ▸ hfacts.2)
    | inr hold => exact .inl ⟨y, t, hold, hfacts⟩
  · rintro (⟨y, t, hy, hfacts⟩ | hn)
    · exact ⟨y, t, hcases.mpr (.inr hy), hfacts⟩
    · exact ⟨x, token, hcases.mpr (.inl ⟨rfl, rfl⟩), rfl, hn⟩

theorem serialsUnique_insert (hdreams : s'.dreams = s.dreams.insert x token)
    (hx : s.dreams.find? x = none) :
    SerialsUnique s' ↔ SerialsUnique s ∧ ¬ SerialTaken s token.type token.serialNumber := by
  have hcases := fun {y t} => s.dreams.find?_insert_absent (j := y) (x := token) (y := t)
    ((s.dreams.find?_eq_none_iff x).mp hx)
  rw [serialTaken_iff]
  constructor
  · intro h
    have hnew : s'.dreams.find? x = some token := hdreams ▸ s.dreams.find?_insert_self x token
    refine ⟨fun y z ty tz hy hz => ?_, ?_⟩
    · exact h y z ty tz (hdreams ▸ hcases.mpr (.inr hy)) (hdreams ▸ hcases.mpr (.inr hz))
    · rintro ⟨y, ty, hy, htype, hserial⟩
      obtain rfl := h y x ty token (hdreams ▸ hcases.mpr (.inr hy)) hnew htype hserial
      exact absurd (hx.symm.trans hy) nofun
  · rintro ⟨h, hfree⟩ y z ty tz hy hz htype hserial
    obtain ⟨rfl, rfl⟩ | hy := hcases.mp (hdreams ▸ hy)
    · cases hcases.mp (hdreams ▸ hz) with
      | inl hz => exact hz.1.symm
      | inr hz => exact absurd ⟨z, tz, hz, htype.symm, hserial.symm⟩ hfree
    · obtain ⟨rfl, rfl⟩ | hz := hcases.mp (hdreams ▸ hz)
      · exact absurd ⟨y, ty, hy, htype, hserial⟩ hfree
      · exact h y z ty tz hy hz htype hserial

theorem toU64_ne {m n : Int} (hlt : m < n) (hnear : n < m + 2 ^ 64) : toU64 m ≠ toU64 n := by
  unfold toU64
  omega

/-- A batch keeps the numbers distinct exactly when none of its numbers was in use. -/
theorem mintLoop_serials {oneToken issuedSupply : Asset} (hone : oneToken.amount = 1)
    (hn : n ≤ 2 ^ 64)
    (h : mintLoop toAccount category tokenName oneToken relativeUri n issuedSupply s = .ok s') :
    SerialsUnique s' ↔ SerialsUnique s ∧ ∀ j < n,
      ¬ SerialTaken s (toLex (category, tokenName)) (toU64 (issuedSupply.amount + 1 + j)) := by
  induction n generalizing issuedSupply s with
  | zero =>
    cases h
    simp
  | succ n ih =>
    simp only [mintLoop, bind_eq_ok] at h
    obtain ⟨s₁, hmint, issued, hissued, h⟩ := h
    obtain ⟨-, rfl⟩ := Asset.add_ok hissued
    obtain ⟨config, -, hnew, hs₁⟩ := mint_ok hmint
    have hdreams : s₁.dreams = _ := congrArg Contract.dreams hs₁
    have hfirst : SerialsUnique s₁ ↔ SerialsUnique s ∧ ¬ SerialTaken s
        (toLex (category, tokenName)) (toU64 (issuedSupply.amount + 1)) :=
      serialsUnique_insert hdreams hnew
    have htaken : ∀ m, SerialTaken s₁ (toLex (category, tokenName)) m ↔
        SerialTaken s (toLex (category, tokenName)) m ∨ toU64 (issuedSupply.amount + 1) = m :=
      fun m => serialTaken_insert hdreams hnew
    rw [ih (Nat.le_of_succ_le hn) h, hfirst, and_assoc, Nat.forall_lt_succ_left']
    refine and_congr_right fun _ => and_congr ?_ (forall₂_congr fun j hj => not_congr ?_)
    · rw [Int.natCast_zero, Int.add_zero]
    · -- within a batch the numbers do not come round to the first one
      have hcount : issuedSupply.amount + oneToken.amount + 1 + j =
          issuedSupply.amount + 1 + ((j + 1 : Nat) : Int) := by omega
      rw [htaken, hcount]
      exact or_iff_left (toU64_ne (by omega) (by omega))

theorem mintTokens_serials {quantity dreamStats}
    (h : mintTokens toAccount category tokenName quantity relativeUri dreamStats s = .ok s') :
    SerialsUnique s' ↔ SerialsUnique s ∧ (dreamStats.fungible = false →
      ∀ j ∈ List.range quantity.amount.toNat, ¬ SerialTaken s (toLex (category, tokenName))
        (toU64 (dreamStats.issuedSupply.amount + 1 + j))) := by
  unfold mintTokens at h
  split at h
  · rename_i hfungible
    cases h
    refine (and_iff_left fun hnot => ?_).symm
    rw [hfungible] at hnot
    cases hnot
  · rename_i hfungible
    simp only [bind_eq_ok, check_eq_ok, exists_const] at h
    obtain ⟨hsize, one, hone, h⟩ := h
    rw [mintLoop_serials (by rw [Asset.make_ok hone]) (by omega) h]
    simp [Bool.eq_false_iff.mpr hfungible]

end Minting

/-- Rows are old rows, with the type and the number they had. -/
def Inherits (s s' : Contract) : Prop :=
  ∀ x token', s'.dreams.find? x = some token' → ∃ token, s.dreams.find? x = some token ∧
    token.type = token'.type ∧ token.serialNumber = token'.serialNumber

theorem SerialsUnique.inherit (h : SerialsUnique s) (hrows : Inherits s s') : SerialsUnique s' := by
  intro x y token token' hx hy htype hserial
  obtain ⟨t, ht, htt, hts⟩ := hrows x token hx
  obtain ⟨t', ht', htt', hts'⟩ := hrows y token' hy
  exact h x y t t' ht ht' (htt.trans (htype.trans htt'.symm)) (hts.trans (hserial.trans hts'.symm))

theorem Relocated.inherits {toAccount : AccountName} {order : List Nat}
    (h : Relocated toAccount order s s') : Inherits s s' := by
  intro x token' hx
  by_cases hmem : x ∈ order
  · obtain ⟨token, htoken, -, hmoved⟩ := h.moved x hmem
    rw [hmoved] at hx
    cases hx
    exact ⟨token, htoken, rfl, rfl⟩
  · exact ⟨token', (h.kept x hmem).symm.trans hx, rfl, rfl⟩

theorem inherits_insert {x token token'} (hx : s.dreams.find? x = some token)
    (hdreams : s'.dreams = s.dreams.insert x token') (htype : token.type = token'.type)
    (hserial : token.serialNumber = token'.serialNumber) : Inherits s s' := by
  intro y ty hy
  rw [hdreams, FlatMap.find?_insert] at hy
  split at hy
  · rename_i hxy
    subst hxy
    cases hy
    exact ⟨token, hx, htype, hserial⟩
  · exact ⟨ty, hy, rfl, rfl⟩

def ContractAction.isIssue : ContractAction → Bool
  | .issue .. => true
  | _ => false

theorem Effect.inherits (heff : Effect self ctx a s s') (ha : a.isIssue = false) :
    Inherits s s' := by
  cases heff with
  | issue => cases ha
  | burnnft _ hdreams =>
    intro x token' hx
    have hrow := (hdreams x).symm.trans hx
    split at hrow
    · cases hrow
    · exact ⟨token', hrow, rfl, rfl⟩
  | transfernft _ _ _ hmove | nftPurchase _ _ _ _ _ hmove =>
    obtain ⟨order, -, hrelocated⟩ := changeOwner_relocated hmove
    exact hrelocated.inherits
  | linknfts hparent | unlinknfts hparent => exact inherits_insert hparent rfl rfl rfl
  | _ => exact fun x token' hx => ⟨token', hx, rfl, rfl⟩

theorem SerialsUnique.effect_iff {c : Call} (h : SerialsUnique s)
    (heff : Effect self c.context c.action s s') : SerialsUnique s' ↔ FreshSerials ⟨s, c, s'⟩ := by
  have hkeeps := fun ha => h.inherit (heff.inherits ha)
  obtain ⟨ctx, a⟩ := c
  cases heff with
  | issue hst _ _ hmint =>
    have hminted := (mintTokens_serials hmint).trans (and_iff_right h)
    refine Iff.trans hminted ?_
    simp only [FreshSerials, hst, Option.mem_def, Option.some.injEq, forall_eq']
  | _ => exact iff_of_true (hkeeps rfl) trivial

/-- Serial numbers are unique along a run exactly when every batch gets numbers that no live
token of its type has. -/
theorem serials_unique_iff {l : List (Transition Contract Call)} (h : ContractRun self l s) :
    (∀ t ∈ l, SerialsUnique t.after) ↔ ∀ t ∈ l, FreshSerials t :=
  h.guarded_iff (fun _ _ _ _ hx => absurd hx nofun)
    fun _ hstep ht => ht.effect_iff (apply_effect hstep)

/-- The token with the last number is burned, and its number is given out again. -/
theorem serials_unique_iff_reissued : ∃ l s, ContractRun 1 l s ∧
    (∀ t ∈ l, SerialsUnique t.after) ∧
    ∃ token, s.dreams.find? 3 = some token ∧ token.serialNumber = 3 :=
  exists_run_of (deployment true true ++
      [.signedBy 3 0 (.burnnft 3 [2]), .signedBy 2 0 (.issue 4 10 11 ⟨1, dreamSymbol⟩ "" [])])
    (fun hrun => (serials_unique_iff hrun).mpr) (by decide +kernel)

/-- The token with the first number is burned, and the last number is given out again. -/
theorem serial_repeated : ∃ l s token token', ContractRun 1 l s ∧ s.dreams.find? 2 = some token ∧
    s.dreams.find? 3 = some token' ∧ token.type = token'.type ∧
    token.serialNumber = token'.serialNumber := by
  obtain ⟨l, s, hrun, token, htoken, token', htoken', hsame⟩ := exists_run 1
    (deployment true true ++
      [.signedBy 3 0 (.burnnft 3 [0]), .signedBy 2 0 (.issue 4 10 11 ⟨1, dreamSymbol⟩ "" [])])
    (fun _ s => ∃ token, s.dreams.find? 2 = some token ∧ ∃ token', s.dreams.find? 3 = some token' ∧
      token.type = token'.type ∧ token.serialNumber = token'.serialNumber)
    (by decide +kernel)
  exact ⟨l, s, token, token', hrun, htoken, htoken', hsame⟩

end DreamChain.Dreamoji
