import DreamChain.Dreamoji.Effects

/-!
Locks and sales. A token that stays locked keeps its owner, whatever else is done. Both kinds of
sale rely on it: a token listed for sale, or offered for licences, is to be locked and with its
seller as long as the sale is open.

Locks are one shared set without a count, so ending the one kind of sale, or a licence, takes
the lock that the other kind relies on. Apart from that the two invariants hold along every run.
-/

namespace DreamChain.Dreamoji
open Library List FlatMap

variable {self : AccountName} {ctx : Context} {s s' : Contract} {a : ContractAction}
  {seller : AccountName} {nftIds : List Nat} {l : List Nat}

def Contract.listed (s : Contract) : List Nat := s.asks.values.flatMap Ask.nftIds

theorem mem_listed {x : Nat} :
    x ∈ s.listed ↔ ∃ b ask, s.asks.find? b = some ask ∧ x ∈ ask.nftIds := by
  simp only [Contract.listed, mem_flatMap, mem_values_iff]
  constructor
  · rintro ⟨ask, ⟨b, hb⟩, hx⟩
    exact ⟨b, ask, hb, hx⟩
  · rintro ⟨b, ask, hb, hx⟩
    exact ⟨ask, ⟨b, hb⟩, hx⟩

section Custody

variable {x : Nat} {token : Dream}

def Contract.ownedBy (s : Contract) (x : Nat) (owner : AccountName) : Prop :=
  ∃ token, s.dreams.find? x = some token ∧ token.owner = owner

instance (s : Contract) (x : Nat) (owner : AccountName) : Decidable (s.ownedBy x owner) :=
  inferInstanceAs (Decidable (∃ _, _ ∧ _))

variable {owner : AccountName}

theorem Relocated.ownedBy {toAccount : AccountName} (h : Relocated toAccount l s s')
    (hx : s.ownedBy x owner) (hlocked : s.locked x) : s'.ownedBy x owner := by
  have hout : x ∉ l := fun hl => by
    obtain ⟨_, -, hfree, -⟩ := h.moved x hl
    exact hfree hlocked
  obtain ⟨token, htoken, howner⟩ := hx
  exact ⟨token, (h.kept x hout).trans htoken, howner⟩

theorem ownedBy_insert {y parent children}
    (hy : s.dreams.find? y = some parent) (hx : s.ownedBy x owner) (links : FlatMap Nat Unit) :
    Contract.ownedBy { s with
      linkedNfts := links
      dreams := s.dreams.insert y { parent with children } } x owner := by
  obtain ⟨token, htoken, howner⟩ := hx
  by_cases hyx : y = x
  · subst hyx
    rw [hy] at htoken
    cases htoken
    exact ⟨_, s.dreams.find?_insert_self y _, howner⟩
  · exact ⟨token, (s.dreams.find?_insert_of_ne _ hyx).trans htoken, howner⟩

/-- A token that is locked before and after an action keeps its owner. -/
theorem Effect.ownedBy (heff : Effect self ctx a s s') (hx : s.ownedBy x owner)
    (hlocked : s.locked x) (hlocked' : s'.locked x) : s'.ownedBy x owner := by
  cases heff with
  | issue _ _ _ _ _ hgrown =>
    obtain ⟨token, htoken, howner⟩ := hx
    cases hgrown x with
    | inl hsame => exact ⟨token, hsame.trans htoken, howner⟩
    | inr hnew => exact absurd (hnew.1.symm.trans htoken) nofun
  | burnnft _ hdreams hids =>
    obtain ⟨token, htoken, howner⟩ := hx
    refine ⟨token, ?_, howner⟩
    rw [hdreams, if_neg fun hmem => (hids x hmem).2 hlocked]
    exact htoken
  | transfernft _ _ _ hmove =>
    obtain ⟨order, -, hrelocated⟩ := changeOwner_relocated hmove
    exact hrelocated.ownedBy hx hlocked
  | nftPurchase _ _ _ _ _ hmove =>
    obtain ⟨order, -, hrelocated⟩ := changeOwner_relocated hmove
    exact hrelocated.ownedBy hx hlocked'
  | linknfts hparent | unlinknfts hparent => exact ownedBy_insert hparent hx _
  | _ => exact hx

/-- The actions that can give a token another owner. -/
def ContractAction.moves : ContractAction → Bool
  | .transfernft .. | .purchase .. => true
  | _ => false

theorem Effect.sameOwner {token' : Dream} (heff : Effect self ctx a s s') (ha : a.moves = false)
    (hx : s.ownedBy x owner) (hx' : s'.dreams.find? x = some token') : token'.owner = owner := by
  have hof : s'.ownedBy x owner → token'.owner = owner := by
    rintro ⟨token, htoken, howner⟩
    rw [hx'] at htoken
    cases htoken
    exact howner
  cases heff with
  | issue _ _ _ _ _ hgrown =>
    obtain ⟨token, htoken, howner⟩ := hx
    cases hgrown x with
    | inl hsame => exact hof ⟨token, hsame.trans htoken, howner⟩
    | inr hnew => exact absurd (hnew.1.symm.trans htoken) nofun
  | burnnft _ hdreams =>
    obtain ⟨token, htoken, howner⟩ := hx
    have hrow := (hdreams x).symm.trans hx'
    split at hrow
    · cases hrow
    · exact hof ⟨token, hx'.trans (hrow.symm.trans htoken), howner⟩
  | linknfts hparent | unlinknfts hparent => exact hof (ownedBy_insert hparent hx _)
  | transfernft | nftPurchase | transferIgnored | licencePurchase => cases ha
  | _ => exact hof hx

/-- The actions that can take a lock away. -/
def ContractAction.unlocks : ContractAction → Bool
  | .endnftsale .. | .endlcncsale .. | .revoke .. | .purchase .. => true
  | _ => false

theorem Effect.locked (heff : Effect self ctx a s s') (ha : a.unlocks = false)
    (hlocked : s.locked x) : s'.locked x := by
  have hadded : ∀ {locks : FlatMap Nat Unit} {l : List Nat},
      (∀ y, locks.find? y = if y ∈ l then some () else s.lockedNfts.find? y) →
      locks.find? x ≠ none := by
    intro locks l hlocks
    rw [hlocks]
    split
    · exact nofun
    · exact hlocked
  cases heff with
  | nftokensale _ hlocks | licencesale _ _ hlocks => exact hadded hlocks
  | license _ _ _ hlocks => exact hlocks x hlocked
  | endnftsale | endlcncsale | revoke | nftPurchase | licencePurchase | transferIgnored =>
    cases ha
  | _ => exact hlocked

end Custody

section Asks

/-- Every listed token is locked, is with the seller of the listing, and is listed once. -/
structure ListingsHeld (s : Contract) : Prop where
  locked : ∀ {b ask x}, s.asks.find? b = some ask → x ∈ ask.nftIds → s.locked x
  owned : ∀ {b ask x}, s.asks.find? b = some ask → x ∈ ask.nftIds → s.ownedBy x ask.seller
  once : ∀ {b b' ask ask' x}, s.asks.find? b = some ask → s.asks.find? b' = some ask' →
    x ∈ ask.nftIds → x ∈ ask'.nftIds → b = b'
  nodup : ∀ {b ask}, s.asks.find? b = some ask → ask.nftIds.Nodup

/-- The actions that take locks for the sake of licences. -/
def ContractAction.endsLicences : ContractAction → Bool
  | .endlcncsale .. | .revoke .. => true
  | _ => false

def KeepsListings (t : Transition Contract Call) : Prop :=
  t.action.action.endsLicences = true → ∀ x ∈ t.before.listed, t.after.locked x

instance (t : Transition Contract Call) : Decidable (KeepsListings t) :=
  inferInstanceAs (Decidable (_ → _))

theorem ListingsHeld.of_locked (h : ListingsHeld s) (heff : Effect self ctx a s s')
    (hasks : ∀ {b ask}, s'.asks.find? b = some ask → s.asks.find? b = some ask)
    (hlocks : ∀ {b ask x}, s'.asks.find? b = some ask → x ∈ ask.nftIds → s'.locked x) :
    ListingsHeld s' where
  locked := hlocks
  owned hb hx := heff.ownedBy (h.owned (hasks hb) hx) (h.locked (hasks hb) hx) (hlocks hb hx)
  once hb hb' hx hx' := h.once (hasks hb) (hasks hb') hx hx'
  nodup hb := h.nodup (hasks hb)

variable {b₀ : Nat} {locks : FlatMap Nat Unit}

theorem ListingsHeld.locked_of_erase (h : ListingsHeld s) {b x : Nat} {ask₀ ask : Ask}
    (hask : s.asks.find? b₀ = some ask₀)
    (hlocks : ∀ y, locks.find? y = if y ∈ ask₀.nftIds then none else s.lockedNfts.find? y)
    (hb : (s.asks.erase b₀).find? b = some ask) (hx : x ∈ ask.nftIds) : locks.find? x ≠ none := by
  obtain ⟨hne, hb⟩ := s.asks.find?_erase_eq_some_iff.mp hb
  rw [hlocks, if_neg fun hx₀ => hne (h.once hask hb hx₀ hx)]
  exact h.locked hb hx

theorem ListingsHeld.nftokensale {price : Asset} {expiration : Nat} (h : ListingsHeld s)
    (hids : ∀ x ∈ nftIds, (∃ token, s.dreams.find? x = some token ∧ token.owner = seller) ∧
      ¬ s.linked x ∧ ¬ s.locked x)
    (hlocks : ∀ y, locks.find? y = if y ∈ nftIds then some () else s.lockedNfts.find? y)
    (hnew : s.asks.find? b₀ = none) (hnodup : nftIds.Nodup) : ListingsHeld { s with
      lockedNfts := locks
      asks := s.asks.insert b₀ ⟨nftIds, seller, price, expiration⟩ } := by
  have hcases := fun {b ask} => (s.asks.find?_insert_absent (j := b) (y := ask)
    (x := ⟨nftIds, seller, price, expiration⟩) ((s.asks.find?_eq_none_iff b₀).mp hnew)).mp
  have hold : ∀ {b ask x}, s.asks.find? b = some ask → x ∈ ask.nftIds → x ∉ nftIds :=
    fun hb hx hmem => (hids _ hmem).2.2 (h.locked hb hx)
  refine ⟨fun {b ask x} hb hx => ?_, fun {b ask x} hb hx => ?_,
    fun {b b' ask ask' x} hb hb' hx hx' => ?_, fun {b ask} hb => ?_⟩
  · show locks.find? x ≠ none
    rw [hlocks]
    obtain ⟨-, rfl⟩ | hb := hcases hb
    · rw [if_pos hx]
      exact nofun
    · rw [if_neg (hold hb hx)]
      exact h.locked hb hx
  · obtain ⟨-, rfl⟩ | hb := hcases hb
    · exact (hids x hx).1
    · exact h.owned hb hx
  · obtain ⟨rfl, rfl⟩ | hb₁ := hcases hb
    · cases hcases hb' with
      | inl hthis' => exact hthis'.1.symm
      | inr hb' => exact absurd hx (hold hb' hx')
    · obtain ⟨-, rfl⟩ | hb' := hcases hb'
      · exact absurd hx' (hold hb₁ hx)
      · exact h.once hb₁ hb' hx hx'
  · obtain ⟨-, rfl⟩ | hb := hcases hb
    · exact hnodup
    · exact h.nodup hb

theorem ListingsHeld.effect_iff (h : ListingsHeld s) (heff : Effect self ctx a s s') :
    ListingsHeld s' ↔ (a.endsLicences = true → ∀ x ∈ s.listed, s'.locked x) := by
  have hof := h.of_locked heff
  have hsame : ∀ {t : Contract}, t.asks = s.asks →
      (ListingsHeld t → ∀ x ∈ s.listed, t.locked x) := by
    intro t hasks ht x hx
    obtain ⟨b, ask, hb, hx⟩ := mem_listed.mp hx
    exact ht.locked (hasks ▸ hb) hx
  have hspared : s'.asks = s.asks → (∀ x ∈ s.listed, s'.locked x) → ListingsHeld s' := by
    intro hasks hlocks
    rw [Contract.listed, ← hasks] at hlocks
    exact h.of_locked heff (fun hb => hasks ▸ hb)
      fun hb hx => hlocks _ (mem_listed.mpr ⟨_, _, hb, hx⟩)
  have hkept : s'.asks = s.asks → a.unlocks = false → ListingsHeld s' := by
    intro hasks ha
    refine hspared hasks fun x hx => ?_
    obtain ⟨b, ask, hb, hx⟩ := mem_listed.mp hx
    exact heff.locked ha (h.locked hb hx)
  cases heff with
  | nftokensale hids hlocks hnew hnodup =>
    exact iff_of_true (h.nftokensale hids hlocks hnew hnodup) nofun
  | endnftsale hask _ hlocks | nftPurchase _ hask _ hlocks =>
    refine iff_of_true ?_ nofun
    exact hof (fun hb => (s.asks.find?_erase_eq_some_iff.mp hb).2)
      fun hb hx => h.locked_of_erase hask hlocks hb hx
  | licencePurchase _ _ _ _ _ hlocks =>
    refine iff_of_true (hspared rfl fun x hx => ?_) nofun
    obtain ⟨b, ask, hb, hx⟩ := mem_listed.mp hx
    exact hlocks x (h.locked hb hx)
  | endlcncsale | revoke => exact ⟨fun ht _ => hsame rfl ht, fun hlocks => hspared rfl (hlocks rfl)⟩
  | transferIgnored | log => exact iff_of_true h nofun
  | _ => exact iff_of_true (hkept rfl rfl) nofun

theorem unlock_all {m : FlatMap Nat Unit} (message : String) (hl : l.Nodup)
    (h : ∀ x ∈ l, m.find? x ≠ none) : ∃ m', l.foldlM (unlockToken message) m = .ok m' := by
  have hround : ∀ m x, (∃ m', unlockToken message m x = .ok m') ↔ m.find? x ≠ none := by
    intro m x
    constructor
    · rintro ⟨m', hm'⟩
      exact (unlockToken_ok hm').2.1
    · intro hx
      obtain ⟨row, hrow⟩ := Option.ne_none_iff_exists'.mp hx
      exact ⟨m.erase x, bind_eq_ok.mpr ⟨row, get_eq_ok.mpr hrow, rfl⟩⟩
  refine (exists_foldlM_ok_iff (fun m m' x y hm hxy => ?_) hl).mpr fun x hx => (hround m x).mpr (h x hx)
  obtain ⟨-, -, rfl⟩ := unlockToken_ok hm
  rw [hround, hround, find?_erase, if_neg hxy]

def oneDrmi : Asset := ⟨10000, drmi⟩

end Asks

section Sales

structure OffersHeld (s : Contract) : Prop where
  locked : ∀ {x sale}, s.sales.find? x = some sale → s.locked x
  owned : ∀ {x sale}, s.sales.find? x = some sale → s.ownedBy x sale.seller

/-- The actions that take locks for the sake of listings, or of licences. -/
def ContractAction.endsListings : ContractAction → Bool
  | .endnftsale .. | .purchase .. | .revoke .. => true
  | _ => false

def KeepsOffers (t : Transition Contract Call) : Prop :=
  t.action.action.endsListings = true → ∀ x ∈ t.before.sales.keys, t.after.locked x

instance (t : Transition Contract Call) : Decidable (KeepsOffers t) :=
  inferInstanceAs (Decidable (_ → _))

theorem OffersHeld.of_locked (h : OffersHeld s) (heff : Effect self ctx a s s')
    (hsales : ∀ {x sale}, s'.sales.find? x = some sale →
      ∃ sale', s.sales.find? x = some sale' ∧ sale'.seller = sale.seller)
    (hlocks : ∀ {x sale}, s'.sales.find? x = some sale → s'.locked x) : OffersHeld s' where
  locked := hlocks
  owned hx := by
    obtain ⟨sale', hx', hseller⟩ := hsales hx
    exact hseller ▸ heff.ownedBy (h.owned hx') (h.locked hx') (hlocks hx)

theorem OffersHeld.licencesale {row : Sale} {locks : FlatMap Nat Unit} {sales : FlatMap Nat Sale}
    (h : OffersHeld s) (hrow : row.seller = seller)
    (hids : ∀ x ∈ nftIds, ∃ token, s.dreams.find? x = some token ∧ token.owner = seller)
    (hlocks : ∀ y, locks.find? y = if y ∈ nftIds then some () else s.lockedNfts.find? y)
    (hsales : ∀ y, sales.find? y = if y ∈ nftIds then some row else s.sales.find? y) :
    OffersHeld { s with lockedNfts := locks, sales } := by
  have hcases : ∀ {x sale}, sales.find? x = some sale →
      x ∈ nftIds ∧ sale = row ∨ x ∉ nftIds ∧ s.sales.find? x = some sale := by
    intro x sale hx
    rw [hsales] at hx
    split at hx
    · rename_i hmem
      exact .inl ⟨hmem, (Option.some.inj hx).symm⟩
    · rename_i hmem
      exact .inr ⟨hmem, hx⟩
  refine ⟨fun {x sale} hx => ?_, fun {x sale} hx => ?_⟩
  · show locks.find? x ≠ none
    rw [hlocks]
    cases hcases hx with
    | inl hnew =>
      rw [if_pos hnew.1]
      exact nofun
    | inr hold =>
      rw [if_neg hold.1]
      exact h.locked hold.2
  · obtain ⟨hmem, rfl⟩ | hold := hcases hx
    · exact hrow ▸ hids x hmem
    · exact h.owned hold.2

theorem find?_insert_sale {x y sale sale' limit} (hx : s.sales.find? x = some sale)
    (hy : (s.sales.insert x { sale with lcncLimit := limit }).find? y = some sale') :
    ∃ sale'', s.sales.find? y = some sale'' ∧ sale''.seller = sale'.seller := by
  rw [find?_insert] at hy
  split at hy
  · rename_i hxy
    subst hxy
    cases hy
    exact ⟨sale, hx, rfl⟩
  · exact ⟨sale', hy, rfl⟩

theorem OffersHeld.effect_iff (h : OffersHeld s) (heff : Effect self ctx a s s') :
    OffersHeld s' ↔ (a.endsListings = true → ∀ x ∈ s.sales.keys, s'.locked x) := by
  have hof := h.of_locked heff
  have hspared : s'.sales = s.sales → (∀ x ∈ s.sales.keys, s'.locked x) → OffersHeld s' := by
    intro hsales hlocks
    refine h.of_locked heff (fun hx => ⟨_, hsales ▸ hx, rfl⟩) fun {x sale} hx => hlocks x ?_
    exact mem_keys_of_find? (hsales ▸ hx)
  have hiff : s'.sales = s.sales → (OffersHeld s' ↔ ∀ x ∈ s.sales.keys, s'.locked x) := by
    refine fun hsales => ⟨fun ht x hx => ?_, hspared hsales⟩
    obtain ⟨sale, hsale⟩ := (s.sales.mem_keys_iff x).mp hx
    exact ht.locked (hsales ▸ hsale)
  have hkept : s'.sales = s.sales → a.unlocks = false → OffersHeld s' := by
    intro hsales ha
    refine hspared hsales fun x hx => ?_
    obtain ⟨sale, hsale⟩ := (s.sales.mem_keys_iff x).mp hx
    exact heff.locked ha (h.locked hsale)
  cases heff with
  | licencesale hrow hids hlocks hsales =>
    exact iff_of_true (h.licencesale hrow hids hlocks hsales) nofun
  | @endlcncsale _ nftId _ sale hsale _ =>
    refine iff_of_true ?_ nofun
    refine hof (fun hx => ⟨_, (s.sales.find?_erase_eq_some_iff.mp hx).2, rfl⟩) ?_
    intro x sale hx
    obtain ⟨hne, hx⟩ := s.sales.find?_erase_eq_some_iff.mp hx
    show (s.lockedNfts.erase nftId).find? x ≠ none
    rw [find?_erase, if_neg hne]
    exact h.locked hx
  | licencePurchase _ hsale _ _ _ hlocks =>
    have hlocked : ∀ x ∈ s.sales.keys, _ := fun x hx =>
      hlocks x (h.locked ((s.sales.mem_keys_iff x).mp hx).choose_spec)
    refine iff_of_true (hof (find?_insert_sale hsale) fun {x sale} hx => ?_) fun _ => hlocked
    obtain ⟨sale', hx', -⟩ := find?_insert_sale hsale hx
    exact hlocks x (h.locked hx')
  | endnftsale | nftPurchase | revoke | transferIgnored =>
    exact (hiff rfl).trans ⟨fun hall _ => hall, fun hall => hall rfl⟩
  | log => exact iff_of_true h nofun
  | _ => exact iff_of_true (hkept rfl rfl) nofun

def InlineAction.isTransfer : InlineAction → Bool
  | .transfer .. => true
  | _ => false

theorem createLicence_sent {owner toAccounts period relicense depth x}
    (h : createLicence self ctx owner toAccounts period relicense depth s x = .ok s') :
    ∃ later, s'.sent = s.sent ++ later ∧ ∀ m ∈ later, m.isTransfer = false := by
  induction depth generalizing s s' x with
  | zero => cases h
  | succ depth ih =>
    obtain ⟨config, token, -, -, -, hloop⟩ := createLicence_ok h
    refine foldlM_ok_induction (I := fun t => ∃ later, t.sent = s.sent ++ later ∧
      ∀ m ∈ later, m.isTransfer = false) (fun y _ t t' ht hy => ?_)
      ⟨[_], rfl, fun m hm => by rw [mem_singleton.mp hm]; rfl⟩ hloop
    obtain ⟨later, hsent, hlogs⟩ := ht
    obtain ⟨later', hsent', hlogs'⟩ := ih hy
    refine ⟨later ++ later', by rw [hsent', hsent, append_assoc], fun m hm => ?_⟩
    cases mem_append.mp hm with
    | inl hm => exact hlogs m hm
    | inr hm => exact hlogs' m hm

/-- Every licence bought in a state is paid to the owner of the token, the contract apart. -/
def PaysOwner (self : AccountName) (s : Contract) : Prop :=
  ∀ ctx buyer receiver assetId quantity s',
    purchaseLicence self ctx buyer receiver assetId quantity s = .ok s' →
    ∃ token price later, s.dreams.find? assetId = some token ∧
      s'.sent = s.sent ++ (if token.owner = self then []
        else [.transfer token.owner price "sending DRMI to the licence seller"]) ++ later ∧
      ∀ m ∈ later, m.isTransfer = false

theorem OffersHeld.paysOwner (h : OffersHeld s) : PaysOwner self s := by
  intro ctx buyer receiver assetId quantity s' hbuy
  simp only [purchaseLicence, bind_eq_ok, get_eq_ok] at hbuy
  obtain ⟨sale, hsale, _, -, _, -, _, -, hcreate⟩ := hbuy
  obtain ⟨later, hsent, hlogs⟩ := createLicence_sent hcreate
  obtain ⟨token, htoken, howner⟩ := h.owned hsale
  refine ⟨token, sale.price, .logsale [assetId] sale.seller buyer receiver :: later, htoken, ?_,
    forall_mem_cons.mpr ⟨rfl, hlogs⟩⟩
  rw [hsent, howner, append_assoc]
  rfl

end Sales

end DreamChain.Dreamoji
