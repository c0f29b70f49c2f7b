import DreamChain.Dreamoji.Links
import DreamChain.Dreamoji.Listings

/-!
Who loses a token. The change of owner checks the owner only of the tokens named in a direct
transfer. That nobody else's token is moved rests on three facts about the state: a child has
the owner of its parent, a child can be moved with its parent only, and a listed token is with
the seller of its listing.

The facts hold along every run that avoids what the contract fails to check: taking the lock of
a listed token, linking a listed token, unlinking a child from a token that is not its parent,
and minting an id that is still the child of a token.
-/

namespace DreamChain.Dreamoji
open Library Library.Worklist Library.Descent Contract

variable {self : AccountName} {ctx : Context} {s s' : Contract} {a : ContractAction}

structure Custody (s : Contract) : Prop where
  listings : ListingsHeld s
  linked : ∀ {p c}, c ∈ s.children p → s.linked c
  parents : UniqueParents s.children
  owners : ∀ {p c owner child}, s.ownedBy p owner → c ∈ s.children p →
    s.dreams.find? c = some child → child.owner = owner
  apart : ∀ {p c}, c ∈ s.children p → c ∉ s.listed

/-- What the contract does not check. -/
structure Careful (t : Transition Contract Call) : Prop where
  locks : KeepsListings t
  links : ∀ e ∈ t.action.action.linkedPairs, e.1 ∉ t.before.listed
  unlinks : ∀ e ∈ t.action.action.unlinked, ∀ p ∈ t.before.dreams.keys, p ≠ e.2 →
    e.1 ∉ t.before.children p
  mints : ∀ x ∈ t.after.dreams.keys, x ∉ t.before.dreams.keys →
    ∀ p ∈ t.before.dreams.keys, x ∉ t.before.children p

instance (t : Transition Contract Call) : Decidable (Careful t) :=
  decidable_of_iff (KeepsListings t ∧ (∀ e ∈ t.action.action.linkedPairs, e.1 ∉ t.before.listed) ∧
      (∀ e ∈ t.action.action.unlinked, ∀ p ∈ t.before.dreams.keys, p ≠ e.2 →
        e.1 ∉ t.before.children p) ∧
      ∀ x ∈ t.after.dreams.keys, x ∉ t.before.dreams.keys →
        ∀ p ∈ t.before.dreams.keys, x ∉ t.before.children p)
    ⟨fun h => ⟨h.1, h.2.1, h.2.2.1, h.2.2.2⟩, fun h => ⟨h.locks, h.links, h.unlinks, h.mints⟩⟩

namespace Custody

variable {p c x b : Nat} {owner : AccountName} {token parent : Dream} {l nftIds : List Nat}
  {links : FlatMap Nat Unit}

theorem mem_keys (h : c ∈ s.children p) : p ∈ s.dreams.keys := by
  obtain ⟨parent, hparent, -⟩ := exists_of_mem_children h
  exact FlatMap.mem_keys_of_find? hparent

theorem owner_of_reach (h : Custody s) {y : Nat} (hr : Reach s.children y x)
    (hy : s.ownedBy y owner) (hx : s.dreams.find? x = some token) : token.owner = owner := by
  induction hr generalizing token with
  | refl =>
    obtain ⟨token', htoken', howner⟩ := hy
    rw [hx] at htoken'
    cases htoken'
    exact howner
  | @tail b c _ hc ih =>
    obtain ⟨parent, hparent, -⟩ := exists_of_mem_children hc
    exact h.owners ⟨parent, hparent, ih hparent⟩ hc hx

theorem owners_of_relocated (h : Custody s) {s₁ s₂ : Contract} {toAccount : AccountName}
    {order : List Nat} (hmove : Relocated toAccount order s₁ s₂) (hdreams : s₁.dreams = s.dreams)
    (hdreams' : s'.dreams = s₂.dreams) (horder : ∀ y, y ∈ order ↔ ∃ x ∈ l, Reach s.children x y)
    (hroots : ∀ x ∈ l, ∀ p, x ∉ s.children p) {child : Dream} (hp : s'.ownedBy p owner)
    (hc : c ∈ s.children p) (hchild : s'.dreams.find? c = some child) : child.owner = owner := by
  obtain ⟨parent, hparent, rfl⟩ := hp
  rw [hdreams'] at hparent hchild
  by_cases hpo : p ∈ order
  · have hco : c ∈ order := by
      obtain ⟨x, hx, hr⟩ := (horder p).mp hpo
      exact (horder c).mpr ⟨x, hx, hr.tail hc⟩
    obtain ⟨_, -, -, hp'⟩ := hmove.moved p hpo
    obtain ⟨_, -, -, hc'⟩ := hmove.moved c hco
    rw [hp'] at hparent
    rw [hc'] at hchild
    cases hparent
    cases hchild
    rfl
  · have hco : c ∉ order := by
      intro hmem
      obtain ⟨x, hx, hr⟩ := (horder c).mp hmem
      obtain heq | ⟨q, hq, hcq⟩ := Relation.ReflTransGen.cases_tail hr
      · exact hroots x hx p (heq ▸ hc)
      · rw [h.parents.unique hcq hc] at hq
        exact hpo ((horder p).mpr ⟨x, hx, hq⟩)
    rw [hmove.kept p hpo, hdreams] at hparent
    rw [hmove.kept c hco, hdreams] at hchild
    exact h.owners ⟨parent, hparent, rfl⟩ hc hchild

theorem not_child_of_free (h : Custody s) (hx : ¬ s.linked x) (p : Nat) :
    x ∉ s.children p := fun hc => hx (h.linked hc)

theorem not_child_of_listed (h : Custody s) {ask : Ask} (hask : s.asks.find? b = some ask)
    (hx : x ∈ ask.nftIds) (p : Nat) : x ∉ s.children p :=
  fun hc => h.apart hc (mem_listed.mpr ⟨b, ask, hask, hx⟩)

theorem listed_of_erase {t : Contract} (hasks : t.asks = s.asks.erase b) (hx : x ∈ t.listed) :
    x ∈ s.listed := by
  obtain ⟨b', ask, hask, hx⟩ := mem_listed.mp hx
  rw [hasks] at hask
  exact mem_listed.mpr ⟨b', ask, (s.asks.find?_erase_eq_some_iff.mp hask).2, hx⟩

theorem issue (h : Custody s) {P : Dream → Prop} (hP : ∀ token, P token → token.children = [])
    (hlistings : ListingsHeld s') (hgrown : Grown P s.dreams s'.dreams)
    (hlinks : s'.linkedNfts = s.linkedNfts) (hasks : s'.asks = s.asks)
    (hmints : ∀ x ∈ s'.dreams.keys, x ∉ s.dreams.keys →
      ∀ p ∈ s.dreams.keys, x ∉ s.children p) : Custody s' := by
  have hchildren := Grown.children hgrown hP
  refine ⟨hlistings, fun hc => ?_, hchildren ▸ h.parents, fun {p c owner child} hp hc hchild => ?_,
    fun hc => ?_⟩
  · rw [Contract.linked, hlinks]
    exact h.linked (hchildren ▸ hc)
  · rw [hchildren] at hc
    obtain ⟨parent, hparent, rfl⟩ := hp
    obtain ⟨parent', hparent', -⟩ := exists_of_mem_children hc
    have hold : ∀ {x token token'}, s.dreams.find? x = some token →
        s'.dreams.find? x = some token' → token' = token := by
      intro x token token' hx hx'
      cases hgrown x with
      | inl hsame => exact Option.some.inj (hx'.symm.trans (hsame.trans hx))
      | inr hnew => exact absurd (hx.symm.trans hnew.1) (Option.some_ne_none _)
    cases hcs : s.dreams.find? c with
    | none =>
      have hnew : c ∈ s'.dreams.keys := FlatMap.mem_keys_of_find? hchild
      have habsent : c ∉ s.dreams.keys := (s.dreams.find?_eq_none_iff c).mp hcs
      exact absurd hc (hmints c hnew habsent p (mem_keys hc))
    | some child' =>
      rw [hold hcs hchild, hold hparent' hparent]
      exact h.owners ⟨parent', hparent', rfl⟩ hc hcs
  · rw [listed, hasks]
    exact h.apart (hchildren ▸ hc)

theorem burnnft (h : Custody s) {stats : FlatMap TokenType DreamStats} {accounts : Accounts}
    {dreams : Dreams}
    (hlistings : ListingsHeld { s with dreamStats := stats, accounts, dreams })
    (hdreams : ∀ y, dreams.find? y = if y ∈ l then none else s.dreams.find? y) :
    Custody { s with dreamStats := stats, accounts, dreams } := by
  have hmem : ∀ {p c}, c ∈ children
      { s with dreamStats := stats, accounts, dreams } p →
      c ∈ s.children p := by
    intro p c hc
    rw [children_burned stats accounts hdreams] at hc
    split at hc
    · cases hc
    · exact hc
  have hrow : ∀ {x token}, dreams.find? x = some token → s.dreams.find? x = some token := by
    intro x token hx
    rw [hdreams] at hx
    split at hx
    · cases hx
    · exact hx
  refine ⟨hlistings, fun hc => h.linked (hmem hc), ⟨fun ha hb => h.parents.unique (hmem ha) (hmem hb),
    fun p => ?_⟩, fun {p c owner child} hp hc hchild => ?_, fun hc => h.apart (hmem hc)⟩
  · rw [children_burned stats accounts hdreams]
    split
    · exact List.nodup_nil
    · exact h.parents.nodup p
  · obtain ⟨parent, hparent, howner⟩ := hp
    exact h.owners ⟨parent, hrow hparent, howner⟩ (hmem hc) (hrow hchild)

theorem ownedBy_of_children {children : List Nat} (hparent : s.dreams.find? p = some parent)
    (hx : (s.dreams.insert p { parent with children }).find? x = some token) :
    s.ownedBy x token.owner := by
  rw [FlatMap.find?_insert] at hx
  split at hx
  · rename_i hpx
    subst hpx
    cases hx
    exact ⟨parent, hparent, rfl⟩
  · exact ⟨token, hx, rfl⟩

theorem linknfts (h : Custody s) (hlistings : ListingsHeld { s with
      linkedNfts := links
      dreams := s.dreams.insert p { parent with children := parent.children ++ nftIds } })
    (hparent : s.dreams.find? p = some parent)
    (hids : ∀ x ∈ nftIds, (∃ child, s.dreams.find? x = some child ∧
      parent.owner = child.owner) ∧ ¬ s.linked x)
    (hlinks : ∀ y, links.find? y = if y ∈ nftIds then some () else s.linkedNfts.find? y)
    (hnodup : nftIds.Nodup) (hfree : ∀ x ∈ nftIds, x ∉ s.listed) : Custody { s with
      linkedNfts := links
      dreams := s.dreams.insert p { parent with children := parent.children ++ nftIds } } := by
  have hmem := mem_children_linked links nftIds hparent
  have hfresh : ∀ {x q}, x ∈ nftIds → x ∉ s.children q :=
    fun hx => h.not_child_of_free (hids _ hx).2 _
  refine ⟨hlistings, fun {q c} hc => ?_,
    uniqueParents_linked links hparent h.parents hfresh hnodup,
    fun {q c owner child} hq hc hchild => ?_, fun {q c} hc => ?_⟩
  · show links.find? c ≠ none
    rw [hlinks]
    split
    · exact nofun
    · rename_i hold
      exact h.linked (((hmem q c).mp hc).resolve_right fun hnew => hold hnew.2)
  · obtain ⟨token, htoken, rfl⟩ := hq
    have hold := ownedBy_of_children hparent htoken
    obtain ⟨child', hchild', howner'⟩ := ownedBy_of_children hparent hchild
    rw [← howner']
    obtain hc | ⟨rfl, hcl⟩ := (hmem q c).mp hc
    · exact h.owners hold hc hchild'
    · obtain ⟨⟨child'', hchild'', howner⟩, -⟩ := hids c hcl
      obtain ⟨parent', hparent', hsame⟩ := hold
      rw [hparent] at hparent'
      rw [hchild''] at hchild'
      cases hparent'
      cases hchild'
      exact howner.symm.trans hsame
  · cases (hmem q c).mp hc with
    | inl hc => exact h.apart hc
    | inr hnew => exact hfree c hnew.2

theorem unlinknfts (h : Custody s) (hlistings : ListingsHeld { s with
      linkedNfts := links
      dreams := s.dreams.insert p
        { parent with children := parent.children.filter fun x => x ∉ nftIds } })
    (hparent : s.dreams.find? p = some parent)
    (hlinks : ∀ y, links.find? y = if y ∈ nftIds then none else s.linkedNfts.find? y)
    (hown : ∀ x ∈ nftIds, ∀ q ∈ s.dreams.keys, q ≠ p → x ∉ s.children q) : Custody { s with
      linkedNfts := links
      dreams := s.dreams.insert p
        { parent with children := parent.children.filter fun x => x ∉ nftIds } } := by
  have hmem : ∀ {q c}, c ∈ children { s with
      linkedNfts := links
      dreams := s.dreams.insert p
        { parent with children := parent.children.filter fun x => x ∉ nftIds } } q →
      c ∈ s.children q ∧ c ∉ nftIds := by
    intro q c hc
    obtain ⟨hold, hnot⟩ := (mem_children_unlinked links nftIds hparent q c).mp hc
    by_cases hq : q = p
    · exact ⟨hold, hnot hq⟩
    · exact ⟨hold, fun hcl => hown c hcl q (mem_keys hold) hq hold⟩
  refine ⟨hlistings, fun {q c} hc => ?_, ⟨fun ha hb => h.parents.unique (hmem ha).1 (hmem hb).1,
    fun y => ?_⟩, fun {q c owner child} hq hc hchild => ?_, fun hc => h.apart (hmem hc).1⟩
  · show links.find? c ≠ none
    rw [hlinks, if_neg (hmem hc).2]
    exact h.linked (hmem hc).1
  · rw [children_insert]
    split
    · rw [← children_of_find? hparent]
      exact (h.parents.nodup p).filter _
    · exact h.parents.nodup y
  · obtain ⟨token, htoken, rfl⟩ := hq
    obtain ⟨child', hchild', howner'⟩ := ownedBy_of_children hparent hchild
    rw [← howner']
    exact h.owners (ownedBy_of_children hparent htoken) (hmem hc).1 hchild'

theorem effect {c : Call} (h : Custody s) (heff : Effect self c.context c.action s s')
    (hcare : Careful ⟨s, c, s'⟩) : Custody s' := by
  have hlistings : ListingsHeld s' := (h.listings.effect_iff heff).mpr hcare.locks
  obtain ⟨ctx, a⟩ := c
  have hfamily : s'.children = s.children → s'.linkedNfts = s.linkedNfts →
      s'.dreams = s.dreams → (∀ {x}, x ∈ s'.listed → x ∈ s.listed) → Custody s' := by
    intro hchildren hlinks hdreams hlisted
    refine ⟨hlistings, fun hc => ?_, hchildren ▸ h.parents, fun {p c owner child} hp hc hchild => ?_,
      fun hc hl => h.apart (hchildren ▸ hc) (hlisted hl)⟩
    · rw [Contract.linked, hlinks]
      exact h.linked (hchildren ▸ hc)
    · rw [Contract.ownedBy, hdreams] at hp
      exact h.owners hp (hchildren ▸ hc) (hdreams ▸ hchild)
  have hmints := hcare.mints
  have hlinks := hcare.links
  have hunlinks := hcare.unlinks
  cases heff with
  | issue _ _ _ _ _ hgrown =>
    exact h.issue (fun token htoken => htoken.1) hlistings hgrown rfl rfl hmints
  | burnnft _ hdreams => exact h.burnnft hlistings hdreams
  | transfernft _ _ hfree hmove =>
    obtain ⟨order, horder, hrelocated⟩ := changeOwner_relocated hmove
    have hchildren := hrelocated.children
    refine ⟨hlistings, fun hc => h.linked (hchildren ▸ hc), hchildren ▸ h.parents,
      fun hp hc hchild => ?_, fun hc => h.apart (hchildren ▸ hc)⟩
    rw [hchildren] at hc
    exact h.owners_of_relocated hrelocated rfl rfl horder
      (fun x hx => h.not_child_of_free (hfree x hx)) hp hc hchild
  | nftPurchase _ hask _ _ _ hmove =>
    obtain ⟨order, horder, hrelocated⟩ := changeOwner_relocated hmove
    have hchildren := hrelocated.children
    refine ⟨hlistings, fun hc => h.linked (hchildren ▸ hc), hchildren ▸ h.parents,
      fun hp hc hchild => ?_, fun hc hl => h.apart (hchildren ▸ hc) (listed_of_erase rfl hl)⟩
    exact h.owners_of_relocated hrelocated rfl rfl horder
      (fun x hx => h.not_child_of_listed hask hx) hp (hchildren ▸ hc) hchild
  | linknfts hparent hids hlinked hnodup =>
    refine h.linknfts hlistings hparent hids hlinked hnodup fun x hx => ?_
    exact hlinks (x, _) (List.mem_map.mpr ⟨x, hx, rfl⟩)
  | unlinknfts hparent _ hlinked =>
    refine h.unlinknfts hlistings hparent hlinked fun x hx => ?_
    exact hunlinks (x, _) (List.mem_map.mpr ⟨x, hx, rfl⟩)
  | nftokensale hids _ hnew =>
    refine ⟨hlistings, h.linked, h.parents, h.owners, fun hc hl => ?_⟩
    obtain ⟨b, ask, hask, hx⟩ := mem_listed.mp hl
    obtain ⟨-, rfl⟩ | hold :=
        (s.asks.find?_insert_absent ((s.asks.find?_eq_none_iff _).mp hnew)).mp hask
    · exact (hids _ hx).2.1 (h.linked hc)
    · exact h.apart hc (mem_listed.mpr ⟨b, ask, hold, hx⟩)
  | endnftsale => exact hfamily rfl rfl rfl fun hl => listed_of_erase rfl hl
  | _ => exact hfamily rfl rfl rfl fun hl => hl

theorem start : Custody {} := by
  have hnone : ∀ {p c}, c ∉ children {} p := fun hc => by
    obtain ⟨parent, hparent, -⟩ := exists_of_mem_children hc
    cases hparent
  refine ⟨⟨nofun, nofun, nofun, nofun⟩, fun hc => absurd hc hnone, ⟨fun ha => absurd ha hnone, fun p => ?_⟩,
    fun _ hc => absurd hc hnone, fun hc => absurd hc hnone⟩
  exact List.nodup_nil

end Custody

/-- Only the owner of a token moves it: directly, with a token above it that is also theirs, or
by selling it. -/
def MovedByOwner (t : Transition Contract Call) : Prop :=
  ∀ x token token', t.before.dreams.find? x = some token → t.after.dreams.find? x = some token' →
    token'.owner ≠ token.owner →
    match t.action.action with
    | .transfernft fromAccount _ nftIds =>
      fromAccount ∈ t.action.context.authorizers ∧ token.owner = fromAccount ∧
        ∃ y ∈ nftIds, t.before.ownedBy y fromAccount ∧ Reach t.before.children y x
    | .purchase _ _ _ memo =>
      ∃ receiver assetId ask, Orders memo nftSaleTypes receiver assetId ∧
        t.before.asks.find? assetId = some ask ∧ token.owner = ask.seller ∧
        ∃ y ∈ ask.nftIds, Reach t.before.children y x
    | _ => False

theorem Relocated.mem_of_owner {toAccount order x token token'} (h : Relocated toAccount order s s') (hx : s.dreams.find? x = some token)
    (hx' : s'.dreams.find? x = some token') (hne : token'.owner ≠ token.owner) : x ∈ order := by
  by_contra hout
  rw [h.kept x hout, hx] at hx'
  cases hx'
  exact hne rfl

theorem Custody.movedByOwner {c : Call} (h : Custody s)
    (heff : Effect self c.context c.action s s') : MovedByOwner ⟨s, c, s'⟩ := by
  intro x token token' hx hx' hne
  obtain ⟨ctx, a⟩ := c
  have hkeeps := fun ha => hne (heff.sameOwner ha ⟨token, hx, rfl⟩ hx')
  cases heff with
  | transfernft hauth hdistinct _ hmove =>
    obtain ⟨order, horder, hrelocated⟩ := changeOwner_relocated hmove
    obtain ⟨y, hy, hr⟩ := (horder x).mp (hrelocated.mem_of_owner hx hx' hne)
    obtain ⟨root, _, hroot, howner, -⟩ := changeOwner_direct hdistinct hmove y hy
    have hown : s.ownedBy y _ := ⟨root, hroot, howner⟩
    exact ⟨hauth, h.owner_of_reach hr hown hx, y, hy, hown, hr⟩
  | nftPurchase horder hask _ _ _ hmove =>
    obtain ⟨order, hmem, hrelocated⟩ := changeOwner_relocated hmove
    obtain ⟨y, hy, hr⟩ := (hmem x).mp (hrelocated.mem_of_owner hx hx' hne)
    have hown := h.owner_of_reach hr (h.listings.owned hask hy) hx
    exact ⟨_, _, _, horder, hask, hown, y, hy, hr⟩
  | transferIgnored | licencePurchase =>
    rw [hx] at hx'
    cases hx'
    exact absurd rfl hne
  | _ => exact hkeeps rfl

/-- Along a run of careful actions every token is moved by its owner only. -/
theorem owners_move_own {l : List (Transition Contract Call)} (h : ContractRun self l s)
    (hcare : ∀ t ∈ l, Careful t) : ∀ t ∈ l, MovedByOwner t := by
  have hcustody := h.guarded Custody.start
    (fun t hstep hc ht => ht.effect (apply_effect hstep) hc) hcare
  exact fun t ht => (hcustody.2 t ht).1.movedByOwner (apply_effect (h.step_of_mem t ht))

/-- A token is linked and sent away with its parent, and another is sold. -/
theorem owners_move_own_family : ∃ l s, ContractRun 1 l s ∧ (∀ t ∈ l, MovedByOwner t) ∧
    s.ownedBy 0 4 ∧ s.ownedBy 1 4 ∧ s.ownedBy 2 (stringToName "aaaaaaaaaaaa") :=
  exists_run_of (deployment true true ++
      [.signedBy 3 0 (.linknfts [1] 0 3), .signedBy 3 0 (.transfernft 3 4 [0]),
        .signedBy 3 0 (.nftokensale 3 [2] oneDrmi 60),
        .signedBy 6 0 (.purchase 6 1 oneDrmi "nft,aaaaaaaaaaaa,2".toList)])
    owners_move_own (by decide +kernel)

/-- The token 1 is unlinked from a token that is not its parent and given to the account 4. It
goes along when the account 3 sends the parent away. -/
theorem stale_child_moved : ∃ l s s', ContractRun 1 l s ∧
    Step 1 s (.signedBy 3 0 (.transfernft 3 5 [0])) s' ∧ s.ownedBy 1 4 ∧ s'.ownedBy 1 5 := by
  exact exists_step 1 (deployment true true ++
      [.signedBy 3 0 (.linknfts [1] 0 3), .signedBy 3 0 (.unlinknfts [1] 2 3),
        .signedBy 3 0 (.transfernft 3 4 [1])]) _
    (fun s s' => s.ownedBy 1 4 ∧ s'.ownedBy 1 5) (by decide +kernel)

end DreamChain.Dreamoji
