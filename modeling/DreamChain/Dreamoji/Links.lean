import DreamChain.Dreamoji.Effects
import DreamChain.Library.ExceptSpec

/-!
Links between tokens. A token that is a child of another stands in two places: in the link table
and in the children vector of its parent. The two agree as long as nothing linked is burned and
children are unlinked from the parent that has them.

The recursions into the children end when the links have no cycle, which is the case as long as
no token is linked to itself or to a token below it.
-/

namespace DreamChain.Dreamoji
open Library Library.Worklist Library.Descent List

variable {self : AccountName} {ctx : Context} {s s' : Contract} {a : ContractAction}

section Families

variable {p : Nat} {parent : Dream}

theorem exists_of_mem_children {c : Nat} (h : c ∈ s.children p) :
    ∃ parent, s.dreams.find? p = some parent ∧ c ∈ parent.children := by
  unfold Contract.children at h
  split at h
  · rename_i parent hparent
    exact ⟨parent, hparent, h⟩
  · cases h

theorem children_insert (links : FlatMap Nat Unit) (p : Nat) (parent : Dream) (y : Nat) :
    Contract.children { s with linkedNfts := links, dreams := s.dreams.insert p parent } y =
      if p = y then parent.children else s.children y := by
  simp only [Contract.children, FlatMap.find?_insert]
  by_cases h : p = y <;> simp [h]

theorem mem_children_linked (links : FlatMap Nat Unit) (nftIds : List Nat)
    (hparent : s.dreams.find? p = some parent) (x y : Nat) : y ∈ Contract.children { s with
        linkedNfts := links
        dreams := s.dreams.insert p { parent with children := parent.children ++ nftIds } } x ↔
      y ∈ s.children x ∨ x = p ∧ y ∈ nftIds := by
  rw [children_insert, ← children_of_find? hparent]
  by_cases hx : p = x
  · subst hx
    simp
  · simp [hx, Ne.symm hx]

theorem mem_children_unlinked (links : FlatMap Nat Unit) (nftIds : List Nat)
    (hparent : s.dreams.find? p = some parent) (x y : Nat) : y ∈ Contract.children { s with
        linkedNfts := links
        dreams := s.dreams.insert p
          { parent with children := parent.children.filter fun x => x ∉ nftIds } } x ↔
      y ∈ s.children x ∧ (x = p → y ∉ nftIds) := by
  rw [children_insert, ← children_of_find? hparent]
  by_cases hx : p = x
  · subst hx
    simp
  · simp [hx, Ne.symm hx]

theorem uniqueParents_linked (links : FlatMap Nat Unit) {nftIds : List Nat}
    (hparent : s.dreams.find? p = some parent) (h : UniqueParents s.children)
    (hfresh : ∀ {x q}, x ∈ nftIds → x ∉ s.children q) (hnodup : nftIds.Nodup) :
    UniqueParents (Contract.children { s with
      linkedNfts := links
      dreams := s.dreams.insert p { parent with children := parent.children ++ nftIds } }) := by
  have hmem := mem_children_linked links nftIds hparent
  refine ⟨fun {a b x} ha hb => ?_, fun y => ?_⟩
  · cases (hmem a x).mp ha with
    | inl ha =>
      cases (hmem b x).mp hb with
      | inl hb => exact h.unique ha hb
      | inr hb => exact absurd ha (hfresh hb.2)
    | inr ha =>
      cases (hmem b x).mp hb with
      | inl hb => exact absurd hb (hfresh ha.2)
      | inr hb => exact ha.1.trans hb.1.symm
  · rw [children_insert]
    split
    · rw [← children_of_find? hparent]
      refine nodup_append.mpr ⟨h.nodup p, hnodup, ?_⟩
      rintro x hx y hy rfl
      exact hfresh hy hx
    · exact h.nodup y

/-- The actions that add or remove links, or tokens that may have some. -/
def ContractAction.relinks : ContractAction → Bool
  | .burnnft .. | .linknfts .. | .unlinknfts .. => true
  | _ => false

theorem Grown.children {P : Dream → Prop} (h : Grown P s.dreams s'.dreams)
    (hP : ∀ token, P token → token.children = []) : s'.children = s.children := by
  funext y
  unfold Contract.children
  obtain hsame | ⟨hnone, token, htoken, hchildren⟩ := h y
  · rw [hsame]
  · rw [hnone, htoken]
    exact hP token hchildren

theorem Relocated.exists {toAccount : AccountName} {l : List Nat} {x : Nat}
    (h : Relocated toAccount l s s') (hx : s.dreams.find? x ≠ none) : s'.dreams.find? x ≠ none := by
  by_cases hl : x ∈ l
  · obtain ⟨token, -, -, hmoved⟩ := h.moved x hl
    rw [hmoved]
    exact nofun
  · rw [h.kept x hl]
    exact hx

theorem Effect.family (heff : Effect self ctx a s s') (ha : a.relinks = false) :
    s'.children = s.children ∧ s'.linkedNfts = s.linkedNfts ∧
      ∀ x, s.dreams.find? x ≠ none → s'.dreams.find? x ≠ none := by
  cases heff with
  | issue _ _ _ _ _ hgrown =>
    refine ⟨Grown.children hgrown fun token htoken => htoken.1, rfl, fun x hx => ?_⟩
    cases hgrown x with
    | inl hsame => exact hsame ▸ hx
    | inr hnew => exact absurd hnew.1 hx
  | transfernft _ _ _ hmove | nftPurchase _ _ _ _ _ hmove =>
    obtain ⟨order, -, hrelocated⟩ := changeOwner_relocated hmove
    exact ⟨hrelocated.children, rfl, fun x => hrelocated.exists⟩
  | burnnft | linknfts | unlinknfts => cases ha
  | _ => exact ⟨rfl, rfl, fun x hx => hx⟩

theorem children_burned (stats : FlatMap TokenType DreamStats) (accounts : Accounts)
    {dreams : Dreams} {l : List Nat}
    (h : ∀ y, dreams.find? y = if y ∈ l then none else s.dreams.find? y) (y : Nat) :
    Contract.children
        { s with dreamStats := stats, accounts, dreams } y =
      if y ∈ l then [] else s.children y := by
  simp only [Contract.children, h]
  by_cases hy : y ∈ l <;> simp [hy]

end Families

section LinkTable

/-- The link table holds the children of all tokens. Each is the child of one token, once, and
is there. -/
structure LinksConsistent (s : Contract) : Prop where
  linked_iff : ∀ c, s.linked c ↔ ∃ p, c ∈ s.children p
  parents : UniqueParents s.children
  child : ∀ {p c}, c ∈ s.children p → s.dreams.find? c ≠ none

def ContractAction.burned : ContractAction → List Nat
  | .burnnft _ nftIds => nftIds
  | _ => []

/-- The pairs of a child and the parent it is unlinked from. -/
def ContractAction.unlinked : ContractAction → List (Nat × Nat)
  | .unlinknfts nftIds linkedTo _ => nftIds.map fun x => (x, linkedTo)
  | _ => []

/-- Only tokens without links are burned, and children are unlinked from their own parent. -/
def RespectsLinks (s : Contract) (a : ContractAction) : Prop :=
  (∀ x ∈ a.burned, ¬ s.linked x ∧ s.children x = []) ∧
    ∀ e ∈ a.unlinked, e.1 ∈ s.children e.2

instance : Decidable (RespectsLinks s a) := inferInstanceAs (Decidable (_ ∧ _))

theorem respectsLinks_of_other (hburned : a.burned = []) (hunlinked : a.unlinked = []) :
    RespectsLinks s a := by
  constructor
  · rw [hburned]
    exact fun x hx => absurd hx not_mem_nil
  · rw [hunlinked]
    exact fun e he => absurd he not_mem_nil

variable {nftIds : List Nat} {links : FlatMap Nat Unit}

variable {owner : AccountName} {p : Nat} {parent : Dream}

section

variable (h : LinksConsistent s)
include h

theorem LinksConsistent.burnnft_iff {stats accounts dreams}
    (hdreams : ∀ y, dreams.find? y = if y ∈ nftIds then none else s.dreams.find? y) :
    LinksConsistent { s with dreamStats := stats, accounts, dreams } ↔
      RespectsLinks s (.burnnft owner nftIds) := by
  have hchildren := children_burned stats accounts hdreams
  constructor
  · intro h'
    refine ⟨fun x hx => ⟨fun hlinked => ?_, ?_⟩, fun e he => absurd he not_mem_nil⟩
    · obtain ⟨p, hp⟩ := (h'.linked_iff x).mp hlinked
      have hthere : dreams.find? x ≠ none := h'.child hp
      have hx : x ∈ nftIds := hx
      rw [hdreams, if_pos hx] at hthere
      exact hthere rfl
    · refine eq_nil_iff_forall_not_mem.mpr fun c hc => ?_
      obtain ⟨p, hp⟩ := (h'.linked_iff c).mp ((h.linked_iff c).mpr ⟨x, hc⟩)
      rw [hchildren] at hp
      split at hp
      · cases hp
      · rename_i hpl
        exact hpl (h.parents.unique hp hc ▸ hx)
  · rintro ⟨hburned, -⟩
    have hsame : ∀ y, (if y ∈ nftIds then [] else s.children y) = s.children y := by
      intro y
      split
      · rename_i hy
        exact (hburned y hy).2.symm
      · rfl
    refine ⟨fun c => ?_, ⟨fun {a b x} ha hb => ?_, fun y => ?_⟩, fun {p c} hc => ?_⟩
    · simp only [hchildren, hsame]
      exact h.linked_iff c
    · rw [hchildren, hsame] at ha hb
      exact h.parents.unique ha hb
    · rw [hchildren, hsame]
      exact h.parents.nodup y
    · rw [hchildren, hsame] at hc
      have hnot : c ∉ nftIds := fun hmem => (hburned c hmem).1 ((h.linked_iff c).mpr ⟨p, hc⟩)
      rw [hdreams, if_neg hnot]
      exact h.child hc

theorem LinksConsistent.linknfts (hparent : s.dreams.find? p = some parent)
    (hids : ∀ x ∈ nftIds, (∃ child, s.dreams.find? x = some child ∧
      parent.owner = child.owner) ∧ ¬ s.linked x)
    (hlinks : ∀ y, links.find? y = if y ∈ nftIds then some () else s.linkedNfts.find? y)
    (hnodup : nftIds.Nodup) : LinksConsistent { s with
      linkedNfts := links
      dreams := s.dreams.insert p { parent with children := parent.children ++ nftIds } } := by
  have hmem := mem_children_linked links nftIds hparent
  have hfresh : ∀ {x q}, x ∈ nftIds → x ∉ s.children q :=
    fun hx hq => (hids _ hx).2 ((h.linked_iff _).mpr ⟨_, hq⟩)
  have hthere : ∀ y, s.dreams.find? y ≠ none → (s.dreams.insert p
      { parent with children := parent.children ++ nftIds }).find? y ≠ none := by
    intro y hy
    rw [FlatMap.find?_insert]
    split
    · exact nofun
    · exact hy
  refine ⟨fun c => ?_, uniqueParents_linked links hparent h.parents hfresh hnodup,
    fun {q c} hc => ?_⟩
  · show links.find? c ≠ none ↔ _
    simp only [hlinks, hmem]
    by_cases hc : c ∈ nftIds
    · rw [if_pos hc]
      exact iff_of_true nofun ⟨p, .inr ⟨rfl, hc⟩⟩
    · rw [if_neg hc]
      refine (h.linked_iff c).trans (exists_congr fun q => ?_)
      exact ⟨Or.inl, fun hq => hq.resolve_right fun hnew => hc hnew.2⟩
  · refine hthere c ?_
    cases (hmem q c).mp hc with
    | inl hold => exact h.child hold
    | inr hnew =>
      obtain ⟨⟨child, hchild, -⟩, -⟩ := hids c hnew.2
      rw [hchild]
      exact nofun

theorem LinksConsistent.unlinknfts_iff (hparent : s.dreams.find? p = some parent)
    (hids : ∀ x ∈ nftIds, s.dreams.find? x ≠ none ∧ s.linked x)
    (hlinks : ∀ y, links.find? y = if y ∈ nftIds then none else s.linkedNfts.find? y) :
    LinksConsistent { s with
      linkedNfts := links
      dreams := s.dreams.insert p
        { parent with children := parent.children.filter fun x => x ∉ nftIds } } ↔
      RespectsLinks s (.unlinknfts nftIds p owner) := by
  have hmem := mem_children_unlinked links nftIds hparent
  constructor
  · intro h'
    refine ⟨fun x hx => absurd hx not_mem_nil, fun e he => ?_⟩
    obtain ⟨x, hx, rfl⟩ := mem_map.mp he
    obtain ⟨q, hq⟩ := (h.linked_iff x).mp (hids x hx).2
    by_cases hqp : q = p
    · exact hqp ▸ hq
    · have hstill : links.find? x ≠ none :=
        (h'.linked_iff x).mpr ⟨q, (hmem q x).mpr ⟨hq, fun heq => absurd heq hqp⟩⟩
      rw [hlinks, if_pos hx] at hstill
      exact absurd rfl hstill
  · rintro ⟨-, hunlinked⟩
    have hown : ∀ x ∈ nftIds, x ∈ s.children p :=
      fun x hx => hunlinked (x, p) (mem_map.mpr ⟨x, hx, rfl⟩)
    refine ⟨fun c => ?_, ⟨fun {a b x} ha hb => ?_, fun y => ?_⟩, fun {q c} hc => ?_⟩
    · show links.find? c ≠ none ↔ _
      simp only [hlinks, hmem]
      by_cases hc : c ∈ nftIds
      · rw [if_pos hc]
        refine iff_of_false (fun hne => hne rfl) ?_
        rintro ⟨q, hq, hnot⟩
        exact hnot (h.parents.unique hq (hown c hc)) hc
      · rw [if_neg hc]
        exact (h.linked_iff c).trans (exists_congr fun q => (and_iff_left fun _ => hc).symm)
    · exact h.parents.unique ((hmem a x).mp ha).1 ((hmem b x).mp hb).1
    · rw [children_insert]
      split
      · rw [← children_of_find? hparent]
        exact (h.parents.nodup p).filter _
      · exact h.parents.nodup y
    · rw [FlatMap.find?_insert]
      split
      · exact nofun
      · exact h.child ((hmem q c).mp hc).1

theorem LinksConsistent.effect_iff (heff : Effect self ctx a s s') :
    LinksConsistent s' ↔ RespectsLinks s a := by
  have hkept : a.relinks = false → LinksConsistent s' := by
    intro ha
    obtain ⟨hchildren, hlinks, hthere⟩ := heff.family ha
    refine ⟨fun c => ?_, hchildren ▸ h.parents, fun hc => hthere _ (h.child (hchildren ▸ hc))⟩
    rw [Contract.linked, hlinks, hchildren]
    exact h.linked_iff c
  cases heff with
  | burnnft _ hdreams => exact h.burnnft_iff hdreams
  | linknfts hparent hids hlinks hnodup =>
    exact iff_of_true (h.linknfts hparent hids hlinks hnodup) (respectsLinks_of_other rfl rfl)
  | unlinknfts hparent hids hlinks => exact h.unlinknfts_iff hparent hids hlinks
  | _ => exact iff_of_true (hkept rfl) (respectsLinks_of_other rfl rfl)

end

/-- The two records of the links agree along a run exactly when no token with links is burned in
it and every child is unlinked from its own parent. -/
theorem links_consistent_iff {l : List (Transition Contract Call)} (h : ContractRun self l s) :
    (∀ t ∈ l, LinksConsistent t.after) ↔ ∀ t ∈ l, RespectsLinks t.before t.action.action := by
  have hnone : ∀ p, Contract.children {} p = [] := fun _ => rfl
  refine h.guarded_iff ⟨fun c => ?_, ⟨nofun, fun p => nodup_nil⟩, nofun⟩
    fun t hstep ht => ht.effect_iff (apply_effect hstep)
  refine iff_of_false (fun hne => hne rfl) ?_
  rintro ⟨p, hp⟩
  exact absurd (hnone p ▸ hp) not_mem_nil

theorem links_consistent_iff_unlinked : ∃ l s, ContractRun 1 l s ∧
    (∀ t ∈ l, LinksConsistent t.after) ∧ s.children 0 = [2] ∧ s.dreams.find? 1 = none :=
  exists_run_of (deployment true true ++
      [.signedBy 3 0 (.linknfts [1, 2] 0 3), .signedBy 3 0 (.unlinknfts [1] 0 3),
        .signedBy 3 0 (.burnnft 3 [1])])
    (fun hrun => (links_consistent_iff hrun).mpr) (by decide +kernel)

/-- A child is unlinked from a token that is not its parent, and a linked token is burned. -/
theorem links_diverge : ∃ l s, ContractRun 1 l s ∧
    1 ∈ s.children 0 ∧ ¬ s.linked 1 ∧ s.linked 3 ∧ s.dreams.find? 3 = none := by
  exact exists_run 1 (deployment true true ++
      [.signedBy 2 0 (.issue 3 10 11 ⟨1, dreamSymbol⟩ "" []),
        .signedBy 3 0 (.linknfts [1, 3] 0 3), .signedBy 3 0 (.unlinknfts [1] 2 3),
        .signedBy 3 0 (.burnnft 3 [3])]) _ (by decide +kernel)

end LinkTable

section Cycles

def ContractAction.linkedPairs : ContractAction → List (Nat × Nat)
  | .linknfts nftIds linkTo _ => nftIds.map fun x => (x, linkTo)
  | _ => []

def NoCycles (s : Contract) : Prop := Acyclic s.children

/-- No token is linked to itself or to a token below it. -/
def ClosesNoCycle (t : Transition Contract Call) : Prop :=
  ∀ e ∈ t.action.action.linkedPairs, ¬ Reach t.before.children e.1 e.2

theorem NoCycles.effect_iff (h : NoCycles s) (heff : Effect self ctx a s s') :
    NoCycles s' ↔ ∀ e ∈ a.linkedPairs, ¬ Reach s.children e.1 e.2 := by
  have hnil : a.linkedPairs = [] → ∀ e ∈ a.linkedPairs, ¬ Reach s.children e.1 e.2 := by
    intro ha e he
    rw [ha] at he
    cases he
  have hkept : a.relinks = false → NoCycles s' := fun ha => by
    rw [NoCycles, (heff.family ha).1]
    exact h
  cases heff with
  | burnnft _ hdreams =>
    refine iff_of_true (Acyclic.mono h fun x y hy => ?_) (hnil rfl)
    rw [children_burned _ _ hdreams] at hy
    split at hy
    · cases hy
    · exact hy
  | linknfts hparent =>
    refine (Acyclic.added_iff h (mem_children_linked _ _ hparent)).trans ?_
    simp [ContractAction.linkedPairs]
  | unlinknfts hparent =>
    refine iff_of_true (Acyclic.mono h fun x y hy => ?_) (hnil rfl)
    rw [children_insert, ← children_of_find? hparent] at hy
    split at hy
    · rename_i hx
      exact hx ▸ (mem_filter.mp hy).1
    · exact hy
  | _ => exact iff_of_true (hkept rfl) (hnil rfl)

/-- The failures other than a recursion that nests too deep. -/
def Ends {α : Type} (x : Guarded α) (Q : α → Prop) : Prop := Meets x Q (· ≠ .callDepth)

variable {message : String} {κ ρ : Type} {b quantity : Asset} {owner : AccountName} {id : Nat}
  {accounts : Accounts} {token : Dream}

theorem check_ends {c : Prop} [Decidable c] : Ends (check c message) fun _ => True := by
  unfold check
  split
  · trivial
  · exact nofun

theorem get_ends [LinearOrder κ] {table : FlatMap κ ρ} {k : κ} :
    Ends (get table k message) fun row => table.find? k = some row := by
  unfold get
  split
  · rename_i row hrow
    exact hrow
  · exact nofun

theorem emplace_ends [LinearOrder κ] {table : FlatMap κ ρ} {k : κ} {row : ρ} :
    Ends (emplace table k row) fun _ => True := by
  unfold emplace
  split
  · exact nofun
  · trivial

theorem make_ends {amount symbol} : Ends (Asset.make amount symbol) fun _ => True :=
  check_ends.bind fun _ _ => check_ends.bind fun _ _ => trivial

theorem add_ends {a : Asset} : Ends (a.add b) fun _ => True :=
  check_ends.bind fun _ _ => check_ends.bind fun _ _ => check_ends.bind fun _ _ => trivial

theorem sub_ends {a : Asset} : Ends (a.sub b) fun _ => True :=
  check_ends.bind fun _ _ => check_ends.bind fun _ _ => check_ends.bind fun _ _ => trivial

theorem addBalance_ends {category tokenName : Nat} :
    Ends (addBalance owner category tokenName id quantity accounts) fun _ => True := by
  unfold addBalance
  split
  · trivial
  · exact add_ends.bind fun _ _ => trivial

theorem subBalance_ends : Ends (subBalance owner id quantity accounts) fun _ => True := by
  refine get_ends.bind fun acct _ => check_ends.bind fun _ _ => ?_
  split
  · trivial
  · exact sub_ends.bind fun _ _ => trivial

variable {next : Nat → List Nat} {fromAccount toAccount : AccountName} {istransfer : Bool}
  {x n : Nat} {l : List Nat}

theorem moveToken_ends (hs : s.children = next) (htoken : token.children = next x) :
    Ends (moveToken fromAccount toAccount istransfer x token s) fun t => t.children = next := by
  refine get_ends.bind fun stats _ => check_ends.bind fun _ _ => check_ends.bind fun _ _ =>
    make_ends.bind fun quantity _ => subBalance_ends.bind fun accounts₁ _ =>
    addBalance_ends.bind fun accounts _ => ?_
  funext y
  refine (children_insert s.linkedNfts x { token with owner := toAccount } y).trans ?_
  split
  · rename_i hxy
    exact hxy ▸ htoken
  · exact congrFun hs y

theorem moveFamilies_ends {moveChildren : List Nat → Contract → Guarded Contract}
    (hchildren : ∀ x ∈ l, ∀ t : Contract, t.children = next →
      Ends (moveChildren (next x) t) fun t => t.children = next)
    (hs : s.children = next) :
    Ends (l.foldlM (moveFamily moveChildren fromAccount toAccount istransfer) s)
      fun t => t.children = next := by
  refine Meets.foldlM (fun x hx t ht => ?_) hs
  refine get_ends.bind fun token htoken => check_ends.bind fun _ _ => ?_
  have hnext : token.children = next x := ht ▸ (children_of_find? htoken).symm
  rw [hnext]
  exact (hchildren x hx t ht).bind fun t' ht' => moveToken_ends ht' hnext

theorem changeOwner_ends (hl : ∀ x ∈ l, Height next (n + 1) x) (hs : s.children = next) :
    Ends (changeOwner fromAccount toAccount (n + 1) istransfer l s) fun t => t.children = next := by
  induction n generalizing l s istransfer with
  | zero =>
    refine check_ends.bind fun _ _ => moveFamilies_ends (fun x hx t ht => ?_) hs
    have hleaf : next x = [] := eq_nil_iff_forall_not_mem.mpr fun y hy => hl x hx y hy
    rw [hleaf]
    exact ht
  | succ n ih =>
    refine check_ends.bind fun _ _ => moveFamilies_ends (fun x hx t ht => ?_) hs
    split
    · exact ht
    · exact ih (hl x hx) ht

theorem createLicence_ends {toAccounts period relicense}
    (hx : Height next n x) (hs : s.children = next) :
    Ends (createLicence self ctx owner toAccounts period relicense n s x)
      fun t => t.children = next := by
  induction n generalizing x s with
  | zero => exact hx.elim
  | succ n ih =>
    have hid : Ends (nextLicenceId s) fun p => p.2.children = next ∧ p.2.dreams = s.dreams := by
      unfold nextLicenceId configOf
      split
      · exact ⟨hs, rfl⟩
      · exact nofun
    refine hid.bind fun p hp => ?_
    refine emplace_ends.bind fun licences _ => get_ends.bind fun token htoken => ?_
    have hnext : token.children = next x := hp.1 ▸ (children_of_find? htoken).symm
    exact Meets.foldlM (fun y hy t ht => ih (hx y (hnext ▸ hy)) ht) hp.1

/-- The links have no cycle along a run exactly when none is closed in it. Without cycles both
recursions end on every id once the nesting they are granted exceeds the number of tokens. -/
theorem acyclic_iff {l : List (Transition Contract Call)} (h : ContractRun self l s) :
    ((∀ t ∈ l, NoCycles t.after) ↔ ∀ t ∈ l, ClosesNoCycle t) ∧
      (NoCycles s → ∀ n, s.dreams.size < n →
        (∀ fromAccount toAccount istransfer nftIds,
          changeOwner fromAccount toAccount n istransfer nftIds s ≠ .error .callDepth) ∧
        ∀ ctx owner toAccounts period relicense nftId,
          createLicence self ctx owner toAccounts period relicense n s nftId ≠
            .error .callDepth) := by
  have hempty : NoCycles {} := fun x y hy => absurd hy not_mem_nil
  refine ⟨h.guarded_iff hempty fun t hstep ht => ht.effect_iff (apply_effect hstep),
    fun hs n hn => ?_⟩
  have hkeys : ∀ x, s.children x ≠ [] → x ∈ s.dreams.keys := by
    intro x hx
    obtain ⟨c, hc⟩ := exists_mem_of_ne_nil _ hx
    obtain ⟨parent, hparent, -⟩ := exists_of_mem_children hc
    exact FlatMap.mem_keys_of_find? hparent
  have hlength : s.dreams.keys.length = s.dreams.size := length_map _
  have hheight : ∀ x, Height s.children n x := by
    obtain ⟨k, rfl⟩ := Nat.exists_eq_add_of_lt hn
    have hall : ∀ k x, Height s.children (s.dreams.size + k + 1) x := by
      intro k
      induction k with
      | zero => exact fun x => hlength ▸ Acyclic.height hs hkeys x
      | succ k ih => exact fun x => (ih x).succ
    exact hall k
  refine ⟨fun f t b ids herror => ?_, fun ctx owner tos period re x herror => ?_⟩
  · cases n with
    | zero => exact absurd hn (Nat.not_lt_zero _)
    | succ n => exact (changeOwner_ends (fun x _ => hheight x) rfl).of_error herror rfl
  · exact (createLicence_ends (hheight x) rfl).of_error herror rfl

theorem not_reach_of_leaf {x y : Nat} (h : next x = []) (hne : x ≠ y) : ¬ Reach next x y := by
  intro hr
  obtain heq | ⟨z, hz, -⟩ := reach_iff.mp hr
  · exact hne heq.symm
  · rw [h] at hz
    cases hz

theorem acyclic_iff_chain : ∃ l s, ContractRun 1 l s ∧ (∀ t ∈ l, NoCycles t.after) ∧
    s.children 0 = [1] ∧ s.children 1 = [2] := by
  obtain ⟨l, s, hrun, hpairs, hchain⟩ := exists_run 1 (deployment true true ++
      [.signedBy 3 0 (.linknfts [2] 1 3), .signedBy 3 0 (.linknfts [1] 0 3)])
    (fun l s => (∀ t ∈ l, ∀ e ∈ t.action.action.linkedPairs, e.1 ≠ e.2 ∧
        (t.before.children e.1 = [] ∨
          t.before.children e.1 = [2] ∧ t.before.children 2 = [] ∧ e.2 ≠ 2)) ∧
      s.children 0 = [1] ∧ s.children 1 = [2])
    (by decide +kernel)
  refine ⟨l, s, hrun, (acyclic_iff hrun).1.mpr fun t ht e he => ?_, hchain⟩
  obtain ⟨hne, hleaf | ⟨hnext, hleaf, hne₂⟩⟩ := hpairs t ht e he
  · exact not_reach_of_leaf hleaf hne
  · intro hr
    obtain heq | ⟨z, hz, hz'⟩ := reach_iff.mp hr
    · exact hne heq.symm
    · rw [hnext, mem_singleton] at hz
      subst hz
      exact not_reach_of_leaf hleaf (Ne.symm hne₂) hz'

/-- A token that is its own child is never moved, whatever nesting is granted. -/
theorem changeOwner_self_linked (htoken : s.dreams.find? x = some token)
    (hchildren : token.children = [x]) (hfree : ¬ s.locked x) :
    changeOwner fromAccount toAccount n istransfer [x] s = .error .callDepth := by
  induction n generalizing istransfer with
  | zero => rfl
  | succ n ih =>
    have hnone : s.lockedNfts.find? x = none := not_ne_iff.mp hfree
    simp only [changeOwner, check, length_singleton, (by decide : 1 ≤ 20), if_true,
      foldlM_cons, moveFamily, get, htoken, hnone, hchildren, isEmpty_cons,
      Bool.false_eq_true, if_false, bind, Except.bind, ih]

/-- A token is linked to itself. -/
theorem link_closes_cycle : ∃ l s, ContractRun 1 l s ∧ 0 ∈ s.children 0 ∧
    ∀ n, changeOwner 3 4 n false [0] s = .error .callDepth := by
  obtain ⟨l, s, hrun, hfree, token, htoken, hchildren⟩ := exists_run 1
    (deployment true true ++ [.signedBy 3 0 (.linknfts [0] 0 3)])
    (fun _ s => ¬ s.locked 0 ∧ ∃ token, s.dreams.find? 0 = some token ∧ token.children = [0])
    (by decide +kernel)
  refine ⟨l, s, hrun, ?_, fun n => changeOwner_self_linked htoken hchildren hfree⟩
  rw [children_of_find? htoken, hchildren]
  exact mem_singleton_self 0

end Cycles

end DreamChain.Dreamoji
