import DreamChain.Dreamoji.TokenLoops
import DreamChain.Library.FlatMapLoop
import DreamChain.Library.Run

/-!
What a successful action does. `Effect` says, action by action, what was checked and which
tables are new, with the loops over token ids resolved as far as possible; every invariant of
the contract is proved from it.
-/

namespace DreamChain.Dreamoji
open Library List FlatMap

inductive ContractAction where
  | instantiate (sym : Nat) (version : String)
  | create (issuer revPartner : AccountName) (category tokenName : Nat)
      (fungible burnable sellable transferable : Bool) (revSplit : ℚ) (baseUri : String)
      (maxIssueDays : Nat) (maxSupply : Asset)
  | issue (toAccount : AccountName) (category tokenName : Nat) (quantity : Asset)
      (relativeUri : String) (memo : List Char)
  | freezemaxsup (category tokenName : Nat)
  | burnnft (owner : AccountName) (nftIds : List Nat)
  | burnft (owner : AccountName) (categoryNameId : Nat) (quantity : Asset)
  | transfernft (fromAccount toAccount : AccountName) (nftIds : List Nat)
  | transferft (fromAccount toAccount : AccountName) (category tokenName : Nat)
      (quantity : Asset) (memo : List Char)
  | nftokensale (seller : AccountName) (nftIds : List Nat) (netSaleAmount : Asset)
      (salePeriodSec : Nat)
  | licencesale (seller : AccountName) (price : Asset) (nftIds : List Nat) (lcncLimit : Nat)
      (salePeriodSec lcncPeriodSec : Nat)
  | license (owner : AccountName) (toAccounts : List AccountName) (nftIds : List Nat)
      (period : Nat) (relicense : Bool)
  | extend (owner : AccountName) (lcncId period : Nat)
  | revoke (owner : AccountName) (fromAccounts : List AccountName) (lcncIds : List Nat)
  | endnftsale (seller : AccountName) (batchId : Nat)
  | endlcncsale (seller : AccountName) (nftId : Nat)
  | linknfts (nftIds : List Nat) (linkTo : Nat) (owner : AccountName)
  | unlinknfts (nftIds : List Nat) (linkedTo : Nat) (owner : AccountName)
  | log (action : InlineAction)
  /-- The notification of a transfer of the token contract. -/
  | purchase (fromAccount toAccount : AccountName) (quantity : Asset) (memo : List Char)

def apply (self : AccountName) (ctx : Context) : ContractAction → Contract → Guarded Contract
  | .instantiate sym version => instantiate self ctx sym version
  | .create issuer revPartner category tokenName fungible burnable sellable transferable revSplit
      baseUri maxIssueDays maxSupply =>
      create ctx issuer revPartner category tokenName fungible burnable sellable transferable
        revSplit baseUri maxIssueDays maxSupply
  | .issue toAccount category tokenName quantity relativeUri memo =>
    issue ctx toAccount category tokenName quantity relativeUri memo
  | .freezemaxsup category tokenName => freezemaxsup self ctx category tokenName
  | .burnnft owner nftIds => burnnft ctx owner nftIds
  | .burnft owner categoryNameId quantity => burnft ctx owner categoryNameId quantity
  | .transfernft fromAccount toAccount nftIds => transfernft ctx fromAccount toAccount nftIds
  | .transferft fromAccount toAccount category tokenName quantity memo =>
    transferft ctx fromAccount toAccount category tokenName quantity memo
  | .nftokensale seller nftIds netSaleAmount salePeriodSec =>
    nftokensale ctx seller nftIds netSaleAmount salePeriodSec
  | .licencesale seller price nftIds lcncLimit salePeriodSec lcncPeriodSec =>
    licencesale ctx seller price nftIds lcncLimit salePeriodSec lcncPeriodSec
  | .license owner toAccounts nftIds period relicense =>
    license self ctx owner toAccounts nftIds period relicense
  | .extend owner lcncId period => extend ctx owner lcncId period
  | .revoke owner fromAccounts lcncIds => revoke ctx owner fromAccounts lcncIds
  | .endnftsale seller batchId => endnftsale ctx seller batchId
  | .endlcncsale seller nftId => endlcncsale ctx seller nftId
  | .linknfts nftIds linkTo owner => linknfts ctx nftIds linkTo owner
  | .unlinknfts nftIds linkedTo owner => unlinknfts ctx nftIds linkedTo owner
  | .log _ => logAction self ctx
  | .purchase fromAccount toAccount quantity memo =>
    purchase self ctx fromAccount toAccount quantity memo

structure Call where
  context : Context
  action : ContractAction

def Step (self : AccountName) (s : Contract) (c : Call) (s' : Contract) : Prop :=
  apply self c.context c.action s = .ok s'

abbrev ContractRun (self : AccountName) : List (Transition Contract Call) → Contract → Prop :=
  Run (Step self) {}

def execute (self : AccountName) (calls : List Call) :
    Guarded (List (Transition Contract Call) × Contract) :=
  calls.foldlM (fun run c => do
    let s ← apply self c.context c.action run.2
    .ok (⟨run.2, c, s⟩ :: run.1, s)) ([], {})

theorem execute_run {self calls run} (h : execute self calls = .ok run) :
    ContractRun self run.1 run.2 := by
  refine foldlM_ok_induction (I := fun run =>
    ContractRun self run.1 run.2) (fun c _ run run' hrun hc => ?_) Run.start h
  obtain ⟨s, hs, hc⟩ := bind_eq_ok.mp hc
  cases hc
  exact Run.next hrun hs

theorem exists_run (self : AccountName) (calls : List Call)
    (P : List (Transition Contract Call) → Contract → Prop)
    (h : ∃ run, execute self calls = .ok run ∧ P run.1 run.2) : ∃ l s, ContractRun self l s ∧ P l s := by
  obtain ⟨run, hrun, hP⟩ := h
  exact ⟨run.1, run.2, execute_run hrun, hP⟩

/-- The first part follows from what was computed of the run. -/
theorem exists_run_of {self : AccountName} {P Q R : List (Transition Contract Call) → Contract → Prop}
    (calls : List Call) (hQ : ∀ {l s}, ContractRun self l s → P l s → Q l s)
    (h : ∃ run, execute self calls = .ok run ∧ P run.1 run.2 ∧ R run.1 run.2) :
    ∃ l s, ContractRun self l s ∧ Q l s ∧ R l s := by
  obtain ⟨run, hrun, hP, hR⟩ := h
  exact ⟨run.1, run.2, execute_run hrun, hQ (execute_run hrun) hP, hR⟩

theorem exists_step (self : AccountName) (calls : List Call) (c : Call)
    (P : Contract → Contract → Prop)
    (h : ∃ run, execute self calls = .ok run ∧
      ∃ s', apply self c.context c.action run.2 = .ok s' ∧ P run.2 s') :
    ∃ l s s', ContractRun self l s ∧ Step self s c s' ∧ P s s' := by
  obtain ⟨run, hrun, s', hs', hP⟩ := h
  exact ⟨run.1, run.2, s', execute_run hrun, hs', hP⟩

/-- An action signed by one account, on a chain that has every account. -/
def Call.signedBy (account : AccountName) (now : Nat) (action : ContractAction) : Call :=
  ⟨⟨[account], fun _ => true, now, 20, 0⟩, action⟩

def dreamSymbol : Symbol := mkSymbol (symbolCode "DREAM".toList) 0

/-- A contract under the account 1 with a non-fungible type of the issuer 2, three of whose
tokens are issued to the account 3. -/
def deployment (burnable transferable : Bool) : List Call :=
  [.signedBy 1 0 (.instantiate dreamSymbol.code "1"),
    .signedBy 2 0 (.create 2 2 10 11 false burnable true transferable 0 "" 0 ⟨5, dreamSymbol⟩),
    .signedBy 2 0 (.issue 3 10 11 ⟨3, dreamSymbol⟩ "" [])]

/-- The number a transfer's memo selects is that of a listed batch or of an offered token. -/
def Orders (memo : List Char) (saleTypes : List (List Char)) (receiver : AccountName)
    (assetId : Nat) : Prop :=
  ∃ saleType ∈ saleTypes, stringTupler memo = .ok (saleType, receiver, assetId)

inductive Effect (self : AccountName) (ctx : Context) : ContractAction → Contract → Contract → Prop
  | instantiate {sym version s} :
      Effect self ctx (.instantiate sym version) s
        { s with
          tokenConfigs := some { (s.tokenConfigs.getD ⟨version, sym, 0, 0, 0⟩) with version } }
  | create {issuer revPartner category tokenName fungible burnable sellable transferable revSplit
      baseUri maxIssueDays maxSupply s config row} (hconfig : s.tokenConfigs = some config)
      (hnew : s.dreamStats.find? (toLex (category, tokenName)) = none)
      (hid : row.categoryNameId = config.categoryNameId)
      (hcurrent : row.currentSupply.amount = 0) (hissued : row.issuedSupply.amount = 0)
      (hmax : 0 ≤ row.maxSupply.amount) :
      Effect self ctx (.create issuer revPartner category tokenName fungible burnable sellable
          transferable revSplit baseUri maxIssueDays maxSupply) s
        { s with
          categoryInfo := s.categoryInfo.insert category ()
          dreamStats := s.dreamStats.insert (toLex (category, tokenName)) row
          tokenConfigs := some { config with categoryNameId := u64 (config.categoryNameId + 1) } }
  | issue {toAccount category tokenName quantity relativeUri memo s dreamStats config dreams sent
      accounts currentSupply issuedSupply}
      (hstats : s.dreamStats.find? (toLex (category, tokenName)) = some dreamStats)
      (hpos : 0 < quantity.amount)
      (hmax : dreamStats.maxSupply.amount ≠ 0 →
        quantity.amount ≤ dreamStats.maxSupply.amount - dreamStats.issuedSupply.amount)
      (hmint : mintTokens toAccount category tokenName quantity relativeUri dreamStats s =
        .ok { s with tokenConfigs := config, dreams, sent })
      (hid : config.map TokenConfigs.categoryNameId =
        s.tokenConfigs.map TokenConfigs.categoryNameId)
      (hgrown : Grown (fun token => token.children = [] ∧ token.owner = toAccount ∧
        token.type = toLex (category, tokenName)) s.dreams dreams)
      (haccounts : addBalance toAccount category tokenName dreamStats.categoryNameId quantity
        s.accounts = .ok accounts)
      (hcurrent : dreamStats.currentSupply.add quantity = .ok currentSupply)
      (hissued : dreamStats.issuedSupply.add quantity = .ok issuedSupply) :
      Effect self ctx (.issue toAccount category tokenName quantity relativeUri memo) s
        { s with
          tokenConfigs := config, dreams, sent, accounts
          dreamStats := s.dreamStats.insert (toLex (category, tokenName))
            { dreamStats with currentSupply, issuedSupply } }
  | freezemaxsup {category tokenName s dreamStats}
      (hstats : s.dreamStats.find? (toLex (category, tokenName)) = some dreamStats) :
      Effect self ctx (.freezemaxsup category tokenName) s
        { s with
          dreamStats := s.dreamStats.insert (toLex (category, tokenName))
            { dreamStats with maxSupply := dreamStats.issuedSupply, maxIssueWindow := 0 } }
  | burnnft {owner nftIds s dreamStats accounts dreams} (hburn : nftIds.foldlM (burnToken owner) s =
        .ok { s with dreamStats, accounts, dreams })
      (hdreams : ∀ y, dreams.find? y = if y ∈ nftIds then none else s.dreams.find? y)
      (hids : ∀ x ∈ nftIds, s.dreams.find? x ≠ none ∧ ¬ s.locked x) :
      Effect self ctx (.burnnft owner nftIds) s
        { s with dreamStats, accounts, dreams }
  | burnft {owner categoryNameId quantity s acct dreamStats accounts currentSupply}
      (hacct : s.accounts.find? (toLex (owner, categoryNameId)) = some acct)
      (hstats : s.dreamStats.find? acct.type = some dreamStats)
      (hpos : 0 < quantity.amount)
      (haccounts : subBalance owner categoryNameId quantity s.accounts = .ok accounts)
      (hcurrent : dreamStats.currentSupply.sub quantity = .ok currentSupply) :
      Effect self ctx (.burnft owner categoryNameId quantity) s
        { s with
          accounts
          dreamStats := s.dreamStats.insert acct.type { dreamStats with currentSupply } }
  | transfernft {fromAccount toAccount nftIds s dreams accounts}
      (hauth : fromAccount ∈ ctx.authorizers) (hne : fromAccount ≠ toAccount)
      (hfree : ∀ x ∈ nftIds, ¬ s.linked x)
      (hmove : changeOwner fromAccount toAccount ctx.callDepth true nftIds s =
        .ok { s with dreams, accounts }) :
      Effect self ctx (.transfernft fromAccount toAccount nftIds) s
        { s with dreams, accounts }
  | transferft {fromAccount toAccount category tokenName quantity memo s dreamStats accounts₁
      accounts} (hstats : s.dreamStats.find? (toLex (category, tokenName)) = some dreamStats)
      (hfungible : dreamStats.fungible = true) (hpos : 0 < quantity.amount)
      (hsub : subBalance fromAccount dreamStats.categoryNameId quantity s.accounts = .ok accounts₁)
      (hadd : addBalance toAccount category tokenName dreamStats.categoryNameId quantity accounts₁ =
        .ok accounts) :
      Effect self ctx (.transferft fromAccount toAccount category tokenName quantity memo) s
        { s with accounts }
  | nftokensale {seller nftIds netSaleAmount salePeriodSec s lockedNfts}
      (hids : ∀ x ∈ nftIds, (∃ token, s.dreams.find? x = some token ∧ token.owner = seller) ∧
        ¬ s.linked x ∧ ¬ s.locked x)
      (hlocks : ∀ y, lockedNfts.find? y = if y ∈ nftIds then some () else s.lockedNfts.find? y)
      (hnew : s.asks.find? (nftIds.headD ctx.pastEnd) = none) (hnodup : nftIds.Nodup) :
      Effect self ctx (.nftokensale seller nftIds netSaleAmount salePeriodSec) s
        { s with
          lockedNfts
          asks := s.asks.insert (nftIds.headD ctx.pastEnd)
            ⟨nftIds, seller, netSaleAmount, ctx.after salePeriodSec⟩ }
  | licencesale {seller price nftIds lcncLimit salePeriodSec lcncPeriodSec s row lockedNfts sales}
      (hrow : row.seller = seller)
      (hids : ∀ x ∈ nftIds, ∃ token, s.dreams.find? x = some token ∧ token.owner = seller)
      (hlocks : ∀ y, lockedNfts.find? y = if y ∈ nftIds then some () else s.lockedNfts.find? y)
      (hsales : ∀ y, sales.find? y = if y ∈ nftIds then some row else s.sales.find? y) :
      Effect self ctx (.licencesale seller price nftIds lcncLimit salePeriodSec lcncPeriodSec) s
        { s with lockedNfts, sales }
  | license {owner toAccounts nftIds period relicense s config licences lockedNfts sent}
      (hauth : owner ∈ ctx.authorizers)
      (hlicense : nftIds.foldlM (licenseToken self ctx owner toAccounts period relicense) s =
        .ok { s with tokenConfigs := config, licences, lockedNfts, sent })
      (hid : config.map TokenConfigs.categoryNameId =
        s.tokenConfigs.map TokenConfigs.categoryNameId)
      (hlocks : ∀ y, s.locked y → lockedNfts.find? y ≠ none) :
      Effect self ctx (.license owner toAccounts nftIds period relicense) s
        { s with tokenConfigs := config, licences, lockedNfts, sent }
  | extend {owner lcncId period s licence}
      (hlicence : s.licences.find? (toLex (owner, lcncId)) = some licence) :
      Effect self ctx (.extend owner lcncId period) s
        { s with
          licences := s.licences.insert (toLex (owner, lcncId))
            { licence with expiration := ctx.after period } }
  | revoke {owner fromAccounts lcncIds s licences lockedNfts}
      (hrevoke : lcncIds.foldlM (revokeLicence ctx owner fromAccounts) s =
        .ok { s with licences, lockedNfts })
      (hlocks : ∀ y, lockedNfts.find? y ≠ none → s.locked y) :
      Effect self ctx (.revoke owner fromAccounts lcncIds) s
        { s with licences, lockedNfts }
  | endnftsale {seller batchId s ask lockedNfts} (hask : s.asks.find? batchId = some ask)
      (hids : ∀ x ∈ ask.nftIds, s.locked x)
      (hlocks : ∀ y, lockedNfts.find? y =
        if y ∈ ask.nftIds then none else s.lockedNfts.find? y) :
      Effect self ctx (.endnftsale seller batchId) s
        { s with lockedNfts, asks := s.asks.erase batchId }
  | endlcncsale {seller nftId s sale}
      (hsale : s.sales.find? nftId = some sale) (hlocked : s.locked nftId) :
      Effect self ctx (.endlcncsale seller nftId) s
        { s with lockedNfts := s.lockedNfts.erase nftId, sales := s.sales.erase nftId }
  | linknfts {nftIds linkTo owner s dreamoji linkedNfts}
      (hparent : s.dreams.find? linkTo = some dreamoji)
      (hids : ∀ x ∈ nftIds, (∃ child, s.dreams.find? x = some child ∧
        dreamoji.owner = child.owner) ∧ ¬ s.linked x)
      (hlinks : ∀ y, linkedNfts.find? y = if y ∈ nftIds then some () else s.linkedNfts.find? y)
      (hnodup : nftIds.Nodup) :
      Effect self ctx (.linknfts nftIds linkTo owner) s
        { s with
          linkedNfts
          dreams := s.dreams.insert linkTo
            { dreamoji with children := dreamoji.children ++ nftIds } }
  | unlinknfts {nftIds linkedTo owner s dreamoji linkedNfts}
      (hparent : s.dreams.find? linkedTo = some dreamoji)
      (hids : ∀ x ∈ nftIds, s.dreams.find? x ≠ none ∧ s.linked x)
      (hlinks : ∀ y, linkedNfts.find? y = if y ∈ nftIds then none else s.linkedNfts.find? y) :
      Effect self ctx (.unlinknfts nftIds linkedTo owner) s
        { s with
          linkedNfts
          dreams := s.dreams.insert linkedTo
            { dreamoji with children := dreamoji.children.filter fun x => x ∉ nftIds } }
  | log {action s} : Effect self ctx (.log action) s s
  /-- Deposits, and transfers that do not concern the contract. -/
  | transferIgnored {fromAccount toAccount quantity memo s}
      : Effect self ctx (.purchase fromAccount toAccount quantity memo) s s
  | nftPurchase {fromAccount receiver quantity memo assetId s ask lockedNfts sent dreams accounts}
      (horder : Orders memo nftSaleTypes receiver assetId)
      (hask : s.asks.find? assetId = some ask)
      (hids : ∀ x ∈ ask.nftIds, s.locked x)
      (hlocks : ∀ y, lockedNfts.find? y = if y ∈ ask.nftIds then none else s.lockedNfts.find? y)
      (hnodup : ask.nftIds.Nodup)
      (hmove : changeOwner ask.seller receiver ctx.callDepth false ask.nftIds
        { s with lockedNfts, sent } =
          .ok { s with lockedNfts, sent, dreams, accounts }) :
      Effect self ctx (.purchase fromAccount self quantity memo) s
        { s with
          lockedNfts, dreams, accounts
          asks := s.asks.erase assetId
          sent := sent ++ [.logsale ask.nftIds ask.seller fromAccount receiver] }
  | licencePurchase {fromAccount receiver quantity memo assetId s sale config licences lockedNfts
      sent} (horder : Orders memo licenceSaleTypes receiver assetId)
      (hsale : s.sales.find? assetId = some sale)
      (hopen : ctx.now < sale.endOfSale ∧ sale.lcncLimit ≠ 0)
      (hlicense : createLicence self ctx sale.seller [receiver] sale.lcncPeriodSec false
        ctx.callDepth
        { s with
          sales := s.sales.insert assetId { sale with lcncLimit := sale.lcncLimit - 1 }
          sent := s.sent ++ (if sale.seller = self then []
            else [.transfer sale.seller sale.price "sending DRMI to the licence seller"]) ++
            [.logsale [assetId] sale.seller fromAccount receiver] } assetId =
        .ok { s with
          sales := s.sales.insert assetId { sale with lcncLimit := sale.lcncLimit - 1 }
          tokenConfigs := config, licences, lockedNfts, sent })
      (hid : config.map TokenConfigs.categoryNameId =
        s.tokenConfigs.map TokenConfigs.categoryNameId)
      (hlocks : ∀ y, s.locked y → lockedNfts.find? y ≠ none) :
      Effect self ctx (.purchase fromAccount self quantity memo) s
        { s with
          sales := s.sales.insert assetId { sale with lcncLimit := sale.lcncLimit - 1 }
          tokenConfigs := config, licences, lockedNfts, sent }

section Loops

variable {self : AccountName} {ctx : Context} {s s' : Contract} {l : List Nat}

variable {m : FlatMap Nat Unit}

variable {m' : FlatMap Nat Unit} {x : Nat}

theorem listToken_ok {seller : AccountName} (h : listToken seller s m x = .ok m') :
    ((∃ token, s.dreams.find? x = some token ∧ token.owner = seller) ∧ ¬ s.linked x) ∧
      m.find? x = none ∧ m' = m.insert x () := by
  simp only [listToken, bind_eq_ok, get_eq_ok, check_eq_ok, emplace_eq_ok, exists_const] at h
  obtain ⟨token, htoken, hfree, _, _, _, howner, hnone, _, hm⟩ := h
  exact ⟨⟨⟨token, htoken, howner.symm⟩, fun hlinked => hlinked hfree⟩, hnone, hm⟩

theorem linkChild_ok {parent : Dream} (h : linkChild parent s m x = .ok m') :
    (∃ child, s.dreams.find? x = some child ∧ parent.owner = child.owner) ∧
      m.find? x = none ∧ m' = m.insert x () := by
  simp only [linkChild, bind_eq_ok, get_eq_ok, check_eq_ok, emplace_eq_ok, exists_const] at h
  obtain ⟨child, hchild, howner, hnone, _, hm⟩ := h
  exact ⟨⟨child, hchild, howner⟩, hnone, hm⟩

theorem unlockToken_ok {message : String} (h : unlockToken message m x = .ok m') :
    True ∧ m.find? x ≠ none ∧ m' = m.erase x := by
  simp only [unlockToken, bind_eq_ok, get_eq_ok] at h
  obtain ⟨_, hrow, hm⟩ := h
  refine ⟨trivial, ?_, (Except.ok.inj hm).symm⟩
  rw [hrow]
  exact nofun

theorem offerLicences_ok {seller row} (h : l.foldlM (offerLicence seller row) s = .ok s') :
    ∃ lockedNfts sales, s' = { s with lockedNfts, sales } ∧
      (∀ x ∈ l, ∃ token, s.dreams.find? x = some token ∧ token.owner = seller) ∧
      (∀ y, lockedNfts.find? y = if y ∈ l then some () else s.lockedNfts.find? y) ∧
      ∀ y, sales.find? y = if y ∈ l then some row else s.sales.find? y := by
  induction l generalizing s with
  | nil =>
    cases h
    exact ⟨_, _, rfl, fun x hx => absurd hx not_mem_nil, fun y => rfl, fun y => rfl⟩
  | cons a rest ih =>
    obtain ⟨_, ha, hrest⟩ := foldlM_cons_ok.mp h
    simp only [offerLicence, bind_eq_ok, get_eq_ok, check_eq_ok, emplace_eq_ok,
      exists_const] at ha
    obtain ⟨token, htoken, _, howner, _, _, ⟨_, rfl⟩, hs₁⟩ := ha
    cases hs₁
    obtain ⟨lockedNfts, sales, hs', hall, hlocks, hsales⟩ := ih hrest
    refine ⟨lockedNfts, sales, hs',
      forall_mem_cons.mpr ⟨⟨token, htoken, howner.symm⟩, hall⟩, fun y => ?_, fun y => ?_⟩
    · rw [hlocks, find?_lockToken]
      by_cases hy : y ∈ rest <;> by_cases hay : a = y <;> simp [hay, eq_comm]
    · rw [hsales, find?_insert]
      by_cases hy : y ∈ rest <;> by_cases hay : a = y <;> simp [hay, eq_comm]

theorem unlinkChildren_ok {children links}
    (h : l.foldlM (unlinkChild s) (m, children) = .ok links) :
    (∀ x ∈ l, s.dreams.find? x ≠ none ∧ m.find? x ≠ none) ∧
      (∀ y, links.1.find? y = if y ∈ l then none else m.find? y) ∧
      links.2 = children.filter fun x => x ∉ l := by
  induction l generalizing m children with
  | nil =>
    cases h
    exact ⟨fun x hx => absurd hx not_mem_nil, fun y => rfl, by simp⟩
  | cons a rest ih =>
    obtain ⟨_, ha, hrest⟩ := foldlM_cons_ok.mp h
    simp only [unlinkChild, bind_eq_ok, get_eq_ok, check_eq_ok, exists_const] at ha
    obtain ⟨hexists, _, hrow, hlinks₁⟩ := ha
    cases hlinks₁
    obtain ⟨hall, hlinks, hchildren⟩ := ih hrest
    refine ⟨forall_mem_cons.mpr ⟨⟨hexists, hrow ▸ Option.some_ne_none _⟩, fun x hx => ?_⟩,
      fun y => ?_, ?_⟩
    · refine ⟨(hall x hx).1, fun hnone => (hall x hx).2 ?_⟩
      rw [find?_erase, hnone, ite_self]
    · rw [hlinks, find?_erase]
      by_cases hy : y ∈ rest <;> by_cases hay : a = y <;> simp [hay, eq_comm]
    · rw [hchildren, filter_filter]
      refine filter_congr fun x _ => ?_
      by_cases hx : x ∈ rest <;> by_cases hax : x = a <;> simp [hax]

theorem checkUnlinked_all (h : l.foldlM (fun _ nftId => checkUnlinked s nftId) () = .ok ()) :
    ∀ x ∈ l, ¬ s.linked x := by
  induction l with
  | nil => exact fun x hx => absurd hx not_mem_nil
  | cons a _ ih =>
    obtain ⟨u, ha, hrest⟩ := foldlM_cons_ok.mp h
    simp only [checkUnlinked, bind_eq_ok, check_eq_ok] at ha
    obtain ⟨_, _, hfree⟩ := ha
    exact forall_mem_cons.mpr ⟨fun hlinked => hlinked hfree, ih hrest⟩

end Loops

variable {fungible : Bool} {maxSupply : Asset} {maxIssueDays : Nat}

theorem checkAsset_ok {amount s u}
    (h : checkAsset amount fungible s = .ok u) : 0 < amount.amount := by
  simp only [checkAsset, bind_eq_ok, check_eq_ok, exists_const] at h
  obtain ⟨hpos, -, hone, -⟩ := h
  cases fungible with
  | true => exact hpos rfl
  | false => exact hone rfl

theorem issueWindow_ok {ctx window s} (h : issueWindow ctx fungible maxIssueDays maxSupply s = .ok window) :
    0 ≤ maxSupply.amount := by
  unfold issueWindow at h
  split at h
  · obtain ⟨_, hcheck, -⟩ := bind_eq_ok.mp h
    exact (checkAsset_ok hcheck).le
  · simp only [bind_eq_ok, check_eq_ok, exists_const] at h
    exact h.1

section Apply

variable {self : AccountName} {ctx : Context} {s s' : Contract}

theorem instantiate_effect {sym version} (h : instantiate self ctx sym version s = .ok s') :
    Effect self ctx (.instantiate sym version) s s' := by
  simp only [instantiate, bind_eq_ok] at h
  obtain ⟨_, -, _, -, h⟩ := h
  cases h
  exact .instantiate

variable {category tokenName : Nat} {toAccount owner fromAccount seller : AccountName}
  {quantity : Asset} {memo : List Char} {nftIds : List Nat}

theorem create_effect {issuer revPartner fungible burnable sellable transferable revSplit baseUri}
    (h : create ctx issuer revPartner category tokenName fungible burnable sellable transferable
      revSplit baseUri maxIssueDays maxSupply s = .ok s') :
    Effect self ctx (.create issuer revPartner category tokenName fungible burnable sellable
      transferable revSplit baseUri maxIssueDays maxSupply) s s' := by
  simp only [create, bind_eq_ok, configOf_eq_ok, emplace_eq_ok] at h
  obtain ⟨_, -, _, -, window, hwindow, _, -, _, -, _, hconfig, _, hcurrent, _,
    hissued, _, -, -, ⟨hnew, rfl⟩, h⟩ := h
  cases h
  refine .create hconfig hnew rfl ?_ ?_ (issueWindow_ok hwindow)
  · rw [Asset.make_ok hcurrent]
  · rw [Asset.make_ok hissued]

theorem issue_effect {relativeUri : String}
    (h : issue ctx toAccount category tokenName quantity relativeUri memo s = .ok s') :
    Effect self ctx (.issue toAccount category tokenName quantity relativeUri memo) s s' := by
  simp only [issue, bind_eq_ok, get_eq_ok, check_eq_ok, exists_const] at h
  obtain ⟨-, -, _, hstats, _, -, _, hcheck, -, -, hmax, _, hmint, accounts, haccounts, _,
    hcurrent, _, hissued, h⟩ := h
  cases h
  obtain ⟨_, _, _, rfl, hid, hgrown⟩ := mintTokens_frame hmint
  exact .issue hstats (checkAsset_ok hcheck) hmax hmint hid hgrown haccounts hcurrent hissued

theorem freezemaxsup_effect (h : freezemaxsup self ctx category tokenName s = .ok s') :
    Effect self ctx (.freezemaxsup category tokenName) s s' := by
  simp only [freezemaxsup, bind_eq_ok, get_eq_ok] at h
  obtain ⟨_, -, _, hstats, _, -, _, -, h⟩ := h
  cases h
  exact .freezemaxsup hstats

theorem burnnft_effect (h : burnnft ctx owner nftIds s = .ok s') :
    Effect self ctx (.burnnft owner nftIds) s s' := by
  simp only [burnnft, bind_eq_ok] at h
  obtain ⟨_, -, _, -, h⟩ := h
  obtain ⟨_, _, _, rfl, hdreams, hids⟩ := burnTokens_frame h
  exact .burnnft h hdreams hids

theorem burnft_effect {categoryNameId : Nat}
    (h : burnft ctx owner categoryNameId quantity s = .ok s') :
    Effect self ctx (.burnft owner categoryNameId quantity) s s' := by
  simp only [burnft, bind_eq_ok, get_eq_ok] at h
  obtain ⟨_, -, _, hacct, _, hstats, _, hcheck, _, -, _, haccounts, _,
    hcurrent, h⟩ := h
  cases h
  exact .burnft hacct hstats (checkAsset_ok hcheck) haccounts hcurrent

theorem transfernft_effect (h : transfernft ctx fromAccount toAccount nftIds s = .ok s') :
    Effect self ctx (.transfernft fromAccount toAccount nftIds) s s' := by
  simp only [transfernft, bind_eq_ok, requireAuth_eq_ok, check_eq_ok, exists_const] at h
  obtain ⟨-, hauth, -, hne, _, hfree, h⟩ := h
  obtain ⟨_, -, hrelocated⟩ := changeOwner_relocated h
  obtain ⟨_, _, rfl⟩ := hrelocated.frame
  exact .transfernft hauth hne (checkUnlinked_all hfree) h

theorem transferft_effect
    (h : transferft ctx fromAccount toAccount category tokenName quantity memo s = .ok s') :
    Effect self ctx (.transferft fromAccount toAccount category tokenName quantity memo) s s' := by
  simp only [transferft, bind_eq_ok, get_eq_ok, check_eq_ok, exists_const] at h
  obtain ⟨-, _, -, -, -, _, hstats, -, hfungible, _, hcheck, -, _, hsub, _,
    hadd, h⟩ := h
  cases h
  exact .transferft hstats hfungible (checkAsset_ok hcheck) hsub hadd

variable {salePeriodSec period assetId : Nat} {receiver : AccountName}

theorem nftokensale_effect {netSaleAmount : Asset}
    (h : nftokensale ctx seller nftIds netSaleAmount salePeriodSec s = .ok s') :
    Effect self ctx (.nftokensale seller nftIds netSaleAmount salePeriodSec) s s' := by
  simp only [nftokensale, bind_eq_ok, emplace_eq_ok] at h
  obtain ⟨_, -, _, -, _, -, _, -, _, hloop, -, ⟨hnew, rfl⟩, h⟩ := h
  cases h
  obtain ⟨hnodup, hids, hlocks⟩ :=
    foldlM_insert_ok (fun m x m' hm => listToken_ok hm) hloop
  refine .nftokensale (fun x hx => ?_) hlocks hnew hnodup
  obtain ⟨⟨htoken, hfree⟩, hnone⟩ := hids x hx
  exact ⟨htoken, hfree, fun hlocked => hlocked hnone⟩

theorem licencesale_effect {price lcncLimit lcncPeriodSec}
    (h : licencesale ctx seller price nftIds lcncLimit salePeriodSec lcncPeriodSec s = .ok s') :
    Effect self ctx (.licencesale seller price nftIds lcncLimit salePeriodSec lcncPeriodSec)
      s s' := by
  simp only [licencesale, bind_eq_ok] at h
  obtain ⟨_, -, _, -, _, -, h⟩ := h
  obtain ⟨_, _, rfl, hids, hlocks, hsales⟩ := offerLicences_ok h
  exact .licencesale rfl hids hlocks hsales

theorem license_effect {toAccounts relicense}
    (h : license self ctx owner toAccounts nftIds period relicense s = .ok s') :
    Effect self ctx (.license owner toAccounts nftIds period relicense) s s' := by
  simp only [license, bind_eq_ok, requireAuth_eq_ok] at h
  obtain ⟨_, hauth, _, -, _, -, _, -, _, -, _, -, h⟩ := h
  obtain ⟨_, _, _, _, rfl, hid, hlocks⟩ := licenseTokens_frame h
  exact .license hauth h hid hlocks

theorem extend_effect {lcncId : Nat} (h : extend ctx owner lcncId period s = .ok s') :
    Effect self ctx (.extend owner lcncId period) s s' := by
  simp only [extend, bind_eq_ok, get_eq_ok] at h
  obtain ⟨_, -, _, hlicence, _, -, _, -, _, -, h⟩ := h
  cases h
  exact .extend hlicence

theorem revoke_effect {fromAccounts lcncIds}
    (h : revoke ctx owner fromAccounts lcncIds s = .ok s') :
    Effect self ctx (.revoke owner fromAccounts lcncIds) s s' := by
  simp only [revoke, bind_eq_ok] at h
  obtain ⟨_, -, _, -, _, -, h⟩ := h
  obtain ⟨_, _, rfl, hlocks⟩ := revokeLicences_frame h
  exact .revoke h hlocks

theorem endnftsale_effect {batchId : Nat} (h : endnftsale ctx seller batchId s = .ok s') :
    Effect self ctx (.endnftsale seller batchId) s s' := by
  simp only [endnftsale, bind_eq_ok, get_eq_ok] at h
  obtain ⟨_, hask, _, -, _, hloop, h⟩ := h
  cases h
  obtain ⟨-, hids, hlocks⟩ := foldlM_erase_ok (fun m x m' hm => unlockToken_ok hm) hloop
  exact .endnftsale hask (fun x hx => (hids x hx).2) hlocks

theorem endlcncsale_effect {nftId : Nat} (h : endlcncsale ctx seller nftId s = .ok s') :
    Effect self ctx (.endlcncsale seller nftId) s s' := by
  simp only [endlcncsale, bind_eq_ok, get_eq_ok] at h
  obtain ⟨_, hsale, _, -, _, hunlock, h⟩ := h
  cases h
  obtain ⟨-, hlocked, rfl⟩ := unlockToken_ok hunlock
  exact .endlcncsale hsale hlocked

theorem linknfts_effect {linkTo : Nat} (h : linknfts ctx nftIds linkTo owner s = .ok s') :
    Effect self ctx (.linknfts nftIds linkTo owner) s s' := by
  simp only [linknfts, bind_eq_ok, get_eq_ok] at h
  obtain ⟨_, -, _, hparent, _, hloop, h⟩ := h
  cases h
  obtain ⟨hnodup, hids, hlinks⟩ :=
    foldlM_insert_ok (fun m x m' hm => linkChild_ok hm) hloop
  refine .linknfts hparent (fun x hx => ?_) hlinks hnodup
  exact ⟨(hids x hx).1, fun hlinked => hlinked (hids x hx).2⟩

theorem unlinknfts_effect {linkedTo : Nat} (h : unlinknfts ctx nftIds linkedTo owner s = .ok s') :
    Effect self ctx (.unlinknfts nftIds linkedTo owner) s s' := by
  simp only [unlinknfts, bind_eq_ok, get_eq_ok] at h
  obtain ⟨_, -, _, hparent, _, hloop, h⟩ := h
  cases h
  obtain ⟨hids, hlinks, hchildren⟩ := unlinkChildren_ok hloop
  rw [hchildren]
  exact .unlinknfts hparent hids hlinks

theorem purchaseNft_effect (horder : Orders memo nftSaleTypes receiver assetId)
    (h : purchaseNft self ctx fromAccount receiver assetId quantity s = .ok s') :
    Effect self ctx (.purchase fromAccount self quantity memo) s s' := by
  simp only [purchaseNft, bind_eq_ok, get_eq_ok] at h
  obtain ⟨_, hask, _, -, _, -, _, -, _, hloop, _, hmove, h⟩ := h
  cases h
  obtain ⟨hnodup, hids, hlocks⟩ :=
    foldlM_erase_ok (fun m x m' hm => unlockToken_ok hm) hloop
  obtain ⟨_, -, hrelocated⟩ := changeOwner_relocated hmove
  obtain ⟨_, _, rfl⟩ := hrelocated.frame
  exact .nftPurchase horder hask (fun x hx => (hids x hx).2) hlocks hnodup hmove

theorem purchaseLicence_effect (horder : Orders memo licenceSaleTypes receiver assetId)
    (h : purchaseLicence self ctx fromAccount receiver assetId quantity s = .ok s') :
    Effect self ctx (.purchase fromAccount self quantity memo) s s' := by
  simp only [purchaseLicence, bind_eq_ok, get_eq_ok, check_eq_ok, exists_const] at h
  obtain ⟨_, hsale, -, htime, hlimit, h⟩ := h
  obtain ⟨_, _, _, _, rfl, hid, hlocks⟩ := createLicence_frame h
  exact .licencePurchase horder hsale ⟨htime, hlimit⟩ h hid hlocks

theorem purchase_effect (h : purchase self ctx fromAccount toAccount quantity memo s = .ok s') :
    Effect self ctx (.purchase fromAccount toAccount quantity memo) s s' := by
  unfold purchase at h
  by_cases hdeposit : memo = "deposit".toList
  · rw [if_pos hdeposit] at h
    cases h
    exact .transferIgnored
  rw [if_neg hdeposit] at h
  by_cases hself : toAccount ≠ self
  · rw [if_pos hself] at h
    cases h
    exact .transferIgnored
  rw [if_neg hself] at h
  rw [not_ne_iff.mp hself]
  by_cases hstake : fromAccount = stringToName "eosio.stake"
  · rw [if_pos hstake] at h
    cases h
    exact .transferIgnored
  rw [if_neg hstake] at h
  simp only [bind_eq_ok] at h
  obtain ⟨_, -, _, -, order, horder, h⟩ := h
  by_cases hnft : order.1 ∈ nftSaleTypes
  · rw [if_pos hnft] at h
    exact purchaseNft_effect ⟨order.1, hnft, horder⟩ h
  rw [if_neg hnft] at h
  by_cases hlicence : order.1 ∈ licenceSaleTypes
  · rw [if_pos hlicence] at h
    exact purchaseLicence_effect ⟨order.1, hlicence, horder⟩ h
  rw [if_neg hlicence] at h
  cases h

theorem apply_effect {a : ContractAction} (h : apply self ctx a s = .ok s') :
    Effect self ctx a s s' := by
  cases a with
  | instantiate => exact instantiate_effect h
  | create => exact create_effect h
  | issue => exact issue_effect h
  | freezemaxsup => exact freezemaxsup_effect h
  | burnnft => exact burnnft_effect h
  | burnft => exact burnft_effect h
  | transfernft => exact transfernft_effect h
  | transferft => exact transferft_effect h
  | nftokensale => exact nftokensale_effect h
  | licencesale => exact licencesale_effect h
  | license => exact license_effect h
  | extend => exact extend_effect h
  | revoke => exact revoke_effect h
  | endnftsale => exact endnftsale_effect h
  | endlcncsale => exact endlcncsale_effect h
  | linknfts => exact linknfts_effect h
  | unlinknfts => exact unlinknfts_effect h
  | log =>
    obtain ⟨_, -, h⟩ := bind_eq_ok.mp h
    cases h
    exact .log
  | purchase => exact purchase_effect h

end Apply

end DreamChain.Dreamoji
