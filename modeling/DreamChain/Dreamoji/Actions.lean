import DreamChain.Dreamoji.Tables
import DreamChain.Library.ExceptLoop

/-!
The actions of the NFT contract. Each action reads and writes the tables as its C++ body does;
notifications, which write nothing, are left out. The body of a loop over token ids is a
definition of its own.

`_changeowner` and `_createlicence` recurse into the children of a token. The nesting the
virtual machine grants is a parameter, and a recursion that needs more fails.
-/

namespace DreamChain.Dreamoji
open Library

structure Context where
  authorizers : List AccountName
  isAccount : AccountName → Bool
  /-- `time_point_sec(current_time_point())`. -/
  now : Nat
  callDepth : Nat
  /-- What reading the first element of an empty vector gives. -/
  pastEnd : Nat := 0

def requireAuth (ctx : Context) (account : AccountName) : Guarded Unit :=
  if account ∈ ctx.authorizers then .ok () else .error (.missingAuthority account)

theorem requireAuth_eq_ok {ctx account u} :
    requireAuth ctx account = .ok u ↔ account ∈ ctx.authorizers := by
  by_cases h : account ∈ ctx.authorizers <;> simp [requireAuth]

def Context.after (ctx : Context) (seconds : Nat) : Nat := u32 (ctx.now + u32 seconds)

def toU64 (n : Int) : Nat := (n % 2 ^ 64).toNat

def configOf (s : Contract) (message : String) : Guarded TokenConfigs :=
  match s.tokenConfigs with
  | some config => .ok config
  | none => .error (.check message)

theorem configOf_eq_ok {s message config} :
    configOf s message = .ok config ↔ s.tokenConfigs = some config := by
  unfold configOf
  cases s.tokenConfigs <;> simp

def checkAsset (amount : Asset) (fungible : Bool) (s : Contract) : Guarded Unit := do
  check (fungible = true → 0 < amount.amount) "amount must be positive"
  check (fungible = false → amount.symbol.precision = 0) "NFT must be an int, precision of 0"
  check (fungible = false → 1 ≤ amount.amount) "NFT amount must be >= 1"
  let config ← configOf s "singleton does not exist"
  check (config.symbol = amount.symbol.code) "Symbol must match symbol in config"
  check amount.isValid "invalid amount"

def nextNftId (s : Contract) : Guarded (Nat × Contract) := do
  let config ← configOf s "dreamoji config table does not exist, instantiate first"
  .ok (config.nextNftId,
    { s with tokenConfigs := some { config with nextNftId := u64 (config.nextNftId + 1) } })

def nextLicenceId (s : Contract) : Guarded (Nat × Contract) := do
  let config ← configOf s "dreamoji config table does not exist, instantiate first"
  .ok (config.nextLicenceId,
    { s with tokenConfigs := some { config with nextLicenceId := u64 (config.nextLicenceId + 1) } })

def addBalance (owner : AccountName) (category tokenName categoryNameId : Nat) (quantity : Asset)
    (accounts : Accounts) : Guarded Accounts :=
  match accounts.find? (toLex (owner, categoryNameId)) with
  | none => .ok (accounts.insert (toLex (owner, categoryNameId)) ⟨category, tokenName, quantity⟩)
  | some acct => do
    let amount ← acct.amount.add quantity
    .ok (accounts.insert (toLex (owner, categoryNameId)) { acct with amount })

def subBalance (owner : AccountName) (categoryNameId : Nat) (quantity : Asset)
    (accounts : Accounts) : Guarded Accounts := do
  let acct ← get accounts (toLex (owner, categoryNameId)) "token does not exist in account"
  check (quantity.amount ≤ acct.amount.amount) "quantity is more than account balance"
  if acct.amount.amount = quantity.amount then
    .ok (accounts.erase (toLex (owner, categoryNameId)))
  else
    let amount ← acct.amount.sub quantity
    .ok (accounts.insert (toLex (owner, categoryNameId)) { acct with amount })

section Actions
variable (self : AccountName) (ctx : Context)

def instantiate (sym : Nat) (version : String) (s : Contract) : Guarded Contract := do
  requireAuth ctx self
  check (codeIsValid 7 sym = true) "not valid symbol"
  let config := s.tokenConfigs.getD ⟨version, sym, 0, 0, 0⟩
  .ok { s with tokenConfigs := some { config with version } }

/-- The end of the issue window: none when the supply is bounded from the start. -/
def issueWindow (fungible : Bool) (maxIssueDays : Nat) (maxSupply : Asset) (s : Contract) :
    Guarded Nat :=
  if maxIssueDays = 0 then do
    checkAsset maxSupply fungible s
    .ok 0
  else do
    check (0 ≤ maxSupply.amount) "max supply must be 0 or greater"
    check (fungible = false → maxSupply.symbol.precision = 0)
      "NFT must have max supply as int, precision of 0"
    .ok (ctx.after (maxIssueDays * 24 * 3600))

def create (issuer revPartner : AccountName) (category tokenName : Nat)
    (fungible burnable sellable transferable : Bool) (revSplit : ℚ) (baseUri : String)
    (maxIssueDays : Nat) (maxSupply : Asset) (s : Contract) : Guarded Contract := do
  check (ctx.isAccount issuer = true) "issuer account does not exist"
  requireAuth ctx issuer
  let maxIssueWindow ← issueWindow ctx fungible maxIssueDays maxSupply s
  check (ctx.isAccount revPartner = true) "rev_partner account does not exist"
  check (revSplit ≤ 1 ∧ 0 ≤ revSplit) "rev_split must be between 0 and 1"
  let config ← configOf s "Symbol table does not exist, instantiate first"
  let currentSupply ← Asset.make 0 (mkSymbol config.symbol maxSupply.symbol.precision)
  let issuedSupply ← Asset.make 0 (mkSymbol config.symbol maxSupply.symbol.precision)
  check (s.dreamStats.find? (toLex (category, tokenName)) = none)
    "Token with category and token_name exists"
  let dreamStats ← emplace s.dreamStats (toLex (category, tokenName))
    { fungible, burnable, sellable, transferable, issuer, revPartner,
      categoryNameId := config.categoryNameId, maxSupply, maxIssueWindow, currentSupply,
      issuedSupply, revSplit, baseUri }
  .ok { s with
    categoryInfo := s.categoryInfo.insert category ()
    dreamStats
    tokenConfigs := some { config with categoryNameId := u64 (config.categoryNameId + 1) } }

def mint (toAccount : AccountName) (category tokenName : Nat) (issuedSupply : Asset)
    (relativeUri : String) (s : Contract) : Guarded Contract := do
  let (nftId, s) ← nextNftId s
  let dreams ← emplace s.dreams nftId
    { serialNumber := toU64 (issuedSupply.amount + 1), owner := toAccount, category, tokenName,
      relativeUri }
  .ok { s with dreams, sent := s.sent ++ [.logcall nftId] }

/-- The loop of `issue`, which counts the serial numbers on. -/
def mintLoop (toAccount : AccountName) (category tokenName : Nat) (oneToken : Asset)
    (relativeUri : String) : Nat → Asset → Contract → Guarded Contract
  | 0, _, s => .ok s
  | n + 1, issuedSupply, s => do
    let s ← mint toAccount category tokenName issuedSupply relativeUri s
    let issuedSupply ← issuedSupply.add oneToken
    mintLoop toAccount category tokenName oneToken relativeUri n issuedSupply s

def mintTokens (toAccount : AccountName) (category tokenName : Nat) (quantity : Asset)
    (relativeUri : String) (dreamStats : DreamStats) (s : Contract) : Guarded Contract :=
  if dreamStats.fungible then .ok s
  else do
    check (quantity.amount ≤ 100) "can issue up to 100 at a time"
    let oneToken ← Asset.make 1 dreamStats.maxSupply.symbol
    mintLoop toAccount category tokenName oneToken relativeUri quantity.amount.toNat
      dreamStats.issuedSupply s

def issue (toAccount : AccountName) (category tokenName : Nat) (quantity : Asset)
    (relativeUri : String) (memo : List Char) (s : Contract) : Guarded Contract := do
  check (ctx.isAccount toAccount = true) "to account does not exist"
  check (memo.length ≤ 256) "memo has more than 256 bytes"
  let dreamStats ← get s.dreamStats (toLex (category, tokenName))
    "Token with category and token_name does not exist"
  requireAuth ctx dreamStats.issuer
  checkAsset quantity dreamStats.fungible s
  check (quantity.symbol = dreamStats.maxSupply.symbol)
    ("precision of quantity must be " ++ toString dreamStats.maxSupply.symbol.precision)
  check (dreamStats.maxIssueWindow ≠ 0 → ctx.now ≤ dreamStats.maxIssueWindow)
    "issue window has closed, cannot issue more"
  check (dreamStats.maxSupply.amount ≠ 0 →
      quantity.amount ≤ dreamStats.maxSupply.amount - dreamStats.issuedSupply.amount)
    "Cannot issue more than max supply"
  let s ← mintTokens toAccount category tokenName quantity relativeUri dreamStats s
  let accounts ← addBalance toAccount category tokenName dreamStats.categoryNameId quantity
    s.accounts
  let currentSupply ← dreamStats.currentSupply.add quantity
  let issuedSupply ← dreamStats.issuedSupply.add quantity
  .ok { s with
    accounts
    dreamStats := s.dreamStats.insert (toLex (category, tokenName))
      { dreamStats with currentSupply, issuedSupply } }

def freezemaxsup (category tokenName : Nat) (s : Contract) : Guarded Contract := do
  requireAuth ctx self
  let dreamStats ← get s.dreamStats (toLex (category, tokenName))
    "Token with category and token_name does not exist"
  check (dreamStats.maxIssueWindow ≠ 0) "can't freeze max supply unless time based minting"
  check (dreamStats.issuedSupply.amount ≠ 0) "need to issue at least one token before freezing"
  .ok { s with
    dreamStats := s.dreamStats.insert (toLex (category, tokenName))
      { dreamStats with maxSupply := dreamStats.issuedSupply, maxIssueWindow := 0 } }

/-- The loop of `burnnft`. The stats row of a type whose last token goes is erased before the
balance is lowered. -/
def burnToken (owner : AccountName) (s : Contract) (nftId : Nat) : Guarded Contract := do
  let token ← get s.dreams nftId "token does not exist"
  check (token.owner = owner) "must be token owner"
  let dreamStats ← get s.dreamStats token.type "dreamoji stats not found"
  check (dreamStats.burnable = true) "Not burnable"
  check (dreamStats.fungible = false)
    "Cannot call burnnft on fungible token, call burnft instead"
  check (s.lockedNfts.find? nftId = none) "token locked"
  let quantity ← Asset.make 1 dreamStats.maxSupply.symbol
  let currentSupply ← dreamStats.currentSupply.sub quantity
  let issuedSupply ← dreamStats.issuedSupply.sub quantity
  let burnedOut ← Asset.make 0 dreamStats.maxSupply.symbol
  let gone ← currentSupply.equals burnedOut
  let accounts ← subBalance owner dreamStats.categoryNameId quantity s.accounts
  .ok { s with
    dreamStats := if gone then s.dreamStats.erase token.type
      else s.dreamStats.insert token.type { dreamStats with currentSupply, issuedSupply }
    accounts
    dreams := s.dreams.erase nftId }

def burnnft (owner : AccountName) (nftIds : List Nat) (s : Contract) : Guarded Contract := do
  requireAuth ctx owner
  check (nftIds.length ≤ 20) "max batch size of 20"
  nftIds.foldlM (burnToken owner) s

def burnft (owner : AccountName) (categoryNameId : Nat) (quantity : Asset) (s : Contract) :
    Guarded Contract := do
  requireAuth ctx owner
  let acct ← get s.accounts (toLex (owner, categoryNameId)) "token does not exist in account"
  let dreamStats ← get s.dreamStats acct.type "dreamoji stats not found"
  checkAsset quantity true s
  check (quantity.symbol = dreamStats.maxSupply.symbol)
    ("precision of quantity must be " ++ toString dreamStats.maxSupply.symbol.precision)
  let accounts ← subBalance owner categoryNameId quantity s.accounts
  let currentSupply ← dreamStats.currentSupply.sub quantity
  .ok { s with
    accounts
    dreamStats := s.dreamStats.insert acct.type { dreamStats with currentSupply } }

/-- The end of the loop of `_changeowner`, for a token read before its children were moved. -/
def moveToken (fromAccount toAccount : AccountName) (istransfer : Bool) (nftId : Nat)
    (token : Dream) (s : Contract) : Guarded Contract := do
  let dreamStats ← get s.dreamStats token.type "dreamoji stats not found"
  check (istransfer = true → token.owner = fromAccount) "must be token owner"
  check (istransfer = true → dreamStats.transferable = true) "not transferable"
  let quantity ← Asset.make 1 dreamStats.maxSupply.symbol
  let accounts ← subBalance fromAccount dreamStats.categoryNameId quantity s.accounts
  let accounts ← addBalance toAccount token.category token.tokenName dreamStats.categoryNameId
    quantity accounts
  .ok { s with dreams := s.dreams.insert nftId { token with owner := toAccount }, accounts }

/-- The loop of `_changeowner`; `moveChildren` is the recursive call. -/
def moveFamily (moveChildren : List Nat → Contract → Guarded Contract)
    (fromAccount toAccount : AccountName) (istransfer : Bool) (s : Contract) (nftId : Nat) :
    Guarded Contract := do
  let token ← get s.dreams nftId "token does not exist"
  check (s.lockedNfts.find? nftId = none) "token locked, cannot transfer"
  let s ← moveChildren token.children s
  moveToken fromAccount toAccount istransfer nftId token s

/-- `_changeowner`, which is not called for a token without children. -/
def changeOwner (fromAccount toAccount : AccountName) :
    Nat → Bool → List Nat → Contract → Guarded Contract
  | 0, _, _, _ => .error .callDepth
  | depth + 1, istransfer, nftIds, s => do
    check (nftIds.length ≤ 20) "max batch size of 20"
    nftIds.foldlM
      (moveFamily (fun children s =>
          if children.isEmpty then .ok s
          else changeOwner fromAccount toAccount depth false children s)
        fromAccount toAccount istransfer) s

/-- The checks `transfernft` makes before it moves anything. -/
def checkUnlinked (s : Contract) (nftId : Nat) : Guarded Unit := do
  let _ ← get s.dreams nftId "token not found"
  check (s.linkedNfts.find? nftId = none)
    "cannot directly transfer linked NFTs without the parent NFT"

def transfernft (fromAccount toAccount : AccountName) (nftIds : List Nat) (s : Contract) :
    Guarded Contract := do
  check (nftIds.length ≤ 20) "max batch size of 20"
  requireAuth ctx fromAccount
  check (ctx.isAccount toAccount = true) "to account does not exist"
  check (fromAccount ≠ toAccount) "cannot transfer to self"
  nftIds.foldlM (fun _ nftId => checkUnlinked s nftId) ()
  changeOwner fromAccount toAccount ctx.callDepth true nftIds s

def transferft (fromAccount toAccount : AccountName) (category tokenName : Nat)
    (quantity : Asset) (memo : List Char) (s : Contract) : Guarded Contract := do
  check (fromAccount ≠ toAccount) "cannot transfer to self"
  requireAuth ctx fromAccount
  check (ctx.isAccount toAccount = true) "to account does not exist"
  check (memo.length ≤ 256) "memo has more than 256 bytes"
  let dreamStats ← get s.dreamStats (toLex (category, tokenName)) "dreamoji stats not found"
  check (dreamStats.transferable = true) "not transferable"
  check (dreamStats.fungible = true) "Must be fungible token"
  checkAsset quantity true s
  check (quantity.symbol = dreamStats.maxSupply.symbol)
    ("precision of quantity must be " ++ toString dreamStats.maxSupply.symbol.precision)
  let accounts ← subBalance fromAccount dreamStats.categoryNameId quantity s.accounts
  let accounts ← addBalance toAccount category tokenName dreamStats.categoryNameId quantity accounts
  .ok { s with accounts }

/-- `.02 * pow(10, precision)`. -/
def minimumPrice (precision : Nat) : ℚ := toDouble (toDouble (2 / 100) * toDouble (10 ^ precision))

def checkPrice (price : Asset) : Guarded Unit := do
  check (minimumPrice price.symbol.precision < toDouble price.amount)
    "minimum price of at least 0.02 DRMI"
  check (price.symbol = drmi) "only DRMI with precision of 4 is accepted for sale"

def listToken (seller : AccountName) (s : Contract) (lockedNfts : FlatMap Nat Unit) (nftId : Nat) :
    Guarded (FlatMap Nat Unit) := do
  let token ← get s.dreams nftId "token does not exist"
  check (s.linkedNfts.find? nftId = none) "cannot directly sell linked NFTs without the parent NFT"
  let dreamStats ← get s.dreamStats token.type "dreamoji stats not found"
  check (dreamStats.sellable = true) "not sellable"
  check (seller = token.owner) "not token owner"
  check (lockedNfts.find? nftId = none) "token locked"
  emplace lockedNfts nftId ()

/-- The id of a batch is its first token; the size of the batch has no lower bound. -/
def nftokensale (seller : AccountName) (nftIds : List Nat) (netSaleAmount : Asset)
    (salePeriodSec : Nat) (s : Contract) : Guarded Contract := do
  requireAuth ctx seller
  check (nftIds.length ≤ 20) "max batch size of 20"
  checkPrice netSaleAmount
  check (s.asks.find? (nftIds.headD ctx.pastEnd) = none)
    ("ongoing sale of batch with id: " ++ toString (nftIds.headD ctx.pastEnd) ++
      " must be ended before selling again")
  let lockedNfts ← nftIds.foldlM (listToken seller s) s.lockedNfts
  let asks ← emplace s.asks (nftIds.headD ctx.pastEnd)
    ⟨nftIds, seller, netSaleAmount, ctx.after salePeriodSec⟩
  .ok { s with lockedNfts, asks }

def lockToken (lockedNfts : FlatMap Nat Unit) (nftId : Nat) : FlatMap Nat Unit :=
  if (lockedNfts.find? nftId).isSome then lockedNfts else lockedNfts.insert nftId ()

/-- The loop of `licencesale`. A locked token is accepted: the check against it is commented
out in the source. -/
def offerLicence (seller : AccountName) (row : Sale) (s : Contract) (nftId : Nat) :
    Guarded Contract := do
  let token ← get s.dreams nftId "token does not exist"
  check (s.linkedNfts.find? nftId = none)
    "cannot directly license linked NFTs without the parent NFT"
  check (seller = token.owner) "token needs to be owned before it can be licensed out"
  check (s.sales.find? nftId = none)
    ("ongoing sale of NFT with id: " ++ toString nftId ++ " must be ended before selling again")
  let sales ← emplace s.sales nftId row
  .ok { s with lockedNfts := lockToken s.lockedNfts nftId, sales }

def licencesale (seller : AccountName) (price : Asset) (nftIds : List Nat) (lcncLimit : Nat)
    (salePeriodSec lcncPeriodSec : Nat) (s : Contract) : Guarded Contract := do
  requireAuth ctx seller
  check (nftIds.length ≤ 20) "max batch size of 20"
  checkPrice price
  nftIds.foldlM
    (offerLicence seller ⟨seller, price, lcncLimit, ctx.after salePeriodSec, lcncPeriodSec⟩) s

/-- `_createlicence`. The row goes to the scope of the contract itself, whoever the owner is. -/
def createLicence (owner : AccountName) (toAccounts : List AccountName) (period : Nat)
    (relicense : Bool) : Nat → Contract → Nat → Guarded Contract
  | 0, _, _ => .error .callDepth
  | depth + 1, s, nftId => do
    let (licenceId, s) ← nextLicenceId s
    let licences ← emplace s.licences (toLex (self, licenceId))
      ⟨nftId, owner, toAccounts, ctx.after period, relicense⟩
    let token ← get s.dreams nftId "nftoken doesn't exist"
    token.children.foldlM (createLicence owner toAccounts period relicense depth)
      { s with
        licences
        lockedNfts := lockToken s.lockedNfts nftId
        sent := s.sent ++ [.loglicense licenceId] }

def checkLicensee (owner account : AccountName) : Guarded Unit := do
  check (ctx.isAccount account = true) "To account does not exist"
  check (owner ≠ account) "Cannot license to yourself"

/-- The loop of `license`. It asks whether the token exists, not whose it is. -/
def licenseToken (owner : AccountName) (toAccounts : List AccountName) (period : Nat)
    (relicense : Bool) (s : Contract) (nftId : Nat) : Guarded Contract := do
  check (s.dreams.find? nftId ≠ none)
    ("Asset id: " ++ toString nftId ++ " couldn't be found at the specified scope")
  createLicence self ctx owner toAccounts period relicense ctx.callDepth s nftId

def license (owner : AccountName) (toAccounts : List AccountName) (nftIds : List Nat)
    (period : Nat) (relicense : Bool) (s : Contract) : Guarded Contract := do
  requireAuth ctx owner
  check (nftIds.length ≤ 20) "max batch size of 20"
  check (toAccounts.length ≤ 20) "max licensee size of 20"
  check (0 < nftIds.length) "min batch size of 1"
  check (0 < toAccounts.length) "min licensed_to size of 1"
  toAccounts.foldlM (fun _ account => checkLicensee ctx owner account) ()
  nftIds.foldlM (licenseToken self ctx owner toAccounts period relicense) s

def extend (owner : AccountName) (lcncId period : Nat) (s : Contract) : Guarded Contract := do
  requireAuth ctx owner
  let licence ← get s.licences (toLex (owner, lcncId))
    ("Asset id: " ++ toString lcncId ++ " is not licensed")
  check (owner = licence.owner) ("You are not the owner of asset id: " ++ toString lcncId)
  check (licence.relicense = true) "Licence agreement was on the basis of non-extension"
  check (licence.expiration < ctx.now) "Cannot extend this licence before it's expiration date."
  .ok { s with
    licences := s.licences.insert (toLex (owner, lcncId))
      { licence with expiration := ctx.after period } }

def remainingLicensees (fromAccounts licensedTo : List AccountName) : List AccountName :=
  fromAccounts.foldl (fun rest account => rest.filter (· ≠ account)) licensedTo

/-- The loop of `revoke`. Whether another licence keeps the lock is asked with the id of the
token in the place of a licence id. -/
def revokeLicence (owner : AccountName) (fromAccounts : List AccountName) (s : Contract)
    (lcncId : Nat) : Guarded Contract := do
  let licence ← get s.licences (toLex (owner, lcncId))
    ("Asset id: " ++ toString lcncId ++ " is not licensed")
  check (owner = licence.owner)
    ("You are not the owner of the licensed nft: " ++ toString lcncId ++ ". Owner is: " ++
      String.ofList (nameToString licence.owner) ++ " , you entered: " ++
      String.ofList (nameToString owner))
  check (licence.expiration < ctx.now) "Cannot revoke this licence before it's expiration date."
  check (fromAccounts.length ≤ licence.licensedTo.length)
    "Please recheck the submitted licensed_to value(s)"
  if (remainingLicensees fromAccounts licence.licensedTo).isEmpty then
    let _ ← get s.lockedNfts licence.nftId "NFT not found in lock table"
    let licences := s.licences.erase (toLex (owner, lcncId))
    .ok { s with
      licences
      lockedNfts := if (licences.find? (toLex (owner, licence.nftId))).isSome then s.lockedNfts
        else s.lockedNfts.erase licence.nftId }
  else
    .ok { s with
      licences := s.licences.insert (toLex (owner, lcncId))
        { licence with licensedTo := remainingLicensees fromAccounts licence.licensedTo } }

def revoke (owner : AccountName) (fromAccounts : List AccountName) (lcncIds : List Nat)
    (s : Contract) : Guarded Contract := do
  requireAuth ctx owner
  check (0 < lcncIds.length) "min batch size of 1"
  check (lcncIds.length < 20) "max batch size of 20"
  lcncIds.foldlM (revokeLicence ctx owner fromAccounts) s

def unlockToken (message : String) (lockedNfts : FlatMap Nat Unit) (nftId : Nat) :
    Guarded (FlatMap Nat Unit) := do
  let _ ← get lockedNfts nftId message
  .ok (lockedNfts.erase nftId)

/-- A sale in progress is ended by its seller, an expired one by anybody. -/
def checkEnder (seller caller : AccountName) (expiration : Nat) : Guarded Unit :=
  if ctx.now ≤ expiration then do
    requireAuth ctx caller
    check (seller = caller) "only the seller can cancel a sale in progress"
  else .ok ()

def endnftsale (seller : AccountName) (batchId : Nat) (s : Contract) : Guarded Contract := do
  let ask ← get s.asks batchId "cannot find sale to close"
  checkEnder ctx ask.seller seller ask.expiration
  let lockedNfts ← ask.nftIds.foldlM (unlockToken "nft not found in lock table") s.lockedNfts
  .ok { s with lockedNfts, asks := s.asks.erase batchId }

def endlcncsale (seller : AccountName) (nftId : Nat) (s : Contract) : Guarded Contract := do
  let sale ← get s.sales nftId "cannot find sale to close"
  checkEnder ctx sale.seller seller sale.endOfSale
  let lockedNfts ← unlockToken "nft not found in lock table" s.lockedNfts nftId
  .ok { s with lockedNfts, sales := s.sales.erase nftId }

def linkChild (parent : Dream) (s : Contract) (linkedNfts : FlatMap Nat Unit) (nftId : Nat) :
    Guarded (FlatMap Nat Unit) := do
  let child ← get s.dreams nftId ("Child NFT with id: " ++ toString nftId ++ " doesn't exist")
  check (parent.owner = child.owner) "The parent and child NFT must belong to the same owner"
  check (linkedNfts.find? nftId = none)
    ("Child NFT with id: " ++ toString nftId ++ " is already equipped to another parent NFT")
  emplace linkedNfts nftId ()

def linknfts (nftIds : List Nat) (linkTo : Nat) (owner : AccountName) (s : Contract) :
    Guarded Contract := do
  requireAuth ctx owner
  let dreamoji ← get s.dreams linkTo "Parent NFT doesn't exist"
  let linkedNfts ← nftIds.foldlM (linkChild dreamoji s) s.linkedNfts
  .ok { s with
    linkedNfts
    dreams := s.dreams.insert linkTo { dreamoji with children := dreamoji.children ++ nftIds } }

/-- The loop of `unlinknfts`. It does not ask whether the parent has the child. -/
def unlinkChild (s : Contract) (links : FlatMap Nat Unit × List Nat) (nftId : Nat) :
    Guarded (FlatMap Nat Unit × List Nat) := do
  check (s.dreams.find? nftId ≠ none)
    ("Child NFT with id: " ++ toString nftId ++ " doesn't exist")
  let _ ← get links.1 nftId ("NFT of id: " ++ toString nftId ++ " hasn't been linked")
  .ok (links.1.erase nftId, links.2.filter (· ≠ nftId))

def unlinknfts (nftIds : List Nat) (linkedTo : Nat) (owner : AccountName) (s : Contract) :
    Guarded Contract := do
  requireAuth ctx owner
  let dreamoji ← get s.dreams linkedTo "Parent NFT doesn't exist"
  let links ← nftIds.foldlM (unlinkChild s) (s.linkedNfts, dreamoji.children)
  .ok { s with
    linkedNfts := links.1
    dreams := s.dreams.insert linkedTo { dreamoji with children := links.2 } }

/-- `logcall`, `logsale` and `loglicense` only carry data. -/
def logAction (s : Contract) : Guarded Contract := do
  requireAuth ctx self
  .ok s

/-- A payment to a party that has one already is added to it. -/
def addFee (account : AccountName) (fee : Asset) (feeMap : FlatMap AccountName Asset) :
    Guarded (FlatMap AccountName Asset) :=
  match feeMap.find? account with
  | none => .ok (feeMap.insert account fee)
  | some amount => do
    let sum ← amount.add fee
    .ok (feeMap.insert account sum)

def calcFee (size : Nat) (askAmount : Asset) (s : Contract)
    (fees : FlatMap AccountName Asset × Int) (nftId : Nat) :
    Guarded (FlatMap AccountName Asset × Int) := do
  let token ← get s.dreams nftId "token does not exist"
  let dreamStats ← get s.dreamStats token.type "asset stats not found"
  if dreamStats.revSplit = 0 then .ok fees
  else
    let fee := toDouble (toDouble (toDouble askAmount.amount * dreamStats.revSplit) /
      toDouble size)
    let feeAsset ← Asset.make (truncate fee) askAmount.symbol
    let feeMap ← addFee dreamStats.revPartner feeAsset fees.1
    .ok (feeMap, fees.2 + feeAsset.amount)

def calcFees (nftIds : List Nat) (askAmount : Asset) (seller : AccountName) (s : Contract) :
    Guarded (FlatMap AccountName Asset) := do
  let fees ← nftIds.foldlM (calcFee nftIds.length askAmount s) (.empty, 0)
  let sellerAmount ← Asset.make (askAmount.amount - fees.2) askAmount.symbol
  addFee seller sellerAmount fees.1

/-- What is owed to the contract itself stays where it is. -/
def payments (feeMap : FlatMap AccountName Asset) : List InlineAction :=
  (feeMap.entries.filter fun fee => fee.1 ≠ self).map fun fee =>
    .transfer fee.1 fee.2 "sale of dreamoji"

def purchaseNft (buyer toAccount : AccountName) (assetId : Nat) (quantity : Asset)
    (s : Contract) : Guarded Contract := do
  let ask ← get s.asks assetId "cannot find nft sale listing"
  check (ask.amount.amount = quantity.amount) "send the correct amount"
  check (ctx.now < ask.expiration) "sale has expired"
  let feeMap ← calcFees ask.nftIds ask.amount ask.seller s
  let lockedNfts ← ask.nftIds.foldlM (unlockToken "dreamoji not found in lock table") s.lockedNfts
  let s ← changeOwner ask.seller toAccount ctx.callDepth false ask.nftIds
    { s with lockedNfts, sent := s.sent ++ payments self feeMap }
  .ok { s with
    asks := s.asks.erase assetId
    sent := s.sent ++ [.logsale ask.nftIds ask.seller buyer toAccount] }

def purchaseLicence (buyer toAccount : AccountName) (assetId : Nat) (quantity : Asset)
    (s : Contract) : Guarded Contract := do
  let sale ← get s.sales assetId "The asset's licence hasn't been put for sale yet"
  check (sale.price.amount = quantity.amount) "send the exact amount of DRMI"
  check (ctx.now < sale.endOfSale) "licence sale has expired"
  check (sale.lcncLimit ≠ 0) "all licences of this nft has been sold out"
  let payment : List InlineAction := if sale.seller = self then []
    else [.transfer sale.seller sale.price "sending DRMI to the licence seller"]
  createLicence self ctx sale.seller [toAccount] sale.lcncPeriodSec false ctx.callDepth
    { s with
      sales := s.sales.insert assetId { sale with lcncLimit := sale.lcncLimit - 1 }
      sent := s.sent ++ payment ++ [.logsale [assetId] sale.seller buyer toAccount] } assetId

end Actions

section Memo

def isSpace (c : Char) : Bool := c = ' ' || ('\t' ≤ c && c ≤ '\r')

def crop (text : List Char) : List Char :=
  ((text.dropWhile isSpace).reverse.dropWhile isSpace).reverse

/-- The constructor of names from texts of at most twelve characters. -/
def nameFromText (text : List Char) : Guarded AccountName := do
  -- decided along the text, not over all characters
  @check (∀ c ∈ text, c ∈ charmap) (List.decidableBAll _ text)
    "character is not in allowed character set for names"
  .ok (stringToNameFrom text 0)

/-- `stoull`: an optional sign and the digits that follow; a negative number wraps around. -/
def stoull (text : List Char) : Guarded Nat :=
  let digits := (text.dropWhile (fun c => c = '+' ∨ c = '-')).takeWhile Char.isDigit
  let value := digits.foldl (fun n c => 10 * n + (c.toNat - '0'.toNat)) 0
  if digits = [] ∨ 1 < (text.takeWhile fun c => c = '+' ∨ c = '-').length ∨ 2 ^ 64 ≤ value then
    .error .abort
  else .ok (if text.head? = some '-' then u64 (2 ^ 64 - value) else value)

/-- `stringtupler`: a memo is a kind of sale, an account of twelve characters and an id. -/
def stringTupler (memo : List Char) : Guarded (List Char × AccountName × Nat) := do
  let account := (memo.dropWhile (· ≠ ',')).drop 1
  let assetId := (account.dropWhile (· ≠ ',')).drop 1
  check (memo.count ',' ≠ 0) "the correct format of memo is sale_type,to_account,asset_id"
  check (1 < memo.count ',') "the correct format of memo is sale_type,to_account,asset_id"
  check (assetId ≠ []) "the correct format of memo is sale_type,to_account,asset_id"
  check ((account.takeWhile (· ≠ ',')).length = 12)
    "the correct format of memo is sale_type,to_account,asset_id"
  let toAccount ← nameFromText (crop (account.takeWhile (· ≠ ',')))
  let id ← stoull (crop assetId)
  .ok (crop (memo.takeWhile (· ≠ ',')), toAccount, id)

def nftSaleTypes : List (List Char) := ["nftoken".toList, "nft".toList, "n".toList]

def licenceSaleTypes : List (List Char) :=
  ["licence".toList, "license".toList, "lcnc".toList, "l".toList]

end Memo

/-- The handler of transfers of the token contract that concern the contract. -/
local instance lawfulBEqText : LawfulBEq (List Char) := List.instLawfulBEq

def purchase (self : AccountName) (ctx : Context) (fromAccount toAccount : AccountName)
    (quantity : Asset) (memo : List Char) (s : Contract) : Guarded Contract :=
  if memo = "deposit".toList then .ok s
  else if toAccount ≠ self then .ok s
  else if fromAccount = stringToName "eosio.stake" then .ok s
  else do
    check (quantity.symbol = drmi) "Purchase only using DRMI"
    check (memo.length ≤ 32) "memo too long"
    let order ← stringTupler memo
    if order.1 ∈ nftSaleTypes then
      purchaseNft self ctx fromAccount order.2.1 order.2.2 quantity s
    else if order.1 ∈ licenceSaleTypes then
      purchaseLicence self ctx fromAccount order.2.1 order.2.2 quantity s
    else
      .error (.check "parameter to differentiate between purchase of nftoken/licence is required")

end DreamChain.Dreamoji
