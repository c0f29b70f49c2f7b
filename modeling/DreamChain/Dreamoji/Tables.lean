import DreamChain.Chain.Action

/-!
The tables of the NFT contract and the types of the contract library it computes with. A table
is an ordered map from primary keys to rows, so a row does not repeat its key; a table with
scopes is a map from pairs of scope and key.

Doubles are the rational numbers they denote, and every operation rounds to the nearest one.
Texts are lists of characters. A failed action is rolled back, so an action maps the tables
before it to the tables after it, or to the failure.
-/

namespace DreamChain.Dreamoji
open Library

inductive Failure where
  | check (message : String)
  | missingAuthority (account : AccountName)
  /-- `emplace` of a primary key that the table has. -/
  | primaryKeyExists
  /-- The execution limits of the virtual machine. -/
  | callDepth
  /-- An exception of the standard library, which ends the execution. -/
  | abort
deriving DecidableEq, Repr

abbrev Guarded := Except Failure

def check (c : Prop) [Decidable c] (message : String) : Guarded Unit :=
  if c then .ok () else .error (.check message)

variable {message : String}

theorem check_eq_ok {c : Prop} [Decidable c] {u : Unit} : check c message = .ok u ↔ c := by
  by_cases h : c <;> simp [check]

structure Symbol where
  code : Nat
  precision : Nat
deriving DecidableEq, Repr

/-- `symbol_code::is_valid` from the low byte on: capital letters, then only zeros. -/
def codeIsValid : Nat → Nat → Bool
  | 0, _ => true
  | n + 1, code =>
    decide ('A'.toNat ≤ code % 2 ^ 8 ∧ code % 2 ^ 8 ≤ 'Z'.toNat) &&
      if code / 2 ^ 8 % 2 ^ 8 = 0 then decide (code / 2 ^ 8 = 0) else codeIsValid n (code / 2 ^ 8)

def Symbol.isValid (s : Symbol) : Bool := codeIsValid 7 s.code

/-- `symbol(symbol_code, precision)`, which keeps 56 bits of the code. -/
def mkSymbol (code precision : Nat) : Symbol := ⟨code % 2 ^ 56, precision⟩

/-- The code of up to seven characters, the first in the low byte. -/
def symbolCode (name : List Char) : Nat := name.foldr (fun c code => c.toNat + 2 ^ 8 * code) 0

def drmi : Symbol := mkSymbol (symbolCode "DRMI".toList) 4

structure Asset where
  amount : Int
  symbol : Symbol
deriving DecidableEq, Repr

def maxAmount : Int := 2 ^ 62 - 1

namespace Asset

def isAmountWithinRange (amount : Int) : Prop := -maxAmount ≤ amount ∧ amount ≤ maxAmount

instance (amount : Int) : Decidable (isAmountWithinRange amount) :=
  inferInstanceAs (Decidable (_ ∧ _))

def isValid (a : Asset) : Prop := isAmountWithinRange a.amount ∧ a.symbol.isValid = true

instance (a : Asset) : Decidable a.isValid := inferInstanceAs (Decidable (_ ∧ _))

def make (amount : Int) (symbol : Symbol) : Guarded Asset := do
  check (isAmountWithinRange amount) "magnitude of asset amount must be less than 2^62"
  check (symbol.isValid = true) "invalid symbol name"
  .ok ⟨amount, symbol⟩

def add (a b : Asset) : Guarded Asset := do
  check (b.symbol = a.symbol) "attempt to add asset with different symbol"
  check (-maxAmount ≤ a.amount + b.amount) "addition underflow"
  check (a.amount + b.amount ≤ maxAmount) "addition overflow"
  .ok { a with amount := a.amount + b.amount }

def sub (a b : Asset) : Guarded Asset := do
  check (b.symbol = a.symbol) "attempt to subtract asset with different symbol"
  check (-maxAmount ≤ a.amount - b.amount) "subtraction underflow"
  check (a.amount - b.amount ≤ maxAmount) "subtraction overflow"
  .ok { a with amount := a.amount - b.amount }

/-- `operator==`, which refuses to compare different symbols. -/
def equals (a b : Asset) : Guarded Bool := do
  check (a.symbol = b.symbol) "comparison of assets with different symbols is not allowed"
  .ok (decide (a.amount = b.amount))

theorem make_ok {amount symbol a} (h : make amount symbol = .ok a) : a = ⟨amount, symbol⟩ := by
  simp only [make, bind_eq_ok] at h
  obtain ⟨_, -, _, -, h⟩ := h
  exact (Except.ok.inj h).symm

theorem add_ok {a b c : Asset} (h : a.add b = .ok c) :
    b.symbol = a.symbol ∧ c = { a with amount := a.amount + b.amount } := by
  simp only [add, bind_eq_ok, check_eq_ok] at h
  obtain ⟨_, hsymbol, _, -, _, -, h⟩ := h
  exact ⟨hsymbol, (Except.ok.inj h).symm⟩

theorem sub_ok {a b c : Asset} (h : a.sub b = .ok c) :
    b.symbol = a.symbol ∧ c = { a with amount := a.amount - b.amount } := by
  simp only [sub, bind_eq_ok, check_eq_ok] at h
  obtain ⟨_, hsymbol, _, -, _, -, h⟩ := h
  exact ⟨hsymbol, (Except.ok.inj h).symm⟩

theorem equals_ok {a b : Asset} {r : Bool} (h : a.equals b = .ok r) :
    r = decide (a.amount = b.amount) := by
  simp only [equals, bind_eq_ok] at h
  obtain ⟨_, -, h⟩ := h
  exact (Except.ok.inj h).symm

end Asset

def twoPow (e : Int) : ℚ := if 0 ≤ e then mkRat (2 ^ e.toNat) 1 else mkRat 1 (2 ^ (-e).toNat)

/-- `2 ^ binaryExponent q ≤ q < 2 ^ (binaryExponent q + 1)` for a positive `q`. -/
def binaryExponent (q : ℚ) : Int :=
  let e : Int := q.num.toNat.log2 - q.den.log2
  if twoPow e ≤ q then e else e - 1

def roundHalfEven (q : ℚ) : Int :=
  let below := q.floor
  if q - below < 1 / 2 then below
  else if 1 / 2 < q - below then below + 1
  else if below % 2 = 0 then below else below + 1

/-- The double nearest to a number: 53 significant bits, and none below `2 ^ (-1074)`. -/
def toDouble (q : ℚ) : ℚ :=
  if q = 0 then 0
  else
    let e := max (binaryExponent (if 0 ≤ q then q else -q) - 52) (-1074)
    roundHalfEven (q / twoPow e) * twoPow e

def truncate (q : ℚ) : Int := if 0 ≤ q then q.floor else -(-q).floor

section Table
variable {κ ρ : Type} [LinearOrder κ]

def get (table : FlatMap κ ρ) (k : κ) (message : String) : Guarded ρ :=
  match table.find? k with
  | some row => .ok row
  | none => .error (.check message)

def emplace (table : FlatMap κ ρ) (k : κ) (row : ρ) : Guarded (FlatMap κ ρ) :=
  if (table.find? k).isSome then .error .primaryKeyExists else .ok (table.insert k row)

variable {table table' : FlatMap κ ρ} {k : κ} {row : ρ}

theorem get_eq_ok : get table k message = .ok row ↔ table.find? k = some row := by
  unfold get
  cases table.find? k <;> simp

theorem emplace_eq_ok :
    emplace table k row = .ok table' ↔ table.find? k = none ∧ table' = table.insert k row := by
  unfold emplace
  cases table.find? k <;> simp [eq_comm]

end Table

structure TokenConfigs where
  version : String
  symbol : Nat
  categoryNameId : Nat := 0
  nextNftId : Nat := 0
  nextLicenceId : Nat := 0
deriving DecidableEq, Repr

/-- `dreamstats`, under the category as scope and the token name as key. -/
structure DreamStats where
  fungible : Bool
  burnable : Bool
  sellable : Bool
  transferable : Bool
  issuer : AccountName
  revPartner : AccountName
  categoryNameId : Nat
  maxSupply : Asset
  maxIssueWindow : Nat
  currentSupply : Asset
  issuedSupply : Asset
  revSplit : ℚ
  baseUri : String
deriving DecidableEq, Repr

structure Dream where
  serialNumber : Nat
  owner : AccountName
  category : Nat
  tokenName : Nat
  relativeUri : String := ""
  children : List Nat := []
deriving DecidableEq, Repr

/-- `accounts`, under the owner as scope and the category name id as key. -/
structure Account where
  category : Nat
  tokenName : Nat
  amount : Asset
deriving DecidableEq, Repr

structure Ask where
  nftIds : List Nat
  seller : AccountName
  amount : Asset
  expiration : Nat
deriving DecidableEq, Repr

structure Sale where
  seller : AccountName
  price : Asset
  lcncLimit : Nat
  endOfSale : Nat
  lcncPeriodSec : Nat
deriving DecidableEq, Repr

structure Licence where
  nftId : Nat
  owner : AccountName
  licensedTo : List AccountName
  expiration : Nat
  relicense : Bool
deriving DecidableEq, Repr

/-- The inline actions the contract sends: payments through the token contract and logs. -/
inductive InlineAction where
  | transfer (toAccount : AccountName) (quantity : Asset) (memo : String)
  | logcall (nftId : Nat)
  | logsale (nftIds : List Nat) (seller buyer receiver : AccountName)
  | loglicense (lcncId : Nat)
deriving DecidableEq, Repr

abbrev TokenType := Nat ×ₗ Nat

abbrev Dreams := FlatMap Nat Dream

abbrev Accounts := FlatMap (AccountName ×ₗ Nat) Account

/-- The tables, and what the action in progress has sent. -/
structure Contract where
  tokenConfigs : Option TokenConfigs := none
  categoryInfo : FlatMap Nat Unit := .empty
  dreamStats : FlatMap TokenType DreamStats := .empty
  dreams : Dreams := .empty
  accounts : Accounts := .empty
  asks : FlatMap Nat Ask := .empty
  sales : FlatMap Nat Sale := .empty
  licences : FlatMap (AccountName ×ₗ Nat) Licence := .empty
  lockedNfts : FlatMap Nat Unit := .empty
  linkedNfts : FlatMap Nat Unit := .empty
  sent : List InlineAction := []

def Dream.type (token : Dream) : TokenType := toLex (token.category, token.tokenName)

def Account.type (acct : Account) : TokenType := toLex (acct.category, acct.tokenName)

namespace Contract

def locked (s : Contract) (nftId : Nat) : Prop := s.lockedNfts.find? nftId ≠ none

def linked (s : Contract) (nftId : Nat) : Prop := s.linkedNfts.find? nftId ≠ none

instance (s : Contract) (nftId : Nat) : Decidable (s.locked nftId) :=
  inferInstanceAs (Decidable (_ ≠ _))

instance (s : Contract) (nftId : Nat) : Decidable (s.linked nftId) :=
  inferInstanceAs (Decidable (_ ≠ _))

def children (s : Contract) (nftId : Nat) : List Nat :=
  match s.dreams.find? nftId with
  | some token => token.children
  | none => []

end Contract

end DreamChain.Dreamoji
