import DreamChain.Chain.Authority

/-!
Names, actions and the payloads of the native actions. A name is a 64-bit number that encodes
up to thirteen characters, five bits each and four for the last.

The data of an action is represented by what it unpacks to. Data that does not unpack to the
type an action is read as makes the reading throw.
-/

namespace DreamChain

abbrev ActionName := Nat

abbrev TransactionIdType := Sha256

def charmap : List Char := ".12345abcdefghijklmnopqrstuvwxyz".toList

def charToSymbol (c : Char) : Nat :=
  if 'a' ≤ c ∧ c ≤ 'z' then c.toNat - 'a'.toNat + 6
  else if '1' ≤ c ∧ c ≤ '5' then c.toNat - '1'.toNat + 1
  else 0

/-- `N(X)`, from the position `i` on. -/
def stringToNameFrom : List Char → Nat → Nat
  | [], _ => 0
  | c :: rest, i =>
    if i < 12 then charToSymbol c % 2 ^ 5 * 2 ^ (64 - 5 * (i + 1)) + stringToNameFrom rest (i + 1)
    else charToSymbol c % 2 ^ 4

def stringToName (s : String) : Nat := stringToNameFrom s.toList 0

/-- The thirteen characters of a name, last one first. -/
def reversedChars (value : Nat) : List Char :=
  charmap.getD (value % 2 ^ 4) '.' ::
    (List.range 12).map fun i => charmap.getD (value / 2 ^ (4 + 5 * i) % 2 ^ 5) '.'

/-- `name::to_string`, which drops the dots at the end. -/
def nameToString (value : Nat) : List Char :=
  ((reversedChars value).dropWhile (· = '.')).reverse

/-- `find("eosio.") == 0`. -/
def StartsWithEosio (value : Nat) : Prop := "eosio.".toList <+: nameToString value

instance (value : Nat) : Decidable (StartsWithEosio value) :=
  inferInstanceAs (Decidable (_ <+: _))

namespace config

def activeName : PermissionName := stringToName "active"

def ownerName : PermissionName := stringToName "owner"

def eosioAnyName : PermissionName := stringToName "eosio.any"

def eosioCodeName : PermissionName := stringToName "eosio.code"

def nullAccountName : AccountName := stringToName "eosio.null"

def producersAccountName : AccountName := stringToName "eosio.prods"

def majorityProducersPermissionName : PermissionName := stringToName "prod.major"

def minorityProducersPermissionName : PermissionName := stringToName "prod.minor"

theorem ownerName_ne_zero : ownerName ≠ 0 := by decide +kernel

theorem activeName_ne_zero : activeName ≠ 0 := by decide +kernel

theorem activeName_ne_ownerName : activeName ≠ ownerName := by decide +kernel

end config

example : stringToName "eosio" = config.systemAccountName := by decide +kernel

example : StartsWithEosio (stringToName "eosio.any") ∧ ¬ StartsWithEosio (stringToName "eosio") := by
  decide +kernel

structure NewAccount where
  creator : AccountName
  name : AccountName
  owner : Authority
  active : Authority
deriving DecidableEq, Repr

def NewAccount.getName : ActionName := stringToName "newaccount"

structure SetCode where
  account : AccountName
  vmtype : Nat
  vmversion : Nat
  code : List UInt8
deriving DecidableEq, Repr

def SetCode.getName : ActionName := stringToName "setcode"

structure SetAbi where
  account : AccountName
  abi : List UInt8
deriving DecidableEq, Repr

def SetAbi.getName : ActionName := stringToName "setabi"

structure UpdateAuth where
  account : AccountName
  permission : PermissionName
  parent : PermissionName
  auth : Authority
deriving DecidableEq, Repr

def UpdateAuth.getName : ActionName := stringToName "updateauth"

structure DeleteAuth where
  account : AccountName
  permission : PermissionName
deriving DecidableEq, Repr

def DeleteAuth.getName : ActionName := stringToName "deleteauth"

structure LinkAuth where
  account : AccountName
  code : AccountName
  type : ActionName
  requirement : PermissionName
deriving DecidableEq, Repr

def LinkAuth.getName : ActionName := stringToName "linkauth"

structure UnlinkAuth where
  account : AccountName
  code : AccountName
  type : ActionName
deriving DecidableEq, Repr

def UnlinkAuth.getName : ActionName := stringToName "unlinkauth"

structure CancelDelay where
  cancelingAuth : PermissionLevel
  trxId : TransactionIdType
deriving DecidableEq, Repr

def CancelDelay.getName : ActionName := stringToName "canceldelay"

inductive ActionData where
  | newaccount (data : NewAccount)
  | setcode (data : SetCode)
  | setabi (data : SetAbi)
  | updateauth (data : UpdateAuth)
  | deleteauth (data : DeleteAuth)
  | linkauth (data : LinkAuth)
  | unlinkauth (data : UnlinkAuth)
  | canceldelay (data : CancelDelay)
  | bytes (data : List UInt8)
deriving DecidableEq, Repr

structure Action where
  account : AccountName
  name : ActionName
  authorization : List PermissionLevel
  data : ActionData
deriving DecidableEq, Repr

structure Transaction where
  expiration : Nat := 0
  maxNetUsageWords : UInt32 := 0
  maxCpuUsageMs : UInt8 := 0
  delaySec : Nat := 0
  contextFreeActions : List Action := []
  actions : List Action := []
deriving DecidableEq, Repr

def Transaction.firstAuthorizer (trx : Transaction) : AccountName :=
  ((trx.actions.flatMap Action.authorization).head?.map PermissionLevel.actor).getD 0

end DreamChain
