import DreamChain.Library.FlatMap

/-!
Data model of block headers, producer schedules and the exceptions the chain
library throws. Unsigned integers are natural numbers; every operation of the
source that can leave its width is written with the reduction it performs.

Hash functions and the raw codec are parameters collected in `Primitives`. No law
is assumed of them here; the results that need one state it.
-/

namespace DreamChain
open Library

abbrev AccountName := Nat

abbrev PublicKeyType := List UInt8

def u8 (n : Nat) : Nat := n % 2 ^ 8

def u32 (n : Nat) : Nat := n % 2 ^ 32

def u64 (n : Nat) : Nat := n % 2 ^ 64

/-- Subtraction of 32-bit operands, which wraps around. -/
def subU32 (a b : Nat) : Nat := u32 (a + (2 ^ 32 - u32 b))

/-- The four 64-bit words of a digest, in the order in which they are compared. -/
structure Sha256 where
  hash0 : Nat := 0
  hash1 : Nat := 0
  hash2 : Nat := 0
  hash3 : Nat := 0
deriving DecidableEq, Repr, Inhabited

def Sha256.words (h : Sha256) : Nat ×ₗ Nat ×ₗ Nat ×ₗ Nat :=
  toLex (h.hash0, toLex (h.hash1, toLex (h.hash2, h.hash3)))

theorem Sha256.words_injective : Function.Injective Sha256.words := by
  intro a b h
  cases a
  cases b
  simpa [Sha256.words] using h

instance : LinearOrder Sha256 := LinearOrder.lift' Sha256.words Sha256.words_injective

abbrev BlockIdType := Sha256

abbrev DigestType := Sha256

structure BlockTimestamp where
  slot : Nat := 0
deriving DecidableEq, Repr, Inhabited

inductive ExceptionType where
  | blockValidateException
  | unlinkableBlockException
  | producerDoubleConfirm
  | wrongProducer
  | producerScheduleException
  | invalidBlockHeaderExtension
  | illFormedProtocolFeatureActivation
  | forkDatabaseException
  | forkDbBlockNotFound
  | databaseException
  | blockLogAppendFail
  | permissionQueryException
  | invalidPermission
  | unsatisfiedAuthorization
  | irrelevantAuthException
  | unlinkableMinPermissionAction
  | txIrrelevantSig
  | transactionException
  | actionValidateException
  | accountNameExistsException
  | accountQueryException
  | missingAuthException
  | keyBlacklistException
  | invalidContractVmType
  | invalidContractVmVersion
  | setExactCode
  | invalidTablePayer
  | tableAccessViolation
  | tableNotInCache
  | tableOperationNotPermitted
  | invalidTableIterator
  | actionNotFoundException
  | subjectiveBlockProductionException
  | cfaInsideGeneratedTx
  | deferredTxDuplicate
  | txNotFound
  | unknownTransactionException
  | expiredTxException
  | txExpTooFarException
  | txDuplicate
  | txNetUsageExceeded
  | txCpuUsageExceeded
  | blockNetUsageExceeded
  | blockCpuUsageExceeded
  | greylistNetUsageExceeded
  | greylistCpuUsageExceeded
  | resourceLimitException
  | rateLimitingStateInconsistent
  | blockResourceExhausted
  | ramUsageExceeded
  | wasmExecutionError
  | deadlineException
  | leewayDeadlineException
  | actorWhitelistException
  | actorBlacklistException
  | contractWhitelistException
  | contractBlacklistException
  | actionBlacklistException
  | disallowedTransactionExtensionsBadBlockException
  | protocolFeatureBadBlockException
  | protocolFeatureException
  /-- Behaviour the language leaves undefined: nothing can be said about what follows. -/
  | undefinedBehavior
  /-- An exception raised by code outside the model, with its error code. -/
  | other (code : Nat)
deriving DecidableEq, Repr

structure ChainException where
  type : ExceptionType
  message : String
deriving DecidableEq, Repr

abbrev Fallible := Except ChainException

def eosAssert (c : Prop) [Decidable c] (type : ExceptionType) (message : String) : Fallible Unit :=
  if c then .ok () else .error ⟨type, message⟩

variable {c : Prop} {type : ExceptionType} {message : String} {e : ChainException} {ε α β : Type}
  {f : α → Except ε β} {x : Except ε α}

theorem eosAssert_eq_ok [Decidable c] {u : Unit} : eosAssert c type message = .ok u ↔ c := by
  by_cases h : c <;> simp [eosAssert]

theorem eosAssert_eq_error [Decidable c] :
    eosAssert c type message = .error e ↔ ¬ c ∧ e = ⟨type, message⟩ := by
  by_cases h : c <;> simp [eosAssert, h, eq_comm]

theorem bind_eq_ok {b : β} : (x >>= f) = .ok b ↔ ∃ a, x = .ok a ∧ f a = .ok b := by
  cases x <;> simp [bind, Except.bind]

theorem bind_eq_error {e : ε} :
    (x >>= f) = .error e ↔ x = .error e ∨ ∃ a, x = .ok a ∧ f a = .error e := by
  cases x <;> simp [bind, Except.bind]

/-- What a computation returns and what a lookup finds are evaluated. -/
instance decidableExistsOk {x : Except ε α} {p : α → Prop} [DecidablePred p] :
    Decidable (∃ a, x = .ok a ∧ p a) :=
  match x with
  | .ok a => decidable_of_iff (p a) (by simp)
  | .error _ => isFalse (by simp)

instance decidableIsOk {x : Except ε α} : Decidable (∃ a, x = .ok a) :=
  match x with
  | .ok a => isTrue ⟨a, rfl⟩
  | .error _ => isFalse (by simp)

instance decidableIsError [DecidableEq ε] {x : Except ε α} {e : ε} : Decidable (x = .error e) :=
  match x with
  | .ok _ => isFalse nofun
  | .error e' => decidable_of_iff (e' = e) (by simp)

instance decidableExistsSome {o : Option α} {p : α → Prop} [DecidablePred p] :
    Decidable (∃ a, o = some a ∧ p a) :=
  match o with
  | some a => decidable_of_iff (p a) (by simp)
  | none => isFalse (by simp)

namespace config

def systemAccountName : AccountName := 6138663577826885632

def producerRepetitions : Nat := 12

def maxProducers : Nat := 125

def maximumTrackedDposConfirmations : Nat := 1024

end config

structure ProducerKey where
  producerName : AccountName
  blockSigningKey : PublicKeyType := []
deriving DecidableEq, Repr, Inhabited

structure ProducerScheduleType where
  version : Nat := 0
  producers : List ProducerKey := []
deriving DecidableEq, Repr, Inhabited

def ProducerScheduleType.names (s : ProducerScheduleType) : List AccountName :=
  s.producers.map ProducerKey.producerName

structure BlockHeader where
  timestamp : BlockTimestamp := {}
  producer : AccountName := 0
  confirmed : Nat := 1
  previous : BlockIdType := {}
  transactionMroot : DigestType := {}
  actionMroot : DigestType := {}
  scheduleVersion : Nat := 0
  newProducers : Option ProducerScheduleType := none
  headerExtensions : List (Nat × List UInt8) := []
deriving DecidableEq, Repr, Inhabited

/-- Digests and the codec of the one header extension the chain knows. -/
structure Primitives where
  headerDigest : BlockHeader → DigestType
  scheduleDigest : ProducerScheduleType → DigestType
  pairDigest : DigestType → DigestType → DigestType
  packProtocolFeatures : List DigestType → List UInt8
  unpackProtocolFeatures : List UInt8 → Fallible (List DigestType)

def endianReverseU32 (x : Nat) : Nat :=
  x / 2 ^ 24 % 2 ^ 8 + x / 2 ^ 16 % 2 ^ 8 * 2 ^ 8 + x / 2 ^ 8 % 2 ^ 8 * 2 ^ 16 +
    x % 2 ^ 8 * 2 ^ 24

namespace BlockHeader

def numFromId (id : BlockIdType) : Nat := endianReverseU32 (u32 id.hash0)

def blockNum (h : BlockHeader) : Nat := u32 (numFromId h.previous + 1)

/-- The digest with the block number stored over its first four bytes. -/
def id (P : Primitives) (h : BlockHeader) : BlockIdType :=
  let digest := P.headerDigest h
  { digest with hash0 := digest.hash0 - u32 digest.hash0 + endianReverseU32 h.blockNum }

end BlockHeader

namespace ProtocolFeatureActivation

def extensionId : Nat := 0

/-- `reflector_init`: runs on every unpacked activation extension. -/
def reflectorInit (protocolFeatures : List DigestType) : Fallible Unit := do
  eosAssert (0 < protocolFeatures.length) .illFormedProtocolFeatureActivation
    "Protocol feature activation extension must have at least one protocol feature digest"
  eosAssert protocolFeatures.Nodup .illFormedProtocolFeatureActivation
    "Protocol feature digest ${d} was repeated in the protocol feature activation extension"

def unpack (P : Primitives) (data : List UInt8) : Fallible (List DigestType) := do
  let protocolFeatures ← P.unpackProtocolFeatures data
  reflectorInit protocolFeatures
  return protocolFeatures

end ProtocolFeatureActivation

namespace BlockHeader

/-- The loop over the extensions from index `i` on, with the lower bound on their ids.
There is one supported extension and it must not repeat. -/
def extractExtensions (P : Primitives) :
    List (Nat × List UInt8) → Nat → Nat → Fallible (List (List DigestType))
  | [], _, _ => .ok []
  | e :: rest, i, idTypeLowerBound => do
    eosAssert (idTypeLowerBound ≤ e.1) .invalidBlockHeaderExtension
      "Block header extensions are not in the correct order (ascending id types required)"
    if e.1 = ProtocolFeatureActivation.extensionId then
      let activation ← ProtocolFeatureActivation.unpack P e.2
      eosAssert (i = 0 ∨ idTypeLowerBound < e.1) .invalidBlockHeaderExtension
        "Block header extension with id type ${id} is not allowed to repeat"
      let results ← extractExtensions P rest (i + 1) e.1
      return activation :: results
    else
      .error ⟨.invalidBlockHeaderExtension,
        "Block header extension with id type ${id} is not supported"⟩

def validateAndExtractHeaderExtensions (P : Primitives) (h : BlockHeader) :
    Fallible (List (List DigestType)) :=
  extractExtensions P h.headerExtensions 0 0

end BlockHeader

abbrev FlatSet := FlatMap DigestType Unit

def protocolFeatureActivationSet (origPfaSet : FlatSet) (additionalFeatures : List DigestType) :
    Fallible FlatSet := do
  let protocolFeatures := additionalFeatures.foldl (fun s d => s.insert d ()) origPfaSet
  eosAssert (protocolFeatures.size = origPfaSet.size + additionalFeatures.length)
    .invalidBlockHeaderExtension "duplication of protocol feature digests"
  return protocolFeatures

end DreamChain
