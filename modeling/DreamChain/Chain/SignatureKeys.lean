import DreamChain.Library.FlatMap

/-!
Recovery of the keys that signed a transaction. Recovered keys are cached for the whole process,
under the signature they were recovered from, and a cached key is used again for the transaction
it was recovered for.

A key depends on more than these two: the digest that is signed also covers the chain id and the
context free data. The cache is transparent as long as calls that share a signature and a
transaction recover the same key from it.
-/

namespace DreamChain
open Library List

/-- Transaction ids, digests and the recovery of a key from a signature, which fails for a
signature that is not well formed. -/
structure KeyRecovery (Trx ChainId Digest Signature Key : Type) where
  id : Trx → Digest
  /-- The digest of the packed chain id, transaction and digest of the context free data. -/
  packed : ChainId → Trx → Digest → Digest
  hash : List (List UInt8) → Digest
  recover : Signature → Digest → Option Key

structure CachedPubKey (Digest Signature Key : Type) where
  trxId : Digest
  pubKey : Key
  sig : Signature

/-- The arguments of `get_signature_keys`; the deadline is left out. -/
structure KeysRequest (Trx ChainId Signature : Type) where
  trx : Trx
  signatures : List Signature
  chainId : ChainId
  cfd : List (List UInt8)
  allowDuplicateKeys : Bool

inductive KeysFailure (Key : Type) where
  | txDuplicateSig (key : Key)
  | recovery
deriving DecidableEq

abbrev RecoveryCache (Digest Signature Key : Type) := List (CachedPubKey Digest Signature Key)

def recoveryCacheSize : Nat := 10000

variable {Trx ChainId Digest Signature Key : Type}

section Keys
variable [DecidableEq Digest] [DecidableEq Signature] (R : KeyRecovery Trx ChainId Digest Signature Key)

def sigDigest [Inhabited Digest] (chainId : ChainId) (trx : Trx) (cfd : List (List UInt8)) : Digest :=
  R.packed chainId trx (if cfd.length ≠ 0 then R.hash cfd else default)

def KeysRequest.digest [Inhabited Digest] (r : KeysRequest Trx ChainId Signature) : Digest :=
  sigDigest R r.chainId r.trx r.cfd

/-- `emplace_back` does nothing when the signature is there, for whatever transaction. -/
def emplaceBack (cache : RecoveryCache Digest Signature Key)
    (entry : CachedPubKey Digest Signature Key) : RecoveryCache Digest Signature Key :=
  if cache.any (fun e => e.sig = entry.sig) then cache else cache ++ [entry]

def recoverKey (tid digest : Digest) (sig : Signature)
    (cache : RecoveryCache Digest Signature Key) :
    Option Key × RecoveryCache Digest Signature Key :=
  match (cache.find? fun e => e.sig = sig).filter fun e => e.trxId = tid with
  | some entry => (some entry.pubKey, cache)
  | none =>
    match R.recover sig digest with
    | none => (none, cache)
    | some recov => (some recov, emplaceBack cache ⟨tid, recov, sig⟩)

variable [LinearOrder Key]

/-- The loop over the signatures. The cache is cut to its size only when no signature fails. -/
def recoverKeys (tid digest : Digest) (allowDuplicateKeys : Bool) :
    List Signature → FlatMap Key Unit → RecoveryCache Digest Signature Key →
      Except (KeysFailure Key) (FlatMap Key Unit) × RecoveryCache Digest Signature Key
  | [], keys, cache => (.ok keys, cache.drop (cache.length - recoveryCacheSize))
  | sig :: rest, keys, cache =>
    match recoverKey R tid digest sig cache with
    | (none, cache) => (.error .recovery, cache)
    | (some recov, cache) =>
      if allowDuplicateKeys ∨ keys.find? recov = none then
        recoverKeys tid digest allowDuplicateKeys rest (keys.insert recov ()) cache
      else (.error (.txDuplicateSig recov), cache)

variable [Inhabited Digest]

def getSignatureKeys (r : KeysRequest Trx ChainId Signature)
    (cache : RecoveryCache Digest Signature Key) :
    Except (KeysFailure Key) (FlatMap Key Unit) × RecoveryCache Digest Signature Key :=
  recoverKeys R (R.id r.trx) (r.digest R) r.allowDuplicateKeys r.signatures .empty cache

def answers (cache : RecoveryCache Digest Signature Key) :
    List (KeysRequest Trx ChainId Signature) → List (Except (KeysFailure Key) (FlatMap Key Unit))
  | [] => []
  | r :: rest =>
    (getSignatureKeys R r cache).1 :: answers (getSignatureKeys R r cache).2 rest

end Keys

section Transparency

variable {R : KeyRecovery Trx ChainId Digest Signature Key} {tid digest : Digest} {sig : Signature}
  {l signatures : List Signature} {allowDuplicateKeys : Bool}
  {cache : RecoveryCache Digest Signature Key}

def CachedPubKey.RecoveredFrom (R : KeyRecovery Trx ChainId Digest Signature Key) (digest : Digest)
    (e : CachedPubKey Digest Signature Key) : Prop :=
  R.recover e.sig digest = some e.pubKey

def Faithful (R : KeyRecovery Trx ChainId Digest Signature Key) (tid digest : Digest)
    (signatures : List Signature) (cache : RecoveryCache Digest Signature Key) : Prop :=
  ∀ e ∈ cache, e.trxId = tid → e.sig ∈ signatures → e.RecoveredFrom R digest

section Requests
variable [Inhabited Digest] {r : KeysRequest Trx ChainId Signature}
  {requests history : List (KeysRequest Trx ChainId Signature)}

def Agreeing (R : KeyRecovery Trx ChainId Digest Signature Key)
    (requests : List (KeysRequest Trx ChainId Signature)) : Prop :=
  ∀ r ∈ requests, ∀ r' ∈ requests, r.trx = r'.trx → ∀ sig ∈ r.signatures, sig ∈ r'.signatures →
    R.recover sig (r.digest R) = R.recover sig (r'.digest R)

/-- Every entry stems from a call of the history. -/
def CachedFrom (R : KeyRecovery Trx ChainId Digest Signature Key)
    (history : List (KeysRequest Trx ChainId Signature))
    (cache : RecoveryCache Digest Signature Key) : Prop :=
  ∀ e ∈ cache, ∃ r ∈ history, e.trxId = R.id r.trx ∧ e.sig ∈ r.signatures ∧
    e.RecoveredFrom R (r.digest R)

theorem CachedFrom.faithful (h : CachedFrom R history cache) (hid : Function.Injective R.id)
    (hagree : ∀ r' ∈ history, r'.trx = r.trx → ∀ sig ∈ r'.signatures, sig ∈ r.signatures →
      R.recover sig (r'.digest R) = R.recover sig (r.digest R)) :
    Faithful R (R.id r.trx) (r.digest R) r.signatures cache := by
  intro e he htid hsig
  obtain ⟨r', hr', htid', hsig', hkey⟩ := h e he
  have htrx : r'.trx = r.trx := hid (htid'.symm.trans htid)
  exact (hagree r' hr' htrx e.sig hsig' hsig).symm.trans hkey

end Requests

variable [DecidableEq Digest] [DecidableEq Signature] {e : CachedPubKey Digest Signature Key}

theorem recoverKey_fst (h : Faithful R tid digest signatures cache) (hsig : sig ∈ signatures) :
    (recoverKey R tid digest sig cache).1 = R.recover sig digest := by
  unfold recoverKey
  split
  · rename_i entry hentry
    obtain ⟨hfind, htid⟩ := Option.filter_eq_some_iff.mp hentry
    have hfound := find?_some hfind
    have hsame : entry.sig = sig := of_decide_eq_true hfound
    subst hsame
    exact (h entry (mem_of_find?_eq_some hfind) (of_decide_eq_true htid) hsig).symm
  · split
    · rename_i hnone
      exact hnone.symm
    · rename_i recov hrecov
      exact hrecov.symm

theorem mem_recoverKey (he : e ∈ (recoverKey R tid digest sig cache).2) :
    e ∈ cache ∨ e.trxId = tid ∧ e.sig = sig ∧ e.RecoveredFrom R digest := by
  unfold recoverKey at he
  split at he
  · exact .inl he
  · split at he
    · exact .inl he
    · rename_i recov hrecov
      unfold emplaceBack at he
      split at he
      · exact .inl he
      · cases mem_append.mp he with
        | inl hold => exact .inl hold
        | inr hnew =>
          obtain rfl := mem_singleton.mp hnew
          exact .inr ⟨rfl, rfl, hrecov⟩

theorem Faithful.recoverKey (h : Faithful R tid digest signatures cache) (sig : Signature) :
    Faithful R tid digest signatures (recoverKey R tid digest sig cache).2 := by
  intro e he htid hsig
  cases mem_recoverKey he with
  | inl hold => exact h e hold htid hsig
  | inr hnew => exact hnew.2.2

variable [LinearOrder Key] {keys : FlatMap Key Unit}

/-- What the loop computes when every key is recovered. -/
def uncachedKeys (recover : Signature → Option Key) (allowDuplicateKeys : Bool) :
    List Signature → FlatMap Key Unit → Except (KeysFailure Key) (FlatMap Key Unit)
  | [], keys => .ok keys
  | sig :: rest, keys =>
    match recover sig with
    | none => .error .recovery
    | some recov =>
      if allowDuplicateKeys ∨ keys.find? recov = none then
        uncachedKeys recover allowDuplicateKeys rest (keys.insert recov ())
      else .error (.txDuplicateSig recov)

theorem recoverKeys_fst (h : Faithful R tid digest signatures cache)
    (hl : ∀ sig ∈ l, sig ∈ signatures) :
    (recoverKeys R tid digest allowDuplicateKeys l keys cache).1 =
      uncachedKeys (R.recover · digest) allowDuplicateKeys l keys := by
  induction l generalizing keys cache with
  | nil => rfl
  | cons sig rest ih =>
    obtain ⟨hsig, hrest⟩ := forall_mem_cons.mp hl
    have hkey := recoverKey_fst h hsig
    have hnext := h.recoverKey sig
    rw [recoverKeys, uncachedKeys, ← hkey]
    generalize recoverKey R tid digest sig cache = result at hnext
    obtain ⟨key, cache'⟩ := result
    cases key with
    | none => rfl
    | some recov =>
      dsimp only
      split
      · exact ih hnext hrest
      · rfl

theorem mem_recoverKeys (he : e ∈ (recoverKeys R tid digest allowDuplicateKeys l keys cache).2) :
    e ∈ cache ∨ e.trxId = tid ∧ e.sig ∈ l ∧ e.RecoveredFrom R digest := by
  induction l generalizing keys cache with
  | nil =>
    rw [recoverKeys] at he
    dsimp only at he
    exact .inl (mem_of_mem_drop he)
  | cons sig rest ih =>
    have hstep : ∀ e ∈ (recoverKey R tid digest sig cache).2,
        e ∈ cache ∨ e.trxId = tid ∧ e.sig ∈ sig :: rest ∧ e.RecoveredFrom R digest := by
      intro e he
      refine (mem_recoverKey he).imp_right fun hnew => ⟨hnew.1, ?_, hnew.2.2⟩
      exact hnew.2.1 ▸ mem_cons_self
    rw [recoverKeys] at he
    generalize recoverKey R tid digest sig cache = result at he hstep
    obtain ⟨key, cache'⟩ := result
    cases key with
    | none => exact hstep e he
    | some recov =>
      dsimp only at he
      split at he
      · cases ih he with
        | inl hold => exact hstep e hold
        | inr hnew => exact .inr ⟨hnew.1, mem_cons_of_mem _ hnew.2.1, hnew.2.2⟩
      · exact hstep e he

variable [Inhabited Digest] {r : KeysRequest Trx ChainId Signature}
  {requests history : List (KeysRequest Trx ChainId Signature)}

theorem CachedFrom.next (h : CachedFrom R history cache) :
    CachedFrom R (history ++ [r]) (getSignatureKeys R r cache).2 := by
  intro e he
  cases mem_recoverKeys he with
  | inl hold =>
    obtain ⟨r', hr', hfacts⟩ := h e hold
    exact ⟨r', mem_append_left _ hr', hfacts⟩
  | inr hnew => exact ⟨r, mem_append_right _ (mem_singleton_self r), hnew⟩

theorem getSignatureKeys_fst (h : Faithful R (R.id r.trx) (r.digest R) r.signatures cache) :
    (getSignatureKeys R r cache).1 =
      uncachedKeys (R.recover · (r.digest R)) r.allowDuplicateKeys r.signatures .empty :=
  recoverKeys_fst h fun _ hsig => hsig

theorem answers_eq (history : List (KeysRequest Trx ChainId Signature))
    (hid : Function.Injective R.id) (hcache : CachedFrom R history cache)
    (hagree : Agreeing R (history ++ requests)) :
    answers R cache requests = requests.map fun r => (getSignatureKeys R r []).1 := by
  induction requests generalizing history cache with
  | nil => rfl
  | cons r rest ih =>
    have hmem : r ∈ history ++ r :: rest := mem_append_right _ mem_cons_self
    have hfaithful := hcache.faithful hid fun r' hr' =>
      hagree r' (mem_append_left _ hr') r hmem
    have hempty : Faithful R (R.id r.trx) (r.digest R) r.signatures [] :=
      fun e he => absurd he not_mem_nil
    rw [answers, map_cons, getSignatureKeys_fst hfaithful, getSignatureKeys_fst hempty]
    refine congrArg _ (ih (history ++ [r]) hcache.next ?_)
    rw [append_assoc]
    exact hagree

/-- In a sequence of calls that agree each answer is the one an empty cache gives. -/
theorem answers_transparent (hid : Function.Injective R.id) (hagree : Agreeing R requests) :
    answers R [] requests = requests.map fun r => (getSignatureKeys R r []).1 :=
  answers_eq [] hid (fun _ he => absurd he not_mem_nil) hagree

def sumRecovery : KeyRecovery Nat Nat (List Nat) Nat Nat where
  id trx := [trx]
  packed chainId trx data := chainId :: trx :: data
  hash cfd := [cfd.length]
  recover sig digest := some (sig + digest.sum)

theorem sumRecovery_id_injective : Function.Injective sumRecovery.id := by
  intro a b h
  exact head_eq_of_cons_eq (show [a] = [b] from h)

/-- A transaction is verified twice on one chain, with the same context free data. -/
theorem answers_transparent_twice :
    answers sumRecovery [] [⟨7, [1, 2], 5, [[0]], false⟩, ⟨7, [2], 5, [[0]], false⟩] =
      [(getSignatureKeys sumRecovery ⟨7, [1, 2], 5, [[0]], false⟩ []).1,
        (getSignatureKeys sumRecovery ⟨7, [2], 5, [[0]], false⟩ []).1] := by
  refine answers_transparent sumRecovery_id_injective ?_
  simp [Agreeing, KeysRequest.digest]

/-- The same signature with other context free data: the key is the one of the first call. -/
theorem answers_stale : Function.Injective sumRecovery.id ∧
    answers sumRecovery [] [⟨7, [1], 5, [[0]], false⟩, ⟨7, [1], 5, [], false⟩] ≠
      [(getSignatureKeys sumRecovery ⟨7, [1], 5, [[0]], false⟩ []).1,
        (getSignatureKeys sumRecovery ⟨7, [1], 5, [], false⟩ []).1] := by
  refine ⟨sumRecovery_id_injective, ?_⟩
  decide +kernel

end Transparency

end DreamChain
