import DreamChain.Chain.NativeActions
import DreamChain.Library.FlatMapSum

/-!
The code objects that accounts share, and `setcode`, with the type and version of the machine
and the sequence number that the rest of the model leaves out. An object counts the accounts
that run it. Releasing and acquiring an object move one count each, so the counts follow the
accounts through every order of sets, replacements and clears.
-/

namespace DreamChain
open Library FlatMap

/-- The key of the index by code hash: the hash, the type and the version of the machine. -/
abbrev CodeKey := DigestType ×ₗ Nat ×ₗ Nat

def codeKey (codeHash : DigestType) (vmType vmVersion : Nat) : CodeKey :=
  toLex (codeHash, toLex (vmType, vmVersion))

namespace CodeObjects

structure CodeObject where
  codeHash : DigestType
  code : List UInt8
  codeRefCount : Nat
  firstBlockUsed : Nat
  vmType : Nat
  vmVersion : Nat
deriving DecidableEq, Repr

structure AccountMetadataObject where
  codeSequence : Nat := 0
  codeHash : DigestType := {}
  lastCodeUpdate : Int := 0
  vmType : Nat := 0
  vmVersion : Nat := 0
deriving DecidableEq, Repr

def AccountMetadataObject.key (a : AccountMetadataObject) : CodeKey :=
  codeKey a.codeHash a.vmType a.vmVersion

structure CodeDb where
  metadata : FlatMap AccountName AccountMetadataObject := .empty
  codes : FlatMap CodeKey CodeObject := .empty

variable (E : Environment)

/-- An object with the count one is removed. -/
def release (codes : FlatMap CodeKey CodeObject) (key : CodeKey) (entry : CodeObject) :
    FlatMap CodeKey CodeObject :=
  if entry.codeRefCount = 1 then codes.erase key
  else codes.insert key { entry with codeRefCount := u64 (entry.codeRefCount + (2 ^ 64 - 1)) }

def acquire (codes : FlatMap CodeKey CodeObject) (headBlockNum : Nat) (act : SetCode) :
    FlatMap CodeKey CodeObject :=
  let key := codeKey (codeHash E act.code) act.vmtype act.vmversion
  match codes.find? key with
  | some entry => codes.insert key { entry with codeRefCount := u64 (entry.codeRefCount + 1) }
  | none =>
    codes.insert key
      ⟨codeHash E act.code, act.code, 1, u32 (headBlockNum + 1), act.vmtype, act.vmversion⟩

/-- The objects without the one the account ran, and the size of its code. -/
def releaseExisting (db : CodeDb) (account : AccountMetadataObject) (newHash : DigestType) :
    Applied (Nat × FlatMap CodeKey CodeObject) :=
  if account.codeHash = {} then .ok (0, db.codes)
  else
    match db.codes.find? account.key with
    | none => .error ⟨unknownKey, none⟩
    | some entry => do
      require (entry.codeHash ≠ newHash) .setExactCode
        "contract is already running this version of code"
      return (entry.code.length, release db.codes account.key entry)

/-- `apply_eosio_setcode`, with the memory the account is then charged. -/
def setcode (authorization : List PermissionLevel) (headBlockNum : Nat) (act : SetCode)
    (db : CodeDb) : Applied (CodeDb × Int) := do
  requireAuthorization authorization act.account
  require (act.vmtype = 0) .invalidContractVmType "code should be 0"
  require (act.vmversion = 0) .invalidContractVmVersion "version should be 0"
  ActionFailure.lift (if act.code = [] then .ok () else E.validateCode act.code)
  match db.metadata.find? act.account with
  | none => .error ⟨unknownKey, none⟩
  | some account => do
    require (act.code ≠ [] ∨ account.codeHash ≠ {}) .setExactCode "contract is already cleared"
    let (oldSize, codes) ← releaseExisting db account (codeHash E act.code)
    let codes := if act.code = [] then codes else acquire E codes headBlockNum act
    let account :=
      { account with
        codeSequence := u64 (account.codeSequence + 1)
        codeHash := codeHash E act.code
        vmType := act.vmtype
        vmVersion := act.vmversion
        lastCodeUpdate := E.pendingBlockTime }
    return ({ metadata := db.metadata.insert act.account account, codes },
      act.code.length * config.setcodeRamBytesMultiplier -
        oldSize * config.setcodeRamBytesMultiplier)

/-- Runs in environments with one hash function. Accounts come without code, under names of 64
bits that are not empty; an action that fails changes nothing. -/
inductive CodeRun (hash : List UInt8 → DigestType) : CodeDb → Prop
  | start : CodeRun hash {}
  | account {db name} (h : CodeRun hash db) (hnew : name ∉ db.metadata.keys)
      (hempty : name ≠ 0) (hwidth : name < 2 ^ 64) :
      CodeRun hash { db with metadata := db.metadata.insert name {} }
  | setcode {db db' ramDelta} (h : CodeRun hash db) (E : Environment)
      (hE : E.hash = hash) (authorization : List PermissionLevel) (headBlockNum : Nat)
      (act : SetCode) (hok : setcode E authorization headBlockNum act db = .ok (db', ramDelta)) :
      CodeRun hash db'

def runners (db : CodeDb) (key : CodeKey) : Nat :=
  db.metadata.sum fun _ a => if a.key = key then 1 else 0

def refCount (codes : FlatMap CodeKey CodeObject) (key : CodeKey) : Nat :=
  (codes.find? key).elim 0 CodeObject.codeRefCount

def CodeObject.WellKeyed (key : CodeKey) (entry : CodeObject) : Prop :=
  key = codeKey entry.codeHash entry.vmType entry.vmVersion ∧ entry.vmType = 0 ∧
    entry.vmVersion = 0 ∧ entry.codeHash ≠ {} ∧ 1 ≤ entry.codeRefCount

def WellKeyed (codes : FlatMap CodeKey CodeObject) : Prop :=
  ∀ key entry, codes.find? key = some entry → entry.WellKeyed key

structure Counted (db : CodeDb) : Prop where
  names : ∀ name ∈ db.metadata.keys, name ≠ 0 ∧ name < 2 ^ 64
  machine : ∀ name a, db.metadata.find? name = some a → a.vmType = 0 ∧ a.vmVersion = 0
  keyed : WellKeyed db.codes
  count : ∀ key : CodeKey, (ofLex key).1 ≠ {} → refCount db.codes key = runners db key

section Counts

variable {E} {db : CodeDb} {codes : FlatMap CodeKey CodeObject} {key : CodeKey}
  {entry : CodeObject} {act : SetCode} {headBlockNum : Nat}

theorem refCount_insert (codes : FlatMap CodeKey CodeObject) (key j : CodeKey)
    (entry : CodeObject) : refCount (codes.insert key entry) j =
      if key = j then entry.codeRefCount else refCount codes j := by
  rw [refCount, find?_insert]
  split <;> rfl

theorem refCount_erase (codes : FlatMap CodeKey CodeObject) (key j : CodeKey) :
    refCount (codes.erase key) j = if key = j then 0 else refCount codes j := by
  rw [refCount, find?_erase]
  split <;> rfl

theorem refCount_of_find? (h : codes.find? key = some entry) :
    refCount codes key = entry.codeRefCount := by
  rw [refCount, h]
  rfl

theorem refCount_release (h : codes.find? key = some entry) (hpos : 1 ≤ entry.codeRefCount)
    (hwidth : entry.codeRefCount < 2 ^ 64) (j : CodeKey) :
    refCount (release codes key entry) j + (if key = j then 1 else 0) = refCount codes j := by
  rw [release]
  split
  · rename_i hone
    rw [refCount_erase]
    split
    · rename_i hj
      rw [← hj, refCount_of_find? h, hone]
    · rfl
  · rw [refCount_insert]
    split
    · rename_i hj
      have hdec : u64 (entry.codeRefCount + (2 ^ 64 - 1)) = entry.codeRefCount - 1 := by
        rw [u64]
        omega
      rw [← hj, refCount_of_find? h]
      change u64 (entry.codeRefCount + (2 ^ 64 - 1)) + 1 = _
      rw [hdec]
      omega
    · rfl

theorem wellKeyed_release (hkeyed : WellKeyed codes) (h : codes.find? key = some entry)
    (hwidth : entry.codeRefCount < 2 ^ 64) : WellKeyed (release codes key entry) := by
  intro j e hj
  rw [release] at hj
  split at hj
  · exact hkeyed j e ((find?_erase_eq_some_iff codes).mp hj).2
  · rw [find?_insert] at hj
    split at hj
    · rename_i heq
      cases hj
      subst heq
      obtain ⟨hkey, htype, hversion, hhash, hpos⟩ := hkeyed _ entry h
      refine ⟨hkey, htype, hversion, hhash, ?_⟩
      change 1 ≤ u64 (entry.codeRefCount + (2 ^ 64 - 1))
      rw [u64]
      omega
    · exact hkeyed j e hj

theorem refCount_acquire
    (hwidth : refCount codes (codeKey (codeHash E act.code) act.vmtype act.vmversion) + 1 < 2 ^ 64)
    (j : CodeKey) : refCount (acquire E codes headBlockNum act) j = refCount codes j +
      if codeKey (codeHash E act.code) act.vmtype act.vmversion = j then 1 else 0 := by
  rw [acquire]
  split
  · rename_i entry hentry
    rw [refCount_of_find? hentry] at hwidth
    rw [refCount_insert]
    split
    · rename_i hj
      rw [← hj, refCount_of_find? hentry]
      exact Nat.mod_eq_of_lt hwidth
    · rfl
  · rename_i hnone
    rw [refCount_insert]
    split
    · rename_i hj
      rw [← hj, refCount, hnone]
      rfl
    · rfl

theorem wellKeyed_acquire (hkeyed : WellKeyed codes) (htype : act.vmtype = 0)
    (hversion : act.vmversion = 0) (hhash : codeHash E act.code ≠ {})
    (hwidth : refCount codes (codeKey (codeHash E act.code) act.vmtype act.vmversion) + 1 < 2 ^ 64) :
    WellKeyed (acquire E codes headBlockNum act) := by
  intro j e hj
  rw [acquire] at hj
  split at hj
  · rename_i entry hentry
    rw [refCount_of_find? hentry] at hwidth
    rw [find?_insert] at hj
    split at hj
    · rename_i heq
      cases hj
      subst heq
      obtain ⟨hkey, htype, hversion, hhash, hpos⟩ := hkeyed _ entry hentry
      refine ⟨hkey, htype, hversion, hhash, ?_⟩
      change 1 ≤ u64 (entry.codeRefCount + 1)
      rw [u64, Nat.mod_eq_of_lt hwidth]
      omega
    · exact hkeyed j e hj
  · rw [find?_insert] at hj
    split at hj
    · rename_i heq
      cases hj
      exact ⟨heq.symm, htype, hversion, hhash, Nat.le_refl 1⟩
    · exact hkeyed j e hj

theorem runners_lt (hnames : ∀ name ∈ db.metadata.keys, name ≠ 0 ∧ name < 2 ^ 64)
    (key : CodeKey) : runners db key < 2 ^ 64 := by
  have hsub : db.metadata.keys.toFinset ⊆ Finset.Ico 1 (2 ^ 64) := by
    intro name hname
    obtain ⟨hne, hlt⟩ := hnames name (List.mem_toFinset.mp hname)
    exact Finset.mem_Ico.mpr ⟨Nat.one_le_iff_ne_zero.mpr hne, hlt⟩
  have hcard := Finset.card_le_card hsub
  rw [List.toFinset_card_of_nodup db.metadata.keys_nodup, Nat.card_Ico] at hcard
  have hsize : db.metadata.keys.length = db.metadata.size := List.length_map _
  have hle : runners db key ≤ db.metadata.size :=
    db.metadata.sum_le_size fun _ a => by
      split
      · exact Nat.le_refl 1
      · exact Nat.zero_le 1
  omega

theorem hash_of_codeKey {codeHash vmType vmVersion}
    (h : codeKey codeHash vmType vmVersion = key) : (ofLex key).1 = codeHash := by
  rw [← h]
  rfl

theorem Counted.releaseExisting (h : Counted db) {account : AccountMetadataObject}
    {newHash : DigestType} {oldSize : Nat}
    (hrelease : releaseExisting db account newHash = .ok (oldSize, codes)) :
    WellKeyed codes ∧ ∀ key : CodeKey, (ofLex key).1 ≠ {} →
      refCount codes key + (if account.key = key then 1 else 0) = runners db key := by
  rw [CodeObjects.releaseExisting] at hrelease
  split at hrelease
  · rename_i hzero
    cases hrelease
    refine ⟨h.keyed, fun key hkey => ?_⟩
    have hne : account.key ≠ key := fun heq => hkey ((hash_of_codeKey heq).trans hzero)
    rw [if_neg hne, h.count key hkey]
    rfl
  · rename_i hnonzero
    split at hrelease
    · cases hrelease
    · rename_i entry hentry
      obtain ⟨_, _, hreturn⟩ := bind_eq_ok.mp hrelease
      cases hreturn
      obtain ⟨_, _, _, _, hpos⟩ := h.keyed _ entry hentry
      have hcount := h.count account.key hnonzero
      rw [refCount_of_find? hentry] at hcount
      have hwidth : entry.codeRefCount < 2 ^ 64 := hcount ▸ runners_lt h.names _
      refine ⟨wellKeyed_release h.keyed hentry hwidth, fun key hkey => ?_⟩
      rw [refCount_release hentry hpos hwidth, h.count key hkey]

theorem Counted.setcode (h : Counted db) (hhash : ∀ code ≠ [], E.hash code ≠ {}) {db' : CodeDb}
    {authorization : List PermissionLevel} {ramDelta : Int}
    (hok : setcode E authorization headBlockNum act db = .ok (db', ramDelta)) : Counted db' := by
  obtain ⟨_, _, hok⟩ := bind_eq_ok.mp hok
  obtain ⟨_, htype, hok⟩ := bind_eq_ok.mp hok
  obtain ⟨_, hversion, hok⟩ := bind_eq_ok.mp hok
  obtain ⟨_, _, hok⟩ := bind_eq_ok.mp hok
  rw [require_eq_ok] at htype hversion
  split at hok
  · cases hok
  rename_i account haccount
  simp only [bind_eq_ok] at hok
  obtain ⟨_, _, ⟨oldSize, codes⟩, hrelease, hok⟩ := hok
  cases hok
  obtain ⟨hkeyed, hcounts⟩ := h.releaseExisting hrelease
  generalize hnew : ({ account with
    codeSequence := u64 (account.codeSequence + 1)
    codeHash := codeHash E act.code
    vmType := act.vmtype
    vmVersion := act.vmversion
    lastCodeUpdate := E.pendingBlockTime } : AccountMetadataObject) = account'
  have hkey : account'.key = codeKey (codeHash E act.code) act.vmtype act.vmversion := by
    rw [← hnew]
    rfl
  have hnames : ∀ name ∈ (db.metadata.insert act.account account').keys,
      name ≠ 0 ∧ name < 2 ^ 64 := by
    intro name hname
    rw [keys_insert_of_mem _ _ _ (mem_keys_of_find? haccount)] at hname
    exact h.names name hname
  -- the account counts for what it runs now instead of what it ran before
  have hmoved : ∀ codes', ∀ key : CodeKey, (ofLex key).1 ≠ {} →
      refCount codes key + (if account'.key = key then 1 else 0) =
        runners ⟨db.metadata.insert act.account account', codes'⟩ key := by
    intro codes' key hnonzero
    have hsum := db.metadata.sum_insert_present (fun _ a => if a.key = key then 1 else 0)
      account' haccount
    have hold := hcounts key hnonzero
    simp only [runners] at hold ⊢
    omega
  have hmachine : ∀ name a, (db.metadata.insert act.account account').find? name = some a →
      a.vmType = 0 ∧ a.vmVersion = 0 := by
    intro name a ha
    rw [find?_insert] at ha
    split at ha
    · cases ha
      rw [← hnew]
      exact ⟨htype, hversion⟩
    · exact h.machine name a ha
  by_cases hclear : act.code = []
  · rw [if_pos hclear]
    refine ⟨hnames, hmachine, hkeyed, fun key hnonzero => ?_⟩
    have hne : account'.key ≠ key := fun heq => by
      rw [hkey, codeHash, if_pos hclear] at heq
      exact hnonzero (hash_of_codeKey heq)
    have hcount := hmoved codes key hnonzero
    rwa [if_neg hne] at hcount
  · rw [if_neg hclear]
    have hnonzero : codeHash E act.code ≠ {} := by
      rw [codeHash, if_neg hclear]
      exact hhash act.code hclear
    have hwidth : refCount codes account'.key + 1 < 2 ^ 64 := by
      have hcount := hmoved codes account'.key (hkey ▸ hnonzero)
      rw [if_pos rfl] at hcount
      rw [hcount]
      exact runners_lt hnames _
    rw [hkey] at hwidth
    refine ⟨hnames, hmachine, wellKeyed_acquire hkeyed htype hversion hnonzero hwidth,
      fun key hkeyNonzero => ?_⟩
    rw [refCount_acquire hwidth, ← hkey]
    exact hmoved _ key hkeyNonzero

theorem Counted.account (h : Counted db) {name : AccountName} (hnew : name ∉ db.metadata.keys)
    (hempty : name ≠ 0) (hwidth : name < 2 ^ 64) :
    Counted { db with metadata := db.metadata.insert name {} } where
  names := by
    intro other hother
    rw [mem_keys_insert] at hother
    cases hother with
    | inl heq => exact heq ▸ ⟨hempty, hwidth⟩
    | inr hmem => exact h.names other hmem
  machine := by
    intro other a ha
    rw [find?_insert] at ha
    split at ha
    · cases ha
      exact ⟨rfl, rfl⟩
    · exact h.machine other a ha
  keyed := h.keyed
  count := by
    intro key hnonzero
    have hne : AccountMetadataObject.key {} ≠ key := fun heq => hnonzero (hash_of_codeKey heq)
    rw [h.count key hnonzero, runners, runners, sum_insert_absent _ _ _ hnew, if_neg hne]
    rfl

end Counts

theorem CodeRun.counted {hash : List UInt8 → DigestType} (hhash : ∀ code ≠ [], hash code ≠ {})
    {db : CodeDb} (h : CodeRun hash db) : Counted db := by
  induction h with
  | start => exact ⟨nofun, nofun, nofun, fun _ _ => rfl⟩
  | account _ hnew hempty hwidth ih => exact ih.account hnew hempty hwidth
  | setcode _ E hE _ _ _ hok ih => exact ih.setcode (hE ▸ hhash) hok

def runningAccounts (db : CodeDb) (entry : CodeObject) : List AccountName :=
  (db.metadata.entries.filter fun e => e.2.codeHash = entry.codeHash ∧
    e.2.vmType = entry.vmType ∧ e.2.vmVersion = entry.vmVersion).map Prod.fst

theorem key_eq_iff {entry : CodeObject} {a : AccountMetadataObject} :
    a.key = codeKey entry.codeHash entry.vmType entry.vmVersion ↔ a.codeHash = entry.codeHash ∧
      a.vmType = entry.vmType ∧ a.vmVersion = entry.vmVersion := by
  simp [AccountMetadataObject.key, codeKey]

theorem runners_eq_length (db : CodeDb) (entry : CodeObject) :
    runners db (codeKey entry.codeHash entry.vmType entry.vmVersion) =
      (runningAccounts db entry).length := by
  rw [runners, sum, runningAccounts, List.length_map]
  generalize db.metadata.entries = l
  induction l with
  | nil => rfl
  | cons e rest ih =>
    rw [List.map_cons, List.sum_cons, ih, List.filter_cons]
    by_cases hkey : e.2.key = codeKey entry.codeHash entry.vmType entry.vmVersion
    · rw [if_pos hkey, if_pos (decide_eq_true (key_eq_iff.mp hkey))]
      exact Nat.add_comm _ _
    · rw [if_neg hkey, if_neg fun h => hkey (key_eq_iff.mpr (of_decide_eq_true h))]
      exact Nat.zero_add _

/-- Every object is counted once for each account that runs it, every account that runs code has
its object, and no two objects hold the same code. -/
theorem codes_counted {hash : List UInt8 → DigestType} (hhash : ∀ code ≠ [], hash code ≠ {})
    {db : CodeDb} (h : CodeRun hash db) : (∀ entry ∈ db.codes.values, 1 ≤ entry.codeRefCount ∧
      entry.codeRefCount = (runningAccounts db entry).length) ∧
    (∀ name account, db.metadata.find? name = some account → account.codeHash ≠ {} →
      ∃ entry ∈ db.codes.values, entry.codeHash = account.codeHash ∧
        entry.vmType = account.vmType ∧ entry.vmVersion = account.vmVersion) ∧
    (db.codes.values.map CodeObject.codeHash).Nodup := by
  have hcounted := h.counted hhash
  refine ⟨?_, ?_, ?_⟩
  · intro entry hentry
    obtain ⟨key, hkey⟩ := (db.codes.mem_values_iff entry).mp hentry
    obtain ⟨rfl, _, _, hnonzero, hpos⟩ := hcounted.keyed key entry hkey
    refine ⟨hpos, ?_⟩
    rw [← runners_eq_length,
      ← hcounted.count (codeKey entry.codeHash entry.vmType entry.vmVersion) hnonzero,
      refCount_of_find? hkey]
  · intro name account haccount hnonzero
    have hcount := hcounted.count account.key hnonzero
    have hpos : 0 < runners db account.key := by
      have hle := db.metadata.le_sum (fun _ a => if a.key = account.key then 1 else 0) haccount
      rw [if_pos rfl] at hle
      exact hle
    cases hfind : db.codes.find? account.key with
    | none =>
      rw [refCount, hfind] at hcount
      exact absurd hcount (Nat.ne_of_lt hpos)
    | some entry =>
      obtain ⟨hkey, _⟩ := hcounted.keyed _ entry hfind
      obtain ⟨hsame, htype, hversion⟩ := key_eq_iff.mp hkey
      exact ⟨entry, (db.codes.mem_values_iff entry).mpr ⟨_, hfind⟩, hsame.symm, htype.symm,
        hversion.symm⟩
  · rw [values, List.map_map, List.Nodup, List.pairwise_map]
    refine db.codes.sorted.imp_of_mem fun {e f} he hf hlt heq => hlt.ne ?_
    obtain ⟨hkey, htype, hversion, _⟩ := hcounted.keyed _ _ ((db.codes.mem_entries_iff _ _).mp he)
    obtain ⟨hkey', htype', hversion', _⟩ :=
      hcounted.keyed _ _ ((db.codes.mem_entries_iff _ _).mp hf)
    rw [hkey, hkey', htype, htype', hversion, hversion']
    exact congrArg (codeKey · 0 0) heq

/-- Two accounts set the same code, one of them clears it again. -/
theorem codes_counted_shared : ∃ db, CodeRun (fun _ => ⟨1, 0, 0, 0⟩) db ∧
      (∃ entry ∈ db.codes.values, entry.code = [7] ∧ runningAccounts db entry = [2]) ∧
      (∀ entry ∈ db.codes.values, 1 ≤ entry.codeRefCount ∧
        entry.codeRefCount = (runningAccounts db entry).length) ∧
      (∀ name account, db.metadata.find? name = some account → account.codeHash ≠ {} →
        ∃ entry ∈ db.codes.values, entry.codeHash = account.codeHash ∧
          entry.vmType = account.vmType ∧ entry.vmVersion = account.vmVersion) ∧
      (db.codes.values.map CodeObject.codeHash).Nodup := by
  let hash : List UInt8 → DigestType := fun _ => ⟨1, 0, 0, 0⟩
  let E : Environment := { hash, validateCode := fun _ => .ok (), packSize := fun _ => 0 }
  let db₀ : CodeDb := { metadata := (empty.insert 1 {}).insert 2 {} }
  have hfirst : CodeRun hash { metadata := empty.insert 1 {} } :=
    CodeRun.start.account (by decide) (by decide) (by decide)
  have hstart : CodeRun hash db₀ := hfirst.account (by decide) (by decide) (by decide)
  obtain ⟨r₁, h₁, r₂, h₂, r₃, h₃, hentry⟩ :
      ∃ r₁, setcode E [⟨1, 0⟩] 5 ⟨1, 0, 0, [7]⟩ db₀ = .ok r₁ ∧
        ∃ r₂, setcode E [⟨2, 0⟩] 5 ⟨2, 0, 0, [7]⟩ r₁.1 = .ok r₂ ∧
          ∃ r₃, setcode E [⟨1, 0⟩] 6 ⟨1, 0, 0, []⟩ r₂.1 = .ok r₃ ∧
            ∃ entry ∈ r₃.1.codes.values, entry.code = [7] ∧ runningAccounts r₃.1 entry = [2] := by
    decide +kernel
  have hrun : CodeRun hash r₃.1 :=
    ((hstart.setcode E rfl _ _ _ h₁).setcode E rfl _ _ _ h₂).setcode E rfl _ _ _ h₃
  exact ⟨r₃.1, hrun, hentry, codes_counted (fun _ _ => by decide) hrun⟩

end CodeObjects

end DreamChain
