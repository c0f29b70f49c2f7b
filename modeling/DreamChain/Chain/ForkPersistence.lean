import DreamChain.Chain.BlockProduction
import DreamChain.Chain.ForkInvariant

/-!
The fork database on disk. `close` writes the root, the blocks and the id of the head to a
file; `open` reads them back and adds the blocks one by one. The raw codec is a parameter:
a file is a sequence of units of which each packed value takes some, and unpacking returns
the fields that are reflected. The header extensions and the transactions of a block state
are not; `open` computes them from the block.

The blocks are written by merging the valid and the other blocks, least preferred first.
This puts every block behind its parent.
-/

namespace DreamChain
open Library List BlockState

/-- Packing and unpacking of the values in the file, over units of an arbitrary type. -/
structure RawCodec (τ : Type) where
  packU32 : Nat → List τ
  unpackU32 : List τ → Fallible (Nat × List τ)
  packUnsignedInt : Nat → List τ
  unpackUnsignedInt : List τ → Fallible (Nat × List τ)
  packBlockHeaderState : BlockHeaderState → List τ
  unpackBlockHeaderState : List τ → Fallible (BlockHeaderState × List τ)
  packBlockState : BlockState → List τ
  unpackBlockState : List τ → Fallible (BlockState × List τ)
  packBlockId : BlockIdType → List τ
  unpackBlockId : List τ → Fallible (BlockIdType × List τ)

/-- Unpacking what was packed returns the reflected fields and the rest of the file. -/
structure RawCodec.Lossless {τ : Type} (codec : RawCodec τ) : Prop where
  u32 : ∀ n < 2 ^ 32, ∀ ds, codec.unpackU32 (codec.packU32 n ++ ds) = .ok (n, ds)
  unsignedInt : ∀ n < 2 ^ 32, ∀ ds,
    codec.unpackUnsignedInt (codec.packUnsignedInt n ++ ds) = .ok (n, ds)
  blockHeaderState : ∀ s ds, codec.unpackBlockHeaderState (codec.packBlockHeaderState s ++ ds) =
    .ok ({ s with headerExts := [] }, ds)
  blockState : ∀ b ds, codec.unpackBlockState (codec.packBlockState b ++ ds) =
    .ok ({ b with headerExts := [], trxs := [] }, ds)
  blockId : ∀ id ds, codec.unpackBlockId (codec.packBlockId id ++ ds) = .ok (id, ds)

namespace ForkDatabase

def magicNumber : Nat := 0x30510FDB

def minSupportedVersion : Nat := 1

def maxSupportedVersion : Nat := 1

/-- The blocks in the order in which they are written: the two halves of the index, read
backwards and merged. -/
def blocksToWrite (index : List BlockState) : List BlockState :=
  merge ((byLib index).filter fun b => b.validated).reverse
    ((byLib index).filter fun b => !b.validated).reverse
    fun v u => decide (¬ firstPreferred v.toBlockHeaderState u.toBlockHeaderState)

/-- Computes the fields of a block state that the file does not hold. -/
def refill (P : Primitives) (s : BlockState) : Fallible BlockState :=
  match s.block with
  | none => .error ⟨.undefinedBehavior, "the block is a null pointer"⟩
  | some block => do
    let headerExts ← block.validateAndExtractHeaderExtensions P
    return { s with trxs := s.trxs ++ block.inputTransactions, headerExts }

section Codec

variable {τ : Type} (codec : RawCodec τ)

def content (db : ForkDatabase) : List τ :=
  codec.packU32 magicNumber ++ (codec.packU32 maxSupportedVersion ++
    (codec.packBlockHeaderState db.root.toBlockHeaderState ++
      (codec.packUnsignedInt (u32 db.index.length) ++
        ((blocksToWrite db.index).flatMap codec.packBlockState ++
          codec.packBlockId db.head.id))))

/-- The database and the file after `close`. Without a root nothing is written. -/
def close (forkDbDat : Option (List τ)) :
    Option ForkDatabase → Option ForkDatabase × Option (List τ)
  | none => (none, forkDbDat)
  | some db => (some { db with index := [] }, some (db.content codec))

def readBlocks (P : Primitives) (validator : FeatureValidator) (db : ForkDatabase) :
    Nat → List τ → Fallible (ForkDatabase × List τ)
  | 0, ds => .ok (db, ds)
  | n + 1, ds => do
    let (s, ds) ← codec.unpackBlockState ds
    let s ← refill P s
    let db ← db.add s false true validator
    readBlocks P validator db n ds

def findHead (db : ForkDatabase) (headId : BlockIdType) : Fallible BlockState :=
  if db.root.id = headId then .ok db.root
  else
    match db.getBlock headId with
    | some b => .ok b
    | none => .error ⟨.forkDatabaseException, "could not find head while reconstructing " ++
        "fork database from file; '${filename}' is likely corrupted"⟩

def checkHead (db : ForkDatabase) (head : BlockState) : Fallible Unit :=
  match validCandidate db.index with
  | none =>
    eosAssert (head.id = db.root.id) .forkDatabaseException ("head not set to root despite " ++
      "no better option available; '${filename}' is likely corrupted")
  | some candidate =>
    eosAssert (¬ firstPreferred candidate.toBlockHeaderState head.toBlockHeaderState)
      .forkDatabaseException ("head not set to best available option available; " ++
        "'${filename}' is likely corrupted")

/-- The head is set from its id and compared with the best block of the index. -/
def restoreHead (db : ForkDatabase) (headId : BlockIdType) : Fallible ForkDatabase := do
  let head ← db.findHead headId
  db.checkHead head
  return { db with head }

def readContent (P : Primitives) (validator : FeatureValidator) (ds : List τ) :
    Fallible ForkDatabase := do
  let (totem, ds) ← codec.unpackU32 ds
  eosAssert (totem = magicNumber) .forkDatabaseException ("Fork database file '${filename}' " ++
    "has unexpected magic number: ${actual_totem}. Expected ${expected_totem}")
  let (version, ds) ← codec.unpackU32 ds
  eosAssert (minSupportedVersion ≤ version ∧ version ≤ maxSupportedVersion)
    .forkDatabaseException ("Unsupported version of fork database file '${filename}'. " ++
      "Fork database version is ${version} while code supports version(s) [${min},${max}]")
  let (bhs, ds) ← codec.unpackBlockHeaderState ds
  let (size, ds) ← codec.unpackUnsignedInt ds
  let (db, ds) ← readBlocks codec P validator (reset bhs) size ds
  let (headId, _) ← codec.unpackBlockId ds
  db.restoreHead headId

/-- The database and the file after `open`. A file that was read is deleted. -/
def openForkDb (P : Primitives) (validator : FeatureValidator) (db : Option ForkDatabase) :
    Option (List τ) → Fallible (Option ForkDatabase × Option (List τ))
  | none => .ok (db, none)
  | some content => do
    let db ← readContent codec P validator content
    return (some db, none)

end Codec

def Complete (P : Primitives) (b : BlockState) : Prop :=
  ∃ block, b.block = some block ∧
    block.validateAndExtractHeaderExtensions P = .ok b.headerExts

variable {block : SignedBlock} {s : BlockHeaderState} {b : BlockState}

variable {validator : FeatureValidator} {P : Primitives}

theorem complete_of_finishNext {p : PendingBlockHeaderState} {trxs : List TransactionMetadata}
    {validated : Bool} (h : p.finishNext P validator block.toBlockHeader = .ok s) :
    Complete P ⟨s, some block, validated, trxs⟩ := by
  simp only [PendingBlockHeaderState.finishNext, bind_eq_ok] at h
  obtain ⟨_, _, exts, hexts, _, _, hs⟩ := h
  cases hs
  exact ⟨block, rfl, hexts⟩

theorem complete_ofSigned (h : ofSigned P validator s block = .ok b) : Complete P b := by
  simp only [ofSigned, bind_eq_ok] at h
  obtain ⟨_, _, state, hstate, hb⟩ := h
  cases hb
  exact complete_of_finishNext hstate

theorem complete_ofPending {cur trxMetas}
    (h : ofPending P validator cur block trxMetas = .ok b) : Complete P b := by
  simp only [ofPending, bind_eq_ok] at h
  obtain ⟨state, hstate, hb⟩ := h
  cases hb
  exact complete_of_finishNext hstate

def reloaded (b : BlockState) : BlockState :=
  { b with trxs := b.inputTransactions }

theorem refill_ok (h : Complete P b) :
    refill P { b with headerExts := [], trxs := [] } = .ok (reloaded b) := by
  obtain ⟨block, hblock, hexts⟩ := h
  simp only [refill, hblock, hexts, reloaded, inputTransactions]
  rfl

def reloadedRoot (b : BlockState) : BlockState :=
  { toBlockHeaderState := { b.toBlockHeaderState with headerExts := [] }, validated := true }

section Order

theorem blocksToWrite_perm (index : List BlockState) : (blocksToWrite index).Perm index := by
  have hhalves := filter_append_perm (fun b : BlockState => b.validated) (byLib index)
  refine (merge_perm_append _).trans ?_
  exact (((reverse_perm _).append (reverse_perm _)).trans hhalves).trans
    (perm_insertionSort _ index)

theorem reverse_half_sorted (index : List BlockState) (c : BlockState → Bool)
    (hc : ∀ a b, c a = true → c b = true → a.validated = b.validated) :
    ((byLib index).filter c).reverse.Pairwise fun a b =>
      ¬ firstPreferred a.toBlockHeaderState b.toBlockHeaderState := by
  refine pairwise_reverse.mpr ?_
  refine ((byLib_sorted index).filter c).imp_of_mem ?_
  intro a b ha hb hle
  exact (byLibBlockNum_le hle).2 (hc a b (mem_filter.mp ha).2 (mem_filter.mp hb).2)

theorem blocksToWrite_sorted (index : List BlockState) : (blocksToWrite index).Pairwise fun a b =>
      ¬ firstPreferred a.toBlockHeaderState b.toBlockHeaderState := by
  refine (pairwise_merge ?_ ?_ _ _ ?_ ?_).imp of_decide_eq_true
  · intro a b c hab hbc
    exact decide_eq_true (not_firstPreferred_trans (of_decide_eq_true hab) (of_decide_eq_true hbc))
  · intro a b
    have htotal := not_firstPreferred_total a.toBlockHeaderState b.toBlockHeaderState
    simpa only [Bool.or_eq_true, decide_eq_true_eq] using htotal
  · refine (reverse_half_sorted index _ ?_).imp decide_eq_true
    intro a b ha hb
    exact ha.trans hb.symm
  · refine (reverse_half_sorted index _ ?_).imp decide_eq_true
    intro a b ha hb
    simp only [Bool.not_eq_true'] at ha hb
    exact ha.trans hb.symm

theorem parent_before {db : ForkDatabase} (h : TreeInvariant db) {front back : List BlockState}
    {b : BlockState} (hsplit : blocksToWrite db.index = front ++ b :: back) :
    prev b = db.root.id ∨ ∃ p ∈ front, p.id = prev b := by
  have hmem : ∀ a, a ∈ db.index ↔ a ∈ front ++ b :: back := by
    intro a
    rw [← hsplit]
    exact (blocksToWrite_perm db.index).mem_iff.symm
  have hsorted := blocksToWrite_sorted db.index
  rw [hsplit] at hsorted
  have hb : b ∈ db.index := (hmem b).mpr (mem_append_right _ mem_cons_self)
  obtain hroot | ⟨p, hp, hkey⟩ := h.rooted.linked b hb
  · exact .inl hroot
  · have hpref : firstPreferred b.toBlockHeaderState p.toBlockHeaderState :=
      h.firstPreferred_of_path (l := []) (h.header_block hp) ⟨hb, rfl, hkey.symm⟩
    refine .inr ⟨p, ?_, hkey⟩
    cases mem_append.mp ((hmem p).mp hp) with
    | inl hfront => exact hfront
    | inr hrest =>
      have hlater := (pairwise_cons.mp (pairwise_append.mp hsorted).2.1).1
      cases hrest with
      | head => exact absurd hpref (firstPreferred_irrefl _)
      | tail _ hback => exact absurd hpref (hlater p hback)

end Order

section Reading

variable {τ : Type} {codec : RawCodec τ} {P : Primitives} {validator : FeatureValidator}

variable {db db' : ForkDatabase}

theorem add_of_parent (haccept : ∀ t cur new, validator t cur new = .ok ()) {n p : BlockState}
    (hp : db.getBlockHeader (prev n) = some p) (hnew : db.getBlock n.id = none) :
    db.add n false true validator = .ok (db.push n) := by
  have hfeatures : checkFeatures validator n p = .ok () := by
    rw [checkFeatures]
    cases n.headerExts with
    | nil => rfl
    | cons features rest => simp only [haccept]
  simp only [add, hp, hfeatures, insert, hnew]
  rfl

theorem readBlocks_ok (hcodec : codec.Lossless)
    (haccept : ∀ t cur new, validator t cur new = .ok ()) (db : ForkDatabase)
    (done todo : List BlockState) (hindex : db.index = done.map reloaded)
    (hcomplete : ∀ b ∈ todo, Complete P b)
    (hnodup : ((done ++ todo).map fun b => b.id).Nodup)
    (hparents : ∀ front b back, todo = front ++ b :: back →
      prev b = db.root.id ∨ ∃ p ∈ done ++ front, p.id = prev b) (ds : List τ) :
    ∃ db', readBlocks codec P validator db todo.length
        (todo.flatMap codec.packBlockState ++ ds) = .ok (db', ds) ∧
      db'.root = db.root ∧ db'.index = (done ++ todo).map reloaded := by
  induction todo generalizing db done with
  | nil => exact ⟨db, rfl, rfl, by rw [append_nil, hindex]⟩
  | cons b todo ih =>
    have hdone : (db.index.map fun b => b.id).Nodup := by
      rw [hindex, map_map]
      rw [map_append, nodup_append'] at hnodup
      exact hnodup.1
    have hparent : ∃ p, db.getBlockHeader (prev (reloaded b)) = some p := by
      by_cases hroot : prev b = db.root.id
      · exact ⟨_, (getBlockHeader_eq_some hdone).mpr (.inl ⟨hroot, rfl⟩)⟩
      · obtain h | ⟨p, hp, hkey⟩ := hparents [] b todo rfl
        · exact absurd h hroot
        · rw [append_nil] at hp
          refine ⟨reloaded p, (getBlockHeader_eq_some hdone).mpr (.inr ⟨hroot, ?_, hkey⟩)⟩
          rw [hindex]
          exact mem_map_of_mem hp
    have hnew : db.getBlock (reloaded b).id = none := by
      refine getBlock_eq_none.mpr ?_
      intro a ha hid
      rw [hindex] at ha
      obtain ⟨c, hc, rfl⟩ := mem_map.mp ha
      rw [map_append, nodup_append'] at hnodup
      exact hnodup.2.2 (mem_map_of_mem hc) (mem_cons.mpr (.inl hid))
    obtain ⟨p, hp⟩ := hparent
    have hadd := add_of_parent haccept hp hnew
    have hpush : (db.push (reloaded b)).index = (done ++ [b]).map reloaded := by
      rw [push, hindex, map_append]
      rfl
    obtain ⟨db', hread, hroot, hresult⟩ := ih _ _ hpush
      (fun a ha => hcomplete a (mem_cons_of_mem _ ha))
      (by simpa only [append_assoc, singleton_append] using hnodup)
      (fun front a back hsplit => by
        have h := hparents (b :: front) a back (by rw [hsplit, cons_append])
        simpa only [push, append_assoc, singleton_append] using h)
    refine ⟨db', ?_, hroot, by simpa using hresult⟩
    have hrefill := refill_ok (hcomplete b mem_cons_self)
    simp only [length_cons, flatMap_cons, append_assoc, readBlocks,
      hcodec.blockState, hrefill, hadd, hread, bind, Except.bind]

theorem restoreHead_ok (h : ForkInvariant db) (hroot : db'.root = reloadedRoot db.root)
    (hindex : db'.index.Perm (db.index.map reloaded)) : db'.restoreHead db.head.id = .ok { db' with
      head := if db.head = db.root then db'.root else reloaded db.head } := by
  have hid : db'.root.id = db.root.id := by
    rw [hroot]
    rfl
  have horigin : ∀ a ∈ db'.index, ∃ b ∈ db.index, reloaded b = a := by
    intro a ha
    exact mem_map.mp (hindex.mem_iff.mp ha)
  cases h.head with
  | inl hhead =>
    have hnone : validCandidate db'.index = none := by
      cases hcandidate : validCandidate db'.index with
      | none => rfl
      | some c =>
        obtain ⟨hmem, hvalid, _⟩ := validCandidate_eq_some hcandidate
        obtain ⟨b, hb, rfl⟩ := horigin c hmem
        have hinvalid := h.not_validated_of_head_root hhead b hb
        rw [show b.validated = true from hvalid] at hinvalid
        cases hinvalid
    simp only [restoreHead, findHead, checkHead, hhead, hid, if_true, hnone, bind,
      Except.bind]
    rfl
  | inr hhead =>
    have hne : db.head.id ≠ db.root.id := h.fresh _ hhead.1
    have hne' : ¬ db.head = db.root := fun heq => hne (congrArg (fun b => b.id) heq)
    have hnodup : (db'.index.map fun b => b.id).Nodup := by
      refine (hindex.map fun b : BlockState => b.id).nodup_iff.mpr ?_
      rw [map_map]
      exact h.nodup
    have hmem : reloaded db.head ∈ db'.index :=
      hindex.mem_iff.mpr (mem_map_of_mem hhead.1)
    have hget : db'.getBlock db.head.id = some (reloaded db.head) :=
      (getBlock_eq_some hnodup).mpr ⟨hmem, rfl⟩
    have hne'' : ¬ db.root.id = db.head.id := fun heq => hne heq.symm
    cases hcandidate : validCandidate db'.index with
    | none =>
      have hinvalid := validCandidate_eq_none hcandidate _ hmem
      rw [show (reloaded db.head).validated = true from hhead.2] at hinvalid
      cases hinvalid
    | some c =>
      obtain ⟨hmem, hvalid, _⟩ := validCandidate_eq_some hcandidate
      obtain ⟨b, hb, rfl⟩ := horigin c hmem
      have hbest : ¬ firstPreferred (reloaded b).toBlockHeaderState
          (reloaded db.head).toBlockHeaderState := h.best b hb hvalid
      simp only [restoreHead, findHead, checkHead, hid, hne'', hne', if_false, hget, hcandidate,
        hbest, bind, Except.bind]
      rfl

theorem readContent_written (hcodec : codec.Lossless) (bhs : BlockHeaderState) (size : Nat)
    (hsize : size < 2 ^ 32) (ds : List τ) :
    readContent codec P validator (codec.packU32 magicNumber ++
      (codec.packU32 maxSupportedVersion ++ (codec.packBlockHeaderState bhs ++
        (codec.packUnsignedInt size ++ ds)))) = (do
      let (db, ds) ← readBlocks codec P validator (reset { bhs with headerExts := [] }) size ds
      let (headId, _) ← codec.unpackBlockId ds
      db.restoreHead headId) := by
  simp only [readContent, hcodec.u32 magicNumber (by decide),
    hcodec.u32 maxSupportedVersion (by decide), hcodec.blockHeaderState,
    hcodec.unsignedInt size hsize, bind, Except.bind]
  rfl

/-- Reading a file that was written by `close` restores the root, the blocks and the head. -/
theorem openForkDb_close (hcodec : codec.Lossless)
    (haccept : ∀ t cur new, validator t cur new = .ok ()) {db : ForkDatabase} (h : ForkInvariant db)
    (hcomplete : ∀ b ∈ db.index, Complete P b) (hsize : db.index.length < 2 ^ 32)
    (opened : Option ForkDatabase) (forkDbDat : Option (List τ)) :
    ∃ db', openForkDb codec P validator opened (close codec forkDbDat (some db)).2 =
        .ok (some db', none) ∧
      db'.root = reloadedRoot db.root ∧ db'.index.Perm (db.index.map reloaded) ∧
      db'.head = if db.head = db.root then db'.root else reloaded db.head := by
  have hperm := blocksToWrite_perm db.index
  have hnodup : ((blocksToWrite db.index).map fun b => b.id).Nodup :=
    (hperm.map fun b : BlockState => b.id).nodup_iff.mpr h.nodup
  obtain ⟨db', hread, hroot, hindex⟩ := readBlocks_ok hcodec haccept
    (reset { db.root.toBlockHeaderState with headerExts := [] }) [] (blocksToWrite db.index) rfl
    (fun b hb => hcomplete b (hperm.mem_iff.mp hb)) hnodup
    (fun front b back hsplit => parent_before h.toTreeInvariant hsplit)
    (codec.packBlockId db.head.id)
  have hindex' : db'.index.Perm (db.index.map reloaded) := by
    rw [hindex]
    exact hperm.map reloaded
  refine ⟨{ db' with head := if db.head = db.root then db'.root else reloaded db.head }, ?_,
    hroot, hindex', rfl⟩
  have hrestore := restoreHead_ok h hroot hindex'
  rw [hperm.length_eq] at hread
  have hid := hcodec.blockId db.head.id []
  rw [append_nil] at hid
  have hcount : u32 db.index.length = db.index.length := Nat.mod_eq_of_lt hsize
  simp only [close, openForkDb, content, hcount, readContent_written hcodec _ _ hsize, hread, hid,
    hrestore, bind, Except.bind]
  rfl

theorem restoreHead_index {headId : BlockIdType} (h : db.restoreHead headId = .ok db') :
    db'.index = db.index := by
  simp only [restoreHead, bind_eq_ok] at h
  obtain ⟨_, _, _, _, h⟩ := h
  cases h
  rfl

theorem index_of_readContent_zero (hcodec : codec.Lossless) {bhs : BlockHeaderState} {ds : List τ}
    (h : readContent codec P validator (codec.packU32 magicNumber ++
      (codec.packU32 maxSupportedVersion ++ (codec.packBlockHeaderState bhs ++
        (codec.packUnsignedInt 0 ++ ds)))) = .ok db) : db.index = [] := by
  rw [readContent_written hcodec bhs 0 (by decide) ds] at h
  obtain ⟨_, hread, h⟩ := bind_eq_ok.mp h
  cases hread
  obtain ⟨_, _, h⟩ := bind_eq_ok.mp h
  exact restoreHead_index h

end Reading

section Samples

/-- A file whose units are whole values. -/
inductive FileUnit where
  | number (n : Nat)
  | blockHeaderState (s : BlockHeaderState)
  | blockState (b : BlockState)
  | blockId (id : BlockIdType)

def wrongUnit : ChainException := ⟨.other 0, "the file holds another value"⟩

def unitCodec : RawCodec FileUnit where
  packU32 n := [.number n]
  unpackU32
    | .number n :: ds => .ok (n, ds)
    | _ => .error wrongUnit
  packUnsignedInt n := [.number n]
  unpackUnsignedInt
    | .number n :: ds => .ok (n, ds)
    | _ => .error wrongUnit
  packBlockHeaderState s := [.blockHeaderState { s with headerExts := [] }]
  unpackBlockHeaderState
    | .blockHeaderState s :: ds => .ok (s, ds)
    | _ => .error wrongUnit
  packBlockState b := [.blockState { b with headerExts := [], trxs := [] }]
  unpackBlockState
    | .blockState b :: ds => .ok (b, ds)
    | _ => .error wrongUnit
  packBlockId id := [.blockId id]
  unpackBlockId
    | .blockId id :: ds => .ok (id, ds)
    | _ => .error wrongUnit

theorem unitCodec_lossless : unitCodec.Lossless :=
  ⟨fun _ _ _ => rfl, fun _ _ _ => rfl, fun _ _ => rfl, fun _ _ => rfl, fun _ _ => rfl⟩

theorem complete_sampleBlock (P : Primitives) (id previous blockNum lib : Nat) (validated : Bool) :
    Complete P { sampleBlock id previous blockNum lib with validated } :=
  ⟨{ previous := ⟨previous, 0, 0, 0⟩ }, rfl, rfl⟩

def manyChildren (n : Nat) : ForkDatabase :=
  { index := (range n).map fun i => sampleBlock (i + 2) 1 2 0
    root := sampleBlock 1 0 1 0
    head := sampleBlock 1 0 1 0 }

theorem forkInvariant_manyChildren (n : Nat) : ForkInvariant (manyChildren n) := by
  refine ⟨⟨?_, ?_, ?_⟩, .inl rfl, ?_⟩
  · rw [manyChildren, map_map]
    refine nodup_range.map ?_
    intro i j hij
    simpa [sampleBlock] using hij
  · intro b hb
    obtain ⟨i, _, rfl⟩ := mem_map.mp hb
    simp [sampleBlock, manyChildren]
  · intro b hb
    obtain ⟨i, _, rfl⟩ := mem_map.mp hb
    exact ⟨sampleBlock 1 0 1 0, rfl, rfl, Nat.le_refl _⟩
  · intro b hb hvalid
    obtain ⟨i, _, rfl⟩ := mem_map.mp hb
    cases hvalid

/-- The count that is written loses the bits above the 32nd. -/
theorem index_of_wrapped_count {n : Nat} (hn : u32 n = 0) {db : ForkDatabase}
    (h : openForkDb unitCodec P validator none (close unitCodec none (some (manyChildren n))).2 =
      .ok (some db, none)) : db.index = [] := by
  have hlength : (manyChildren n).index.length = n := by
    rw [manyChildren, length_map, length_range]
  simp only [close, content, hlength, hn] at h
  obtain ⟨_, hread, hdb⟩ := bind_eq_ok.mp h
  cases hdb
  exact index_of_readContent_zero unitCodec_lossless hread

/-- A database with `2 ^ 32` blocks is written with the block count 0. -/
theorem openForkDb_loses_blocks : ¬ ∀ (P : Primitives) (db : ForkDatabase), ForkInvariant db →
    (∀ b ∈ db.index, Complete P b) →
      ∃ db', openForkDb unitCodec P (fun _ _ _ => .ok ()) none
          (close unitCodec none (some db)).2 = .ok (some db', none) ∧
        db'.index.Perm (db.index.map reloaded) := by
  intro h
  obtain ⟨n, hn, hpos⟩ : ∃ n, u32 n = 0 ∧ 0 < n := ⟨2 ^ 32, by decide, by decide⟩
  have hcomplete : ∀ b ∈ (manyChildren n).index, Complete runPrimitives b := by
    intro b hb
    obtain ⟨i, _, rfl⟩ := mem_map.mp hb
    exact complete_sampleBlock runPrimitives _ _ _ _ false
  obtain ⟨db', hopen, hperm⟩ :=
    h runPrimitives (manyChildren n) (forkInvariant_manyChildren n) hcomplete
  have hlength := hperm.length_eq
  rw [index_of_wrapped_count hn hopen, manyChildren, map_map, length_map,
    length_range, length_nil] at hlength
  omega

def sampleFork : ForkDatabase :=
  { index := [sampleBlock 2 1 2 0, { sampleBlock 3 1 2 0 with validated := true },
      sampleBlock 4 3 3 1]
    root := sampleBlock 1 0 1 0
    head := { sampleBlock 3 1 2 0 with validated := true } }

theorem forkInvariant_sampleFork : ForkInvariant sampleFork := by
  refine ⟨⟨by decide, by decide, ?_⟩, .inr (by decide), by decide⟩
  intro b hb
  cases hb with
  | head => exact ⟨sampleBlock 1 0 1 0, by decide⟩
  | tail _ hb =>
    cases hb with
    | head => exact ⟨sampleBlock 1 0 1 0, by decide⟩
    | tail _ hb =>
      rw [mem_singleton.mp hb]
      exact ⟨{ sampleBlock 3 1 2 0 with validated := true }, by decide⟩

theorem openForkDb_close_sampleFork : ∃ db' : ForkDatabase,
    openForkDb unitCodec runPrimitives (fun _ _ _ => .ok ()) none
      (close unitCodec none (some sampleFork)).2 = .ok (some db', none) ∧
      db'.head.id = ⟨3, 0, 0, 0⟩ ∧ db'.index.length = 3 := by
  have hcomplete : ∀ b ∈ sampleFork.index, Complete runPrimitives b := by
    intro b hb
    have hblock : ∃ id previous blockNum lib validated,
        b = { sampleBlock id previous blockNum lib with validated } := by
      cases hb with
      | head => exact ⟨2, 1, 2, 0, false, rfl⟩
      | tail _ hb =>
        cases hb with
        | head => exact ⟨3, 1, 2, 0, true, rfl⟩
        | tail _ hb => exact ⟨4, 3, 3, 1, false, mem_singleton.mp hb⟩
    obtain ⟨id, previous, blockNum, lib, validated, rfl⟩ := hblock
    exact complete_sampleBlock runPrimitives id previous blockNum lib validated
  let accepting : FeatureValidator := fun _ _ _ => .ok ()
  have haccept : ∀ t cur new, accepting t cur new = .ok () := fun _ _ _ => rfl
  obtain ⟨db', hopen, _, hperm, hhead⟩ := openForkDb_close unitCodec_lossless haccept
    forkInvariant_sampleFork hcomplete (by decide) none none
  refine ⟨db', hopen, ?_, hperm.length_eq⟩
  rw [hhead]
  rfl

end Samples

end ForkDatabase

end DreamChain
