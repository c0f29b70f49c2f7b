import DreamChain.Chain.ControllerInvariant
import DreamChain.Chain.DposInvariant

/-!
New blocks in a consistent controller. A new chain is consistent, and a block that was
received or produced on a block of the tree can be added to it. Block numbers are part of
the ids, so that nothing but the 32 bits they have room for is asked of them; that the last
irreversible block never falls from a block to its child is a hypothesis.
-/

namespace DreamChain
open Library ForkDatabase UndoStack List BlockState

variable {σ : Type} {X : Execution σ} {P : Primitives} {base : UndoStack σ}
  {pending : PendingBlockHeaderState} {t : BlockTimestamp} {confirmed : Nat}

theorem endianReverseU32_lt (n : Nat) : endianReverseU32 n < 2 ^ 32 := by
  simp only [endianReverseU32]
  omega

theorem endianReverseU32_bytes {a b c d : Nat} (ha : a < 2 ^ 8) (hb : b < 2 ^ 8) (hc : c < 2 ^ 8)
    (hd : d < 2 ^ 8) : endianReverseU32 (a + b * 2 ^ 8 + c * 2 ^ 16 + d * 2 ^ 24) =
      d + c * 2 ^ 8 + b * 2 ^ 16 + a * 2 ^ 24 := by
  have h₀ : (a + b * 2 ^ 8 + c * 2 ^ 16 + d * 2 ^ 24) % 2 ^ 8 = a := by omega
  have h₁ : (a + b * 2 ^ 8 + c * 2 ^ 16 + d * 2 ^ 24) / 2 ^ 8 % 2 ^ 8 = b := by omega
  have h₂ : (a + b * 2 ^ 8 + c * 2 ^ 16 + d * 2 ^ 24) / 2 ^ 16 % 2 ^ 8 = c := by omega
  have h₃ : (a + b * 2 ^ 8 + c * 2 ^ 16 + d * 2 ^ 24) / 2 ^ 24 % 2 ^ 8 = d := by omega
  rw [endianReverseU32, h₀, h₁, h₂, h₃]

theorem endianReverseU32_involutive {n : Nat} (h : n < 2 ^ 32) :
    endianReverseU32 (endianReverseU32 n) = n := by
  have hlt : ∀ m, m % 2 ^ 8 < 2 ^ 8 := fun m => Nat.mod_lt m (Nat.two_pow_pos 8)
  have hbytes : endianReverseU32 (endianReverseU32 n) =
      n % 2 ^ 8 + n / 2 ^ 8 % 2 ^ 8 * 2 ^ 8 + n / 2 ^ 16 % 2 ^ 8 * 2 ^ 16 +
        n / 2 ^ 24 % 2 ^ 8 * 2 ^ 24 :=
    endianReverseU32_bytes (hlt _) (hlt _) (hlt _) (hlt _)
  omega

theorem BlockHeader.numFromId_id (P : Primitives) (h : BlockHeader) :
    numFromId (h.id P) = h.blockNum := by
  have hnum : h.blockNum < 2 ^ 32 := Nat.mod_lt _ (Nat.two_pow_pos 32)
  have hlow : u32 (h.id P).hash0 = endianReverseU32 h.blockNum := by
    have hlt := endianReverseU32_lt h.blockNum
    simp only [BlockHeader.id, u32]
    omega
  rw [numFromId, hlow, endianReverseU32_involutive hnum]

structure Sealed (P : Primitives) (s : BlockHeaderState) : Prop where
  id : s.id = s.header.id P
  blockNum : s.blockNum = s.header.blockNum

namespace Sealed

variable {s s' : BlockHeaderState}

theorem numFromId (h : Sealed P s) : BlockHeader.numFromId s.id = s.blockNum := by
  rw [h.id, h.blockNum]
  exact BlockHeader.numFromId_id P s.header

theorem genesis (P : Primitives) (genesis : GenesisState) :
    Sealed P (genesisHeaderState P genesis) :=
  ⟨rfl, rfl⟩

theorem child_blockNum (h : Sealed P s) (h' : Sealed P s') (hprev : s'.header.previous = s.id) :
    s'.blockNum = u32 (s.blockNum + 1) := by
  rw [h'.blockNum, BlockHeader.blockNum, hprev, h.numFromId]

theorem next (h : Sealed P s) {validator : FeatureValidator} {header : BlockHeader}
    (hnext : s.next P t confirmed = .ok pending)
    (hfinish : pending.finishNext P validator header = .ok s') :
    Sealed P s' ∧ s'.header.previous = s.id ∧ s'.header = header := by
  obtain ⟨prokey, _, t', _, rfl⟩ := next_ok hnext
  simp only [PendingBlockHeaderState.finishNext, bind_eq_ok] at hfinish
  obtain ⟨_, hcheck, exts, _, features, _, hs⟩ := hfinish
  cases hs
  simp only [PendingBlockHeaderState.checkHeader, bind_eq_ok, eosAssert_eq_ok, exists_const]
    at hcheck
  have hprev : header.previous = s.id := hcheck.2.1
  refine ⟨⟨rfl, ?_⟩, hprev, rfl⟩
  show u32 (s.blockNum + 1) = header.blockNum
  rw [BlockHeader.blockNum, hprev, h.numFromId]

end Sealed

/-- What both constructors of block states give, apart from the transactions. -/
structure BuiltOn (P : Primitives) (s : BlockHeaderState) (signed : SignedBlock)
    (n : BlockState) : Prop where
  sealedHeader : Sealed P n.toBlockHeaderState
  prev : ForkDatabase.prev n = s.id
  block : n.block = some signed
  header : n.header = signed.toBlockHeader
  validated : n.validated = false

variable {block : SignedBlock} {validator : FeatureValidator} {s : BlockHeaderState}

variable {n : BlockState}

theorem BuiltOn.block_eq (h : BuiltOn P s block n) :
    ∃ block, n.block = some block ∧ block.id P = n.id ∧
      block.blockNum = n.blockNum :=
  ⟨block, h.block, by rw [h.sealedHeader.id, h.header], by rw [h.sealedHeader.blockNum, h.header]⟩

theorem ofSigned_ok (hs : Sealed P s)
    (h : ofSigned P validator s block = .ok n) : BuiltOn P s block n ∧ n.trxs = [] := by
  simp only [ofSigned, bind_eq_ok] at h
  obtain ⟨pending, hnext, state, hfinish, hn⟩ := h
  cases hn
  obtain ⟨hseal, hprev, hheader⟩ := hs.next hnext hfinish
  exact ⟨⟨hseal, hprev, rfl, hheader, rfl⟩, rfl⟩

theorem ofPending_ok {trxMetas : List TransactionMetadata} (hs : Sealed P s)
    (hnext : s.next P t confirmed = .ok pending)
    (h : ofPending P validator pending block trxMetas = .ok n) :
    BuiltOn P s block n ∧ n.trxs = trxMetas := by
  simp only [ofPending, bind_eq_ok] at h
  obtain ⟨state, hfinish, hn⟩ := h
  cases hn
  obtain ⟨hseal, hprev, hheader⟩ := hs.next hnext hfinish
  exact ⟨⟨hseal, hprev, rfl, hheader, rfl⟩, rfl⟩

def LibMonotone (V : BlockHeaderState → Prop) : Prop :=
  ∀ a b, V a → V b → b.header.previous = a.id →
    a.dposIrreversibleBlocknum ≤ b.dposIrreversibleBlocknum

def Chained (P : Primitives) (V : BlockHeaderState → Prop) (s : BlockHeaderState) : Prop :=
  V s ∧ Sealed P s ∧ s.blockNum + 1 < 2 ^ 32

variable {V : BlockHeaderState → Prop} {b : SignedBlock} {p : BlockState}

theorem blockUniverse_chained (hV : LibMonotone V) : BlockUniverse (Chained P V) := by
  constructor
  · intro a b ha hb hid
    rw [← ha.2.1.numFromId, hid, hb.2.1.numFromId]
  · intro a b ha hb hprev
    refine ⟨?_, hV a b ha.1 hb.1 hprev⟩
    rw [ha.2.1.child_blockNum hb.2.1 hprev, u32, Nat.mod_eq_of_lt ha.2.2]

namespace AppliedTree

variable {db : ForkDatabase} {n : BlockState}

/-- A new block is not valid yet, and no valid block builds on it. -/
theorem push (h : AppliedTree X P base db) (hinv : ForkInvariant (db.push n))
    (hnew : db.getBlock n.id = none) (hne : n.id ≠ db.root.id) (hroot : prev db.root ≠ n.id)
    (hvalid : n.validated = false)
    (hblock : ∃ block, n.block = some block ∧ block.id P = n.id ∧ block.blockNum = n.blockNum) :
    AppliedTree X P base (db.push n) := by
  have hold : ∀ b ∈ (db.push n).index, b.validated = true → b ∈ db.index := by
    intro b hb hb'
    cases mem_append.mp hb with
    | inl hmem => exact hmem
    | inr hmem =>
      rw [mem_singleton.mp hmem, hvalid] at hb'
      cases hb'
  refine ⟨hinv, ⟨h.rootParent.1, ?_⟩, ?_, ?_, ?_⟩
  · intro b hb
    cases mem_append.mp hb with
    | inl hmem => exact h.rootParent.2 b hmem
    | inr hmem =>
      rw [mem_singleton.mp hmem]
      exact hroot
  · intro b hb
    cases mem_append.mp hb with
    | inl hmem => exact h.blocks b hmem
    | inr hmem =>
      rw [mem_singleton.mp hmem]
      exact hblock
  · intro b hb hb' p hp hkey
    have hmem := hold b hb hb'
    cases mem_append.mp hp with
    | inl hpmem => exact h.validParents b hmem hb' p hpmem hkey
    | inr hpn =>
      rw [mem_singleton.mp hpn] at hkey
      obtain hparent | ⟨q, hq, hqid⟩ := h.rooted.linked b hmem
      · exact absurd (hkey.trans hparent) hne
      · exact absurd (hqid.trans hkey.symm) (getBlock_eq_none.mp hnew q hq)
  · intro b hb hb' l hl
    have hmem := hold b hb hb'
    obtain ⟨l', hl'⟩ := h.exists_onPath (h.header_block hmem)
    have hmono : Path (db.push n).index (db.push n).root.id b.id l' :=
      hl'.path.mono fun a ha => mem_append_left _ (hl'.path.mem a ha)
    rw [hl.path.unique hinv.nodup hinv.ranked hmono]
    exact h.applied b hmem hb' l' hl'

end AppliedTree

namespace Consistent

variable {c : Controller σ} {l : List BlockState} {n : BlockState}

theorem push (h : Consistent X P base c l) (hinv : ForkInvariant (c.forkDb.push n))
    (hnew : c.forkDb.getBlock n.id = none) (hne : n.id ≠ c.forkDb.root.id)
    (hroot : prev c.forkDb.root ≠ n.id) {block : SignedBlock} (hbuilt : BuiltOn P s block n) :
    Consistent X P base { c with forkDb := c.forkDb.push n } l := by
  refine ⟨h.tree.push hinv hnew hne hroot hbuilt.validated hbuilt.block_eq, ⟨?_, h.head.root, ?_⟩,
    h.trail, h.revision, h.reversible, h.log, h.mode⟩
  · exact h.head.path.mono fun a ha => mem_append_left _ (h.head.path.mem a ha)
  · intro hl
    exact ⟨mem_append_left _ (h.head.block hl).1, (h.head.block hl).2⟩

theorem added (h : Consistent X P base c l) (hV : LibMonotone V)
    (hw : Within (Chained P V) c.forkDb) {block : SignedBlock}
    (hp : c.forkDb.getBlockHeader (prev n) = some p) (hbuilt : BuiltOn P p.toBlockHeaderState block n)
    (hn : Chained P V n.toBlockHeaderState) (hnew : c.forkDb.getBlock n.id = none) :
    Consistent X P base { c with forkDb := c.forkDb.push n } l ∧
      Within (Chained P V) (c.forkDb.push n) := by
  have hU := blockUniverse_chained (P := P) hV
  obtain ⟨hne, hnum, hlib⟩ := h.tree.toForkInvariant.ne_root hU hw hn hp
  have hroot : prev c.forkDb.root ≠ n.id := by
    intro hprev
    have hchild := (hU.child _ _ hn hw.1 hprev).1
    obtain ⟨lp, hlp⟩ := h.tree.exists_onPath (show c.forkDb.getBlockHeader p.id = some p by
      rw [← hbuilt.prev]
      exact hp)
    have hheight := h.tree.onPath_blockNum hlp
    omega
  refine ⟨h.push (h.tree.toForkInvariant.push fun head =>
    h.tree.append hnew hne hp hnum hlib head) hnew hne hroot hbuilt, hw.1, ?_⟩
  intro b hb
  cases mem_append.mp hb with
  | inl hmem => exact hw.2 b hmem
  | inr hmem =>
    rw [mem_singleton.mp hmem]
    exact hn

theorem genesis_prev_ne (P : Primitives) (genesis : GenesisState) :
    (genesisHeaderState P genesis).header.previous ≠ (genesisHeaderState P genesis).id := by
  intro heq
  have hnum := (Sealed.genesis P genesis).numFromId
  rw [genesis_blockNum, ← heq] at hnum
  exact absurd hnum (show BlockHeader.numFromId {} ≠ 1 by decide)

theorem genesis (genesis : GenesisState) (state : σ) {readMode : DbReadMode}
    (hmode : readMode ≠ .irreversible) : Consistent X P { state, revision := 1 }
      (Controller.initializeBlockchainState P genesis state readMode) [] := by
  have hnum := genesis_blockNum P genesis
  have hempty : ∀ b, b ∉ (reset (genesisHeaderState P genesis)).index :=
    fun b => not_mem_nil
  have htree : AppliedTree X P { state, revision := 1 }
      (reset (genesisHeaderState P genesis)) :=
    ⟨forkInvariant_reset _, ⟨genesis_prev_ne P genesis, fun b hb => absurd hb (hempty b)⟩,
      fun b hb => absurd hb (hempty b), fun b hb => absurd hb (hempty b),
      fun b hb => absurd hb (hempty b)⟩
  refine ⟨htree, ⟨rfl, fun _ => rfl, fun hne => absurd rfl hne⟩, ?_, hnum.symm, ?_,
    ⟨rfl, ⟨Nat.le_refl 1, Nat.one_lt_two_pow (by decide)⟩, congrArg Nat.succ hnum, ?_, nofun⟩,
    hmode⟩
  · rw [show (Controller.initializeBlockchainState P genesis state readMode).db =
      { state, revision := (genesisHeaderState P genesis).blockNum } from rfl, hnum]
    exact .nil
  · exact fun _ => rfl
  · intro block hblock
    cases hblock
    exact ⟨rfl, rfl⟩

end Consistent

namespace Controller

variable {c : Controller σ} {n : BlockState}

theorem addToForkDb_cases (c : Controller σ) (n : BlockState) :
    (∃ e, c.addToForkDb n = (c, .error e)) ∨
      (c.forkDb.getBlock n.id = none ∧
        c.addToForkDb n = ({ c with forkDb := c.forkDb.push n }, .ok ())) := by
  simp only [addToForkDb, ForkDatabase.add]
  cases hp : c.forkDb.getBlockHeader (prev n) with
  | none => exact .inl ⟨_, rfl⟩
  | some p =>
    cases hnew : c.forkDb.getBlock n.id with
    | none => exact .inr ⟨rfl, by simp [ForkDatabase.insert, hnew]⟩
    | some b =>
      exact .inl ⟨⟨.forkDatabaseException, "duplicate block added"⟩, by
        simp [ForkDatabase.insert, hnew]⟩

theorem createBlockState_ok {validator : FeatureValidator}
    (hsealed : ∀ p, c.forkDb.getBlockHeader b.previous = some p → Sealed P p.toBlockHeaderState)
    (h : c.createBlockState P validator b = .ok n) :
    ∃ p, c.forkDb.getBlockHeader (prev n) = some p ∧ BuiltOn P p.toBlockHeaderState b n ∧
      n.trxs = [] ∧ c.forkDb.getBlock n.id = none := by
  simp only [createBlockState, bind_eq_ok, eosAssert_eq_ok] at h
  obtain ⟨_, hnew, h⟩ := h
  cases hp : c.forkDb.getBlockHeader b.previous with
  | none =>
    rw [hp] at h
    cases h
  | some p =>
    rw [hp] at h
    obtain ⟨hbuilt, htrxs⟩ := ofSigned_ok (hsealed p hp) h
    refine ⟨p, ?_, hbuilt, htrxs, ?_⟩
    · rw [← hp, ForkDatabase.prev, hbuilt.header]
    · rw [hbuilt.sealedHeader.id, hbuilt.header]
      exact hnew

end Controller

theorem ForkDatabase.Within.header {U : BlockHeaderState → Prop} {db : ForkDatabase} (h : Within U db)
    {x : BlockIdType} (hp : db.getBlockHeader x = some p) : U p.toBlockHeaderState := by
  rw [ForkDatabase.getBlockHeader] at hp
  split at hp
  · cases hp
    exact h.1
  · exact h.2 p (mem_of_find?_eq_some hp)

theorem Consistent.received {c : Controller σ} {l : List BlockState}
    (h : Consistent X P base c l) (hV : LibMonotone V)
    (hw : Within (Chained P V) c.forkDb) (hok : c.createBlockState P validator b = .ok n)
    (hn : V n.toBlockHeaderState) (hnum : n.blockNum + 1 < 2 ^ 32) :
    c.addToForkDb n = ({ c with forkDb := c.forkDb.push n }, .ok ()) ∧
      Consistent X P base { c with forkDb := c.forkDb.push n } l ∧
      Within (Chained P V) (c.forkDb.push n) ∧
      ∃ p, c.forkDb.getBlockHeader (prev n) = some p ∧ BuiltOn P p.toBlockHeaderState b n := by
  obtain ⟨p, hp, hbuilt, _, hnew⟩ := Controller.createBlockState_ok
    (fun p hp => (hw.header hp).2.1) hok
  obtain ⟨h', hw'⟩ := h.added hV hw hp hbuilt ⟨hn, hbuilt.sealedHeader, hnum⟩ hnew
  refine ⟨?_, h', hw', p, hp, hbuilt⟩
  simp [Controller.addToForkDb, ForkDatabase.add, ForkDatabase.insert, hp, hnew]

end DreamChain
