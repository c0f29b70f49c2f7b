import DreamChain.Chain.Types
import DreamChain.Library.Run

/-!
The sync manager of the net plugin, which fetches the blocks up to the last irreversible block
that peers announce. Connections are named by numbers; a connection that was closed can still be
the source. What is sent is recorded together with the manager that sent it. Between two calls
the chain and the connections may change in any way. Timers and the write queues are left out.
-/

namespace DreamChain.NetPlugin
open Library List

abbrev ConnectionPtr := Nat

inductive Stages where
  | libCatchup
  | headCatchup
  | inSync
deriving DecidableEq, Repr

inductive IdListModes where
  | none
  | catchUp
  | lastIrrCatchUp
  | normal
deriving DecidableEq, Repr

structure HandshakeMessage where
  lastIrreversibleBlockNum : Nat := 0
  headNum : Nat := 0
  headId : BlockIdType := {}
  generation : Int := 0

structure NoticeMessage where
  trxMode : IdListModes := .none
  trxPending : Nat := 0
  blocksMode : IdListModes := .none
  blocksPending : Nat := 0
  blocksIds : List BlockIdType := []

inductive NetMessage where
  | handshake
  | syncRequest (startBlock endBlock : Nat)
  | notice (msg : NoticeMessage)
  | request (blocksMode trxMode : IdListModes)

structure Connection where
  connected : Bool := true
  syncing : Bool := false
  /-- The last irreversible block of the last handshake or notice received. -/
  lastIrreversibleBlockNum : Nat := 0
  forkHead : BlockIdType := {}
  forkHeadNum : Nat := 0
  protocolVersion : Nat := 1

def Connection.current (c : Connection) : Bool := c.connected && !c.syncing

structure SyncManager where
  syncKnownLibNum : Nat := 0
  syncLastRequestedNum : Nat := 0
  syncNextExpectedNum : Nat := 1
  syncReqSpan : Nat
  source : Option ConnectionPtr := none
  state : Stages := .inSync

structure Sent where
  manager : SyncManager
  receiver : ConnectionPtr
  message : NetMessage

/-- What the manager asks the chain. A number without a block id makes the chain throw. -/
structure ChainView where
  lastIrreversibleBlockNum : Nat
  forkDbPendingHeadBlockNum : Nat
  forkDbPendingHeadBlockId : BlockIdType := {}
  fetchBlockById : BlockIdType → Bool := fun _ => false
  getBlockIdForNum : Nat → Option BlockIdType := fun _ => none
  localTxns : Nat := 0

/-- A call in progress: the connections that are kept, in the order of their set, and all that
exist. `catchUps` counts how often the call has begun to catch up. -/
structure Net where
  manager : SyncManager
  connections : List ConnectionPtr
  objects : ConnectionPtr → Connection
  sent : List Sent := []
  catchUps : Nat := 0

namespace Net

variable (chain : ChainView) (c : ConnectionPtr) (n : Net)

def enqueue (msg : NetMessage) : Net := { n with sent := n.sent ++ [⟨n.manager, c, msg⟩] }

def modify (f : Connection → Connection) : Net :=
  { n with objects := fun d => if d = c then f (n.objects d) else n.objects d }

def setState (state : Stages) : Net := { n with manager := { n.manager with state } }

def sendHandshakes : Net :=
  (n.connections.filter fun c => (n.objects c).current).foldl (fun n c => n.enqueue c .handshake) n

def nextSource : Option ConnectionPtr :=
  match n.connections with
  | [] => none
  | [c] => some (n.manager.source.getD c)
  | connections =>
    match n.manager.source with
    | none => connections.find? fun c => (n.objects c).current
    | some s =>
      if s ∈ connections then
        let rest := connections.drop (connections.idxOf s + 1)
        let ring := rest ++ connections.take (connections.idxOf s + 1)
        some ((ring.find? fun c => (n.objects c).current).getD s)
      else connections.find? fun c => (n.objects c).current

def sourceIsCurrent : Bool := n.manager.source.any fun s => (n.objects s).current

def requestRange (source : ConnectionPtr) : Net :=
  let start := n.manager.syncNextExpectedNum
  let last := subU32 (u32 (start + n.manager.syncReqSpan)) 1
  let last := if n.manager.syncKnownLibNum < last then n.manager.syncKnownLibNum else last
  if 0 < last ∧ start ≤ last then
    let n := n.enqueue source (.syncRequest start last)
    { n with manager := { n.manager with syncLastRequestedNum := last } }
  else n

def requestNextChunk (conn : Option ConnectionPtr) : Net :=
  if chain.forkDbPendingHeadBlockNum < n.manager.syncLastRequestedNum ∧ n.sourceIsCurrent then n
  else
    let supplied := conn.filter fun c => (n.objects c).current
    let n := { n with manager := { n.manager with source := supplied.or n.nextSource } }
    match n.manager.source.filter fun s => (n.objects s).current with
    | none =>
      { n with manager := { n.manager with
        syncKnownLibNum := chain.lastIrreversibleBlockNum
        syncLastRequestedNum := 0
        state := .inSync } }
    | some source =>
      if n.manager.syncLastRequestedNum ≠ n.manager.syncKnownLibNum then n.requestRange source
      else n

def forgetRequest : Net := { n with manager := { n.manager with syncLastRequestedNum := 0 } }

def raiseKnownLib (num : Nat) : Net :=
  if n.manager.syncKnownLibNum < num then
    { n with manager := { n.manager with syncKnownLibNum := num } }
  else n

def resetLibNum : Net :=
  let n := if n.manager.state = .inSync then { n with manager := { n.manager with source := none } }
    else n
  if (n.objects c).current then n.raiseKnownLib (n.objects c).lastIrreversibleBlockNum
  else if n.manager.source = some c then n.forgetRequest.requestNextChunk chain none
  else n

def syncRequired : Prop :=
  n.manager.syncLastRequestedNum < n.manager.syncKnownLibNum ∨
    chain.forkDbPendingHeadBlockNum < n.manager.syncLastRequestedNum

instance : Decidable (n.syncRequired chain) := inferInstanceAs (Decidable (_ ∨ _))

def beginCatchUp : Net :=
  if n.manager.state = .inSync then
    { n with
      manager := { n.manager with
        state := .libCatchup
        syncNextExpectedNum := u32 (chain.lastIrreversibleBlockNum + 1) }
      catchUps := n.catchUps + 1 }
  else n

def startSync (target : Nat) : Net :=
  let n := n.raiseKnownLib target
  if ¬ n.syncRequired chain ∨ target ≤ chain.lastIrreversibleBlockNum then n
  else (n.beginCatchUp chain).requestNextChunk chain (some c)

/-- The request that `cancel_sync` sends withdraws the present one. -/
def reassignFetch : Net :=
  if n.manager.source = some c then
    (n.enqueue c (.syncRequest 0 0)).forgetRequest.requestNextChunk chain none
  else n

def close : Net :=
  (n.modify c fun d => { d with
    connected := false, syncing := false, lastIrreversibleBlockNum := 0 }).resetLibNum chain c

def verifyCatchup (num : Nat) (id : BlockIdType) : Net :=
  if n.connections.any fun d => (n.objects d).forkHead = id ∨ num < (n.objects d).forkHeadNum then
    (n.modify c fun d => { d with forkHead := {}, forkHeadNum := 0 }).enqueue c
      (.request .none .none)
  else if n.manager.state = .libCatchup then n
  else
    ((n.setState .headCatchup).modify c fun d =>
      { d with forkHead := id, forkHeadNum := num }).enqueue c (.request .catchUp .none)

def notifiesPeer (msg : HandshakeMessage) : Bool :=
  1 < msg.generation || 0 < (n.objects c).protocolVersion

def recvHandshake (msg : HandshakeMessage) : Net :=
  let n := n.modify c fun d => { d with lastIrreversibleBlockNum := msg.lastIrreversibleBlockNum }
  let n := (n.resetLibNum chain c).modify c fun d => { d with syncing := false }
  let head := chain.forkDbPendingHeadBlockNum
  if chain.forkDbPendingHeadBlockId = msg.headId then
    n.enqueue c (.notice { trxMode := .catchUp, trxPending := chain.localTxns })
  else if head < msg.lastIrreversibleBlockNum then
    if (n.objects c).protocolVersion < 1 then n.startSync chain c msg.lastIrreversibleBlockNum else n
  else if msg.headNum < chain.lastIrreversibleBlockNum then
    let n := if n.notifiesPeer c msg then
        n.enqueue c (.notice ⟨.lastIrrCatchUp, chain.lastIrreversibleBlockNum, .lastIrrCatchUp, head,
          []⟩)
      else n
    n.modify c fun d => { d with syncing := true }
  else if head < msg.headNum then n.verifyCatchup c msg.headNum msg.headId
  else
    let n := if n.notifiesPeer c msg then
        n.enqueue c (.notice ⟨.none, 0, .catchUp, head, [chain.forkDbPendingHeadBlockId]⟩)
      else n
    let n := n.modify c fun d => { d with syncing := true }
    if chain.getBlockIdForNum msg.headNum ≠ some msg.headId then
      n.enqueue c (.request .catchUp .none)
    else n

def recvNotice (msg : NoticeMessage) : Net :=
  if 1 < msg.blocksIds.length then n.close chain c
  else if msg.blocksMode = .catchUp then
    match msg.blocksIds.getLast? with
    | none => n
    | some id =>
      if chain.fetchBlockById id then n.enqueue c .handshake
      else n.verifyCatchup c msg.blocksPending id
  else
    let n := n.modify c fun d => { d with lastIrreversibleBlockNum := msg.trxPending }
    (n.resetLibNum chain c).startSync chain c msg.trxPending

def rejectedBlock : Net :=
  if n.manager.state ≠ .inSync then
    let n := n.forgetRequest
    let n := { n with manager := { n.manager with source := none } }
    ((n.close chain c).setState .inSync).sendHandshakes
  else n

/-- The loop over the connections that wait for their fork heads. -/
def leaveHeadCatchup (blkId : BlockIdType) (blkNum : Nat) : Net :=
  let n := n.setState .inSync
  let n := { n with manager := { n.manager with source := none } }
  n.connections.foldl (fun n d =>
    if (n.objects d).forkHead = ({} : BlockIdType) then n
    else if (n.objects d).forkHead = blkId ∨ (n.objects d).forkHeadNum < blkNum then
      n.modify c fun d => { d with forkHead := {}, forkHeadNum := 0 }
    else n.setState .headCatchup) n

def countBlock (blkNum : Nat) : Net :=
  { n with manager := { n.manager with syncNextExpectedNum := u32 (blkNum + 1) } }

def recvBlock (blkId : BlockIdType) (blkNum : Nat) : Net :=
  match n.manager.state with
  | .libCatchup =>
    if blkNum ≠ n.manager.syncNextExpectedNum then n
    else
      let n := n.countBlock blkNum
      if blkNum = n.manager.syncKnownLibNum then (n.setState .inSync).sendHandshakes
      else if blkNum = n.manager.syncLastRequestedNum then n.requestNextChunk chain none
      else n
  | .headCatchup =>
    let n := n.leaveHeadCatchup c blkId blkNum
    if n.manager.state = .inSync then n.sendHandshakes else n
  | .inSync => n

end Net

inductive Event where
  | handshake (msg : HandshakeMessage)
  | notice (msg : NoticeMessage)
  | block (blkId : BlockIdType) (blkNum : Nat)
  | rejectedBlock
  | syncTimeout
  | close

structure Delivery where
  chain : ChainView
  connections : List ConnectionPtr
  objects : ConnectionPtr → Connection
  c : ConnectionPtr
  event : Event

def Delivery.perform (d : Delivery) (m : SyncManager) : Net :=
  let n : Net := { manager := m, connections := d.connections, objects := d.objects }
  match d.event with
  | .handshake msg => n.recvHandshake d.chain d.c msg
  | .notice msg => n.recvNotice d.chain d.c msg
  | .block blkId blkNum => n.recvBlock d.chain d.c blkId blkNum
  | .rejectedBlock => n.rejectedBlock d.chain d.c
  | .syncTimeout => n.reassignFetch d.chain d.c
  | .close => n.close d.chain d.c

def SyncStep (m : SyncManager) (d : Delivery) (m' : SyncManager) : Prop :=
  m' = (d.perform m).manager

abbrev SyncRun (span : Nat) (l : List (Transition SyncManager Delivery)) (m : SyncManager) : Prop :=
  Run SyncStep { syncReqSpan := span } l m

/-- The number of the block that a delivery counts as received while catching up. -/
def Delivery.counted (d : Delivery) (m : SyncManager) : List Nat :=
  match d.event with
  | .block _ blkNum =>
    if m.state = .libCatchup ∧ blkNum = m.syncNextExpectedNum then [blkNum] else []
  | _ => []

/-- The blocks counted since the last catch-up began. -/
def received : List (Transition SyncManager Delivery) → List Nat
  | [] => []
  | t :: l =>
    if (t.action.perform t.before).catchUps = 0 then received l ++ t.action.counted t.before
    else []

/-- A range goes from the next expected block to at most the known irreversible block. The request
with two zeros is the one that withdraws a range. -/
def Sent.FitsKnownLib (span : Nat) (r : Sent) : Prop :=
  match r.message with
  | .syncRequest first last =>
    (first = 0 ∧ last = 0) ∨
      (first = r.manager.syncNextExpectedNum ∧ first ≤ last ∧ last + 1 - first ≤ span ∧
        last ≤ r.manager.syncKnownLibNum)
  | _ => True

def Delivery.Bounded (d : Delivery) : Prop :=
  d.chain.lastIrreversibleBlockNum < 2 ^ 31 ∧
    match d.event with
    | .block _ blkNum => blkNum < 2 ^ 31
    | _ => True

structure SyncManager.Consistent (span : Nat) (m : SyncManager) : Prop where
  span_eq : m.syncReqSpan = span
  span_bounds : 1 ≤ span ∧ span ≤ 2 ^ 31
  requested : m.syncLastRequestedNum ≤ m.syncKnownLibNum
  expected : m.state = .libCatchup → m.syncNextExpectedNum ≤ m.syncKnownLibNum
  small : m.syncNextExpectedNum ≤ 2 ^ 31

/-- What holds all through a call: until a catch-up begins, the next expected block stays and the
manager catches up only if it did before. -/
structure Net.Sound (span start : Nat) (catching : Prop) (n : Net) : Prop where
  consistent : n.manager.Consistent span
  fits : ∀ r ∈ n.sent, r.FitsKnownLib span
  kept : n.catchUps = 0 →
    n.manager.syncNextExpectedNum = start ∧ (n.manager.state = .libCatchup → catching)

namespace Net.Sound

variable {span start : Nat} {catching : Prop} {n : Net} {chain : ChainView} {c : ConnectionPtr}
  (h : n.Sound span start catching) {num : Nat}
include h

theorem of_manager {m : SyncManager} (hm : m.Consistent span)
    (hnext : m.syncNextExpectedNum = n.manager.syncNextExpectedNum)
    (hstate : m.state = .libCatchup → n.manager.state = .libCatchup) :
    Net.Sound span start catching { n with manager := m } := by
  refine ⟨hm, h.fits, fun hnone => ?_⟩
  obtain ⟨hstart, hcatching⟩ := h.kept hnone
  exact ⟨hnext.trans hstart, fun hcatchup => hcatching (hstate hcatchup)⟩

theorem modify (f : Connection → Connection) : (n.modify c f).Sound span start catching :=
  ⟨h.consistent, h.fits, h.kept⟩

theorem enqueue {msg : NetMessage} (hmsg : Sent.FitsKnownLib span ⟨n.manager, c, msg⟩) :
    (n.enqueue c msg).Sound span start catching := by
  refine ⟨h.consistent, fun r hr => ?_, h.kept⟩
  cases mem_append.mp hr with
  | inl hold => exact h.fits r hold
  | inr hnew => exact mem_singleton.mp hnew ▸ hmsg

theorem setState (state : Stages) (hne : state ≠ .libCatchup) :
    (n.setState state).Sound span start catching :=
  h.of_manager { h.consistent with expected := fun heq => absurd heq hne } rfl
    fun heq => absurd heq hne

theorem setSource (source : Option ConnectionPtr) :
    Net.Sound span start catching { n with manager := { n.manager with source } } :=
  h.of_manager { h.consistent with } rfl id

theorem forgetRequest : n.forgetRequest.Sound span start catching :=
  h.of_manager { h.consistent with requested := Nat.zero_le _ } rfl id

theorem raiseKnownLib (num : Nat) : (n.raiseKnownLib num).Sound span start catching := by
  unfold Net.raiseKnownLib
  split
  case isTrue hlt =>
    have hrequested := h.consistent.requested
    refine h.of_manager { h.consistent with requested := ?_, expected := ?_ } rfl id
    · exact hrequested.trans hlt.le
    · exact fun hcatchup => (h.consistent.expected hcatchup).trans hlt.le
  case isFalse => exact h

theorem sendHandshakes : n.sendHandshakes.Sound span start catching := by
  unfold Net.sendHandshakes
  generalize (n.connections.filter fun c => (n.objects c).current) = receivers
  induction receivers generalizing n with
  | nil => exact h
  | cons c receivers ih => exact ih (h.enqueue trivial)

theorem requestRange (source : ConnectionPtr) :
    (n.requestRange source).Sound span start catching := by
  have hsmall := h.consistent.small
  have hspan := h.consistent.span_bounds
  have hend : subU32 (u32 (n.manager.syncNextExpectedNum + n.manager.syncReqSpan)) 1 =
      n.manager.syncNextExpectedNum + span - 1 := by
    rw [h.consistent.span_eq]
    simp only [subU32, u32]
    omega
  unfold Net.requestRange
  simp only [hend]
  generalize hlast : (if n.manager.syncKnownLibNum < n.manager.syncNextExpectedNum + span - 1 then
    n.manager.syncKnownLibNum else n.manager.syncNextExpectedNum + span - 1) = last
  have hknown : last ≤ n.manager.syncKnownLibNum := by
    split at hlast <;> omega
  have hlen : last + 1 - n.manager.syncNextExpectedNum ≤ span := by
    split at hlast <;> omega
  split
  case isTrue hnonempty =>
    have hfits : Sent.FitsKnownLib span
        ⟨n.manager, source, .syncRequest n.manager.syncNextExpectedNum last⟩ :=
      .inr ⟨rfl, hnonempty.2, hlen, hknown⟩
    have hsent := h.enqueue hfits
    exact hsent.of_manager { h.consistent with requested := hknown } rfl id
  case isFalse => exact h

theorem requestNextChunk (conn : Option ConnectionPtr) :
    (n.requestNextChunk chain conn).Sound span start catching := by
  unfold Net.requestNextChunk
  split
  case isTrue => exact h
  case isFalse =>
    have hsource := h.setSource ((conn.filter fun c => (n.objects c).current).or n.nextSource)
    simp only
    split
    · exact hsource.of_manager
        { hsource.consistent with requested := Nat.zero_le _, expected := nofun } rfl nofun
    · split
      · exact hsource.requestRange _
      · exact hsource

theorem resetLibNum (chain : ChainView) (c : ConnectionPtr) :
    (n.resetLibNum chain c).Sound span start catching := by
  have hsource : Net.Sound span start catching (if n.manager.state = .inSync then
      { n with manager := { n.manager with source := none } } else n) := by
    split
    · exact h.setSource none
    · exact h
  unfold Net.resetLibNum
  simp only
  generalize (if n.manager.state = .inSync then
    { n with manager := { n.manager with source := none } } else n) = n' at hsource
  split
  · exact hsource.raiseKnownLib _
  · split
    · exact hsource.forgetRequest.requestNextChunk none
    · exact hsource

theorem beginCatchUp (hsmall : chain.lastIrreversibleBlockNum < 2 ^ 31)
    (hknown : chain.lastIrreversibleBlockNum < n.manager.syncKnownLibNum) :
    (n.beginCatchUp chain).Sound span start catching := by
  have hnext : u32 (chain.lastIrreversibleBlockNum + 1) = chain.lastIrreversibleBlockNum + 1 :=
    Nat.mod_eq_of_lt (by omega)
  unfold Net.beginCatchUp
  rw [hnext]
  split
  · refine ⟨{ h.consistent with expected := fun _ => hknown, small := hsmall }, h.fits, ?_⟩
    exact fun hnone => absurd hnone (Nat.succ_ne_zero _)
  · exact h

theorem startSync (hsmall : chain.lastIrreversibleBlockNum < 2 ^ 31) (target : Nat) :
    (n.startSync chain c target).Sound span start catching := by
  have hraised := h.raiseKnownLib target
  have hle : target ≤ (n.raiseKnownLib target).manager.syncKnownLibNum := by
    unfold Net.raiseKnownLib
    split
    · exact le_rfl
    · exact Nat.le_of_not_lt ‹_›
  unfold Net.startSync
  simp only
  split
  case isTrue => exact hraised
  case isFalse hneeded =>
    have hbehind := Nat.lt_of_not_le (not_or.mp hneeded).2
    exact (hraised.beginCatchUp hsmall (hbehind.trans_le hle)).requestNextChunk _

theorem reassignFetch : (n.reassignFetch chain c).Sound span start catching := by
  unfold Net.reassignFetch
  split
  · have hfits : Sent.FitsKnownLib span ⟨n.manager, c, .syncRequest 0 0⟩ := .inl ⟨rfl, rfl⟩
    exact (h.enqueue hfits).forgetRequest.requestNextChunk none
  · exact h

theorem close : (n.close chain c).Sound span start catching :=
  (h.modify _).resetLibNum _ _

theorem verifyCatchup (num : Nat) (id : BlockIdType) :
    (n.verifyCatchup c num id).Sound span start catching := by
  unfold Net.verifyCatchup
  split
  · exact (h.modify _).enqueue trivial
  · split
    · exact h
    · exact ((h.setState .headCatchup nofun).modify _).enqueue trivial

theorem recvHandshake (hsmall : chain.lastIrreversibleBlockNum < 2 ^ 31) (msg : HandshakeMessage) :
    (n.recvHandshake chain c msg).Sound span start catching := by
  have hmsg := h.modify (c := c) fun d => { d with
    lastIrreversibleBlockNum := msg.lastIrreversibleBlockNum }
  have hreset := (hmsg.resetLibNum chain c).modify (c := c) fun d => { d with syncing := false }
  have hnotified {n : Net} (h : n.Sound span start catching) (note : NoticeMessage) :
      (if n.notifiesPeer c msg then n.enqueue c (.notice note) else n).Sound span start
        catching := by
    split
    · exact h.enqueue trivial
    · exact h
  unfold Net.recvHandshake
  simp only
  split
  · exact hreset.enqueue trivial
  split
  · split
    · exact hreset.startSync hsmall _
    · exact hreset
  split
  · exact (hnotified hreset _).modify _
  split
  · exact hreset.verifyCatchup _ _
  split
  · exact ((hnotified hreset _).modify _).enqueue trivial
  · exact (hnotified hreset _).modify _

theorem recvNotice (hsmall : chain.lastIrreversibleBlockNum < 2 ^ 31) (msg : NoticeMessage) :
    (n.recvNotice chain c msg).Sound span start catching := by
  unfold Net.recvNotice
  split
  · exact h.close
  split
  · split
    · exact h
    · split
      · exact h.enqueue trivial
      · exact h.verifyCatchup _ _
  · exact ((h.modify _).resetLibNum _ _).startSync hsmall _

theorem rejectedBlock : (n.rejectedBlock chain c).Sound span start catching := by
  unfold Net.rejectedBlock
  split
  · exact (((h.forgetRequest.setSource none).close).setState .inSync nofun).sendHandshakes
  · exact h

theorem leaveHeadCatchup (blkId : BlockIdType) (blkNum : Nat) :
    (n.leaveHeadCatchup c blkId blkNum).Sound span start catching := by
  have hleft := (h.setState .inSync nofun).setSource none
  unfold Net.leaveHeadCatchup
  simp only
  generalize { n.setState .inSync with
    manager := { (n.setState .inSync).manager with source := none } } = n' at hleft ⊢
  generalize (n.setState .inSync).connections = connections
  induction connections generalizing n' with
  | nil => exact hleft
  | cons d connections ih =>
    refine ih _ ?_
    beta_reduce
    split
    · exact hleft
    split
    · exact hleft.modify _
    · exact hleft.setState .headCatchup nofun

theorem countBlock (hsmall : num < 2 ^ 31)
    (hknown : n.manager.state = .libCatchup → num < n.manager.syncKnownLibNum) :
    (n.countBlock num).Sound span (num + 1) catching := by
  have hnext : u32 (num + 1) = num + 1 := Nat.mod_eq_of_lt (by omega)
  unfold Net.countBlock
  rw [hnext]
  refine ⟨{ h.consistent with expected := hknown, small := hsmall }, h.fits, fun hnone => ?_⟩
  exact ⟨rfl, (h.kept hnone).2⟩

theorem recvBlock_expected (hcatchup : n.manager.state = .libCatchup)
    (hsmall : num < 2 ^ 31) (hnum : num = n.manager.syncNextExpectedNum) (id : BlockIdType) :
    (n.recvBlock chain c id num).Sound span (num + 1) catching := by
  have hle := h.consistent.expected hcatchup
  unfold Net.recvBlock
  simp only [hcatchup, hnum, ne_eq, not_true_eq_false, if_false]
  rw [← hnum] at hle ⊢
  split
  case isTrue =>
    have hleft := (h.setState .inSync nofun).countBlock hsmall nofun
    exact hleft.sendHandshakes
  case isFalse hne =>
    have hcounted := h.countBlock hsmall fun _ => lt_of_le_of_ne hle hne
    split
    · exact hcounted.requestNextChunk none
    · exact hcounted

theorem recvBlock (hnum : ¬ (n.manager.state = .libCatchup ∧ num = n.manager.syncNextExpectedNum))
    (id : BlockIdType) : (n.recvBlock chain c id num).Sound span start catching := by
  unfold Net.recvBlock
  split
  case h_1 hcatchup =>
    rw [if_pos fun heq => hnum ⟨hcatchup, heq⟩]
    exact h
  case h_2 =>
    have hleft := h.leaveHeadCatchup (c := c) id num
    simp only
    split
    · exact hleft.sendHandshakes
    · exact hleft
  case h_3 => exact h

end Net.Sound

variable {span : Nat} {m : SyncManager} {l : List (Transition SyncManager Delivery)}

/-- One event: whatever it makes the manager do, it keeps the bookkeeping and moves the next
expected block by the block it counts, unless it begins to catch up. -/
theorem Delivery.sound_perform (d : Delivery) (hm : m.Consistent span) (hd : d.Bounded) :
    (d.perform m).Sound span (m.syncNextExpectedNum + (d.counted m).length)
      (m.state = .libCatchup) := by
  obtain ⟨chain, connections, objects, c, event⟩ := d
  have h : Net.Sound span m.syncNextExpectedNum (m.state = .libCatchup)
      { manager := m, connections, objects } :=
    ⟨hm, nofun, fun _ => ⟨rfl, id⟩⟩
  cases event with
  | handshake msg => exact h.recvHandshake hd.1 msg
  | notice msg => exact h.recvNotice hd.1 msg
  | block id num =>
    unfold Delivery.perform Delivery.counted
    simp only
    split
    case isTrue hcounted =>
      rw [length_singleton, ← hcounted.2]
      exact h.recvBlock_expected hcounted.1 hd.2 hcounted.2 id
    case isFalse hnum => exact h.recvBlock hnum id
  | rejectedBlock => exact h.rejectedBlock
  | syncTimeout => exact h.reassignFetch
  | close => exact h.close

theorem Delivery.counted_eq (d : Delivery) (m : SyncManager) :
    d.counted m = [] ∨ m.state = .libCatchup ∧ d.counted m = [m.syncNextExpectedNum] := by
  unfold Delivery.counted
  split
  case h_1 =>
    split
    case isTrue hcounted => exact .inr ⟨hcounted.1, congrArg (fun num => [num]) hcounted.2⟩
    case isFalse => exact .inl rfl
  case h_2 => exact .inl rfl

theorem SyncRun.consistent (h : SyncRun span l m) (hspan : 1 ≤ span ∧ span ≤ 2 ^ 31)
    (hl : ∀ t ∈ l, t.action.Bounded) : m.Consistent span ∧ ∀ t ∈ l, t.before.Consistent span := by
  have hinit : SyncManager.Consistent span { syncReqSpan := span } :=
    ⟨rfl, hspan, le_rfl, nofun, Nat.one_le_two_pow⟩
  have hstep (t : Transition SyncManager Delivery) (hs : SyncStep t.before t.action t.after)
      (hd : t.action.Bounded) (hm : t.before.Consistent span) : t.after.Consistent span := by
    rw [show t.after = _ from hs]
    exact (t.action.sound_perform hm hd).consistent
  obtain ⟨hm, hall⟩ := h.guarded hinit hstep hl
  exact ⟨hm, fun t ht => (hall t ht).1⟩

/-- The blocks counted in a catch-up are consecutive, and while it lasts the next expected block
follows them. -/
theorem SyncRun.received_eq_range (h : SyncRun span l m) (hspan : 1 ≤ span ∧ span ≤ 2 ^ 31)
    (hl : ∀ t ∈ l, t.action.Bounded) : ∃ first, received l = range' first (received l).length ∧
      (m.state = .libCatchup → m.syncNextExpectedNum = first + (received l).length) := by
  induction h with
  | start => exact ⟨0, rfl, nofun⟩
  | @next l m m' d hrun hstep ih =>
    obtain ⟨hd, hrest⟩ := forall_mem_cons.mp hl
    obtain ⟨first, hrange, hnext⟩ := ih hrest
    have hsound := d.sound_perform (SyncRun.consistent hrun hspan hrest).1 hd
    subst hstep
    simp only [received]
    split
    case isFalse => exact ⟨_, rfl, fun _ => rfl⟩
    case isTrue hnone =>
      obtain ⟨hmoved, hcatching⟩ := hsound.kept hnone
      refine ⟨first, ?_, fun hcatchup => ?_⟩
      · cases d.counted_eq m with
        | inl hnot => rw [hnot, append_nil, ← hrange]
        | inr hcounted =>
          -- a block is counted only while catching up, and then it follows the range
          rw [hcounted.2, length_append, length_singleton, range'_1_concat,
            ← hrange, hnext hcounted.1]
      · rw [hmoved, hnext (hcatching hcatchup), length_append, Nat.add_assoc]

/-- Catching up, over every run of events: the next expected and the last requested block stay
within the known irreversible block, every range that is requested fits between the two, and the
blocks counted are consecutive. -/
theorem catchUp_bookkeeping (h : SyncRun span l m) (hspan : 1 ≤ span ∧ span ≤ 2 ^ 31)
    (hl : ∀ t ∈ l, t.action.Bounded) :
    (m.state = .libCatchup → m.syncNextExpectedNum ≤ m.syncKnownLibNum ∧
      m.syncLastRequestedNum ≤ m.syncKnownLibNum) ∧
    (∀ t ∈ l, ∀ r ∈ (t.action.perform t.before).sent, r.FitsKnownLib span) ∧
    ∃ first, received l = range' first (received l).length := by
  obtain ⟨hm, hbefore⟩ := h.consistent hspan hl
  obtain ⟨first, hrange, -⟩ := h.received_eq_range hspan hl
  refine ⟨fun hcatchup => ⟨hm.expected hcatchup, hm.requested⟩, fun t ht => ?_, first, hrange⟩
  exact (t.action.sound_perform (hbefore t ht) (hl t ht)).fits

/-- A peer announces block 250; blocks 1 and 2 then arrive. -/
def catchUpDeliveries : List Delivery :=
  [.notice { blocksMode := .lastIrrCatchUp, trxPending := 250 }, .block {} 1, .block {} 2].map
    fun event => ⟨⟨0, 0, {}, fun _ => false, fun _ => none, 0⟩, [1, 2], fun _ => {}, 1, event⟩

def deliver (m : SyncManager) : List Delivery → List (Transition SyncManager Delivery) →
    SyncManager × List (Transition SyncManager Delivery)
  | [], l => (m, l)
  | d :: ds, l => deliver (d.perform m).manager ds (⟨m, d, (d.perform m).manager⟩ :: l)

theorem syncRun_deliver (ds : List Delivery) (h : SyncRun span l m) :
    SyncRun span (deliver m ds l).2 (deliver m ds l).1 := by
  induction ds generalizing m l with
  | nil => exact h
  | cons d ds ih => exact ih (h.next rfl)

theorem catchUp_bookkeeping_deliveries :
    received (deliver { syncReqSpan := 100 } catchUpDeliveries []).2 = [1, 2] ∧
      (deliver { syncReqSpan := 100 } catchUpDeliveries []).1.syncLastRequestedNum = 100 ∧
      (deliver { syncReqSpan := 100 } catchUpDeliveries []).1.syncNextExpectedNum ≤ 250 := by
  have hrun : SyncRun 100 _ _ := syncRun_deliver catchUpDeliveries .start
  have hbounded : ∀ t ∈ (deliver { syncReqSpan := 100 } catchUpDeliveries []).2,
      t.action.Bounded := by
    simp [deliver, catchUpDeliveries, Delivery.Bounded]
  have hbook := catchUp_bookkeeping hrun (by decide) hbounded
  exact ⟨by decide, by decide, (hbook.1 (by decide)).1⟩

end DreamChain.NetPlugin
