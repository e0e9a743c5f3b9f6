import Raftpp.Cluster.System
import Raftpp.Core.MemoryStorage

/-!
# The ready processor

`ReadyProcessor` of `ready_processor.cc`: it takes a `Ready` from the node, writes it
to the storage, sends the messages, hands the committed entries to the state machine
and advances the node.  Every storage call may fail; `Process` then returns the error
and is called again later.

The state machine and the Cap'n Proto decoders are the application's and a library's,
and are parameters.  The processor shares its storage with the node's log.  Callbacks
of proposals and of reads are left out: nothing that the processor does depends on
them.
-/

namespace Raftpp

variable (entry : Entry)

/-- A configuration change of the old form. -/
structure ConfChange where
  changeType : ConfChangeType := .addNode
  nodeId : ℕ := 0
  context : Bytes := []
  deriving DecidableEq

/-- `MetadataChange`; its only type is `UpsertPeerAddress`. -/
structure MetadataChange where
  nodeId : ℕ := 0
  addr : Bytes := []
  deriving DecidableEq

/-- The decoders that only the processor uses. -/
class RaftorCodec where
  confChangeOfBytes : Bytes → Option ConfChange
  parseMetadataChange : Bytes → Option MetadataChange

/-- The application's state machine. -/
class StateMachine (μ : Type) where
  apply : μ → Entry → μ × Result (Option Bytes)
  restoreSnapshot : μ → SnapshotMetadata → Bytes → μ × Result Unit
  onLeadershipChange : μ → Bool → ℕ → ℕ → μ

/-- The addresses of peers, which the write-ahead log keeps; another storage ignores them. -/
class PeerStorage (σ : Type) where
  upsertPeerAddress : σ → ℕ → Bytes → σ × Result Unit
  removePeerAddress : σ → ℕ → σ × Result Unit

/-- The memory storage ignores the addresses of peers. -/
instance : PeerStorage MemoryStorage where
  upsertPeerAddress s _ _ := (s, .ok ())
  removePeerAddress s _ := (s, .ok ())

/-- What the processor asks of the transport. -/
inductive TransportCall
  | send (messages : List Message)
  | addPeer (id : ℕ) (addr : Bytes)
  | removePeer (id : ℕ)
  deriving DecidableEq

/-- What the processor passes on: an entry to `ApplyEntry`, or a snapshot that the state
machine has restored. -/
inductive Delivery
  | entry (index : ℕ)
  | snapshot (index : ℕ)
  deriving DecidableEq

/-- `IsFatalApplyError`. -/
def isFatalApplyError (error : RaftError) : Bool := error = .raft .checksumMismatch

/-- `IsChecksumExemptEntry`. -/
def isChecksumExemptEntry : Bool :=
  entry.entryType = .entryNormal ∧ entry.data = [] ∧ entry.context = []

/-- `kMetadataProposalContextPrefix`, the text "raftor:metadata:". -/
def kMetadataProposalContextPrefix : Bytes :=
  [114, 97, 102, 116, 111, 114, 58, 109, 101, 116, 97, 100, 97, 116, 97, 58]

/-- `IsMetadataProposalContext`. -/
def isMetadataProposalContext (context : Bytes) : Bool :=
  kMetadataProposalContextPrefix.isPrefixOf context

/-- `VerifyEntryChecksum`. -/
def verifyEntryChecksum [Codec] (entry : Entry) : Result Unit :=
  if isChecksumExemptEntry entry then .ok ()
  else if isMetadataProposalContext entry.context then .ok ()
  else if Codec.entryChecksum entry = entry.checksum then .ok ()
  else .error (.raft .checksumMismatch)

/-- A wrong checksum is fatal. -/
theorem verifyEntryChecksum_error [Codec] {entry : Entry} {e : RaftError}
    (h : verifyEntryChecksum entry = .error e) : isFatalApplyError e = true := by
  unfold verifyEntryChecksum at h
  repeat' split at h
  all_goals cases h
  rfl

structure ReadyProcessor (σ μ : Type) where
  node : RawNode σ
  stateMachine : μ
  transport : List TransportCall := []
  nodeId : ℕ := 0
  prevRole : StateRole := .follower
  prevLeader : ℕ := 0
  prevTerm : ℕ := 0
  appliedIndex : ℕ := 0
  fatalError : Option RaftError := none
  checksumEnabled : Bool := false
  /-- Everything passed on so far. -/
  deliveries : List Delivery := []

namespace ReadyProcessor

variable {σ μ : Type} (p : ReadyProcessor σ μ)

def store (p : ReadyProcessor σ μ) : σ := p.node.raft.raftLog.store

def setStore (p : ReadyProcessor σ μ) (store : σ) : ReadyProcessor σ μ :=
  { p with node := p.node.setStore store }

/-- A storage call, whose error is passed on as it is. -/
def write (call : σ → σ × Result Unit) :
    ReadyProcessor σ μ × Result Unit :=
  (p.setStore (call p.store).1, (call p.store).2)

/-- The error that stands for every failed write of a `Ready`. -/
def dropped : Result Unit → Result Unit
  | .ok () => .ok ()
  | .error _ => .error (.raft .proposalDropped)

/-- Go on after a success. -/
def andThen (x : ReadyProcessor σ μ × Result Unit)
    (next : ReadyProcessor σ μ → ReadyProcessor σ μ × Result Unit) :
    ReadyProcessor σ μ × Result Unit :=
  match x.2 with
  | .ok () => next x.1
  | .error _ => x

/-! ## Persisting -/

section Persist

variable [WritableStorage σ]

/-- `PersistEntries`. -/
def persistEntries (rd : Ready) (p : ReadyProcessor σ μ) : ReadyProcessor σ μ × Result Unit :=
  if rd.entries = [] then (p, .ok ())
  else
    let (p, result) := p.write fun s => WritableStorage.append s rd.entries
    (p, dropped result)

/-- `PersistHardState`. -/
def persistHardState (rd : Ready) (p : ReadyProcessor σ μ) : ReadyProcessor σ μ × Result Unit :=
  match rd.hs with
  | none => (p, .ok ())
  | some hs =>
      andThen
        (let (p, result) := p.write fun s => WritableStorage.setHardState s hs
         (p, dropped result))
        fun p =>
          if rd.mustSync then
            let (p, result) := p.write WritableStorage.sync
            (p, dropped result)
          else (p, .ok ())

/-- `ApplySnapshot`: the state machine comes first. -/
def applySnapshot [StateMachine μ] (rd : Ready) (p : ReadyProcessor σ μ) :
    ReadyProcessor σ μ × Result Unit :=
  match rd.snapshot with
  | none => (p, .ok ())
  | some snapshot =>
      if snapshot.metadata.index = 0 then (p, .ok ())
      else
        let (machine, restored) :=
          StateMachine.restoreSnapshot p.stateMachine snapshot.metadata snapshot.data
        let p := { p with stateMachine := machine }
        match restored with
        | .error e => (p, .error e)
        | .ok () =>
            let p :=
              { p with deliveries := p.deliveries ++ [Delivery.snapshot snapshot.metadata.index] }
            andThen
              (let (p, result) := p.write fun s => WritableStorage.applySnapshot s snapshot
               (p, dropped result))
              fun p => ({ p with appliedIndex := snapshot.metadata.index }, .ok ())

/-- Write a `Ready`: its entries, its hard state, and then its snapshot. -/
def persist [StateMachine μ] (rd : Ready) (p : ReadyProcessor σ μ) :
    ReadyProcessor σ μ × Result Unit :=
  andThen (andThen (p.persistEntries rd) (persistHardState rd)) (applySnapshot rd)

end Persist

/-! ## Applying -/

/-- `SendMessages`. -/
def sendMessages (messages : List Message) : ReadyProcessor σ μ :=
  if messages = [] then p else { p with transport := p.transport ++ [.send messages] }

/-- The configuration change that an entry encodes. -/
def entryConfChange [Codec] [RaftorCodec] (entry : Entry) : Option ConfChangeV2 :=
  if entry.entryType = .entryConfChange then do
    let cc ← RaftorCodec.confChangeOfBytes entry.data
    some { changes := [{ changeType := cc.changeType, nodeId := cc.nodeId }]
           context := cc.context }
  else Codec.confChangeV2OfBytes entry.data

/-- The address book and the transport follow the single changes of a configuration change,
whose context is the address of an added node. -/
def updatePeers [PeerStorage σ] (addr : Bytes) (p : ReadyProcessor σ μ) :
    List ConfChangeSingle → ReadyProcessor σ μ × Result Unit
  | [] => (p, .ok ())
  | change :: changes =>
      match change.changeType with
      | .addNode | .addLearnerNode =>
          if addr = [] then updatePeers addr p changes
          else
            andThen (p.write fun s => PeerStorage.upsertPeerAddress s change.nodeId addr) fun p =>
              updatePeers addr
                (if change.nodeId ≠ p.nodeId then
                  { p with transport := p.transport ++ [.addPeer change.nodeId addr] }
                else p)
                changes
      | .removeNode =>
          andThen (p.write fun s => PeerStorage.removePeerAddress s change.nodeId) fun p =>
            updatePeers addr { p with transport := p.transport ++ [.removePeer change.nodeId] }
              changes

/-- Apply a configuration change to the node, the storage and the peers. -/
def applyConfChange [WritableStorage σ] [PeerStorage σ] [Codec] (cc : ConfChangeV2)
    (p : ReadyProcessor σ μ) : Option (ReadyProcessor σ μ × Result Unit) := do
  let (node, result) ← p.node.applyConfChange cc
  let p := { p with node }
  match result with
  | .error e => some (p, .error e)
  | .ok cs =>
      some (andThen (p.write fun s => WritableStorage.setConfState s cs) fun p =>
        p.updatePeers cc.context cc.changes)

/-- Apply a change of the address book. -/
def applyMetadataChange [PeerStorage σ] [RaftorCodec] (data : Bytes) (p : ReadyProcessor σ μ) :
    ReadyProcessor σ μ × Result Unit :=
  match RaftorCodec.parseMetadataChange data with
  | none => (p, .error (.raft .confChangeParseError))
  | some change =>
      andThen (p.write fun s => PeerStorage.upsertPeerAddress s change.nodeId change.addr) fun p =>
        ({ p with
            transport := p.transport ++
              [if change.nodeId = p.nodeId ∨ change.addr = [] then .removePeer change.nodeId
              else .addPeer change.nodeId change.addr] }, .ok ())

variable [WritableStorage σ] [PeerStorage σ] [Codec] [RaftorCodec] [StateMachine μ]

/-- What `ApplyEntry` does with an entry that changes no configuration. -/
def applyNormal (p : ReadyProcessor σ μ) : ReadyProcessor σ μ × Result Unit :=
  if isMetadataProposalContext entry.context then p.applyMetadataChange entry.data
  else if entry.data = [] ∧ entry.context = [] then (p, .ok ())
  else
    let (machine, result) := StateMachine.apply p.stateMachine entry
    ({ p with stateMachine := machine }, result.map fun _ => ())

/-- `ApplyEntry` after the checksum is verified. -/
def applyVerified (p : ReadyProcessor σ μ) :
    Option (ReadyProcessor σ μ × Result Unit) :=
  if entry.entryType = .entryConfChange ∨ entry.entryType = .entryConfChangeV2 then
    match entryConfChange entry with
    | none => some (p, .error (.raft .proposalDropped))
    | some cc => p.applyConfChange cc
  else some (p.applyNormal entry)

/-- `ApplyEntry`. -/
def applyEntry (p : ReadyProcessor σ μ) :
    Option (ReadyProcessor σ μ × Result Unit) :=
  let p := { p with deliveries := p.deliveries ++ [.entry entry.index] }
  match if p.checksumEnabled then verifyEntryChecksum entry else .ok () with
  | .error e => some (p, .error e)
  | .ok () => p.applyVerified entry

/-- The loop of `ApplyCommittedEntries` and `ProcessLightReady`: errors are passed over, except
for the fatal one. -/
def applyEntries (p : ReadyProcessor σ μ) :
    List Entry → Option (ReadyProcessor σ μ × Result Unit)
  | [] => some (p, .ok ())
  | entry :: entries => do
      let (p, result) ← p.applyEntry entry
      match result with
      | .error e =>
          if isFatalApplyError e then some (p, .error e)
          else applyEntries { p with appliedIndex := entry.index } entries
      | .ok () => applyEntries { p with appliedIndex := entry.index } entries

/-! ## Process -/

/-- `CheckLeadershipChange`. -/
def checkLeadershipChange (rd : Ready) (p : ReadyProcessor σ μ) : ReadyProcessor σ μ :=
  match rd.ss with
  | none => p
  | some ss =>
      let wasLeader := decide (p.prevRole = .leader)
      let isLeader := decide (ss.raftState = .leader)
      let term := (rd.hs.map HardState.term).getD p.prevTerm
      let changed := wasLeader ≠ isLeader ∨ p.prevLeader ≠ ss.leaderId ∨ p.prevTerm ≠ term
      { p with
        stateMachine :=
          if changed then StateMachine.onLeadershipChange p.stateMachine isLeader term ss.leaderId
          else p.stateMachine
        prevRole := ss.raftState
        prevLeader := ss.leaderId
        prevTerm := term }

/-- `ValidateReadyEntries`. -/
def validateReadyEntries (entries : List Entry) : Result Unit :=
  if p.checksumEnabled then entries.forM verifyEntryChecksum else .ok ()

/-- `EnterFatalState`, for a fatal error. -/
def enterFatalState (e : RaftError) : ReadyProcessor σ μ :=
  if isFatalApplyError e ∧ p.fatalError = none then { p with fatalError := some e } else p

/-- `ProcessLightReady`. -/
def processLightReady (light : LightReady) (p : ReadyProcessor σ μ) :
    Option (ReadyProcessor σ μ × Result Unit) := do
  let (p, result) ← (p.sendMessages light.messages).applyEntries light.committedEntries
  match result with
  | .error e => some ({ p with node := ← p.node.advanceApplyTo p.appliedIndex }, .error e)
  | .ok () =>
      if light.committedEntries = [] then some (p, .ok ())
      else some ({ p with node := ← p.node.advanceApply }, .ok ())

/-- The first part of `Process`: take a `Ready`, check it and write it. -/
def takeReady : Option (ReadyProcessor σ μ × Ready × Result Unit) := do
  let (node, rd) ← p.node.getReady
  let p := ({ p with node } : ReadyProcessor σ μ).checkLeadershipChange rd
  match p.validateReadyEntries rd.entries with
  | .error e => some (p.enterFatalState e, rd, .error e)
  | .ok () =>
      let (p, result) := p.persist rd
      some (p, rd, result)

/-- The second part of `Process`: send the messages and apply what is committed. -/
def deliver (rd : Ready) (p : ReadyProcessor σ μ) : Option (ReadyProcessor σ μ × Result Unit) :=
  (p.sendMessages rd.light.messages).applyEntries rd.light.committedEntries

/-- The last part of `Process`, after an entry with a wrong checksum: the node advances over
what was persisted, and no further than the entries that were applied. -/
def abandon (rd : Ready) (e : RaftError) (p : ReadyProcessor σ μ) :
    Option (ReadyProcessor σ μ × Result Bool) := do
  let (node, _) ← p.node.advanceAppend rd
  let node ← node.advanceApplyTo p.appliedIndex
  some (({ p with node } : ReadyProcessor σ μ).enterFatalState e, .error e)

/-- The last part of `Process`: advance, and work on the entries handed out then. -/
def advance (rd : Ready) (p : ReadyProcessor σ μ) :
    Option (ReadyProcessor σ μ × Result Bool) := do
  let (node, light) ← p.node.advance rd
  let (p, result) ← ({ p with node } : ReadyProcessor σ μ).processLightReady light
  match result with
  | .error e => some (p.enterFatalState e, .error e)
  | .ok () => some (p, .ok true)

/-- `Process` once there is a `Ready`. -/
def processReady : Option (ReadyProcessor σ μ × Result Bool) := do
  let (p, rd, result) ← p.takeReady
  match result with
  | .error e => some (p, .error e)
  | .ok () =>
      let (p, result) ← p.deliver rd
      match result with
      | .error e => p.abandon rd e
      | .ok () => p.advance rd

/-- `Process`; the result tells whether there was work to do. -/
def process : Option (ReadyProcessor σ μ × Result Bool) :=
  match p.fatalError with
  | some e => some (p, .error e)
  | none => do if ← p.node.hasReady then p.processReady else some (p, .ok false)

end ReadyProcessor

end Raftpp
