import Raftpp.Core.RaftStep

/-!
# The raw node

`RawNode` of `raw_node.cc`: the interface through which an application feeds
inputs to a Raft node, takes out a `Ready` and reports it as persisted.
-/

namespace Raftpp

/-- `IsLocalMessage`. -/
def isLocalMessage : MessageType → Bool
  | .msgHup | .msgBeat | .msgUnreachable | .msgSnapStatus | .msgCheckQuorum => true
  | _ => false

/-- `IsResponseMessage`. -/
def isResponseMessage : MessageType → Bool
  | .msgAppendResponse | .msgRequestVoteResponse | .msgHeartbeatResponse | .msgUnreachable
  | .msgRequestPreVoteResponse => true
  | _ => false

structure LightReady where
  commitIndex : Option ℕ := none
  committedEntries : List Entry := []
  messages : List Message := []
  deriving DecidableEq

structure Ready where
  number : ℕ := 0
  ss : Option SoftState := none
  hs : Option HardState := none
  readStates : List ReadState := []
  entries : List Entry := []
  snapshot : Option Snapshot := none
  isPersistedMsg : Bool := false
  light : LightReady := {}
  mustSync : Bool := false
  deriving DecidableEq

/-- `Ready::Messages`: what may be sent before the `Ready` is persisted. -/
def Ready.messages (rd : Ready) : List Message :=
  if rd.isPersistedMsg = false then rd.light.messages else []

/-- `ReadyRecord`: index and term of the last entry and of the snapshot of a `Ready`. -/
structure ReadyRecord where
  number : ℕ := 0
  lastEntry : Option (ℕ × ℕ) := none
  snapshot : Option (ℕ × ℕ) := none
  deriving DecidableEq

/-- `RawNode`. -/
structure RawNode (σ : Type) where
  raft : Raft σ
  prevSs : SoftState
  prevHs : HardState
  maxNumber : ℕ := 0
  records : List ReadyRecord := []
  commitSinceIndex : ℕ

namespace Raft

variable {σ : Type}

/-- `ReduceUncommittedSize`. -/
def reduceUncommittedSize (r : Raft σ) (ents : List Entry) : Raft σ :=
  if r.state = .leader then
    { r with uncommittedState := r.uncommittedState.maybeReduceUncommittedSize ents }
  else r

end Raft

namespace RawNode

variable {σ : Type} [Storage σ] [Codec] (n : RawNode σ)

/-- The constructor. -/
def new (config : Config) (store : σ) (rng : ℕ → ℕ) : Option (RawNode σ) := do
  let raft ← Raft.new config store rng
  if config.id = 0 then none
  else
    some
      { raft, prevSs := raft.softState, prevHs := raft.hardState
        commitSinceIndex := config.applied }

/-! ## Inputs -/

/-- Run a call of the node's Raft state that returns a result. -/
def withRaft {α : Type} (n : RawNode σ) (call : Option (Raft σ × α)) : Option (RawNode σ × α) := do
  let (raft, result) ← call
  some ({ n with raft }, result)

/-- `Step`: local messages and responses of unknown peers are refused. -/
def step (n : RawNode σ) (m : Message) : Option (RawNode σ × Result Unit) :=
  if isLocalMessage m.msgType then some (n, .error (.raft .stepLocalMsg))
  else if (n.raft.tracker.get m.sender).isSome ∨ isResponseMessage m.msgType = false then
    n.withRaft (n.raft.step m)
  else some (n, .error (.raft .stepPeerNotFound))

def tick (n : RawNode σ) : Option (RawNode σ × Bool) := n.withRaft n.raft.tick

def campaign : Option (RawNode σ × Result Unit) :=
  n.withRaft (n.raft.step { msgType := .msgHup })

/-- The checksum of an entry is written into it before it is proposed. -/
def setEntryChecksum (e : Entry) : Entry := { e with checksum := Codec.entryChecksum e }

def propose (ctx data : Bytes) : Option (RawNode σ × Result Unit) :=
  n.withRaft (n.raft.step
    { msgType := .msgPropose, sender := n.raft.id
      entries := [setEntryChecksum { data, context := ctx }] })

def proposeConfChange (ctx : Bytes) (cc : ConfChangeV2) :
    Option (RawNode σ × Result Unit) :=
  n.withRaft (n.raft.step
    { msgType := .msgPropose
      entries := [setEntryChecksum
        { entryType := .entryConfChangeV2, data := Codec.confChangeV2Bytes cc, context := ctx }] })

def applyConfChange (n : RawNode σ) (cc : ConfChangeV2) :
    Option (RawNode σ × Result ConfState) :=
  n.withRaft (n.raft.applyConfChange cc)

def transferLeader (transferee : ℕ) : Option (RawNode σ × Result Unit) :=
  n.withRaft (n.raft.step { msgType := .msgTransferLeader, sender := transferee })

def readIndex (ctx : Bytes) : Option (RawNode σ × Result Unit) :=
  n.withRaft (n.raft.step { msgType := .msgReadIndex, entries := [{ data := ctx }] })

def reportUnreachable (id : ℕ) : Option (RawNode σ × Result Unit) :=
  n.withRaft (n.raft.step { msgType := .msgUnreachable, sender := id })

/-- `ReportSnapshot`; `failure` is `SnapshotStatus::Failure`. -/
def reportSnapshot (id : ℕ) (failure : Bool) : Option (RawNode σ × Result Unit) :=
  n.withRaft (n.raft.step { msgType := .msgSnapStatus, sender := id, reject := failure })

def requestSnapshot (n : RawNode σ) : Option (RawNode σ × Result Unit) :=
  n.withRaft n.raft.requestSnapshot

def ping (n : RawNode σ) : Option (RawNode σ) := do
  some { n with raft := ← n.raft.ping }

def setPriority (priority : ℤ) : RawNode σ :=
  { n with raft := { n.raft with priority } }

/-- `OnEntriesFetched`. -/
def onEntriesFetched (ctx : GetEntriesContext) : Option (RawNode σ) :=
  match ctx with
  | .sendAppend peer term aggressively =>
      if n.raft.term ≠ term ∨ n.raft.state ≠ .leader ∨ (n.raft.tracker.get peer).isNone then
        some n
      else if aggressively then do
        some { n with raft := ← n.raft.sendAppendAggressively peer }
      else do some { n with raft := ← n.raft.sendAppend peer }
  | .empty _ => some n
  | _ => none

/-- The calls by which an application and its transport drive a node of a fixed group. -/
inductive Input
  | step (m : Message)
  | tick
  | campaign
  | propose (ctx data : Bytes)
  | transferLeader (transferee : ℕ)
  | readIndex (ctx : Bytes)
  | reportUnreachable (id : ℕ)
  | reportSnapshot (id : ℕ) (failure : Bool)
  | requestSnapshot
  | ping
  | setPriority (priority : ℤ)
  | onEntriesFetched (ctx : GetEntriesContext)
  deriving DecidableEq

/-- Run a call; what it returns is the caller's affair. -/
def input : Input → Option (RawNode σ)
  | .step m => (n.step m).map Prod.fst
  | .tick => n.tick.map Prod.fst
  | .campaign => n.campaign.map Prod.fst
  | .propose ctx data => (n.propose ctx data).map Prod.fst
  | .transferLeader transferee => (n.transferLeader transferee).map Prod.fst
  | .readIndex ctx => (n.readIndex ctx).map Prod.fst
  | .reportUnreachable id => (n.reportUnreachable id).map Prod.fst
  | .reportSnapshot id failure => (n.reportSnapshot id failure).map Prod.fst
  | .requestSnapshot => n.requestSnapshot.map Prod.fst
  | .ping => n.ping
  | .setPriority priority => some (n.setPriority priority)
  | .onEntriesFetched ctx => n.onEntriesFetched ctx

/-! ## Ready -/

/-- `commit_since_index_` after some committed entries are handed out. -/
def commitSinceAfter (committedEntries : List Entry) : Option ℕ :=
  match committedEntries.getLast? with
  | none => some n.commitSinceIndex
  | some last => if n.commitSinceIndex < last.index then some last.index else none

/-- `GetLightReady`: committed entries not handed out yet, and the queued messages. -/
def getLightReady : Option (RawNode σ × LightReady) := do
  let entries ← n.raft.raftLog.nextEntriesSince n.commitSinceIndex
    (some n.raft.maxCommittedSizePerReady)
  let committedEntries := entries.getD []
  let raft := n.raft.reduceUncommittedSize committedEntries
  let commitSinceIndex ← n.commitSinceAfter committedEntries
  some
    ({ n with raft := { raft with messages := [] }, commitSinceIndex },
      { committedEntries, messages := raft.messages })

/-- The snapshot part of `GetReady`: `commit_since_index_` moves to the snapshot. -/
def readySnapshot : Option (RawNode σ) :=
  match n.raft.raftLog.unstable.snapshot with
  | none => some n
  | some snapshot =>
      if n.commitSinceIndex ≤ snapshot.metadata.index then do
        let n := { n with commitSinceIndex := snapshot.metadata.index }
        if ← n.raft.raftLog.hasNextEntriesSince n.commitSinceIndex then none else some n
      else none

/-- The records a node that has just become leader drops; none of them may carry data. -/
def readyRecords : Option (List ReadyRecord) :=
  if n.prevSs.raftState ≠ .leader ∧ n.raft.state = .leader then
    if n.records.all fun record => record.lastEntry.isNone && record.snapshot.isNone then
      some []
    else none
  else some n.records

/-- `GetReady`. -/
def getReady : Option (RawNode σ × Ready) := do
  let number := n.maxNumber + 1
  let records ← n.readyRecords
  let n := { n with maxNumber := number, records }
  let ss := if n.raft.softState ≠ n.prevSs then some n.raft.softState else none
  let hs := if n.raft.hardState ≠ n.prevHs then some n.raft.hardState else none
  let voteOrTermChanged := n.raft.vote ≠ n.prevHs.vote ∨ n.raft.term ≠ n.prevHs.term
  let readStates := n.raft.readStates
  let n := { n with raft := { n.raft with readStates := [] } }
  let snapshot := n.raft.raftLog.unstable.snapshot
  let n ← n.readySnapshot
  let entries := n.raft.raftLog.unstable.entries
  let record : ReadyRecord :=
    { number
      lastEntry := entries.getLast?.map fun e => (e.index, e.term)
      snapshot := snapshot.map fun s => (s.metadata.index, s.metadata.term) }
  let mustSync := decide (voteOrTermChanged ∨ snapshot.isSome ∨ entries ≠ [])
  let isPersistedMsg := decide (n.raft.state ≠ .leader)
  let (n, light) ← n.getLightReady
  some
    ({ n with records := n.records ++ [record] },
      { number, ss, hs, readStates, entries, snapshot, isPersistedMsg, light, mustSync })

/-- `HasReady`. -/
def hasReady : Option Bool := do
  if n.raft.messages ≠ [] ∨ n.raft.softState ≠ n.prevSs ∨ n.raft.hardState ≠ n.prevHs ∨
      n.raft.readStates ≠ [] ∨ n.raft.raftLog.unstable.entries ≠ [] then
    some true
  else
    match n.raft.raftLog.unstable.snapshot with
    | some snapshot =>
        if snapshot.metadata.index > 0 then some true
        else n.raft.raftLog.hasNextEntriesSince n.commitSinceIndex
    | none => n.raft.raftLog.hasNextEntriesSince n.commitSinceIndex

/-- The log after the snapshot and the entries of a record are stable. -/
def stableRecord (record : ReadyRecord) (log : RaftLog σ) : Option (RaftLog σ) :=
  match record.snapshot, record.lastEntry with
  | none, none => some log
  | some (index, _), none => log.stableSnapshot index
  | none, some (index, term) => log.stableEntries index term
  | some (snapIndex, _), some (index, term) => do
      let log ← log.stableSnapshot snapIndex
      log.stableEntries index term

/-- `CommitReady`: the application has persisted `rd`. -/
def commitReady (rd : Ready) : Option (RawNode σ) := do
  let n := { n with prevSs := rd.ss.getD n.prevSs, prevHs := rd.hs.getD n.prevHs }
  let record ← n.records.getLast?
  if record.number ≠ rd.number then none
  else
    let raftLog ← stableRecord record n.raft.raftLog
    some { n with raft := { n.raft with raftLog } }

/-- `AdvanceAppendAsync`. -/
def advanceAppendAsync (rd : Ready) : Option (RawNode σ) := n.commitReady rd

/-- What the records up to a number say: the last entry and the last snapshot persisted. -/
def persistedUpTo (number : ℕ) : ℕ × ℕ × ℕ → List ReadyRecord → (ℕ × ℕ × ℕ) × List ReadyRecord
  | acc, [] => (acc, [])
  | (index, term, snapIndex), record :: records =>
      if record.number > number then ((index, term, snapIndex), record :: records)
      else
        let (index, term, snapIndex) :=
          match record.snapshot with
          | some (s, _) => (0, 0, s)
          | none => (index, term, snapIndex)
        let (index, term) :=
          match record.lastEntry with
          | some (i, t) => (i, t)
          | none => (index, term)
        persistedUpTo number (index, term, snapIndex) records

/-- Report a persisted snapshot and a persisted last entry; zero stands for none. -/
def reportPersisted (raft : Raft σ) (index term snapIndex : ℕ) : Option (Raft σ) :=
  if snapIndex = 0 then
    if index = 0 then some raft else raft.onPersistEntries index term
  else do
    let raft ← raft.onPersistSnapshot snapIndex
    if index = 0 then some raft else raft.onPersistEntries index term

/-- `OnPersistReady`. -/
def onPersistReady (number : ℕ) : Option (RawNode σ) := do
  let ((index, term, snapIndex), records) := persistedUpTo number (0, 0, 0) n.records
  some { n with raft := ← reportPersisted n.raft index term snapIndex, records }

/-- `AdvanceAppend`. -/
def advanceAppend (rd : Ready) : Option (RawNode σ × LightReady) := do
  let n ← n.commitReady rd
  let n ← n.onPersistReady n.maxNumber
  let (n, light) ← n.getLightReady
  if n.raft.state ≠ .leader ∧ light.messages ≠ [] then none
  else
    let hs := n.raft.hardState
    let commitIndex := if hs.commit > n.prevHs.commit then some hs.commit else none
    let prevHs := { n.prevHs with commit := max hs.commit n.prevHs.commit }
    if hs = prevHs then some ({ n with prevHs }, { light with commitIndex }) else none

/-- `AdvanceApplyTo`. -/
def advanceApplyTo (applied : ℕ) : Option (RawNode σ) := do
  some { n with raft := ← n.raft.commitApply applied }

/-- `AdvanceApply`. -/
def advanceApply : Option (RawNode σ) := n.advanceApplyTo n.commitSinceIndex

/-- `Advance`. -/
def advance (rd : Ready) : Option (RawNode σ × LightReady) := do
  let applied := n.commitSinceIndex
  let (n, light) ← n.advanceAppend rd
  some (← n.advanceApplyTo applied, light)

end RawNode

end Raftpp
