import Raftpp.Core.RaftLog
import Raftpp.Core.ReadOnly
import Raftpp.Core.Tracker

/-!
# The Raft node: state and message sending

The state of `RaftCore` and `Raft` (`raft_core.cc`, `raft.cc`) as one flat
record, and the functions that fill `messages_`: `Send`, `MaybeSendAppend` with
batching and snapshots, heartbeats and read-index answers.

The randomized election timeouts are drawn from the stream `rng`, one element
at a time, so every sequence of draws is covered.
-/

namespace Raftpp

inductive StateRole
  | follower
  | candidate
  | leader
  | preCandidate
  deriving DecidableEq

structure SoftState where
  leaderId : ℕ
  raftState : StateRole
  deriving DecidableEq

/-- `Config`. -/
structure Config where
  id : ℕ := 0
  electionTick : ℕ := 20
  heartbeatTick : ℕ := 2
  applied : ℕ := 0
  maxSizePerMessage : ℕ := 0
  maxInflightMessages : ℕ := 256
  checkQuorum : Bool := false
  preVote : Bool := false
  minElectionTick : ℕ := 0
  maxElectionTick : ℕ := 0
  readOnlyOption : ReadOnlyOption := .safe
  skipBroadcastCommit : Bool := false
  batchAppend : Bool := false
  maxUncommittedSize : ℕ := kNoLimit
  maxCommittedSizePerReady : ℕ := kNoLimit
  maxApplyUnpersistedLogLimit : ℕ := 0
  disableProposalForwarding : Bool := false
  loadStateOnStartup : Bool := false
  deriving DecidableEq

namespace Config

/-- `MinElectionTick`. -/
def minTick (c : Config) : ℕ :=
  if c.minElectionTick = 0 then c.electionTick else c.minElectionTick

/-- `MaxElectionTick`; the product wraps. -/
def maxTick (c : Config) : ℕ :=
  if c.maxElectionTick = 0 then 2 * c.electionTick % 2 ^ 64 else c.maxElectionTick

def validate (c : Config) : Result Unit :=
  if c.id = kInvalidId then .error (.config .invalidNodeId)
  else if c.heartbeatTick = 0 then .error (.config .heartbeatTickTooSmall)
  else if c.electionTick ≤ c.heartbeatTick then .error (.config .electionTickTooSmall)
  else if c.minTick < c.electionTick then
    .error (.invalidConfig
      s!"min election tick {c.minTick} must not be less than election_tick {c.electionTick}")
  else if c.minTick ≥ c.maxTick then
    .error (.invalidConfig
      s!"min election tick {c.minTick} should be less than max election tick {c.maxTick}")
  else if c.maxInflightMessages = 0 then .error (.config .maxInflightMessagesTooSmall)
  else if c.readOnlyOption = .leaseBased ∧ c.checkQuorum = false then
    .error (.config .leaseBasedReadRequiresCheckQuorum)
  else if c.maxUncommittedSize < c.maxSizePerMessage then
    .error (.invalidConfig "max uncommitted size should greater than max_size_per_msg")
  else .ok ()

end Config

structure UncommittedState where
  maxUncommittedSize : ℕ
  uncommittedSize : ℕ := 0
  lastLogTailIndex : ℕ := 0
  deriving DecidableEq

namespace UncommittedState

variable (u : UncommittedState)

def isNoLimit : Bool := decide (u.maxUncommittedSize = kNoLimit)

def maybeIncreaseUncommittedSize (entries : List Entry) :
    UncommittedState × Bool :=
  if u.isNoLimit then (u, true)
  else
    let size := (entries.map fun e => e.data.length).sum
    if size = 0 ∨ u.uncommittedSize = 0 ∨ size + u.uncommittedSize ≤ u.maxUncommittedSize then
      ({ u with uncommittedSize := u.uncommittedSize + size }, true)
    else (u, false)

/-- `MaybeReduceUncommittedSize`; the returned flag only selects a log line. -/
def maybeReduceUncommittedSize (entries : List Entry) :
    UncommittedState :=
  if u.isNoLimit ∨ entries = [] then u
  else
    let size :=
      ((entries.filter fun e => e.index > u.lastLogTailIndex).map fun e => e.data.length).sum
    { u with uncommittedSize := u.uncommittedSize - size }

end UncommittedState

/-- `Raft`, with the fields of its base class `RaftCore`. -/
structure Raft (σ : Type) where
  term : ℕ := 0
  vote : ℕ := 0
  id : ℕ
  readStates : List ReadState := []
  raftLog : RaftLog σ
  maxMessageSize : ℕ
  pendingRequestSnapshot : ℕ := kInvalidIndex
  state : StateRole := .follower
  promotable : Bool := false
  leaderId : ℕ := 0
  leadTransferee : Option ℕ := none
  pendingConfIndex : ℕ := 0
  readOnly : ReadOnly
  electionElapsed : ℕ := 0
  heartbeatElapsed : ℕ := 0
  checkQuorum : Bool
  preVote : Bool
  skipBroadcastCommit : Bool
  batchAppend : Bool
  disableProposalForwarding : Bool
  heartbeatTimeout : ℕ
  electionTimeout : ℕ
  randomizedElectionTimeout : ℕ := 0
  minElectionTimeout : ℕ
  maxElectionTimeout : ℕ
  priority : ℤ := 0
  uncommittedState : UncommittedState
  maxCommittedSizePerReady : ℕ
  tracker : ProgressTracker
  messages : List Message := []
  maxInflightMessages : ℕ
  rng : ℕ → ℕ

/-- `IsContinuousEntries`. -/
def isContinuousEntries (message : Message) (entries : List Entry) : Bool :=
  match message.entries.getLast?, entries.head? with
  | some last, some first => decide (last.index + 1 = first.index)
  | _, _ => true

/-- The predecessor of a `uint64_t` index. -/
def predIndex (index : ℕ) : ℕ := if index = 0 then 2 ^ 64 - 1 else index - 1

namespace Raft

variable {σ : Type} [Storage σ] [Codec] (r : Raft σ)

/-- `hard_state`. -/
def hardState : HardState :=
  { term := r.term, vote := r.vote, commit := r.raftLog.committed }

/-- `soft_state`. -/
def softState : SoftState :=
  { leaderId := r.leaderId, raftState := r.state }

/-- How `Send` completes a message.  Proposals and read requests are forwarded without a
term, as local messages. -/
def stamp (m : Message) : Message :=
  { m with
    sender := if m.sender = kInvalidId then r.id else m.sender
    term :=
      if m.msgType.isVote ∨ m.msgType = .msgPropose ∨ m.msgType = .msgReadIndex then m.term
      else r.term
    priority :=
      if m.msgType = .msgRequestVote ∨ m.msgType = .msgRequestPreVote then r.priority
      else m.priority }

/-- `Send`: aborts on a vote message without a term and on any other message with one. -/
def send (m : Message) : Option (Raft σ) :=
  if (m.msgType.isVote ∧ m.term = 0) ∨ (m.msgType.isVote = false ∧ m.term ≠ 0) then none
  else some { r with messages := r.messages ++ [r.stamp m] }

/-- `TryBatching`: add `entries` to the first queued append message for `peer`. -/
def tryBatching (r : Raft σ) (peer : ℕ) (entries : List Entry) (pr : Progress) :
    List Message → Option (Bool × List Message × Progress)
  | [] => some (false, [], pr)
  | msg :: rest =>
      if msg.msgType = .msgAppend ∧ msg.receiver = peer then
        if entries = [] then
          some (true, { msg with commit := r.raftLog.committed } :: rest, pr)
        else if isContinuousEntries msg entries then do
          let allEntries := msg.entries ++ entries
          let pr ← pr.updateState ((allEntries.getLast?.map Entry.index).getD 0)
          some (true, { msg with entries := allEntries, commit := r.raftLog.committed } :: rest, pr)
        else some (false, msg :: rest, pr)
      else do
        let (batched, rest, pr) ← r.tryBatching peer entries pr rest
        some (batched, msg :: rest, pr)

/-- `PrepareSendEntries`: the append message and the progress after it. -/
def prepareSendEntries (peer : ℕ) (pr : Progress) (term : ℕ)
    (entries : List Entry) : Option (Message × Progress) := do
  let m : Message :=
    { msgType := .msgAppend, receiver := peer, index := predIndex pr.nextIdx, logTerm := term
      entries, commit := r.raftLog.committed }
  match entries.getLast? with
  | none => some (m, pr)
  | some last => some (m, ← pr.updateState last.index)

/-- `PrepareSendSnapshot`: `none` inside when no snapshot can be sent now. -/
def prepareSendSnapshot (peer : ℕ) (pr : Progress) :
    Option (Option (Message × Progress)) :=
  if pr.recentActive = false then some none
  else do
    match ← r.raftLog.getSnapshot pr.pendingRequestSnapshot peer with
    | .error (.storage .snapshotTemporarilyUnavailable) => some none
    | .error _ => none
    | .ok snapshot =>
        if snapshot.metadata.index = 0 then none
        else
          some (some ({ msgType := .msgSnapshot, receiver := peer, snapshot },
            pr.becomeSnapshot snapshot.metadata.index))

/-- Store the progress of a peer after an append to it. -/
def setProgress (peer : ℕ) (pr : Progress) : Raft σ :=
  { r with tracker := r.tracker.modify peer fun _ => pr }

/-- The snapshot branch of `MaybeSendAppend`. -/
def maybeSendSnapshot (peer : ℕ) (pr : Progress) : Option (Raft σ × Bool) := do
  match ← r.prepareSendSnapshot peer pr with
  | none => some (r, false)
  | some (m, pr) => some (← (r.setProgress peer pr).send m, true)

/-- `TryBatching` on the queued messages, if the node batches appends at all. -/
def batchEntries (peer : ℕ) (pr : Progress) (ents : List Entry) :
    Option (Bool × List Message × Progress) :=
  if r.batchAppend then r.tryBatching peer ents pr r.messages else some (false, r.messages, pr)

/-- The branch of `MaybeSendAppend` with entries and the term before them. -/
def maybeSendEntries (peer : ℕ) (pr : Progress) (term : ℕ) (ents : List Entry) :
    Option (Raft σ × Bool) := do
  let (batched, messages, batchedPr) ← r.batchEntries peer pr ents
  if batched then
    some ({ r.setProgress peer batchedPr with messages }, true)
  else
    let (m, pr) ← r.prepareSendEntries peer pr term ents
    some (← (r.setProgress peer pr).send m, true)

/-- `MaybeSendAppend`. -/
def maybeSendAppend (peer : ℕ) (allowEmpty : Bool) : Option (Raft σ × Bool) := do
  let pr ← r.tracker.get peer
  if pr.isPaused then some (r, false)
  else if pr.pendingRequestSnapshot ≠ kInvalidIndex then r.maybeSendSnapshot peer pr
  else
    let ents ← r.raftLog.getEntries pr.nextIdx (some r.maxMessageSize)
      (.sendAppend peer r.term (!allowEmpty))
    match ents with
    | .error e =>
        if allowEmpty = false then some (r, false)
        else
          let _ ← r.raftLog.term (predIndex pr.nextIdx)
          if e = .storage .logTemporarilyUnavailable then some (r, false)
          else r.maybeSendSnapshot peer pr
    | .ok ents =>
        if allowEmpty = false ∧ ents = [] then some (r, false)
        else
          match ← r.raftLog.term (predIndex pr.nextIdx) with
          | .ok term => r.maybeSendEntries peer pr term ents
          | .error _ => r.maybeSendSnapshot peer pr

/-- `SendAppend`. -/
def sendAppend (peer : ℕ) : Option (Raft σ) := do
  let (r, _) ← r.maybeSendAppend peer true
  some r

/-- The loop of `SendAppendAggressively`: at most `fuel` rounds. -/
def sendAppendLoop (peer : ℕ) : ℕ → Raft σ → Option (Raft σ)
  | 0, r => some r
  | fuel + 1, r => do
      let (r, sent) ← r.maybeSendAppend peer false
      if sent then sendAppendLoop peer fuel r else some r

/-- `SendAppendAggressively`.  Each round but the last moves `next_idx` forward or pauses the
peer, so one round more than the log has entries is enough. -/
def sendAppendAggressively (peer : ℕ) : Option (Raft σ) := do
  let lastIndex ← r.raftLog.lastIndex
  sendAppendLoop peer (lastIndex + 2) r

/-- `BroadcastAppend`. -/
def broadcastAppend : Option (Raft σ) :=
  (ListMap.keys r.tracker.progress).foldlM
    (fun r id => if id = r.id then some r else r.sendAppend id) r

/-- `SendHeartbeat`. -/
def sendHeartbeat (peer : ℕ) (pr : Progress) (ctx : Option Bytes) :
    Option (Raft σ) :=
  r.send
    { msgType := .msgHeartbeat, receiver := peer
      commit := min pr.matched r.raftLog.committed, context := ctx.getD [] }

/-- `BroadcastHeartbeat` with a context. -/
def broadcastHeartbeatWith (ctx : Option Bytes) : Option (Raft σ) :=
  (ListMap.keys r.tracker.progress).foldlM
    (fun r id =>
      if id = r.id then some r
      else do
        let pr ← r.tracker.get id
        r.sendHeartbeat id pr ctx) r

/-- `BroadcastHeartbeat`. -/
def broadcastHeartbeat : Option (Raft σ) :=
  r.broadcastHeartbeatWith r.readOnly.lastPendingRequestCtx

/-- `SendTimeoutNow`. -/
def sendTimeoutNow (peer : ℕ) : Option (Raft σ) :=
  r.send { msgType := .msgTimeoutNow, receiver := peer }

/-- `SendRequestSnapshot`. -/
def sendRequestSnapshot : Option (Raft σ) := do
  let lastIndex ← r.raftLog.lastIndex
  let logTerm ← r.raftLog.term lastIndex
  r.send
    { msgType := .msgAppendResponse, receiver := r.leaderId, index := r.raftLog.committed
      reject := true, rejectHint := lastIndex
      requestSnapshot := r.pendingRequestSnapshot
      logTerm := match logTerm with | .ok term => term | .error _ => 0 }

/-- `HandleReadyReadIndex`: answer a read request locally or by a message. -/
def handleReadyReadIndex (req : Message) (index : ℕ) : Raft σ × Option Message :=
  if req.sender = kInvalidId ∨ req.sender = r.id then
    let requestCtx := (ReadOnly.requestCtx req).getD []
    ({ r with readStates := r.readStates ++ [{ index, requestCtx }] }, none)
  else
    (r, some
      { msgType := .msgReadIndexResp, receiver := req.sender, index
        entries := req.entries.map fun e => { data := e.data, context := e.context } })

/-- Answer a read request and send the message, if there is one. -/
def respondRead (req : Message) (index : ℕ) : Option (Raft σ) :=
  match r.handleReadyReadIndex req index with
  | (r, none) => some r
  | (r, some m) => r.send m

/-- Answer some read requests in turn. -/
def answerReads (statuses : List ReadIndexStatus) : Option (Raft σ) :=
  statuses.foldlM (fun r status => r.respondRead status.req status.index) r

/-- Answer the read requests that `ReadOnly::Advance` releases. -/
def advanceReads (ctx : Bytes) : Option (Raft σ) := do
  let (readOnly, statuses) ← r.readOnly.advance ctx
  { r with readOnly }.answerReads statuses

end Raft

end Raftpp
