import Raftpp.Core.RaftRole

/-!
# The Raft node: message handlers

The handlers of `raft.cc`, the role-specific step functions, `Step` and `Tick`,
snapshot restoring and requesting, configuration changes and the constructor.
-/

namespace Raftpp

namespace Raft

variable {σ : Type} [Storage σ] [Codec] (r : Raft σ) (m : Message)

/-! ## Followers -/

/-- `HandleAppendEntries`. -/
def handleAppendEntries : Option (Raft σ) := do
  if r.pendingRequestSnapshot ≠ kInvalidIndex then r.sendRequestSnapshot
  else if m.index < r.raftLog.committed then
    r.send
      { msgType := .msgAppendResponse, receiver := m.sender
        index := r.raftLog.committed, commit := r.raftLog.committed }
  else
    let (raftLog, result) ← r.raftLog.maybeAppend m.index m.logTerm m.commit m.entries
    let r := { r with raftLog }
    match result with
    | .error _ => none
    | .ok result =>
        if result.termMatched then
          r.send
            { msgType := .msgAppendResponse, receiver := m.sender
              index := result.lastIndex, commit := r.raftLog.committed }
        else
          let lastIndex ← r.raftLog.lastIndex
          let (hintIndex, hintTerm) ←
            r.raftLog.findConflictByTerm (min m.index lastIndex) m.logTerm
          let hintTerm ← hintTerm
          r.send
            { msgType := .msgAppendResponse, receiver := m.sender, index := m.index
              reject := true, rejectHint := hintIndex, logTerm := hintTerm
              commit := r.raftLog.committed }

/-- `HandleHeartbeat`. -/
def handleHeartbeat : Option (Raft σ) := do
  let (raftLog, _) ← r.raftLog.commitTo m.commit
  let r := { r with raftLog }
  if r.pendingRequestSnapshot ≠ kInvalidIndex then r.sendRequestSnapshot
  else
    r.send
      { msgType := .msgHeartbeatResponse, receiver := m.sender
        context := m.context, commit := r.raftLog.committed }

/-- The sends of `PostConfChange`: a broadcast after a commit, otherwise the missing entries. -/
def sendAfterConfChange (committed : Bool) : Option (Raft σ) :=
  if committed then r.broadcastAppend
  else
    (ListMap.keys r.tracker.progress).foldlM
      (fun r id =>
        if id = r.id then some r
        else do
          let (r, _) ← r.maybeSendAppend id false
          some r) r

/-- Count the acknowledgement of a read context and answer the reads a quorum confirms. -/
def confirmReads (id : ℕ) (ctx : Bytes) : Option (Raft σ) :=
  let (readOnly, acks) := r.readOnly.recvAck id ctx
  let r := { r with readOnly }
  match acks with
  | some acks => if r.tracker.hasQuorum acks then r.advanceReads ctx else some r
  | none => some r

/-- The node acknowledges its own last pending read. -/
def confirmOwnReads : Option (Raft σ) :=
  match r.readOnly.lastPendingRequestCtx with
  | none => some r
  | some ctx => r.confirmReads r.id ctx

/-- A transfer to a node that is no voter any more is aborted. -/
def checkTransferee : Raft σ :=
  match r.leadTransferee with
  | some transferee =>
      if r.tracker.conf.voters.contains transferee then r else r.abortLeaderTransfer
  | none => r

/-- The part of `PostConfChange` a leader runs: commit or probe with the new configuration,
and release the reads that the node's own acknowledgement now confirms. -/
def postConfChangeLeader : Option (Raft σ) := do
  let (r, committed) ← r.maybeCommit
  let r ← r.sendAfterConfChange committed
  let r ← r.confirmOwnReads
  some r.checkTransferee

/-- `PostConfChange`. -/
def postConfChange : Option (Raft σ × ConfState) := do
  let cs := r.tracker.conf.toConfState
  let isVoter := r.tracker.conf.voters.contains r.id
  let r := { r with promotable := isVoter }
  if r.state ≠ .leader ∨ isVoter = false ∨ cs.voters = [] then some (r, cs)
  else some (← r.postConfChangeLeader, cs)

/-- Whether the log already holds a snapshot's last entry.  `Restore` does not look while a
snapshot request is pending. -/
def holdsSnapshot (snapMeta : SnapshotMetadata) : Option Bool :=
  if r.pendingRequestSnapshot = kInvalidIndex then
    r.raftLog.matchTerm snapMeta.index snapMeta.term
  else some false

/-- The last part of `Restore`: a new tracker and a log that starts after the snapshot. -/
def installSnapshot (snapshot : Snapshot) : Option (Raft σ × Bool) :=
  let snapMeta := snapshot.metadata
  match restoreTracker (.new r.maxInflightMessages) (snapMeta.index + 1) snapMeta.confState with
  | .error _ => some (r, false)
  | .ok tracker =>
      match r.raftLog.restore snapshot with
      | (_, .error _) => some (r, false)
      | (raftLog, .ok ()) => do
          let (r, _) ← { r with raftLog, tracker }.postConfChange
          some ({ r with pendingRequestSnapshot := kInvalidIndex }, true)

/-- `Restore`: install a snapshot, or fast-forward the commit index to it. -/
def restore (snapshot : Snapshot) : Option (Raft σ × Bool) := do
  let snapMeta := snapshot.metadata
  if snapMeta.index < r.raftLog.committed then some (r, false)
  else if r.state ≠ .follower then
    some (← r.becomeFollower (r.term + 1) kInvalidId, false)
  else if r.id ∉ snapMeta.confState.voters ∧ r.id ∉ snapMeta.confState.learners ∧
      r.id ∉ snapMeta.confState.votersOutgoing then
    some (r, false)
  else
    if ← r.holdsSnapshot snapMeta then
      let (raftLog, _) ← r.raftLog.commitTo snapMeta.index
      some ({ r with raftLog }, false)
    else r.installSnapshot snapshot

/-- The index acknowledged after a snapshot message. -/
def snapshotAckIndex (restored : Bool) : Option ℕ :=
  if restored then r.raftLog.lastIndex else some r.raftLog.committed

/-- `HandleSnapshot`. -/
def handleSnapshot : Option (Raft σ) := do
  let (r, restored) ← r.restore m.snapshot
  let index ← r.snapshotAckIndex restored
  r.send { msgType := .msgAppendResponse, receiver := m.sender, index }

/-! ## Candidates and followers -/

/-- `StepCandidate`. -/
def stepCandidate : Option (Raft σ × Result Unit) := do
  match m.msgType with
  | .msgPropose => some (r, .error (.raft .proposalDropped))
  | .msgAppend =>
      let r ← r.becomeFollower m.term m.sender
      some (← r.handleAppendEntries m, .ok ())
  | .msgHeartbeat =>
      let r ← r.becomeFollower m.term m.sender
      some (← r.handleHeartbeat m, .ok ())
  | .msgSnapshot =>
      let r ← r.becomeFollower m.term m.sender
      some (← r.handleSnapshot m, .ok ())
  | .msgRequestPreVoteResponse | .msgRequestVoteResponse =>
      -- only answers to the current kind of candidacy count
      if (r.state = .preCandidate ∧ m.msgType ≠ .msgRequestPreVoteResponse) ∨
          (r.state = .candidate ∧ m.msgType ≠ .msgRequestVoteResponse) then
        some (r, .ok ())
      else
        let (r, _) ← r.poll m.sender (!m.reject)
        some (← r.maybeCommitByVote m, .ok ())
  | _ => some (r, .ok ())

/-- A message handed on to the leader; dropped when there is none. -/
def forwardToLeader : Option (Raft σ) :=
  if r.leaderId = kInvalidId then some r else r.send { m with receiver := r.leaderId }

/-- `StepFollower`. -/
def stepFollower : Option (Raft σ × Result Unit) := do
  match m.msgType with
  | .msgPropose =>
      if r.leaderId = kInvalidId ∨ r.disableProposalForwarding then
        some (r, .error (.raft .proposalDropped))
      else some (← r.forwardToLeader m, .ok ())
  | .msgAppend =>
      let r := { r with electionElapsed := 0, leaderId := m.sender }
      some (← r.handleAppendEntries m, .ok ())
  | .msgHeartbeat =>
      let r := { r with electionElapsed := 0, leaderId := m.sender }
      some (← r.handleHeartbeat m, .ok ())
  | .msgSnapshot =>
      let r := { r with electionElapsed := 0, leaderId := m.sender }
      some (← r.handleSnapshot m, .ok ())
  | .msgTransferLeader | .msgReadIndex => some (← r.forwardToLeader m, .ok ())
  | .msgTimeoutNow =>
      if r.promotable then some (← r.hup true, .ok ()) else some (r, .ok ())
  | .msgReadIndexResp =>
      if r.leaderId = kInvalidId ∨ m.sender ≠ r.leaderId then some (r, .ok ())
      else
        match m.entries with
        | [entry] =>
            let readStates := r.readStates ++ [⟨m.index, entry.data⟩]
            let (raftLog, _) ← r.raftLog.maybeCommit m.index m.term
            some ({ r with readStates, raftLog }, .ok ())
        | _ => some (r, .ok ())
  | _ => some (r, .ok ())

/-! ## Leaders -/

/-- The progress of a peer after an accepting response, by its state. -/
def acknowledgedProgress (pr : Progress) (index : ℕ) : Progress :=
  match pr.state with
  | .probe => pr.becomeReplicate
  | .replicate =>
      let pr := { pr with inflights := pr.inflights.freeTo index }
      if pr.isSnapshotCaughtUp then pr.becomeProbe else pr
  | .snapshot => if pr.isSnapshotCaughtUp then pr.becomeProbe else pr

/-- The part of `HandleAppendResponse` for a rejection. -/
def handleAppendReject (pr : Progress) (nextProbeIndex : ℕ) :
    Option (Raft σ) := do
  let (pr, decreased) := pr.maybeDecTo m.index nextProbeIndex m.requestSnapshot
  if decreased then
    let pr := if pr.state = .replicate then pr.becomeProbe else pr
    (r.setProgress m.sender pr).sendAppend m.sender
  else some (r.setProgress m.sender pr)

/-- The sends after an acceptance: a broadcast when it committed something, otherwise an
append to a peer that was paused. -/
def sendAfterAccept (peer : ℕ) (committed oldPaused : Bool) : Option (Raft σ) :=
  if committed then if r.shouldBroadcastCommit then r.broadcastAppend else some r
  else if oldPaused then r.sendAppend peer
  else some r

/-- Tell a transferee that has caught up to campaign. -/
def maybeTimeoutNow (peer : ℕ) : Option (Raft σ) := do
  if r.leadTransferee = some peer then
    let pr ← r.tracker.get peer
    let lastIndex ← r.raftLog.lastIndex
    if pr.matched = lastIndex then r.sendTimeoutNow peer else some r
  else some r

/-- The part of `HandleAppendResponse` for an acceptance. -/
def handleAppendAccept (pr : Progress) : Option (Raft σ) := do
  let oldPaused := pr.isPaused
  let (pr, updated) := pr.maybeUpdate m.index
  if updated = false then some (r.setProgress m.sender pr)
  else
    let r := r.setProgress m.sender (acknowledgedProgress pr m.index)
    let (r, committed) ← r.maybeCommit
    let r ← r.sendAfterAccept m.sender committed oldPaused
    let r ← r.sendAppendAggressively m.sender
    r.maybeTimeoutNow m.sender

/-- The index to probe next after a rejection. -/
def nextProbeIndex : Option ℕ :=
  if m.reject ∧ m.logTerm > 0 then do
    let (index, _) ← r.raftLog.findConflictByTerm m.rejectHint m.logTerm
    some index
  else some m.rejectHint

/-- `HandleAppendResponse`. -/
def handleAppendResponse : Option (Raft σ) := do
  let nextProbeIndex ← r.nextProbeIndex m
  match r.tracker.get m.sender with
  | none => some r
  | some pr =>
      let pr := { pr with recentActive := true }.updateCommitted m.commit
      if m.reject then r.handleAppendReject m pr nextProbeIndex else r.handleAppendAccept m pr

/-- The progress of a peer after a heartbeat response. -/
def resumedProgress (pr : Progress) (commit : ℕ) : Progress :=
  let pr := { pr.updateCommitted commit with recentActive := true }.resume
  if pr.state = .replicate ∧ pr.inflights.full then
    { pr with inflights := pr.inflights.freeFirstOne }
  else pr

/-- The append after a heartbeat response, to a peer that is behind or wants a snapshot. -/
def sendAfterHeartbeat (peer : ℕ) (pr : Progress) : Option (Raft σ) := do
  let lastIndex ← r.raftLog.lastIndex
  if pr.matched < lastIndex ∨ pr.pendingRequestSnapshot ≠ kInvalidIndex then r.sendAppend peer
  else some r

/-- `HandleHeartbeatResponse`. -/
def handleHeartbeatResponse : Option (Raft σ) :=
  match r.tracker.get m.sender with
  | none => some r
  | some pr => do
      let pr := resumedProgress pr m.commit
      let r ← (r.setProgress m.sender pr).sendAfterHeartbeat m.sender pr
      if r.readOnly.option ≠ .safe ∨ m.context = [] then some r
      else r.confirmReads m.sender m.context

/-- `HandleSnapshotStatus`. -/
def handleSnapshotStatus : Raft σ :=
  match r.tracker.get m.sender with
  | none => r
  | some pr =>
      if pr.state ≠ .snapshot then r
      else
        let pr := if m.reject then pr.snapshotFailure.becomeProbe else pr.becomeProbe
        r.setProgress m.sender { pr.pause with pendingRequestSnapshot := kInvalidIndex }

/-- `HandleUnreachable`. -/
def handleUnreachable : Raft σ :=
  match r.tracker.get m.sender with
  | none => r
  | some pr => if pr.state = .replicate then r.setProgress m.sender pr.becomeProbe else r

/-- `HandleTransferLeader`. -/
def handleTransferLeader : Option (Raft σ) := do
  match r.tracker.get m.sender with
  | none => some r
  | some pr =>
      if m.sender ∈ r.tracker.conf.learners then some r
      else if r.leadTransferee = some m.sender then some r
      else
        let r := r.abortLeaderTransfer
        if m.sender = r.id then some r
        else
          let r := { r with electionElapsed := 0, leadTransferee := some m.sender }
          let lastIndex ← r.raftLog.lastIndex
          if pr.matched = lastIndex then r.sendTimeoutNow m.sender else r.sendAppend m.sender

/-- The checks of a proposal's configuration changes: the position of the only one, `none`
inside when there is none, and an error when the proposal is dropped. -/
def checkProposal (hasPendingConf : Bool) :
    ℕ → Option ℕ → List Entry → Result (Option ℕ)
  | _, position, [] => .ok position
  | i, position, e :: es =>
      if e.entryType = .entryConfChangeV2 then
        if hasPendingConf ∨ position.isSome ∨ e.data = [] ∨
            (Codec.confChangeV2OfBytes e.data).isNone then
          .error (.raft .proposalDropped)
        else checkProposal hasPendingConf (i + 1) (some i) es
      else checkProposal hasPendingConf (i + 1) position es

/-- The proposal case of `StepLeader`. -/
def stepLeaderPropose : Option (Raft σ × Result Unit) := do
  if m.entries = [] then none
  else if (r.tracker.get r.id).isNone ∨ r.leadTransferee.isSome then
    some (r, .error (.raft .proposalDropped))
  else
    match checkProposal r.hasPendingConf 0 none m.entries with
    | .error e => some (r, .error e)
    | .ok position =>
        let oldLastIndex ← r.raftLog.lastIndex
        let (r, appended) ← r.appendEntry m.entries
        if appended = false then some (r, .error (.raft .proposalDropped))
        else
          let r :=
            match position with
            | some position => { r with pendingConfIndex := oldLastIndex + position + 1 }
            | none => r
          some (← r.broadcastAppend, .ok ())

/-- `CommitToCurrentTerm`. -/
def commitToCurrentTerm : Option Bool := do
  some (resultIs (← r.raftLog.term r.raftLog.committed) r.term)

/-- The read-index case of `StepLeader`. -/
def stepLeaderReadIndex : Option (Raft σ) := do
  if ← r.commitToCurrentTerm then
    if r.tracker.isSingleton then r.respondRead m r.raftLog.committed
    else
      match r.readOnly.option with
      | .safe =>
          match ReadOnly.requestCtx m with
          | none => some r
          | some ctx =>
              let readOnly := r.readOnly.addRequest r.raftLog.committed m r.id
              { r with readOnly }.broadcastHeartbeatWith (some ctx)
      | .leaseBased => r.respondRead m r.raftLog.committed
  else some r

/-- The quorum check of `StepLeader`. -/
def stepLeaderCheckQuorum : Option (Raft σ) :=
  let (tracker, active) := r.tracker.quorumRecentlyActive r.id
  let r := { r with tracker }
  if active then some r else r.becomeFollower r.term kInvalidId

/-- `StepLeader`. -/
def stepLeader : Option (Raft σ × Result Unit) := do
  match m.msgType with
  | .msgBeat => some (← r.broadcastHeartbeat, .ok ())
  | .msgCheckQuorum => some (← r.stepLeaderCheckQuorum, .ok ())
  | .msgPropose => r.stepLeaderPropose m
  | .msgReadIndex => some (← r.stepLeaderReadIndex m, .ok ())
  | .msgAppendResponse => some (← r.handleAppendResponse m, .ok ())
  | .msgHeartbeatResponse => some (← r.handleHeartbeatResponse m, .ok ())
  | .msgSnapStatus => some (r.handleSnapshotStatus m, .ok ())
  | .msgUnreachable => some (r.handleUnreachable m, .ok ())
  | .msgTransferLeader => some (← r.handleTransferLeader m, .ok ())
  | _ => some (r, .ok ())

/-! ## Step and tick -/

/-- Whether a vote request from a later term is ignored because a leader is still active. -/
def ignoresVote : Bool :=
  decide ((m.msgType = .msgRequestVote ∨ m.msgType = .msgRequestPreVote) ∧
    m.context ≠ kCampaignTransfer ∧
    r.checkQuorum ∧ r.leaderId ≠ kInvalidId ∧ r.electionElapsed < r.electionTimeout)

/-- The answer of `Step` to a message of an earlier term. -/
def stepLowerTerm : Option (Raft σ) :=
  if (r.checkQuorum ∨ r.preVote) ∧ (m.msgType = .msgHeartbeat ∨ m.msgType = .msgAppend) then
    r.send { msgType := .msgAppendResponse, receiver := m.sender }
  else if m.msgType = .msgRequestPreVote then
    r.send
      { msgType := .msgRequestPreVoteResponse, receiver := m.sender, reject := true
        term := r.term }
  else some r

/-- The role change of `Step` for a message of a later term. -/
def stepHigherTerm : Option (Raft σ) :=
  if m.msgType = .msgRequestPreVote ∨
      (m.msgType = .msgRequestPreVoteResponse ∧ m.reject = false) then
    some r
  else if m.msgType = .msgAppend ∨ m.msgType = .msgHeartbeat ∨ m.msgType = .msgSnapshot then
    r.becomeFollower m.term m.sender
  else r.becomeFollower m.term kInvalidId

/-- `VoteRespMsgType`. -/
def voteRespMsgType : MessageType → MessageType
  | .msgRequestVote => .msgRequestVoteResponse
  | _ => .msgRequestPreVoteResponse

/-- Whether `Step` grants the vote that `m` requests. -/
def grantsVote : Option Bool := do
  let canVote :=
    r.vote = m.sender ∨ (r.vote = kInvalidId ∧ r.leaderId = kInvalidId) ∨
      (m.msgType = .msgRequestPreVote ∧ m.term > r.term)
  if canVote then
    if ← r.raftLog.isUpToDate m.index m.logTerm then
      let lastIndex ← r.raftLog.lastIndex
      some (decide (m.index > lastIndex ∨ r.priority ≤ m.priority))
    else some false
  else some false

/-- The vote request case of `Step`. -/
def stepVote : Option (Raft σ) := do
  let msgType := voteRespMsgType m.msgType
  if ← r.grantsVote m then
    let r ← r.send { msgType, receiver := m.sender, reject := false, term := m.term }
    if m.msgType = .msgRequestVote then
      some { r with electionElapsed := 0, vote := m.sender }
    else some r
  else
    let (commit, commitTerm) ← r.raftLog.commitInfo
    let r ← r.send
      { msgType, receiver := m.sender, reject := true, term := r.term, commit, commitTerm }
    r.maybeCommitByVote m

/-- The second half of `Step`: the message is local, of the current term, or a pre-vote
message of a later term. -/
def stepCurrentTerm : Option (Raft σ × Result Unit) := do
  match m.msgType with
  | .msgHup => if r.promotable then some (← r.hup false, .ok ()) else some (r, .ok ())
  | .msgRequestVote | .msgRequestPreVote => some (← r.stepVote m, .ok ())
  | _ =>
      match r.state with
      | .preCandidate | .candidate => r.stepCandidate m
      | .follower => r.stepFollower m
      | .leader => r.stepLeader m

/-- `Step`. -/
def step : Option (Raft σ × Result Unit) := do
  if m.term = 0 then r.stepCurrentTerm m
  else if m.term > r.term then
    if r.ignoresVote m then some (r, .ok ())
    else
      let r ← r.stepHigherTerm m
      r.stepCurrentTerm m
  else if m.term < r.term then some (← r.stepLowerTerm m, .ok ())
  else r.stepCurrentTerm m

/-- The heartbeat half of a tick. -/
def tickBeat (hasReady : Bool) : Option (Raft σ × Bool) := do
  if r.state ≠ .leader then some (r, hasReady)
  else if r.heartbeatElapsed ≥ r.heartbeatTimeout then
    let r := { r with heartbeatElapsed := 0 }
    let (r, _) ← r.step { msgType := .msgBeat, sender := r.id }
    some (r, true)
  else some (r, hasReady)

/-- `TickElection`. -/
def tickElection : Option (Raft σ × Bool) := do
  let r := { r with
    heartbeatElapsed := r.heartbeatElapsed + 1, electionElapsed := r.electionElapsed + 1 }
  if r.electionElapsed ≥ r.randomizedElectionTimeout then
    let r := { r with electionElapsed := 0 }
    let (r, _) ← r.step { msgType := .msgHup, sender := r.id }
    r.tickBeat true
  else r.tickBeat false

/-- The quorum check of `TickHeartbeat`. -/
def tickCheckQuorum : Option (Raft σ) :=
  if r.checkQuorum then do
    let (r, _) ← r.step { msgType := .msgCheckQuorum, sender := r.id }
    some r
  else some r

/-- `TickHeartbeat`. -/
def tickHeartbeat : Option (Raft σ × Bool) := do
  let r := { r with
    heartbeatElapsed := r.heartbeatElapsed + 1, electionElapsed := r.electionElapsed + 1 }
  if r.electionElapsed ≥ r.randomizedElectionTimeout then
    let hasReady := r.checkQuorum
    let r ← { r with electionElapsed := 0 }.tickCheckQuorum
    if r.state = .leader ∧ r.leadTransferee.isSome then r.abortLeaderTransfer.tickBeat hasReady
    else r.tickBeat hasReady
  else r.tickBeat false

/-- `Tick`. -/
def tick : Option (Raft σ × Bool) :=
  match r.state with
  | .leader => r.tickHeartbeat
  | _ => r.tickElection

/-- `Ping`. -/
def ping : Option (Raft σ) :=
  if r.state = .leader then r.broadcastHeartbeat else some r

/-- `RequestSnapshot`. -/
def requestSnapshot : Option (Raft σ × Result Unit) := do
  let dropped : Raft σ × Result Unit := (r, .error (.raft .requestSnapshotDropped))
  if r.state = .leader ∨ r.leaderId = kInvalidId ∨ r.raftLog.unstable.snapshot.isSome ∨
      r.pendingRequestSnapshot ≠ kInvalidIndex then
    some dropped
  else
    let requestIndex ← r.raftLog.lastIndex
    let requestIndexTerm ← unwrap (← r.raftLog.term requestIndex)
    if r.term = requestIndexTerm then
      let r := { r with pendingRequestSnapshot := requestIndex }
      some (← r.sendRequestSnapshot, .ok ())
    else some dropped

/-! ## Configuration changes and the constructor -/

/-- The transition a configuration change asks for: `none` for a simple change, otherwise
whether to leave the joint configuration automatically.  `EnterJoint` of `raft.cc`. -/
def enterJointMode (cc : ConfChangeV2) : Option Bool :=
  if cc.transition ≠ .auto ∨ cc.changes.length > 1 then
    some (decide (cc.transition ≠ .explicit))
  else none

/-- `LeaveJoint` of `raft.cc`. -/
def leavesJoint (cc : ConfChangeV2) : Bool := decide (cc.transition = .auto ∧ cc.changes = [])

/-- `ApplyConfChange`. -/
def applyConfChange (cc : ConfChangeV2) :
    Option (Raft σ × Result ConfState) := do
  let result :=
    if leavesJoint cc then ConfChanger.leaveJoint r.tracker
    else
      match enterJointMode cc with
      | some autoLeave => ConfChanger.enterJoint r.tracker autoLeave cc.changes
      | none => ConfChanger.simple r.tracker cc.changes
  match result with
  | .error e => some (r, .error e)
  | .ok (cfg, changes) =>
      let lastIndex ← r.raftLog.lastIndex
      let r := { r with tracker := r.tracker.applyConf cfg changes lastIndex }
      let (r, cs) ← r.postConfChange
      some (r, .ok cs)

/-- `LoadState`. -/
def loadState (hs : HardState) : Option (Raft σ) := do
  let lastIndex ← r.raftLog.lastIndex
  if hs.commit < r.raftLog.committed ∨ hs.commit > lastIndex then none
  else
    some { r with
      raftLog := { r.raftLog with committed := hs.commit }, term := hs.term, vote := hs.vote }

/-- The comparison of `ConfStatesEqualIgnoringOrder`: neither `learners_next` nor
`auto_leave` is compared. -/
def confStatesEqualIgnoringOrder (a b : ConfState) : Bool :=
  a.voters.isPerm b.voters && a.learners.isPerm b.learners &&
    a.votersOutgoing.isPerm b.votersOutgoing

/-- The members that the constructors initialise from the configuration and the storage. -/
def init (config : Config) (store : σ) (rng : ℕ → ℕ) : Option (Raft σ) := do
  let raftLog ← RaftLog.new config.maxApplyUnpersistedLogLimit store
  some
    { id := config.id
      raftLog
      maxMessageSize := config.maxSizePerMessage
      readOnly := { option := config.readOnlyOption }
      checkQuorum := config.checkQuorum
      preVote := config.preVote
      skipBroadcastCommit := config.skipBroadcastCommit
      batchAppend := config.batchAppend
      disableProposalForwarding := config.disableProposalForwarding
      heartbeatTimeout := config.heartbeatTick
      electionTimeout := config.electionTick
      minElectionTimeout := config.minTick
      maxElectionTimeout := config.maxTick
      uncommittedState := { maxUncommittedSize := config.maxUncommittedSize }
      maxCommittedSizePerReady := config.maxCommittedSizePerReady
      tracker := .new config.maxInflightMessages
      maxInflightMessages := config.maxInflightMessages
      rng }

/-- The hard state is loaded only when the configuration asks for it. -/
def loadInitialState (config : Config) (hs : HardState) : Option (Raft σ) :=
  if config.loadStateOnStartup ∧ hs ≠ ({} : HardState) then r.loadState hs else some r

/-- The applied index of the configuration, if it has one. -/
def loadApplied (config : Config) : Option (Raft σ) :=
  if config.applied > 0 then r.commitApplyInternal config.applied true else some r

/-- The constructor. -/
def new (config : Config) (store : σ) (rng : ℕ → ℕ) : Option (Raft σ) := do
  let r ← init config store rng
  unwrap config.validate
  let raftState ← unwrap (Storage.initialState r.raftLog.store)
  let lastIndex ← r.raftLog.lastIndex
  let tracker ← unwrap (restoreTracker r.tracker lastIndex raftState.confState)
  let (r, newCs) ← { r with tracker }.postConfChange
  if confStatesEqualIgnoringOrder raftState.confState newCs then
    let r ← r.loadInitialState config raftState.hardState
    let r ← r.loadApplied config
    r.becomeFollower r.term kInvalidId
  else none

end Raft

end Raftpp
