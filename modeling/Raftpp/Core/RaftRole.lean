import Raftpp.Core.Raft

/-!
# The Raft node: roles and elections

Role changes (`Reset`, `BecomeFollower`, `BecomePreCandidate`,
`BecomeCandidate`, `BecomeLeader`), appending and committing, and campaigning
(`Poll`, `Campaign`, `Hup`, `MaybeCommitByVote`) of `raft.cc`.
-/

namespace Raftpp

/-- `kCampaignPreElection`, `kCampaignElection` and `kCampaignTransfer`. -/
inductive CampaignType
  | preElection
  | election
  | transfer
  deriving DecidableEq

/-- The bytes of `kCampaignTransfer`, `"CampaignTransfer"`. -/
def kCampaignTransfer : Bytes :=
  [67, 97, 109, 112, 97, 105, 103, 110, 84, 114, 97, 110, 115, 102, 101, 114]

namespace Raft

variable {σ : Type} [Storage σ] [Codec] (r : Raft σ)

/-- `ResetRandomizedElectionTimeout`: a draw from `[min, max - 1]`. -/
def drawElectionTimeout : ℕ :=
  r.minElectionTimeout + r.rng 0 % (r.maxElectionTimeout - r.minElectionTimeout)

/-- `AbortLeaderTransfer`. -/
def abortLeaderTransfer : Raft σ := { r with leadTransferee := none }

/-- The progress of a peer after `Reset`; the node's own is what it has persisted. -/
def resetProgress (lastIndex id : ℕ) (pr : Progress) : Progress :=
  if id = r.id then
    { pr.reset (lastIndex + 1) with
      matched := r.raftLog.persisted, committedIndex := r.raftLog.committed }
  else pr.reset (lastIndex + 1)

/-- `Reset`: the vote is forgotten only when the term changes. -/
def reset (term : ℕ) : Option (Raft σ) := do
  let lastIndex ← r.raftLog.lastIndex
  some
    { r with
      term
      vote := if r.term ≠ term then kInvalidId else r.vote
      leaderId := kInvalidId
      randomizedElectionTimeout := r.drawElectionTimeout
      rng := fun n => r.rng (n + 1)
      electionElapsed := 0
      heartbeatElapsed := 0
      leadTransferee := none
      pendingConfIndex := 0
      readOnly := { option := r.readOnly.option }
      pendingRequestSnapshot := kInvalidIndex
      tracker := r.tracker.resetVotes.mapProgress (r.resetProgress lastIndex) }

/-- `BecomeFollower`: a pending snapshot request survives the reset. -/
def becomeFollower (term leaderId : ℕ) : Option (Raft σ) := do
  let pendingRequestSnapshot := r.pendingRequestSnapshot
  let r ← r.reset term
  some
    { r with
      leaderId, state := .follower, pendingRequestSnapshot
      raftLog := { r.raftLog with maxApplyUnpersistedLogLimit := 0 } }

/-- `BecomePreCandidate`. -/
def becomePreCandidate : Option (Raft σ) :=
  if r.state = .leader then none
  else
    some { r with
      state := .preCandidate, tracker := r.tracker.resetVotes, leaderId := kInvalidId }

/-- `BecomeCandidate`. -/
def becomeCandidate : Option (Raft σ) :=
  if r.state = .leader then none
  else do
    let r ← r.reset (r.term + 1)
    some { r with
      vote := r.id, state := .candidate, promotable := r.tracker.conf.voters.contains r.id }

/-- Number the entries of a proposal from `index` on, with the leader's term. -/
def numberEntries (term : ℕ) : ℕ → List Entry → List Entry
  | _, [] => []
  | index, e :: es => { e with term, index } :: numberEntries term (index + 1) es

/-- `AppendEntry`: false when the uncommitted size limit drops the entries. -/
def appendEntry (entries : List Entry) : Option (Raft σ × Bool) := do
  let (uncommittedState, accepted) := r.uncommittedState.maybeIncreaseUncommittedSize entries
  if accepted then
    let lastIndex ← r.raftLog.lastIndex
    let (raftLog, _) ← r.raftLog.append (numberEntries r.term (lastIndex + 1) entries)
    some ({ r with uncommittedState, raftLog }, true)
  else some (r, false)

/-- The state of a new leader before it appends its first entry. -/
def leaderState (lastIndex : ℕ) : Raft σ :=
  { r with
    leaderId := r.id
    state := .leader
    uncommittedState :=
      { r.uncommittedState with uncommittedSize := 0, lastLogTailIndex := lastIndex }
    tracker := r.tracker.modify r.id Progress.becomeReplicate
    pendingConfIndex := lastIndex }

/-- `BecomeLeader`: appends an empty entry of the new term. -/
def becomeLeader : Option (Raft σ) :=
  if r.state = .follower then none
  else do
    let r ← r.reset r.term
    let lastIndex ← r.raftLog.lastIndex
    let _ ← r.tracker.get r.id
    let (r, appended) ← (r.leaderState lastIndex).appendEntry [{}]
    if appended then some r else none

/-- `MaybeCommit`: commit what a quorum has acknowledged, if it is of the current term. -/
def maybeCommit (r : Raft σ) : Option (Raft σ × Bool) := do
  let (raftLog, committed) ← r.raftLog.maybeCommit r.tracker.maxCommittedIndex.1 r.term
  if committed then
    let r := { r with raftLog }
    let _ ← r.tracker.get r.id
    some ({ r with
      tracker := r.tracker.modify r.id fun pr => pr.updateCommitted raftLog.committed }, true)
  else some (r, false)

/-- `HasPendingConf`. -/
def hasPendingConf : Bool := decide (r.pendingConfIndex > r.raftLog.applied)

/-- `ShouldBroadcastCommit`. -/
def shouldBroadcastCommit : Bool := !r.skipBroadcastCommit || r.hasPendingConf

/-- `HasUnappliedConfChanges`. -/
def hasUnappliedConfChanges (low high : ℕ) (ctx : GetEntriesContext) :
    Option Bool :=
  if r.raftLog.applied ≥ r.raftLog.committed then some false
  else do
    let found := fun ents : List Entry => ents.any fun e => e.entryType = .entryConfChangeV2
    match ← r.raftLog.scan r.maxCommittedSizePerReady ctx found high (high - low + 1) low with
    | .ok found => some found
    | .error _ => none

/-- `Poll`, over what a won pre-vote does. -/
def pollWith (preVoteWon : Raft σ → Option (Raft σ)) (r : Raft σ) (sender : ℕ) (vote : Bool) :
    Option (Raft σ × VoteResult) := do
  let r := { r with tracker := r.tracker.recordVote sender vote }
  let result := r.tracker.countVotes.2.2
  match result with
  | .pending => some (r, result)
  | .lost => some (← r.becomeFollower r.term kInvalidId, result)
  | .won =>
      if r.state = .preCandidate then some (← preVoteWon r, result)
      else
        let r ← r.becomeLeader
        some (← r.broadcastAppend, result)

/-- The vote requests of `Campaign` to every other voter. -/
def requestVotes (campaignType : CampaignType) (msgType : MessageType)
    (term : ℕ) : Option (Raft σ) := do
  let (commit, commitTerm) ← r.raftLog.commitInfo
  r.tracker.conf.voters.ids.elems.foldlM
    (fun r id =>
      if id = r.id then some r
      else do
        let index ← r.raftLog.lastIndex
        let logTerm ← r.raftLog.lastTerm
        r.send
          { msgType, receiver := id, term, index, logTerm, commit, commitTerm
            context := if campaignType = .transfer then kCampaignTransfer else [] }) r

/-- `Campaign`, over the `Poll` it calls. -/
def campaignWith (poll : Raft σ → ℕ → Bool → Option (Raft σ × VoteResult)) (r : Raft σ)
    (campaignType : CampaignType) : Option (Raft σ) := do
  if campaignType = .preElection then
    let r ← r.becomePreCandidate
    let term := r.term + 1
    let (r, result) ← poll r r.id true
    if result = .won then some r else r.requestVotes campaignType .msgRequestPreVote term
  else
    let r ← r.becomeCandidate
    let term := r.term
    let (r, result) ← poll r r.id true
    if result = .won then some r else r.requestVotes campaignType .msgRequestVote term

/-- `Campaign(kCampaignElection)` from a won pre-vote.  The node is a candidate when it
polls itself, so the pre-vote branch of that `Poll` is not reached. -/
def campaignElection : Option (Raft σ) :=
  campaignWith (pollWith fun _ => none) r .election

/-- `Poll`. -/
def poll (sender : ℕ) (vote : Bool) : Option (Raft σ × VoteResult) :=
  pollWith campaignElection r sender vote

/-- `Campaign`. -/
def campaign (campaignType : CampaignType) : Option (Raft σ) :=
  campaignWith poll r campaignType

/-- `Hup`. -/
def hup (transferLeader : Bool) : Option (Raft σ) :=
  if r.state = .leader then some r
  else do
    let low := r.raftLog.unstable.maybeFirstIndex.getD (r.raftLog.applied + 1)
    let high := r.raftLog.committed + 1
    if ← r.hasUnappliedConfChanges low high .transferLeader then some r
    else if transferLeader then r.campaign .transfer
    else if r.preVote then r.campaign .preElection
    else r.campaign .election

/-- `MaybeCommitByVote`: advance the commit index from a vote message. -/
def maybeCommitByVote (m : Message) : Option (Raft σ) :=
  if m.commit = 0 ∨ m.commitTerm = 0 then some r
  else
    let lastCommit := r.raftLog.committed
    if m.commit ≤ lastCommit ∨ r.state = .leader then some r
    else do
      let (raftLog, committed) ← r.raftLog.maybeCommit m.commit m.commitTerm
      if committed = false then some r
      else
        let r := { r with raftLog }
        if r.state ≠ .candidate ∧ r.state ≠ .preCandidate then some r
        else if ← r.hasUnappliedConfChanges (lastCommit + 1) (r.raftLog.committed + 1)
            (.empty false) then
          r.becomeFollower r.term kInvalidId
        else some r

/-- The applied index of `CommitApplyInternal`, checked or not. -/
def setApplied (applied : ℕ) (skipCheck : Bool) : Option (RaftLog σ) :=
  if skipCheck then if applied > 0 then some { r.raftLog with applied } else none
  else r.raftLog.appliedTo applied

/-- `CommitApplyInternal`: a leader leaves an automatic joint configuration by itself. -/
def commitApplyInternal (applied : ℕ) (skipCheck : Bool) : Option (Raft σ) := do
  let oldApplied := r.raftLog.applied
  let raftLog ← r.setApplied applied skipCheck
  let r := { r with raftLog }
  if r.tracker.conf.autoLeave ∧ oldApplied ≤ r.pendingConfIndex ∧
      applied ≥ r.pendingConfIndex ∧ r.state = .leader then
    let ent : Entry :=
      { entryType := .entryConfChangeV2, data := Codec.confChangeV2Bytes {} }
    let ent := { ent with checksum := Codec.entryChecksum ent }
    let (r, appended) ← r.appendEntry [ent]
    if appended then some { r with pendingConfIndex := ← r.raftLog.lastIndex } else none
  else some r

/-- `CommitApply`. -/
def commitApply (applied : ℕ) : Option (Raft σ) :=
  r.commitApplyInternal applied false

/-- `OnPersistEntries`. -/
def onPersistEntries (index term : ℕ) : Option (Raft σ) := do
  let (raftLog, update) := r.raftLog.maybePersist index term
  let r := { r with raftLog }
  if update ∧ r.state = .leader then
    let pr ← r.tracker.get r.id
    let (pr, updated) := pr.maybeUpdate index
    let r := r.setProgress r.id pr
    if updated then
      let (r, committed) ← r.maybeCommit
      if committed ∧ r.shouldBroadcastCommit then r.broadcastAppend else some r
    else some r
  else some r

/-- `OnPersistSnapshot`. -/
def onPersistSnapshot (index : ℕ) : Option (Raft σ) := do
  let (raftLog, _) ← r.raftLog.maybePersistSnapshot index
  some { r with raftLog }

/-! ## Group commit -/

/-- Commit what can be committed, and tell the peers. -/
def commitAndBroadcast : Option (Raft σ) := do
  let (r, committed) ← r.maybeCommit
  if committed then r.broadcastAppend else some r

/-- `EnableGroupCommit`. -/
def enableGroupCommit (enable : Bool) : Option (Raft σ) :=
  let r := { r with tracker := { r.tracker with groupCommit := enable } }
  if r.state = .leader ∧ enable = false then r.commitAndBroadcast else some r

/-- The loop of `AssignCommitGroups`: a group of 0 aborts, an unknown peer is passed over. -/
def assignGroups (ids : List (ℕ × ℕ)) : Option (Raft σ) :=
  ids.foldlM
    (fun r (peer, groupId) =>
      if groupId = 0 then none
      else some { r with
        tracker := r.tracker.modify peer fun pr => { pr with commitGroupId := groupId } }) r

/-- `AssignCommitGroups`. -/
def assignCommitGroups (ids : List (ℕ × ℕ)) : Option (Raft σ) := do
  let r ← r.assignGroups ids
  if r.state = .leader ∧ r.tracker.groupCommit then r.commitAndBroadcast else some r

/-- `CheckGroupCommitConsistent`: no answer unless the leader has applied an entry of its
term. -/
def checkGroupCommitConsistent : Option (Option Bool) := do
  if r.state ≠ .leader then some none
  else if resultIs (← r.raftLog.term r.raftLog.applied) r.term then
    let (index, useGroupCommit) := r.tracker.maxCommittedIndex
    some (some (useGroupCommit && decide (index = r.raftLog.committed)))
  else some none

end Raft

end Raftpp
