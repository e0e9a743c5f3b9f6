import Raftpp.Protocol.Node

/-!
# Calls with the reason why they abort

The calls of a node are traced here with the reason why they abort: by the assertion of
`ProgressTracker::at`, or elsewhere.  The traces erase to the functions of the model.

They also tell which calls make a node a leader, from the state before the call: a
campaign that its own vote wins, and the vote that completes a quorum.  `BecomeLeader`
looks up the node's own progress, so these calls abort without one.
-/

namespace Raftpp

open Option

/-- Why a call aborts: by the assertion of `ProgressTracker::at`, or elsewhere. -/
inductive Abort
  | progressAt
  | elsewhere
  deriving DecidableEq

/-- A part of a call that does not look up a progress. -/
def traced {α : Type} : Option α → Except Abort α
  | some a => .ok a
  | none => .error .elsewhere

/-- `ProgressTracker::at`. -/
def ProgressTracker.progressAt (t : ProgressTracker) (id : ℕ) : Except Abort Progress :=
  match t.get id with
  | some pr => .ok pr
  | none => .error .progressAt

section Trace

variable {α β : Type} {x : Except Abort α} {f : α → Except Abort β}

@[simp] theorem toOption_traced (o : Option α) : (traced o).toOption = o := by
  cases o <;> rfl

@[simp] theorem toOption_progressAt (t : ProgressTracker) (id : ℕ) :
    (t.progressAt id).toOption = t.get id := by
  unfold ProgressTracker.progressAt
  split <;> simp_all [Except.toOption]

@[simp] theorem toOption_bind : (x >>= f).toOption = x.toOption.bind fun a => (f a).toOption := by
  cases x <;> rfl

@[simp] theorem toOption_map (g : α → β) :
    (g <$> x).toOption = x.toOption.bind fun a => some (g a) := by
  cases x <;> rfl

@[simp] theorem toOption_pure (a : α) : (pure a : Except Abort α).toOption = some a := rfl

@[simp] theorem toOption_error (e : Abort) : (.error e : Except Abort α).toOption = none := rfl

@[simp] theorem toOption_ite {c : Prop} [Decidable c] (x y : Except Abort α) :
    (if c then x else y).toOption = if c then x.toOption else y.toOption :=
  apply_ite _ _ _ _

@[simp] theorem traced_ne (o : Option α) : traced o ≠ .error .progressAt := by
  cases o <;> simp [traced]

@[simp] theorem pure_ne (a : α) : (pure a : Except Abort α) ≠ .error .progressAt := by
  simp [pure, Except.pure]

theorem progressAt_ne {t : ProgressTracker} {id : ℕ} (h : (t.get id).isSome = true) :
    t.progressAt id ≠ .error .progressAt := by
  obtain ⟨pr, hpr⟩ := isSome_iff_exists.mp h
  simp [ProgressTracker.progressAt, hpr]

/-- The assertion fails in the first part, or in the rest. -/
theorem bind_progressAt_iff : (x >>= f) = .error .progressAt ↔
    x = .error .progressAt ∨ ∃ a, x = .ok a ∧ f a = .error .progressAt := by
  cases x with
  | error e => simp [Bind.bind, Except.bind]
  | ok a => simp [Bind.bind, Except.bind]

/-- Only the first part may fail. -/
theorem bind_progressAt_iff_left (hf : ∀ a, x = .ok a → f a ≠ .error .progressAt) :
    (x >>= f) = .error .progressAt ↔ x = .error .progressAt := by
  rw [bind_progressAt_iff, or_iff_left]
  rintro ⟨a, hx, ha⟩
  exact hf a hx ha

@[simp] theorem map_progressAt_iff (g : α → β) :
    g <$> x = .error .progressAt ↔ x = .error .progressAt := by
  cases x <;> simp [Functor.map, Except.map]

theorem traced_bind_progressAt_iff {o : Option α} :
    (traced o >>= f) = .error .progressAt ↔ ∃ a, o = some a ∧ f a = .error .progressAt := by
  cases o <;> simp [traced, Bind.bind, Except.bind]

theorem bind_ne (hx : x ≠ .error .progressAt) (hf : ∀ a, x = .ok a → f a ≠ .error .progressAt) :
    (x >>= f) ≠ .error .progressAt := by
  rwa [Ne, bind_progressAt_iff_left hf]

@[simp] theorem traced_eq_ok {o : Option α} {a : α} : traced o = .ok a ↔ o = some a := by
  cases o <;> simp [traced]

theorem toOption_eq_some {a : α} : x.toOption = some a ↔ x = .ok a := by
  cases x <;> simp [Except.toOption]

theorem of_ok {b : β} (h : (x >>= f) = .ok b) : ∃ a, x = .ok a ∧ f a = .ok b := by
  cases x with
  | error e => cases h
  | ok a => exact ⟨a, rfl, h⟩

/-- The call makes the node a leader iff `P`, and has to look the node itself up then. -/
structure ElectsIff {σ : Type} (r : Raft σ) (P : Prop) (state : α → StateRole)
    (x : Except Abort α) : Prop where
  asserts : x = .error .progressAt ↔ r.tracker.get r.id = none ∧ P
  leader : ∀ a, x = .ok a → (state a = .leader ↔ P)

namespace ElectsIff

variable {σ : Type} {r r₁ : Raft σ} {P P₁ : Prop} {state : α → StateRole}

/-- What comes behind does not look up and changes nothing for a leader. -/
theorem bind {state' : β → StateRole} (h : ElectsIff r P state x)
    (hf : ∀ a, f a ≠ .error .progressAt ∧
      ∀ b, f a = .ok b → (state' b = .leader ↔ state a = .leader)) :
    ElectsIff r P state' (x >>= f) where
  asserts := (bind_progressAt_iff_left fun a _ => (hf a).1).trans h.asserts
  leader b hb := by
    obtain ⟨a, ha, hb⟩ := of_ok hb
    exact ((hf a).2 b hb).trans (h.leader a ha)

/-- A call that elects nobody. -/
theorem quiet (hne : x ≠ .error .progressAt) (hP : ¬P)
    (hx : ∀ a, x = .ok a → state a ≠ .leader) : ElectsIff r P state x where
  asserts := iff_of_false hne fun h => hP h.2
  leader a ha := iff_of_false (hx a ha) hP

theorem congr (h : ElectsIff r₁ P₁ state x)
    (hself : r₁.tracker.get r₁.id = none ↔ r.tracker.get r.id = none) (hP : P₁ ↔ P) :
    ElectsIff r P state x where
  asserts := h.asserts.trans (and_congr hself hP)
  leader a ha := (h.leader a ha).trans hP

end ElectsIff

end Trace

/-! ## The calls -/

namespace Raft.Traced

variable {σ : Type} [Storage σ] [Codec]

/-- `MaybeCommit`. -/
def maybeCommit (r : Raft σ) : Except Abort (Raft σ × Bool) := do
  let (raftLog, committed) ←
    traced (r.raftLog.maybeCommit r.tracker.maxCommittedIndex.1 r.term)
  if committed then
    let r := { r with raftLog }
    let _ ← r.tracker.progressAt r.id
    pure ({ r with
      tracker := r.tracker.modify r.id fun pr => pr.updateCommitted raftLog.committed }, true)
  else pure (r, false)

/-- `SendAppend` to a peer. -/
def sendAppend (r : Raft σ) (peer : ℕ) : Except Abort (Raft σ) := do
  let _ ← r.tracker.progressAt peer
  traced (r.sendAppend peer)

/-- `SendAppendAggressively` to a peer. -/
def sendAppendAggressively (r : Raft σ) (peer : ℕ) : Except Abort (Raft σ) := do
  let _ ← r.tracker.progressAt peer
  traced (r.sendAppendAggressively peer)

/-- The branch of `HandleAppendResponse` for a rejection. -/
def handleAppendReject (r : Raft σ) (m : Message) (pr : Progress) (nextProbeIndex : ℕ) :
    Except Abort (Raft σ) := do
  let (pr, decreased) := pr.maybeDecTo m.index nextProbeIndex m.requestSnapshot
  if decreased then
    let pr := if pr.state = .replicate then pr.becomeProbe else pr
    sendAppend (r.setProgress m.sender pr) m.sender
  else pure (r.setProgress m.sender pr)

/-- The sends after an acceptance. -/
def sendAfterAccept (r : Raft σ) (peer : ℕ) (committed oldPaused : Bool) :
    Except Abort (Raft σ) :=
  if committed then if r.shouldBroadcastCommit then traced r.broadcastAppend else pure r
  else if oldPaused then sendAppend r peer
  else pure r

/-- Tell a transferee that has caught up to campaign. -/
def maybeTimeoutNow (r : Raft σ) (peer : ℕ) : Except Abort (Raft σ) := do
  if r.leadTransferee = some peer then
    let pr ← r.tracker.progressAt peer
    let lastIndex ← traced r.raftLog.lastIndex
    if pr.matched = lastIndex then traced (r.sendTimeoutNow peer) else pure r
  else pure r

/-- The branch of `HandleAppendResponse` for an acceptance. -/
def handleAppendAccept (r : Raft σ) (m : Message) (pr : Progress) : Except Abort (Raft σ) := do
  let oldPaused := pr.isPaused
  let (pr, updated) := pr.maybeUpdate m.index
  if updated = false then pure (r.setProgress m.sender pr)
  else
    let r := r.setProgress m.sender (acknowledgedProgress pr m.index)
    let (r, committed) ← maybeCommit r
    let r ← sendAfterAccept r m.sender committed oldPaused
    let r ← sendAppendAggressively r m.sender
    maybeTimeoutNow r m.sender

/-- `HandleAppendResponse`. -/
def handleAppendResponse (r : Raft σ) (m : Message) : Except Abort (Raft σ) := do
  let nextProbeIndex ← traced (r.nextProbeIndex m)
  match r.tracker.get m.sender with
  | none => pure r
  | some pr =>
      let pr := { pr with recentActive := true }.updateCommitted m.commit
      if m.reject then handleAppendReject r m pr nextProbeIndex else handleAppendAccept r m pr

/-- `BecomeLeader`. -/
def becomeLeader (r : Raft σ) : Except Abort (Raft σ) :=
  if r.state = .follower then .error .elsewhere
  else do
    let r ← traced (r.reset r.term)
    let lastIndex ← traced r.raftLog.lastIndex
    let _ ← r.tracker.progressAt r.id
    let (r, appended) ← traced ((r.leaderState lastIndex).appendEntry [{}])
    if appended then pure r else .error .elsewhere

/-- `Poll`, over what a won pre-vote does. -/
def pollWith (preVoteWon : Raft σ → Except Abort (Raft σ)) (r : Raft σ) (sender : ℕ)
    (vote : Bool) : Except Abort (Raft σ × VoteResult) := do
  let r := { r with tracker := r.tracker.recordVote sender vote }
  let result := r.tracker.countVotes.2.2
  match result with
  | .pending => pure (r, result)
  | .lost => pure (← traced (r.becomeFollower r.term kInvalidId), result)
  | .won =>
      if r.state = .preCandidate then pure (← preVoteWon r, result)
      else
        let r ← becomeLeader r
        pure (← traced r.broadcastAppend, result)

/-- `Campaign`, over the `Poll` it calls. -/
def campaignWith (poll : Raft σ → ℕ → Bool → Except Abort (Raft σ × VoteResult)) (r : Raft σ)
    (campaignType : CampaignType) : Except Abort (Raft σ) := do
  if campaignType = .preElection then
    let r ← traced r.becomePreCandidate
    let term := r.term + 1
    let (r, result) ← poll r r.id true
    if result = .won then pure r
    else traced (r.requestVotes campaignType .msgRequestPreVote term)
  else
    let r ← traced r.becomeCandidate
    let term := r.term
    let (r, result) ← poll r r.id true
    if result = .won then pure r
    else traced (r.requestVotes campaignType .msgRequestVote term)

/-- `Campaign(kCampaignElection)` from a won pre-vote. -/
def campaignElection (r : Raft σ) : Except Abort (Raft σ) :=
  campaignWith (pollWith fun _ => .error .elsewhere) r .election

/-- `Poll`. -/
def poll (r : Raft σ) (sender : ℕ) (vote : Bool) : Except Abort (Raft σ × VoteResult) :=
  pollWith campaignElection r sender vote

/-- `Campaign`. -/
def campaign (r : Raft σ) (campaignType : CampaignType) : Except Abort (Raft σ) :=
  campaignWith poll r campaignType

/-- `Hup`. -/
def hup (r : Raft σ) (transferLeader : Bool) : Except Abort (Raft σ) :=
  if r.state = .leader then pure r
  else do
    let low := r.raftLog.unstable.maybeFirstIndex.getD (r.raftLog.applied + 1)
    let high := r.raftLog.committed + 1
    if ← traced (r.hasUnappliedConfChanges low high .transferLeader) then pure r
    else if transferLeader then campaign r .transfer
    else if r.preVote then campaign r .preElection
    else campaign r .election

/-- The message makes the node campaign. -/
def Campaigns (r : Raft σ) (m : Message) : Prop :=
  r.promotable = true ∧
    (m.msgType = .msgHup ∨ r.state = .follower ∧ m.msgType = .msgTimeoutNow)

/-- The message is an answer that `StepCandidate` counts. -/
def Answers (r : Raft σ) (m : Message) : Prop :=
  r.state = .preCandidate ∧ m.msgType = .msgRequestPreVoteResponse ∨
    r.state = .candidate ∧ m.msgType = .msgRequestVoteResponse

/-- The message is for `HandleAppendResponse`. -/
def Acknowledges (r : Raft σ) (m : Message) : Prop :=
  r.state = .leader ∧ m.msgType = .msgAppendResponse

instance (r : Raft σ) (m : Message) : Decidable (Campaigns r m) :=
  inferInstanceAs (Decidable (_ ∧ _))

instance (r : Raft σ) (m : Message) : Decidable (Answers r m) :=
  inferInstanceAs (Decidable (_ ∨ _))

instance (r : Raft σ) (m : Message) : Decidable (Acknowledges r m) :=
  inferInstanceAs (Decidable (_ ∧ _))

/-- The second half of `Step`.  The other handlers use `at` at most for a progress that they have
just found. -/
def stepCurrentTerm (r : Raft σ) (m : Message) : Except Abort (Raft σ × Result Unit) :=
  if Campaigns r m then do pure (← hup r (m.msgType = .msgTimeoutNow), .ok ())
  else if Answers r m then do
    let (r, _) ← poll r m.sender (!m.reject)
    pure (← traced (r.maybeCommitByVote m), .ok ())
  else if Acknowledges r m then do pure (← handleAppendResponse r m, .ok ())
  else traced (r.stepCurrentTerm m)

/-- `Step`. -/
def step (r : Raft σ) (m : Message) : Except Abort (Raft σ × Result Unit) :=
  if m.term = 0 then stepCurrentTerm r m
  else if m.term > r.term then
    if r.ignoresVote m then pure (r, .ok ())
    else do
      let r ← traced (r.stepHigherTerm m)
      stepCurrentTerm r m
  else if m.term < r.term then do pure (← traced (r.stepLowerTerm m), .ok ())
  else stepCurrentTerm r m

/-- `TickElection`. -/
def tickElection (r : Raft σ) : Except Abort (Raft σ × Bool) := do
  let r := { r with
    heartbeatElapsed := r.heartbeatElapsed + 1, electionElapsed := r.electionElapsed + 1 }
  if r.electionElapsed ≥ r.randomizedElectionTimeout then
    let r := { r with electionElapsed := 0 }
    let (r, _) ← step r { msgType := .msgHup, sender := r.id }
    traced (r.tickBeat true)
  else traced (r.tickBeat false)

/-- `Tick`; a leader hears nothing in it. -/
def tick (r : Raft σ) : Except Abort (Raft σ × Bool) :=
  match r.state with
  | .leader => traced r.tickHeartbeat
  | _ => tickElection r

end Raft.Traced

/-! ## The traces erase to the model -/

namespace Raft.Traced

variable {σ : Type} [Storage σ] [Codec] (r : Raft σ)

omit [Codec] in
@[simp] theorem toOption_maybeCommit : (maybeCommit r).toOption = r.maybeCommit := by
  unfold maybeCommit Raft.maybeCommit
  cases r.raftLog.maybeCommit r.tracker.maxCommittedIndex.1 r.term with
  | none => rfl
  | some result =>
      obtain ⟨log, committed⟩ := result
      cases committed with
      | false => rfl
      | true =>
          show ((r.tracker.progressAt r.id) >>= fun _ => _).toOption = _
          rw [toOption_bind, toOption_progressAt]
          rfl

@[simp] theorem toOption_sendAppend (peer : ℕ) :
    (sendAppend r peer).toOption = r.sendAppend peer := by
  simp only [sendAppend, toOption_bind, toOption_progressAt, toOption_traced, Raft.sendAppend,
    maybeSendAppend]
  cases r.tracker.get peer <;> rfl

@[simp] theorem toOption_sendAppendAggressively (peer : ℕ) :
    (sendAppendAggressively r peer).toOption = r.sendAppendAggressively peer := by
  simp only [sendAppendAggressively, toOption_bind, toOption_progressAt, toOption_traced]
  cases hget : r.tracker.get peer with
  | some pr => rfl
  | none =>
      simp only [bind_none, Raft.sendAppendAggressively]
      cases r.raftLog.lastIndex with
      | none => rfl
      | some last => simp [sendAppendLoop, maybeSendAppend, hget]

@[simp] theorem toOption_handleAppendReject (m : Message) (pr : Progress) (probe : ℕ) :
    (handleAppendReject r m pr probe).toOption = r.handleAppendReject m pr probe := by
  simp [handleAppendReject, Raft.handleAppendReject]

@[simp] theorem toOption_sendAfterAccept (peer : ℕ) (committed oldPaused : Bool) :
    (sendAfterAccept r peer committed oldPaused).toOption =
      r.sendAfterAccept peer committed oldPaused := by
  simp [sendAfterAccept, Raft.sendAfterAccept]

omit [Codec] in
@[simp] theorem toOption_maybeTimeoutNow (peer : ℕ) :
    (maybeTimeoutNow r peer).toOption = r.maybeTimeoutNow peer := by
  simp [maybeTimeoutNow, Raft.maybeTimeoutNow]

@[simp] theorem toOption_handleAppendAccept (m : Message) (pr : Progress) :
    (handleAppendAccept r m pr).toOption = r.handleAppendAccept m pr := by
  simp [handleAppendAccept, Raft.handleAppendAccept]

@[simp] theorem toOption_handleAppendResponse (m : Message) :
    (handleAppendResponse r m).toOption = r.handleAppendResponse m := by
  simp only [handleAppendResponse, Raft.handleAppendResponse, toOption_bind, toOption_traced]
  cases r.tracker.get m.sender <;> simp

omit [Codec] in
@[simp] theorem toOption_becomeLeader : (becomeLeader r).toOption = r.becomeLeader := by
  simp [becomeLeader, Raft.becomeLeader]

theorem toOption_pollWith {won : Raft σ → Except Abort (Raft σ)} {won' : Raft σ → Option (Raft σ)}
    (h : ∀ r, (won r).toOption = won' r) (sender : ℕ) (vote : Bool) :
    (pollWith won r sender vote).toOption = Raft.pollWith won' r sender vote := by
  simp only [pollWith, Raft.pollWith]
  cases (r.tracker.recordVote sender vote).countVotes.2.2 <;> simp [h]

omit [Codec] in
theorem toOption_campaignWith {poll : Raft σ → ℕ → Bool → Except Abort (Raft σ × VoteResult)}
    {poll' : Raft σ → ℕ → Bool → Option (Raft σ × VoteResult)}
    (h : ∀ r sender vote, (poll r sender vote).toOption = poll' r sender vote)
    (campaignType : CampaignType) :
    (campaignWith poll r campaignType).toOption = Raft.campaignWith poll' r campaignType := by
  simp [campaignWith, Raft.campaignWith, h]

@[simp] theorem toOption_poll (sender : ℕ) (vote : Bool) :
    (poll r sender vote).toOption = r.poll sender vote :=
  toOption_pollWith r (fun r => toOption_campaignWith r
    (fun r => toOption_pollWith r fun _ => rfl) .election) sender vote

@[simp] theorem toOption_hup (transferLeader : Bool) :
    (hup r transferLeader).toOption = r.hup transferLeader := by
  have hcampaign (campaignType : CampaignType) :
      (campaign r campaignType).toOption = r.campaign campaignType :=
    toOption_campaignWith r (fun r => toOption_poll r) campaignType
  simp [hup, Raft.hup, hcampaign]

@[simp] theorem toOption_stepCurrentTerm (m : Message) :
    (stepCurrentTerm r m).toOption = r.stepCurrentTerm m := by
  unfold stepCurrentTerm
  split
  next h =>
    obtain ⟨hpromotable, hkind | ⟨hstate, hkind⟩⟩ := h <;>
      simp [Raft.stepCurrentTerm, stepFollower, *]
  split
  next h =>
    obtain ⟨hstate, hkind⟩ | ⟨hstate, hkind⟩ := h <;>
      simp [Raft.stepCurrentTerm, stepCandidate, *]
  split
  next h => simp [Raft.stepCurrentTerm, stepLeader, h.1, h.2]
  next => exact toOption_traced _

@[simp] theorem toOption_step (m : Message) : (step r m).toOption = r.step m := by
  simp [step, Raft.step]

@[simp] theorem toOption_tick : (tick r).toOption = r.tick := by
  cases hstate : r.state <;> simp [tick, Raft.tick, hstate, tickElection, Raft.tickElection]

end Raft.Traced

/-! ## Elections -/

/-- Anything may happen but an election. -/
def Env.peaceful : Env := { Env.free fun _ => True with proper := False, elect := False }

section Conditions

variable {σ : Type} [Storage σ]

/-- A campaign makes the node a leader at once, by its own vote. -/
def Raft.ElectsItself (r : Raft σ) : Prop :=
  r.raftLog.lastIndex.isSome = true ∧
    (r.tracker.resetVotes.recordVote r.id true).countVotes.2.2 = .won

variable [Codec]

/-- `Hup` makes the node a leader at once. -/
def Raft.HupElects (r : Raft σ) : Prop :=
  r.state ≠ .leader ∧
    r.hasUnappliedConfChanges (r.raftLog.unstable.maybeFirstIndex.getD (r.raftLog.applied + 1))
      (r.raftLog.committed + 1) .transferLeader = some false ∧
    r.ElectsItself

/-- The vote in the message makes the node a leader. -/
def Raft.WinsBy (r : Raft σ) (m : Message) : Prop :=
  (r.tracker.recordVote m.sender (!m.reject)).countVotes.2.2 = .won ∧
    r.raftLog.lastIndex.isSome = true ∧ (r.state = .preCandidate → r.ElectsItself)

/-- The message, once it is handled, makes the node a leader. -/
def Raft.ElectedBy (r : Raft σ) (m : Message) : Prop :=
  Traced.Campaigns r m ∧ r.HupElects ∨ Traced.Answers r m ∧ r.WinsBy m

/-- The state in which `Step` handles a message, if it does. -/
def Raft.adopted (r : Raft σ) (m : Message) : Option (Raft σ) :=
  if m.term = 0 ∨ m.term = r.term then some r
  else if r.term < m.term ∧ r.ignoresVote m = false then r.stepHigherTerm m
  else none

/-- The tick is the election timeout, and makes the node a leader. -/
def Raft.TickElects (r : Raft σ) : Prop :=
  r.randomizedElectionTimeout ≤ r.electionElapsed + 1 ∧ r.promotable = true ∧ r.HupElects

end Conditions

namespace Raft.Traced

variable {σ : Type} [Storage σ] {r r' : Raft σ} {campaignType : CampaignType} {m : Message}
  {msgType : MessageType} {term sender : ℕ} {vote : Bool} {won : Raft σ → Except Abort (Raft σ)}

/-- What `Reset` leaves of a node. -/
theorem reset_keeps (h : r.reset term = some r') :
    r'.id = r.id ∧ r'.raftLog = r.raftLog ∧
      (r'.tracker.get r'.id = none ↔ r.tracker.get r.id = none) ∧ ∀ sender vote,
        (r'.tracker.recordVote sender vote).countVotes.2.2 =
          (r.tracker.resetVotes.recordVote sender vote).countVotes.2.2 := by
  obtain ⟨last, -, h⟩ := of_bind h
  obtain rfl := some.inj h
  refine ⟨rfl, rfl, ?_, fun _ _ => rfl⟩
  simp [ProgressTracker.get, ProgressTracker.mapProgress, ProgressTracker.resetVotes]

theorem reset_eq_none : r.reset term = none ↔ r.raftLog.lastIndex = none := by
  cases hlast : r.raftLog.lastIndex <;> simp [reset, hlast]

theorem becomeLeader_asserts_iff (hstate : r.state ≠ .follower) :
    becomeLeader r = .error .progressAt ↔
      r.tracker.get r.id = none ∧ r.raftLog.lastIndex.isSome = true := by
  rw [becomeLeader, if_neg hstate, traced_bind_progressAt_iff]
  cases hreset : r.reset r.term with
  | none => simp [reset_eq_none.mp hreset]
  | some r₁ =>
      obtain ⟨-, hlog, hself, -⟩ := reset_keeps hreset
      simp only [some.injEq, exists_eq_left', traced_bind_progressAt_iff, hlog, ← hself]
      constructor
      · rintro ⟨last, hlast, hrest⟩
        refine ⟨?_, by simp [hlast]⟩
        by_contra hsome
        refine absurd hrest (bind_ne (progressAt_ne (ne_none_iff_isSome.mp hsome)) fun _ _ =>
          bind_ne (traced_ne _) fun result _ => ?_)
        split <;> simp
      · rintro ⟨hnone, hlast⟩
        obtain ⟨last, hlast⟩ := isSome_iff_exists.mp hlast
        exact ⟨last, hlast, by simp [ProgressTracker.progressAt, hnone, Bind.bind, Except.bind]⟩

theorem becomeLeader_leader (h : r.becomeLeader = some r') :
    r'.state = .leader ∧ r.raftLog.lastIndex.isSome = true := by
  unfold Raft.becomeLeader at h
  split at h
  · cases h
  simp only [bind_eq_bind, bind_eq_some_iff] at h
  obtain ⟨r₁, hreset, last, hlast, pr, -, ⟨r₂, appended⟩, happend, h⟩ := h
  rw [(reset_keeps hreset).2.1] at hlast
  obtain ⟨rfl, -, -, log, index, -, -, rfl⟩ | ⟨rfl, -, -⟩ := appendEntry_cases happend
  · cases h
    exact ⟨rfl, by simp [hlast]⟩
  · cases h

theorem requestVotes_state (h : r.requestVotes campaignType msgType term = some r') :
    r'.state = r.state := by
  simp only [requestVotes, bind_eq_bind, bind_eq_some_iff] at h
  obtain ⟨commitInfo, -, h⟩ := h
  generalize r.tracker.conf.voters.ids.elems = ids at h
  induction ids generalizing r with
  | nil =>
      cases h
      rfl
  | cons id ids ih =>
      obtain ⟨r₁, hsend, h⟩ := of_bind h
      refine (ih h).trans ?_
      dsimp only at hsend
      split at hsend
      · cases hsend
        rfl
      · obtain ⟨index, -, hsend⟩ := of_bind hsend
        obtain ⟨logTerm, -, hsend⟩ := of_bind hsend
        rw [(send_eq hsend).1]

/-- The rest of a campaign. -/
theorem requestVotes_quiet (result : Raft σ × VoteResult) :
    (if result.2 = .won then pure result.1
      else traced (result.1.requestVotes campaignType msgType term)) ≠ .error .progressAt ∧
    ∀ r', (if result.2 = .won then pure result.1
      else traced (result.1.requestVotes campaignType msgType term)) = .ok r' →
        (r'.state = .leader ↔ result.1.state = .leader) := by
  split
  · exact ⟨pure_ne _, fun r' h => by cases h; rfl⟩
  · exact ⟨traced_ne _, fun r' h => by rw [requestVotes_state (traced_eq_ok.mp h)]⟩

theorem adopted_keeps (h : r.adopted m = some r') :
    (r'.tracker.get r'.id = none ↔ r.tracker.get r.id = none) ∧
      (r'.state = .leader → r.state = .leader) := by
  have hfollower {term leaderId : ℕ} (h : r.becomeFollower term leaderId = some r') :
      (r'.tracker.get r'.id = none ↔ r.tracker.get r.id = none) ∧
        (r'.state = .leader → r.state = .leader) := by
    obtain ⟨r₁, hreset, h⟩ := of_bind h
    obtain rfl := some.inj h
    exact ⟨(reset_keeps hreset).2.2.1, by simp⟩
  unfold adopted stepHigherTerm at h
  split_ifs at h
  · exact some.inj h ▸ ⟨.rfl, fun hleader => hleader⟩
  · exact some.inj h ▸ ⟨.rfl, fun hleader => hleader⟩
  · exact hfollower h
  · exact hfollower h

variable [Codec]

/-- Without a majority nobody is elected. -/
theorem pollWith_quiet (hstate : r.state ≠ .leader)
    (hcount : (r.tracker.recordVote sender vote).countVotes.2.2 ≠ .won) :
    ElectsIff r False (·.1.state) (pollWith won r sender vote) := by
  simp only [pollWith]
  generalize (r.tracker.recordVote sender vote).countVotes.2.2 = count at hcount ⊢
  cases count with
  | pending =>
      refine .quiet (by simp) not_false fun a ha => ?_
      cases ha
      exact hstate
  | lost =>
      refine .quiet (by simp) not_false fun a ha => ?_
      obtain ⟨r₁, hfollow, ha⟩ := of_ok ha
      obtain ⟨tracks, hcore⟩ := becomeFollower_core (traced_eq_ok.mp hfollow)
      cases ha
      simp [show r₁.state = .follower from congrArg NodeCore.state hcore]
  | won => exact absurd rfl hcount

/-- A candidate counts a vote. -/
theorem pollWith_elects (hstate : r.state = .candidate) :
    ElectsIff r (r.raftLog.lastIndex.isSome = true ∧
        (r.tracker.recordVote sender vote).countVotes.2.2 = .won) (·.1.state)
      (pollWith won r sender vote) := by
  by_cases hcount : (r.tracker.recordVote sender vote).countVotes.2.2 = .won
  swap
  · exact (pollWith_quiet (by simp [hstate]) hcount).congr .rfl (by simp [hcount])
  simp only [pollWith, hcount, and_true]
  rw [if_neg (by simp [hstate])]
  refine ⟨?_, fun a ha => ?_⟩
  · rw [bind_progressAt_iff_left (by simp)]
    exact becomeLeader_asserts_iff (by simp [hstate])
  · obtain ⟨r₁, hlead, ha⟩ := of_ok ha
    obtain ⟨hleader, hlast⟩ := becomeLeader_leader
      ((toOption_becomeLeader _).symm.trans (toOption_eq_some.mpr hlead))
    obtain ⟨r₂, hbroadcast, ha⟩ := of_ok ha
    cases ha
    have hrun : LeaderRun Env.peaceful r₁ r₂ :=
      broadcastAppend_run hleader (traced_eq_ok.mp hbroadcast)
    exact iff_of_true hrun.state hlast

/-- A new candidate votes for itself. -/
theorem campaignWith_elects (hstate : r.state ≠ .leader) (htype : campaignType ≠ .preElection) :
    ElectsIff r r.ElectsItself Raft.state (campaignWith (pollWith won) r campaignType) := by
  rw [campaignWith, if_neg htype, becomeCandidate, if_neg hstate]
  cases hreset : r.reset (r.term + 1) with
  | none =>
      refine .quiet ?_ (by simp [ElectsItself, reset_eq_none.mp hreset]) fun a ha => ?_
      · simp [traced, Bind.bind, Except.bind]
      · cases ha
  | some r₁ =>
      obtain ⟨hid, hlog, hself, hcount⟩ := reset_keeps hreset
      refine ((pollWith_elects rfl).bind requestVotes_quiet).congr hself ?_
      rw [hlog, hcount, hid, ElectsItself]

/-- A pre-candidate counts a vote. -/
theorem poll_elects (hstate : r.state = .preCandidate) :
    ElectsIff r ((r.tracker.recordVote sender vote).countVotes.2.2 = .won ∧ r.ElectsItself)
      (·.1.state) (poll r sender vote) := by
  by_cases hcount : (r.tracker.recordVote sender vote).countVotes.2.2 = .won
  swap
  · exact (pollWith_quiet (by simp [hstate]) hcount).congr .rfl (by simp [hcount])
  simp only [poll, pollWith, hcount, true_and]
  rw [if_pos hstate]
  exact (campaignWith_elects (by simp [hstate]) (by simp)).bind fun r₁ =>
    ⟨by simp, fun a ha => by cases ha; rfl⟩

theorem campaign_elects (hstate : r.state ≠ .leader) :
    ElectsIff r r.ElectsItself Raft.state (campaign r campaignType) := by
  by_cases htype : campaignType = .preElection
  · subst htype
    rw [campaign, campaignWith, if_pos rfl, becomePreCandidate, if_neg hstate]
    refine ((poll_elects rfl).bind requestVotes_quiet).congr .rfl ?_
    exact and_iff_right_of_imp And.right
  · exact campaignWith_elects hstate htype

theorem hup_elects {transferLeader : Bool} (hstate : r.state ≠ .leader) :
    ElectsIff r r.HupElects Raft.state (hup r transferLeader) := by
  have hcampaign : ElectsIff r r.ElectsItself Raft.state
      (if transferLeader then campaign r .transfer
      else if r.preVote then campaign r .preElection else campaign r .election) := by
    split
    · exact campaign_elects hstate
    · split <;> exact campaign_elects hstate
  simp only [hup, if_neg hstate, HupElects]
  rcases r.hasUnappliedConfChanges _ _ _ with _ | _ | _
  · refine .quiet (by simp [traced, Bind.bind, Except.bind]) (by simp) fun a ha => ?_
    cases ha
  · exact hcampaign.congr .rfl (by simp [hstate])
  · refine .quiet (by simp [traced, Bind.bind, Except.bind]) (by simp) fun a ha => ?_
    cases ha
    exact hstate

/-- Other messages elect nobody. -/
theorem stepCurrentTerm_quiet {m : Message} {result : Result Unit} (hstate : r.state ≠ .leader)
    (hquiet : ¬Campaigns r m) (hsilent : ¬Answers r m)
    (h : r.stepCurrentTerm m = some (r', result)) : r'.state ≠ .leader := by
  intro hleader
  refine hstate ?_
  -- what can start no election runs in an environment without one
  cases helects : m.msgType.elects with
  | false =>
      have hm : Handled Env.peaceful r m :=
        ⟨fun _ => ⟨trivial, False.elim, False.elim⟩, False.elim, False.elim,
          ⟨fun _ => trivial, fun _ _ _ _ _ => trivial⟩, by simp [helects], fun _ _ _ => trivial⟩
      exact (stepCurrentTerm_steps hm h).leader_before not_false hleader
  | true =>
      -- the rest is for a role that the node does not have
      have hsame : r' = r := by
        unfold MessageType.elects at helects
        cases hrole : r.state <;> cases hkind : m.msgType <;>
          simp_all [Raft.stepCurrentTerm, stepFollower, stepCandidate, Campaigns, Answers]
      exact hsame ▸ hleader

theorem maybeCommitByVote_leader_iff (h : r.maybeCommitByVote m = some r') :
    r'.state = .leader ↔ r.state = .leader := by
  have hsteps : Steps Env.peaceful r.core r'.core := maybeCommitByVote_steps h
  refine ⟨hsteps.leader_before not_false, fun hleader => ?_⟩
  simp only [maybeCommitByVote, hleader, or_true, if_true, ite_self, some.injEq] at h
  rw [← h, hleader]

/-- A message to a node that is no leader. -/
theorem stepCurrentTerm_elects (hstate : r.state ≠ .leader) :
    ElectsIff r (r.ElectedBy m) (·.1.state) (stepCurrentTerm r m) := by
  unfold stepCurrentTerm ElectedBy
  split
  next hcampaigns =>
    have hanswers : ¬Answers r m := by
      obtain ⟨-, hkind | ⟨-, hkind⟩⟩ := hcampaigns <;> simp [Answers, hkind]
    refine ((hup_elects hstate).bind fun r₁ => ⟨by simp, fun a ha => ?_⟩).congr .rfl
      (by simp [hcampaigns, hanswers])
    cases ha
    rfl
  next hquiet =>
    split
    next hanswers =>
      have hpoll : ElectsIff r (r.WinsBy m) (·.1.state) (poll r m.sender (!m.reject)) := by
        unfold WinsBy
        obtain ⟨hrole, -⟩ | ⟨hrole, -⟩ := hanswers
        · exact (poll_elects hrole).congr .rfl (by simp [hrole, ElectsItself])
        · exact (pollWith_elects hrole).congr .rfl (by simp [hrole, and_comm])
      refine (hpoll.bind fun p => ⟨by simp, fun a ha => ?_⟩).congr .rfl (by simp [hquiet, hanswers])
      obtain ⟨r₁, hcommit, ha⟩ := of_ok ha
      cases ha
      exact maybeCommitByVote_leader_iff (traced_eq_ok.mp hcommit)
    next hsilent =>
      rw [if_neg fun hack => hstate hack.1]
      exact .quiet (traced_ne _) (by simp [hquiet, hsilent]) fun a ha =>
        stepCurrentTerm_quiet hstate hquiet hsilent (traced_eq_ok.mp ha)

/-- `Step` handles a message in the state that it adopts, or elects nobody. -/
theorem step_eq (r : Raft σ) (m : Message) :
    (∃ r₁, r.adopted m = some r₁ ∧ step r m = stepCurrentTerm r₁ m) ∨
      r.adopted m = none ∧ step r m ≠ .error .progressAt ∧
        ∀ a, step r m = .ok a → a.1.state = r.state := by
  unfold adopted step
  by_cases hcurrent : m.term = 0 ∨ m.term = r.term
  · refine Or.inl ⟨r, if_pos hcurrent, ?_⟩
    split_ifs <;> first | rfl | omega
  rw [if_neg hcurrent, if_neg fun hzero => hcurrent (Or.inl hzero)]
  by_cases hlt : m.term > r.term
  · rw [if_pos hlt]
    cases r.ignoresVote m with
    | true => exact Or.inr ⟨by simp, by simp, fun a ha => by cases ha; rfl⟩
    | false =>
        rw [if_pos ⟨hlt, rfl⟩, if_neg (by simp)]
        cases r.stepHigherTerm m with
        | none =>
            refine Or.inr ⟨rfl, by simp [traced, Bind.bind, Except.bind], fun a ha => ?_⟩
            cases ha
        | some r₁ => exact Or.inl ⟨r₁, rfl, rfl⟩
  · rw [if_neg hlt, if_neg fun h => hlt h.1, if_pos (by omega)]
    refine Or.inr ⟨rfl, bind_ne (traced_ne _) (by simp), fun a ha => ?_⟩
    obtain ⟨r₁, hlower, ha⟩ := of_ok ha
    cases ha
    rw [traced_eq_ok, stepLowerTerm] at hlower
    split_ifs at hlower
    · rw [(send_eq hlower).1]
    · rw [(send_eq hlower).1]
    · rw [some.inj hlower]

theorem tickBeat_leader_iff {before after : Bool} (h : r.tickBeat before = some (r', after)) :
    r'.state = .leader ↔ r.state = .leader := by
  have hsteps : Steps Env.peaceful r.core r'.core := tickBeat_steps h
  refine ⟨hsteps.leader_before not_false, fun hleader => ?_⟩
  rw [tickBeat, if_neg (by simp [hleader])] at h
  split at h
  · obtain ⟨⟨r₁, result⟩, hstep, h⟩ := of_bind h
    cases h
    simp only [Raft.step, Raft.stepCurrentTerm, hleader, stepLeader, if_true] at hstep
    have hrun : LeaderRun Env.peaceful _ r' := broadcastHeartbeat_run rfl (of_bind_pair hstep)
    exact hrun.state
  · cases h
    exact hleader

theorem tickElection_elects (hstate : r.state ≠ .leader) :
    ElectsIff r r.TickElects (·.1.state) (tickElection r) := by
  simp only [tickElection, TickElects]
  split
  next htimeout =>
    rw [step, if_pos rfl]
    have hstep := stepCurrentTerm_elects (m := { msgType := .msgHup, sender := r.id })
      (show ({ r with heartbeatElapsed := r.heartbeatElapsed + 1, electionElapsed := 0 } :
        Raft σ).state ≠ .leader from hstate)
    refine (hstep.bind fun p =>
      ⟨traced_ne _, fun a ha => tickBeat_leader_iff (traced_eq_ok.mp ha)⟩).congr .rfl ?_
    simp only [ElectedBy, Campaigns, Answers, reduceCtorEq, and_false, false_and, or_false,
      and_true, show r.randomizedElectionTimeout ≤ r.electionElapsed + 1 from htimeout, true_and]
    rfl
  next hearly =>
    refine .quiet (traced_ne _) (fun h => hearly h.1) fun a ha => ?_
    rw [Ne, tickBeat_leader_iff (traced_eq_ok.mp ha)]
    exact hstate

theorem step_leader_iff {result : Result Unit} (hstate : r.state ≠ .leader)
    (h : r.step m = some (r', result)) :
    r'.state = .leader ↔ ∃ r₁, r.adopted m = some r₁ ∧ r₁.ElectedBy m := by
  rw [← toOption_step, toOption_eq_some] at h
  rcases step_eq r m with ⟨r₁, hadopted, hstep⟩ | ⟨hadopted, -, hkept⟩
  · simp only [hadopted, some.injEq, exists_eq_left']
    exact (stepCurrentTerm_elects (mt (adopted_keeps hadopted).2 hstate)).leader _ (hstep ▸ h)
  · refine iff_of_false ?_ (by simp [hadopted])
    rwa [show r'.state = r.state from hkept _ h]

end Raft.Traced

namespace RawNode

variable {σ : Type} [Storage σ] [Codec] {n n' : RawNode σ}

/-- The input makes the node a leader: what has to hold before the call. -/
def elected (n : RawNode σ) : Input → Prop
  | .step m =>
      n.raft.state ≠ .leader ∧ isLocalMessage m.msgType = false ∧
        ((n.raft.tracker.get m.sender).isSome = true ∨ isResponseMessage m.msgType = false) ∧
        ∃ r, n.raft.adopted m = some r ∧ r.ElectedBy m
  | .tick => n.raft.TickElects
  | .campaign => n.raft.promotable = true ∧ n.raft.HupElects
  | _ => False

instance (n : RawNode σ) (call : Input) : Decidable (n.elected call) := by
  unfold elected Raft.TickElects Raft.ElectedBy Raft.HupElects Raft.WinsBy Raft.ElectsItself
  cases call <;> infer_instance

/-- These are the inputs that make the node a leader. -/
theorem elected_iff {call : Input} (h : n.input call = some n') :
    n.elected call ↔ n.raft.state ≠ .leader ∧ n'.raft.state = .leader := by
  by_cases hstate : n.raft.state = .leader
  · cases call <;> simp [elected, hstate, Raft.HupElects, Raft.TickElects]
  have hquiet (hcall : call.elects = false) : n'.raft.state ≠ .leader := by
    obtain ⟨raft, hsteps, rfl⟩ : ∃ raft : Raft σ, Steps Env.peaceful n.raft.core raft.core ∧
        n' = { n with raft } :=
      input_eq h (fun _ _ _ => ⟨trivial, False.elim, False.elim⟩)
        (fun _ _ => ⟨fun _ => trivial, fun _ _ _ _ _ => trivial⟩) (by simp [hcall])
        (fun _ => trivial) fun _ _ => trivial
    exact fun hleader => hstate (hsteps.leader_before not_false hleader)
  rw [and_iff_right hstate]
  cases call with
  | step m =>
      simp only [elected, input, step, and_iff_right hstate] at h ⊢
      split at h
      next hlocal =>
        cases h
        simp [hlocal, hstate]
      next hremote =>
        split at h
        next hknown =>
          obtain ⟨raft, result, hcall, rfl⟩ := of_withRaft h
          rw [Raft.Traced.step_leader_iff hstate hcall, and_iff_right (by simpa using hremote),
            and_iff_right hknown]
        next hunknown =>
          cases h
          simp [hunknown, hstate]
  | tick =>
      obtain ⟨raft, result, hcall, rfl⟩ := of_withRaft h
      have htick : Raft.Traced.tick n.raft = Raft.Traced.tickElection n.raft := by
        unfold Raft.Traced.tick
        split
        next hleader => exact absurd hleader hstate
        · rfl
      rw [← Raft.Traced.toOption_tick, toOption_eq_some, htick] at hcall
      exact ((Raft.Traced.tickElection_elects hstate).leader _ hcall).symm
  | campaign =>
      obtain ⟨raft, result, hcall, rfl⟩ := of_withRaft h
      rw [Raft.Traced.step_leader_iff hstate hcall]
      simp [elected, Raft.adopted, Raft.ElectedBy, Raft.Traced.Campaigns, Raft.Traced.Answers]
  | _ => exact iff_of_false id (hquiet rfl)

end RawNode

end Raftpp
