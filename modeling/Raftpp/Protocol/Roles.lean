import Raftpp.Protocol.LogFrame
import Raftpp.Protocol.Sends

/-!
# Role changes and elections refine to elementary steps

Heartbeats and read answers, `Reset` and the `Become` functions, appending and
committing of a leader, and campaigning.
-/

namespace Raftpp

open Option ListMap Progress

namespace Raft

variable {σ : Type} [Storage σ] [Codec] {env : Env} {r r' : Raft σ}

variable {appended : Bool} {campaignType : CampaignType} {entries : List Entry} {v term : ℕ}

/-! ## Heartbeats and reads -/

theorem broadcastHeartbeatWith_run {ctx : Option Bytes} (hstate : r.state = .leader)
    (h : r.broadcastHeartbeatWith ctx = some r') : LeaderRun env r r' := by
  refine LeaderRun.foldlM (fun r r' id hstate h => ?_) _ hstate h
  split at h
  · exact .of_some hstate h
  · obtain ⟨pr, -, h⟩ := of_bind h
    exact send_leaderRun hstate h (.heartbeat rfl hstate rfl)

theorem broadcastHeartbeat_run (hstate : r.state = .leader) (h : r.broadcastHeartbeat = some r') :
    LeaderRun env r r' :=
  broadcastHeartbeatWith_run hstate h

theorem respondRead_run {req : Message} {index : ℕ} (hstate : r.state = .leader)
    (h : r.respondRead req index = some r') : LeaderRun env r r' := by
  unfold respondRead handleReadyReadIndex at h
  split at h
  next r₁ hread =>
    split at hread
    · obtain ⟨rfl, -⟩ := by simpa using hread
      cases h
      exact ⟨.refl, hstate, rfl⟩
    · simp at hread
  next r₁ m hread =>
    split at hread
    · simp at hread
    · simp only [Prod.mk.injEq, some.injEq] at hread
      obtain ⟨rfl, rfl⟩ := hread
      exact send_leaderRun hstate h (.answerRead rfl hstate rfl)

theorem advanceReads_run {ctx : Bytes} (hstate : r.state = .leader)
    (h : r.advanceReads ctx = some r') : LeaderRun env r r' := by
  simp only [advanceReads, bind_eq_bind, bind_eq_some_iff] at h
  obtain ⟨⟨ro, statuses⟩, -, h⟩ := h
  have hrun : LeaderRun env { r with readOnly := ro } r' :=
    .foldlM (fun _ _ _ hstate h => respondRead_run hstate h) _ (by exact hstate) h
  exact ⟨hrun.steps, hrun.state, hrun.term⟩

theorem confirmReads_run {id : ℕ} {ctx : Bytes} (hstate : r.state = .leader)
    (h : r.confirmReads id ctx = some r') : LeaderRun env r r' := by
  have hacked : LeaderRun env r { r with readOnly := (r.readOnly.recvAck id ctx).1 } :=
    ⟨.refl, hstate, rfl⟩
  unfold confirmReads at h
  simp only at h
  split at h
  next acks hacks =>
    split at h
    · exact hacked.trans (advanceReads_run hstate h)
    · cases h
      exact hacked
  · cases h
    exact hacked

/-! ## Role changes -/

omit [Storage σ] [Codec] in
theorem matched_resetProgress (last id : ℕ) (pr : Progress) :
    (r.resetProgress last id pr).matched = if id = r.id then r.raftLog.persisted else 0 := by
  unfold resetProgress
  split <;> rfl

omit [Codec] in
theorem reset_core (h : r.reset term = some r') :
    ∃ last, r.raftLog.lastIndex = some last ∧
      r'.core =
        { r.core with
          term, vote := if term = r.term then r.vote else kInvalidId, votes := []
          tracks := fun id =>
            ((r.tracker.get id).map (r.resetProgress last id)).map matched
          pendingConf := 0 } := by
  simp only [reset, bind_eq_bind, bind_eq_some_iff, some.injEq] at h
  obtain ⟨last, hlast, rfl⟩ := h
  refine ⟨last, hlast, ?_⟩
  have hvote : (if r.term ≠ term then kInvalidId else r.vote) =
      if term = r.term then r.vote else kInvalidId := by
    by_cases hterm : r.term = term
    · simp [hterm]
    · simp [hterm, Ne.symm hterm]
  simp [core, hvote, ProgressTracker.resetVotes, ProgressTracker.mapProgress, ProgressTracker.get]

omit [Codec] in
theorem becomeFollower_core {leader : ℕ} (h : r.becomeFollower term leader = some r') :
    ∃ tracks, r'.core =
      { r.core with
        term, vote := if term = r.term then r.vote else kInvalidId, state := .follower
        votes := [], tracks, pendingConf := 0
        log := { r.raftLog with maxApplyUnpersistedLogLimit := 0 } } := by
  simp only [becomeFollower, bind_eq_bind, bind_eq_some_iff, some.injEq] at h
  obtain ⟨r₁, hreset, rfl⟩ := h
  obtain ⟨last, -, hcore⟩ := reset_core hreset
  have hlog : r₁.raftLog = r.raftLog := congrArg NodeCore.log hcore
  refine ⟨fun id => ((r.tracker.get id).map (r.resetProgress last id)).map matched, ?_⟩
  have hsplit : ({ r₁ with
      leaderId := leader, state := .follower
      pendingRequestSnapshot := r.pendingRequestSnapshot
      raftLog := { r₁.raftLog with maxApplyUnpersistedLogLimit := 0 } } : Raft σ).core =
      { r₁.core with
        state := .follower, log := { r₁.raftLog with maxApplyUnpersistedLogLimit := 0 } } := rfl
  rw [hsplit, hcore, hlog]

theorem becomeFollower_steps {leader : ℕ} (hterm : env.proper → r.term ≤ term)
    (h : r.becomeFollower term leader = some r') :
    Steps env r.core r'.core ∧ r'.state = .follower ∧ r'.term = term ∧ r'.id = r.id := by
  obtain ⟨tracks, hcore⟩ := becomeFollower_core h
  have hsame : RaftLog.Same r.raftLog { r.raftLog with maxApplyUnpersistedLogLimit := 0 } :=
    ⟨⟨rfl, rfl, rfl, rfl⟩, le_rfl, Nat.zero_le _⟩
  refine ⟨.single ?_, congrArg NodeCore.state hcore, congrArg NodeCore.term hcore,
    congrArg NodeCore.id hcore⟩
  rw [hcore]
  exact .follow r.core term tracks _ hterm hsame

theorem becomePreCandidate_steps (helect : env.elect) (hvoter : r.promotable = true)
    (hclear : r.raftLog.CommittedClear) (h : r.becomePreCandidate = some r') :
    Steps env r.core r'.core ∧ r'.state = .preCandidate ∧ r'.tracker.votes = [] := by
  unfold becomePreCandidate at h
  split at h
  · cases h
  · cases h
    exact ⟨.single (.preCampaign r.core helect hvoter hclear), rfl, rfl⟩

theorem becomeCandidate_steps (helect : env.elect)
    (hvoter : (r.promotable = true ∧ r.raftLog.CommittedClear ∧
        (r.preVote = true → env.transfer)) ∨
      (r.state = .preCandidate ∧
        r.tracker.conf.voters.getVoteResult (ListMap.get r.tracker.votes) = .won))
    (h : r.becomeCandidate = some r') :
    Steps env r.core r'.core ∧ r'.state = .candidate ∧ r'.tracker.votes = [] ∧
      r'.id = r.id := by
  unfold becomeCandidate at h
  split at h
  · cases h
  · simp only [bind_eq_bind, bind_eq_some_iff, some.injEq] at h
    obtain ⟨r₁, hreset, rfl⟩ := h
    obtain ⟨last, -, hcore⟩ := reset_core hreset
    have hid : r₁.id = r.id := congrArg NodeCore.id hcore
    have hconf : r₁.tracker.conf = r.tracker.conf := congrArg NodeCore.conf hcore
    have hvotes : r₁.tracker.votes = [] := congrArg NodeCore.votes hcore
    refine ⟨.single ?_, rfl, hvotes, hid⟩
    have hsplit : ({ r₁ with
        vote := r₁.id, state := .candidate
        promotable := r₁.tracker.conf.voters.contains r₁.id } : Raft σ).core =
        { r₁.core with
          vote := r₁.id, state := .candidate
          promotable := r₁.tracker.conf.voters.contains r₁.id } := rfl
    rw [hsplit, hcore, hid, hconf]
    exact .campaign r.core _ helect hvoter

/-! ## Appending and committing -/

omit [Codec] in
/-- Entries are appended if there is room for them; otherwise nothing changes. -/
theorem appendEntry_cases (h : r.appendEntry entries = some (r', appended)) :
    (appended = true ∧ (r.uncommittedState.maybeIncreaseUncommittedSize entries).2 = true ∧
      ∃ last log index, r.raftLog.lastIndex = some last ∧
        r.raftLog.append (numberEntries r.term (last + 1) entries) = some (log, index) ∧
        r' = { r with
          uncommittedState := (r.uncommittedState.maybeIncreaseUncommittedSize entries).1
          raftLog := log }) ∨
      (appended = false ∧ (r.uncommittedState.maybeIncreaseUncommittedSize entries).2 = false ∧
        r' = r) := by
  simp only [appendEntry] at h
  split at h
  next hroom =>
    obtain ⟨last, hlast, h⟩ := of_bind h
    obtain ⟨⟨log, index⟩, happend, h⟩ := of_bind h
    cases h
    exact Or.inl ⟨rfl, hroom, last, log, index, hlast, happend, rfl⟩
  next hroom =>
    cases h
    exact Or.inr ⟨rfl, by simpa using hroom, rfl⟩

/-- A leader appends entries, together with the index of the pending configuration change that
goes with them. -/
theorem appendEntry_run {last pendingConf : ℕ} (hstate : r.state = .leader)
    (hlast : r.raftLog.lastIndex = some last) (hconf : appended = true →
      ConfProposal r.pendingConfIndex r.raftLog.applied last entries pendingConf)
    (hentries : ∀ e ∈ entries, env.propose e) (h : r.appendEntry entries = some (r', appended)) :
    LeaderRun env r { r' with
      pendingConfIndex := if appended then pendingConf else r'.pendingConfIndex } := by
  obtain ⟨rfl, hroom, last', log, index, hlast', happend, rfl⟩ | ⟨rfl, -, rfl⟩ :=
    appendEntry_cases h
  · obtain rfl : last' = last := some.inj (hlast'.symm.trans hlast)
    exact .single (.propose r.core last' entries log index pendingConf hstate hlast' happend
      (hconf rfl) hentries hroom) hstate
  · exact .refl hstate

omit [Codec] in
theorem appendEntry_pendingConf (h : r.appendEntry entries = some (r', appended)) :
    r'.pendingConfIndex = r.pendingConfIndex := by
  obtain ⟨-, -, last, log, index, -, -, rfl⟩ | ⟨-, -, rfl⟩ := appendEntry_cases h
  · rfl
  · rfl

omit [Storage σ] [Codec] in
/-- A change of one peer's progress that acknowledges nothing does not show in the core. -/
theorem modify_core {id : ℕ} {f : Progress → Progress} (hf : ∀ pr, (f pr).matched = pr.matched) :
    ({ r with tracker := r.tracker.modify id f } : Raft σ).core = r.core := by
  have htracks : (fun v => ((r.tracker.modify id f).get v).map matched) =
      r.core.tracks := by
    funext v
    simp only [ProgressTracker.modify, ProgressTracker.get, get_modify, core]
    split
    · cases ListMap.get r.tracker.progress v <;> simp [hf]
    · rfl
  have hsplit : ({ r with tracker := r.tracker.modify id f } : Raft σ).core =
      { r.core with tracks := fun v => ((r.tracker.modify id f).get v).map matched } := rfl
  rw [hsplit, htracks]

theorem maybeCommit_run {committed : Bool} (hstate : r.state = .leader)
    (h : r.maybeCommit = some (r', committed)) : LeaderRun env r r' := by
  simp only [maybeCommit, bind_eq_bind, bind_eq_some_iff] at h
  obtain ⟨⟨log, committed'⟩, hcommit, h⟩ := h
  cases committed' with
  | false =>
      obtain ⟨rfl, -⟩ := by simpa using h
      exact .refl hstate
  | true =>
      simp only [if_true, bind_eq_some_iff] at h
      obtain ⟨pr, -, h⟩ := h
      obtain ⟨rfl, -⟩ := by simpa using h
      have hmicro : Micro env r.core ({ r with raftLog := log } : Raft σ).core :=
        .commitByQuorum r.core _ log true hstate hcommit
      have hcore := @modify_core σ { r with raftLog := log } r.id _
        fun pr => matched_updateCommitted pr log.committed
      refine .single ?_ hstate
      rw [← hcore] at hmicro
      exact hmicro

omit [Storage σ] [Codec] in
/-- The tracks of a new leader. -/
theorem tracks_leaderState {r₁ : Raft σ} {last t : ℕ} (hid : r₁.id = r.id)
    (htracks : ∀ v, (r₁.tracker.get v).map matched =
      ((r.tracker.get v).map (r.resetProgress last v)).map matched)
    (ht : ((r₁.leaderState last).tracker.get v).map matched = some t) :
    t = if v = r.id then r.raftLog.persisted else 0 := by
  have hsame : ((r₁.leaderState last).tracker.get v).map matched =
      (r₁.tracker.get v).map matched := by
    simp only [leaderState, ProgressTracker.modify, ProgressTracker.get, hid, get_modify]
    split
    · rw [map_map]
      rfl
    · rfl
  rw [hsame, htracks, map_map] at ht
  obtain ⟨pr, -, rfl⟩ := map_eq_some_iff.mp ht
  exact matched_resetProgress last v pr

theorem becomeLeader_run (helect : env.elect) (hstate : r.state = .candidate)
    (hwon : r.tracker.getVoteResult r.tracker.votes = .won) (h : r.becomeLeader = some r') :
    LeaderRun env r r' := by
  unfold becomeLeader at h
  split at h
  · cases h
  simp only [bind_eq_bind, bind_eq_some_iff] at h
  obtain ⟨r₁, hreset, last, hlast, pr, -, ⟨r₂, appended⟩, happend, h⟩ := h
  obtain ⟨last', hlast', hcore⟩ := reset_core hreset
  have hlog : r₁.raftLog = r.raftLog := congrArg NodeCore.log hcore
  have hid : r₁.id = r.id := congrArg NodeCore.id hcore
  have hterm : r₁.term = r.term := congrArg NodeCore.term hcore
  obtain rfl : last' = last := by
    rw [hlog, hlast'] at hlast
    exact some.inj hlast
  obtain ⟨rfl, -, last, log, index, hlast₂, hentries, rfl⟩ | ⟨rfl, -, -⟩ :=
    appendEntry_cases happend
  · cases h
    have hlast₂ : r₁.raftLog.lastIndex = some last := hlast₂
    obtain rfl : last = last' := by
      rw [hlog, hlast'] at hlast₂
      exact (some.inj hlast₂).symm
    have hentries : r₁.raftLog.append (numberEntries r₁.term (last + 1) [{}]) =
        some (log, index) := hentries
    rw [hlog, hterm] at hentries
    refine .single ?_ rfl
    have hsize : ((r₁.leaderState last).uncommittedState.maybeIncreaseUncommittedSize [{}]).1 =
        (r₁.leaderState last).uncommittedState := by
      simp [UncommittedState.maybeIncreaseUncommittedSize, leaderState]
    have hsplit : ({ r₁.leaderState last with
        uncommittedState :=
          ((r₁.leaderState last).uncommittedState.maybeIncreaseUncommittedSize [{}]).1
        raftLog := log } : Raft σ).core =
        { r₁.core with
          state := .leader, pendingConf := last, log
          tracks := fun v => ((r₁.leaderState last).tracker.get v).map matched
          uncommitted :=
            { r₁.core.uncommitted with uncommittedSize := 0, lastLogTailIndex := last } } := by
      rw [hsize]
      rfl
    rw [hsplit, hcore]
    simp only [if_pos]
    exact .win r.core last index log _ helect hstate hwon hlast' hentries
      fun v t ht => tracks_leaderState hid (fun v => congrFun (congrArg NodeCore.tracks hcore) v) ht
  · simp at h

/-! ## Campaigning -/

theorem pollWith_steps {preVoteWon : Raft σ → Option (Raft σ)} {granted : Bool}
    {result : VoteResult} (helect : env.elect) (hpre : ∀ r r' : Raft σ, r.state = .preCandidate →
      r.tracker.conf.voters.getVoteResult (ListMap.get r.tracker.votes) = .won →
      preVoteWon r = some r' → Steps env r.core r'.core)
    (hstate : r.state = .candidate ∨ r.state = .preCandidate)
    (hgrant : granted = true → Counted env r.core v)
    (h : pollWith preVoteWon r v granted = some (r', result)) :
    Steps env r.core r'.core ∧
      (result = .pending → r' = { r with tracker := r.tracker.recordVote v granted }) ∧
      result = r.tracker.getVoteResult (emplace r.tracker.votes v granted) := by
  have hpoll :
      Steps env r.core ({ r with tracker := r.tracker.recordVote v granted } : Raft σ).core :=
    .single (.poll r.core v granted hgrant)
  unfold pollWith at h
  simp only [bind_eq_bind] at h
  split at h
  next hresult =>
    cases h
    exact ⟨hpoll, fun _ => rfl, rfl⟩
  next hresult =>
    simp only [bind_eq_some_iff, some.injEq, Prod.mk.injEq] at h
    obtain ⟨r₁, hfollow, rfl, rfl⟩ := h
    exact ⟨hpoll.trans (becomeFollower_steps (fun _ => le_rfl) hfollow).1,
      fun hpending => absurd (hresult.symm.trans hpending) (by simp), rfl⟩
  next hresult =>
    have hnot : ∀ {result : VoteResult}, result = .won → result = .pending →
        r' = { r with tracker := r.tracker.recordVote v granted } := by
      rintro _ rfl hpending
      cases hpending
    split at h
    next hprestate =>
      simp only [bind_eq_some_iff, some.injEq, Prod.mk.injEq] at h
      obtain ⟨r₁, hwon, rfl, rfl⟩ := h
      exact ⟨hpoll.trans (hpre _ _ hprestate hresult hwon), hnot hresult, rfl⟩
    next hprestate =>
      simp only [bind_eq_some_iff, some.injEq, Prod.mk.injEq] at h
      obtain ⟨r₁, hleader, r₂, hbroadcast, rfl, rfl⟩ := h
      have hrun : LeaderRun env { r with tracker := r.tracker.recordVote v granted } r₁ :=
        becomeLeader_run helect (hstate.resolve_right hprestate) hresult hleader
      exact ⟨(hpoll.trans hrun.steps).trans (broadcastAppend_run hrun.state hbroadcast).steps,
        hnot hresult, rfl⟩

omit [Storage σ] [Codec] in
/-- The only vote of a new candidacy is the node's own, so polling it does not lose. -/
theorem getVoteResult_own_ne_lost {t : ProgressTracker} (hvotes : t.votes = []) :
    t.getVoteResult (emplace t.votes v true) ≠ .lost := by
  rw [hvotes]
  refine JointConfiguration.getVoteResult_ne_lost fun w => ?_
  simp only [get_emplace]
  split <;> simp [ListMap.get]

theorem requestVotes_steps {msgType : MessageType}
    (hkind : (msgType = .msgRequestVote ∧ r.state = .candidate ∧ term = r.term) ∨
      (msgType = .msgRequestPreVote ∧ term = r.term + 1))
    (h : r.requestVotes campaignType msgType term = some r') : Steps env r.core r'.core := by
  simp only [requestVotes, bind_eq_bind, bind_eq_some_iff] at h
  obtain ⟨commitInfo, -, h⟩ := h
  refine (steps_foldlM (I := fun r₁ => r₁.state = r.state ∧ r₁.term = r.term) ?_ _ ⟨rfl, rfl⟩ h).1
  rintro r₁ r₂ id ⟨hstate, hterm⟩ h
  split at h
  · cases h
    exact ⟨.refl, hstate, hterm⟩
  · obtain ⟨index, -, h⟩ := of_bind h
    obtain ⟨logTerm, -, h⟩ := of_bind h
    refine ⟨send_steps h ?_, ?_⟩
    · rcases hkind with ⟨rfl, hcandidate, rfl⟩ | ⟨rfl, rfl⟩
      · exact .requestVote rfl (hstate.trans hcandidate) rfl hterm.symm
      · exact .requestPreVote rfl rfl (by rw [core_term, hterm]; rfl)
    · rw [(send_eq h).1]
      exact ⟨hstate, hterm⟩

theorem campaignWith_steps {poll : Raft σ → ℕ → Bool → Option (Raft σ × VoteResult)}
    (helect : env.elect)
    (hpoll : ∀ (r r' : Raft σ) result, r.state = .candidate ∨ r.state = .preCandidate →
      poll r r.id true = some (r', result) →
      Steps env r.core r'.core ∧
      (result = .pending → r' = { r with tracker := r.tracker.recordVote r.id true }) ∧
      result = r.tracker.getVoteResult (emplace r.tracker.votes r.id true))
    (hvoter : (r.promotable = true ∧ r.raftLog.CommittedClear ∧
      (campaignType ≠ .preElection → r.preVote = true → env.transfer)) ∨
      (r.state = .preCandidate ∧
      r.tracker.conf.voters.getVoteResult (ListMap.get r.tracker.votes) = .won ∧
      campaignType ≠ .preElection)) (h : campaignWith poll r campaignType = some r') :
    Steps env r.core r'.core := by
  unfold campaignWith at h
  simp only [bind_eq_bind] at h
  split at h
  next htype =>
    obtain ⟨r₁, hpre, h⟩ := of_bind h
    obtain ⟨⟨r₂, result⟩, hpolled, h⟩ := of_bind h
    obtain ⟨hpromotable, hclear, -⟩ := hvoter.resolve_right fun hother => hother.2.2 htype
    obtain ⟨hsteps, hstate, hvotes⟩ :=
      @becomePreCandidate_steps σ _ _ env r r₁ helect hpromotable hclear hpre
    obtain ⟨hsteps', hpending, hresult⟩ := hpoll r₁ r₂ result (Or.inr hstate) hpolled
    split at h
    · cases h
      exact hsteps.trans hsteps'
    next hwon =>
      have hlost : result ≠ .lost := hresult ▸ getVoteResult_own_ne_lost hvotes
      have hr₂ := hpending (by cases result <;> simp_all)
      subst hr₂
      exact (hsteps.trans hsteps').trans (requestVotes_steps (Or.inr ⟨rfl, rfl⟩) h)
  next htype =>
    obtain ⟨r₁, hcandidate, h⟩ := of_bind h
    obtain ⟨⟨r₂, result⟩, hpolled, h⟩ := of_bind h
    obtain ⟨hsteps, hstate, hvotes, -⟩ :=
      @becomeCandidate_steps σ _ _ env r r₁ helect
        (hvoter.imp (fun hvoter => ⟨hvoter.1, hvoter.2.1, hvoter.2.2 htype⟩)
          fun hvoter => ⟨hvoter.1, hvoter.2.1⟩) hcandidate
    obtain ⟨hsteps', hpending, hresult⟩ := hpoll r₁ r₂ result (Or.inl hstate) hpolled
    split at h
    · cases h
      exact hsteps.trans hsteps'
    next hwon =>
      have hlost : result ≠ .lost := hresult ▸ getVoteResult_own_ne_lost hvotes
      have hr₂ := hpending (by cases result <;> simp_all)
      subst hr₂
      exact (hsteps.trans hsteps').trans (requestVotes_steps (Or.inl ⟨rfl, hstate, rfl⟩) h)

theorem campaignElection_steps (helect : env.elect) (hstate : r.state = .preCandidate)
    (hwon : r.tracker.conf.voters.getVoteResult (ListMap.get r.tracker.votes) = .won)
    (h : r.campaignElection = some r') : Steps env r.core r'.core := by
  refine campaignWith_steps helect ?_ (Or.inr ⟨hstate, hwon, by simp⟩) h
  intro r r' result hstate h
  exact pollWith_steps helect (by simp) hstate (fun _ => Or.inl rfl) h

theorem poll_steps {granted : Bool} {result : VoteResult} (helect : env.elect)
    (hstate : r.state = .candidate ∨ r.state = .preCandidate)
    (hgrant : granted = true → Counted env r.core v) (h : r.poll v granted = some (r', result)) :
    Steps env r.core r'.core ∧
      (result = .pending → r' = { r with tracker := r.tracker.recordVote v granted }) ∧
      result = r.tracker.getVoteResult (emplace r.tracker.votes v granted) :=
  pollWith_steps helect (fun _ _ hstate hwon h => campaignElection_steps helect hstate hwon h)
    hstate hgrant h

theorem campaign_steps (helect : env.elect) (hvoter : r.promotable = true)
    (hclear : r.raftLog.CommittedClear)
    (htransfer : campaignType ≠ .preElection → r.preVote = true → env.transfer)
    (h : r.campaign campaignType = some r') : Steps env r.core r'.core :=
  campaignWith_steps helect (fun _ _ _ hstate h => poll_steps helect hstate (fun _ => Or.inl rfl) h)
    (Or.inl ⟨hvoter, hclear, htransfer⟩) h

/-- What it means that `HasUnappliedConfChanges` finds nothing. -/
theorem confClear_of_not_found {low high : ℕ} {ctx : GetEntriesContext}
    (h : r.hasUnappliedConfChanges low high ctx = some false) : r.raftLog.ConfClear low high := by
  unfold hasUnappliedConfChanges at h
  split at h
  next happlied => exact Or.inl happlied
  · simp only [bind_eq_bind] at h
    obtain ⟨result, hscan, h⟩ := of_bind h
    cases result with
    | error e => cases h
    | ok found =>
        cases h
        exact Or.inr ⟨_, _, hscan⟩

theorem hup_steps {transferLeader : Bool} (helect : env.elect) (hvoter : r.promotable = true)
    (htransfer : transferLeader = true → env.transfer) (h : r.hup transferLeader = some r') :
    Steps env r.core r'.core := by
  unfold hup at h
  split at h
  · exact steps_of_some h
  obtain ⟨pending, hpending, h⟩ := of_bind h
  cases pending with
  | true =>
      exact steps_of_some h
  | false =>
      have hclear : r.raftLog.CommittedClear := confClear_of_not_found hpending
      simp only [Bool.false_eq_true, if_false] at h
      split at h
      next htold => exact campaign_steps helect hvoter hclear (fun _ _ => htransfer htold) h
      split at h
      · exact campaign_steps helect hvoter hclear (fun hne => absurd rfl hne) h
      next hpre =>
        exact campaign_steps helect hvoter hclear (fun _ hcontra => absurd hcontra hpre) h

/-! ## Commit indexes in vote messages -/

end Raft

namespace RaftLog

variable {σ : Type} [Storage σ]

/-- Whether the commit index moves does not depend on the limit of unpersisted entries. -/
theorem maybeCommit_limit {log log' : RaftLog σ} {i term limit : ℕ} {committed : Bool}
    (h : log.maybeCommit i term = some (log', committed)) :
    { log with maxApplyUnpersistedLogLimit := limit }.maybeCommit i term =
      some ({ log' with maxApplyUnpersistedLogLimit := limit }, committed) := by
  have hlast : { log with maxApplyUnpersistedLogLimit := limit }.lastIndex = log.lastIndex := rfl
  have hterm : { log with maxApplyUnpersistedLogLimit := limit }.term i = log.term i := rfl
  simp only [maybeCommit, commitTo, bind_eq_bind, hlast, hterm] at h ⊢
  split at h
  next hlt =>
    simp only [if_pos hlt, if_neg (not_le.mpr hlt), bind_eq_some_iff] at h ⊢
    obtain ⟨t, ht, h⟩ := h
    refine ⟨t, ht, ?_⟩
    split at h
    next hmatch =>
      simp only [bind_eq_some_iff] at h
      obtain ⟨⟨log₁, result⟩, ⟨last, hlast, hmoved⟩, h⟩ := h
      obtain ⟨rfl, rfl⟩ := by simpa using h
      simp only [if_pos hmatch, bind_eq_some_iff, hlast]
      split at hmoved
      next hout =>
        obtain ⟨rfl, -⟩ := by simpa using hmoved
        simp [hout]
      next hin =>
        obtain ⟨rfl, -⟩ := by simpa using hmoved
        simp [hin]
    next hmatch =>
      obtain ⟨rfl, rfl⟩ := by simpa using h
      simp [hmatch]
  next hle =>
    obtain ⟨rfl, rfl⟩ := by simpa using h
    simp [hle]

end RaftLog

namespace Raft

variable {σ : Type} [Storage σ] [Codec] {env : Env} {r r' : Raft σ}

theorem maybeCommitByVote_steps {m : Message} (h : r.maybeCommitByVote m = some r') :
    Steps env r.core r'.core := by
  unfold maybeCommitByVote at h
  split at h
  · exact steps_of_some h
  simp only [bind_eq_bind] at h
  split at h
  · exact steps_of_some h
  next hstate =>
    obtain ⟨⟨log, committed⟩, hcommit, h⟩ := of_bind h
    rw [not_or] at hstate
    have hmicro : (r.state ≠ .follower → log = r.raftLog ∨
          log.ConfClear (r.raftLog.committed + 1) (log.committed + 1)) →
        Steps env r.core ({ r with raftLog := log } : Raft σ).core := fun hclear =>
      .single (.commitTold r.core _ _ log committed hstate.2 hcommit hclear)
    split at h
    · exact steps_of_some h
    split at h
    next hrole =>
      cases h
      refine hmicro fun hfollower => ?_
      cases hrole' : r.state <;> simp_all
    obtain ⟨pending, hpending, h⟩ := of_bind h
    cases pending with
    | true =>
        -- the node is a follower before the commit index moves, as far as anyone can tell
        obtain ⟨tracks, hcore⟩ := becomeFollower_core h
        have hfollow : Steps env r.core { r.core with
            vote := if r.term = r.term then r.vote else kInvalidId, state := .follower
            votes := [], tracks, pendingConf := 0
            log := { r.raftLog with maxApplyUnpersistedLogLimit := 0 } } :=
          .single (.follow r.core r.term tracks _ (fun _ => le_rfl)
            ⟨⟨rfl, rfl, rfl, rfl⟩, le_rfl, Nat.zero_le _⟩)
        rw [hcore]
        exact hfollow.tail (.commitTold _ m.commit m.commitTerm _ committed (by simp)
          (RaftLog.maybeCommit_limit hcommit) (by simp))
    | false =>
        cases h
        exact hmicro fun _ => Or.inr (confClear_of_not_found hpending)

/-! ## Applied and persisted entries -/

section

omit [Storage σ] [Codec]

theorem appliedTo_same {log log' : RaftLog σ} {i : ℕ} (h : log.appliedTo i = some log') :
    RaftLog.Same log log' ∧ i ≤ log'.applied := by
  unfold RaftLog.appliedTo at h
  split at h
  next hzero =>
    cases h
    exact ⟨⟨⟨rfl, rfl, rfl, rfl⟩, le_rfl, le_rfl⟩, by omega⟩
  split at h
  · cases h
  next hrange =>
    cases h
    exact ⟨⟨⟨rfl, rfl, rfl, rfl⟩, by dsimp only; omega, le_rfl⟩, le_rfl⟩

theorem setApplied_sameData {applied : ℕ} {skipCheck : Bool} {log : RaftLog σ}
    (h : r.setApplied applied skipCheck = some log) : RaftLog.SameData r.raftLog log := by
  unfold setApplied at h
  split at h
  · split at h
    · cases h
      exact ⟨rfl, rfl, rfl, rfl⟩
    · cases h
  · exact (appliedTo_same h).1.toSameData

theorem numberEntries_length (term : ℕ) :
    ∀ (index : ℕ) (entries : List Entry),
      (numberEntries term index entries).length = entries.length
  | _, [] => rfl
  | index, _ :: es => congrArg Nat.succ (numberEntries_length term (index + 1) es)

end

omit [Codec] in
theorem appendEntry_lastIndex {e : Entry} {es : List Entry}
    (h : r.appendEntry (e :: es) = some (r', true)) :
    ∃ last, r.raftLog.lastIndex = some last ∧
      r'.raftLog.lastIndex = some (last + 1 + es.length) := by
  obtain ⟨-, -, last, log, index, hlast, happend, rfl⟩ | ⟨hfalse, -⟩ := appendEntry_cases h
  · refine ⟨last, hlast, ?_⟩
    obtain ⟨hnil, -⟩ | ⟨first, rest, u, hcons, rfl, -⟩ := RaftLog.append_eq happend
    · cases hnil
    · cases hcons
      rw [RaftLog.append_lastIndex happend, numberEntries_length]
  · cases hfalse

theorem commitApply_steps {applied : ℕ} (hown : ∀ e : Entry, e.OfLeader → env.propose e)
    (h : r.commitApply applied = some r') : Steps env r.core r'.core := by
  simp only [commitApply, commitApplyInternal] at h
  obtain ⟨log, happlied, h⟩ := of_bind h
  obtain ⟨hsame, happliedTo⟩ : RaftLog.Same r.raftLog log ∧ applied ≤ log.applied :=
    appliedTo_same happlied
  have hmicro : Steps env r.core ({ r with raftLog := log } : Raft σ).core :=
    .single (.bookkeep r.core log hsame)
  split at h
  next hleave =>
    obtain ⟨⟨r₁, appended⟩, happend, h⟩ := of_bind h
    split at h
    next happended =>
      obtain ⟨last', hlast', h⟩ := of_bind h
      cases h
      dsimp only at happended
      subst happended
      obtain ⟨last, hlast, hend⟩ := appendEntry_lastIndex happend
      obtain rfl : last + 1 = last' := some.inj (hend.symm.trans hlast')
      have hrun : LeaderRun env { r with raftLog := log } _ :=
        appendEntry_run hleave.2.2.2 hlast
          (fun _ => .one [] [] _ rfl (by simp) (hleave.2.2.1.trans happliedTo))
          (List.forall_mem_singleton.mpr (hown _ (Or.inr rfl))) happend
      exact hmicro.trans hrun.steps
    · cases h
  · cases h
    exact hmicro

theorem selfUpdate_run {index : ℕ} {pr : Progress} (hstate : r.state = .leader)
    (hget : r.tracker.get r.id = some pr) (hindex : index ≤ r.raftLog.persisted) :
    LeaderRun env r (r.setProgress r.id (pr.maybeUpdate index).1) := by
  exact retrack_run hstate hget (Or.inr (Or.inl ⟨rfl, index, hindex, pr.matched_maybeUpdate index⟩))

/-- What `OnPersistEntries` does after the log has taken note. -/
theorem onPersistEntries_reacts {index term : ℕ} (h : r.onPersistEntries index term = some r') :
    Reacts env { r with raftLog := (r.raftLog.maybePersist index term).1 } r' := by
  simp only [onPersistEntries] at h
  split at h
  next hupdate =>
    obtain ⟨pr, hget, h⟩ := of_bind h
    have hindex : index ≤ (r.raftLog.maybePersist index term).1.persisted := by
      rcases r.raftLog.maybePersist_eq index term with hsame | ⟨-, -, -, hmoved⟩
      · rw [hsame] at hupdate
        cases hupdate.1
      · rw [hmoved]
    have hack : LeaderRun env { r with raftLog := (r.raftLog.maybePersist index term).1 } _ :=
      selfUpdate_run hupdate.2 hget hindex
    refine LeaderRun.reacts ?_ hupdate.2
    split at h
    · obtain ⟨⟨r₁, committed⟩, hcommit, h⟩ := of_bind h
      have hrun := hack.trans (maybeCommit_run hack.state hcommit)
      split at h
      · exact hrun.trans (broadcastAppend_run hrun.state h)
      · cases h
        exact hrun
    · cases h
      exact hack
  · cases h
    exact .refl _

end Raft

end Raftpp
