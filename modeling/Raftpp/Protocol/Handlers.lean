import Raftpp.Protocol.Membership
import Raftpp.Protocol.Roles

/-!
# The message handlers refine to elementary steps

The handlers of followers, candidates and leaders, `Step`, `Tick` and the other
entry points of a node.  A message of a kind whose content matters must have
been delivered; `Step` passes it on only when its term is the node's own, apart
from pre-vote messages.
-/

namespace Raftpp

open Option Progress

variable {result : Result Unit}

namespace RaftLog

variable {σ : Type} [Storage σ]

theorem maybeAppend_unmatched {log log' : RaftLog σ} {index term committed : ℕ}
    {entries : List Entry} {result : MaybeAppendResult} (hmatched : result.termMatched = false)
    (h : log.maybeAppend index term committed entries = some (log', .ok result)) : log' = log := by
  unfold maybeAppend at h
  obtain ⟨matched, -, h⟩ := of_bind h
  split at h
  · obtain ⟨conflict, -, h⟩ := of_bind h
    split at h
    · obtain ⟨⟨log₁, _⟩, -, h⟩ := of_bind h
      simp only [some.injEq, Prod.mk.injEq, Except.ok.injEq] at h
      obtain ⟨-, rfl⟩ := h
      cases hmatched
    split at h
    · simp at h
    · obtain ⟨toAppend, -, h⟩ := of_bind h
      obtain ⟨⟨log₁, _⟩, -, h⟩ := of_bind h
      obtain ⟨⟨log₂, _⟩, -, h⟩ := of_bind h
      simp only [some.injEq, Prod.mk.injEq, Except.ok.injEq] at h
      obtain ⟨-, rfl⟩ := h
      cases hmatched
  · simp only [some.injEq, Prod.mk.injEq] at h
    exact h.1.symm

end RaftLog

namespace Raft

variable {σ : Type} [Storage σ] [Codec] {env : Env} {r r' : Raft σ} {m : Message} {cs : ConfState}

/-! ## Followers -/

theorem sendRequestSnapshot_steps (h : r.sendRequestSnapshot = some r') :
    Steps env r.core r'.core := by
  unfold sendRequestSnapshot at h
  obtain ⟨last, -, h⟩ := of_bind h
  obtain ⟨logTerm, -, h⟩ := of_bind h
  exact send_steps h (.appendReject rfl rfl)

theorem handleAppendEntries_steps (hm : Delivered env r.id m) (hkind : m.msgType = .msgAppend)
    (hterm : env.proper → m.term = r.term) (hstate : r.state = .follower)
    (h : r.handleAppendEntries m = some r') : Steps env r.core r'.core := by
  unfold handleAppendEntries at h
  split at h
  · exact sendRequestSnapshot_steps h
  split at h
  · exact send_steps h (.accept m hm (Or.inl hkind) hterm hstate rfl rfl)
  obtain ⟨⟨log, result⟩, happend, h⟩ := of_bind h
  cases result with
  | error e => cases h
  | ok result =>
      simp only at h
      cases hmatched : result.termMatched with
      | true =>
          rw [if_pos hmatched] at h
          obtain ⟨matched, conflict, last⟩ := result
          obtain rfl : matched = true := hmatched
          have happended : Steps env r.core ({ r with raftLog := log } : Raft σ).core :=
            .single (.accept r.core m log conflict last hm hkind hstate happend)
          exact happended.trans (send_steps h (.accept m hm (Or.inl hkind) hterm hstate rfl rfl))
      | false =>
          rw [if_neg (by simp [hmatched])] at h
          obtain ⟨last, -, h⟩ := of_bind h
          obtain ⟨⟨hint, hintTerm⟩, -, h⟩ := of_bind h
          obtain ⟨hintTerm, -, h⟩ := of_bind h
          obtain rfl := RaftLog.maybeAppend_unmatched hmatched happend
          exact send_steps h (.appendReject rfl rfl)

theorem handleHeartbeat_steps (hstate : r.state = .follower)
    (h : r.handleHeartbeat m = some r') : Steps env r.core r'.core := by
  simp only [handleHeartbeat] at h
  obtain ⟨⟨log, result⟩, hcommit, h⟩ := of_bind h
  have hmicro : Steps env r.core ({ r with raftLog := log } : Raft σ).core :=
    .single (.commitTo r.core m.commit log result hstate hcommit)
  split at h
  · exact hmicro.trans (sendRequestSnapshot_steps h)
  · exact hmicro.trans (send_steps h (.other rfl (by simp [stamp])))

theorem postConfChange_eq (h : r.postConfChange = some (r', cs)) :
    cs = r.tracker.conf.toConfState ∧
      (r' = { r with promotable := r.tracker.conf.voters.contains r.id } ∨
        r.state = .leader ∧ postConfChangeLeader
          { r with promotable := r.tracker.conf.voters.contains r.id } = some r') := by
  simp only [postConfChange] at h
  split at h
  · cases h
    exact ⟨rfl, Or.inl rfl⟩
  next hleads =>
    obtain ⟨r₁, hleader, h⟩ := of_bind h
    cases h
    exact ⟨rfl, Or.inr ⟨by_contra fun hne => hleads (Or.inl hne), hleader⟩⟩

theorem postConfChange_follower (hstate : r.state = .follower)
    (h : r.postConfChange = some (r', cs)) :
    r' = { r with promotable := r.tracker.conf.voters.contains r.id } :=
  (postConfChange_eq h).2.resolve_right (by simp [hstate])

theorem sendAfterConfChange_run {committed : Bool} (hstate : r.state = .leader)
    (h : r.sendAfterConfChange committed = some r') : LeaderRun env r r' := by
  unfold sendAfterConfChange at h
  split at h
  · exact broadcastAppend_run hstate h
  · refine LeaderRun.foldlM (fun r r' id hstate h => ?_) _ hstate h
    split at h
    · exact .of_some hstate h
    · simp only [bind_eq_bind] at h
      obtain ⟨⟨r₁, sent⟩, hsend, h⟩ := of_bind h
      cases h
      exact maybeSendAppend_run hstate hsend

omit [Storage σ] [Codec] in
theorem checkTransferee_core (r : Raft σ) : r.checkTransferee.core = r.core := by
  unfold checkTransferee
  split
  · split <;> rfl
  · rfl

theorem confirmOwnReads_run (hstate : r.state = .leader) (h : r.confirmOwnReads = some r') :
    LeaderRun env r r' := by
  unfold confirmOwnReads at h
  split at h
  · exact .of_some hstate h
  · exact confirmReads_run hstate h

theorem postConfChangeLeader_run (hstate : r.state = .leader)
    (h : r.postConfChangeLeader = some r') : LeaderRun env r r' := by
  unfold postConfChangeLeader at h
  obtain ⟨⟨r₁, committed⟩, hcommit, h⟩ := of_bind h
  obtain ⟨r₂, hsend, h⟩ := of_bind h
  obtain ⟨r₃, hreads, h⟩ := of_bind h
  have hfirst : LeaderRun env r r₁ := maybeCommit_run hstate hcommit
  have hsecond := hfirst.trans (sendAfterConfChange_run hfirst.state hsend)
  obtain ⟨hsteps, hstate', hterm⟩ := hsecond.trans (confirmOwnReads_run hsecond.state hreads)
  have hcore := checkTransferee_core r₃
  rw [← some.inj h]
  exact ⟨hcore ▸ hsteps, (congrArg NodeCore.state hcore).trans hstate',
    (congrArg NodeCore.term hcore).trans hterm⟩

/-- A new configuration: the node commits and sends what it allows. -/
theorem postConfChange_reacts (h : r.postConfChange = some (r', cs)) :
    Reacts env { r with promotable := r.tracker.conf.voters.contains r.id } r' := by
  obtain ⟨-, rfl | ⟨hstate, hleader⟩⟩ := postConfChange_eq h
  · exact .refl _
  · exact (postConfChangeLeader_run (by exact hstate) hleader).reacts hstate

/-- `ApplyConfChange` replaces the tracker, and then commits and sends. -/
theorem applyConfChange_reacts {cc : ConfChangeV2} {result : Result ConfState}
    (h : r.applyConfChange cc = some (r', result)) :
    ∃ tracker promotable,
      (tracker = r.tracker ∨ ∃ cfg changes last, tracker = r.tracker.applyConf cfg changes last) ∧
      Reacts env { r with tracker, promotable } r' := by
  simp only [applyConfChange] at h
  split at h
  · simp only [some.injEq, Prod.mk.injEq] at h
    rw [← h.1]
    exact ⟨r.tracker, r.promotable, Or.inl rfl, .refl r⟩
  next cfg changes _ =>
    obtain ⟨last, -, h⟩ := of_bind h
    obtain ⟨⟨r₁, cs⟩, hpost, h⟩ := of_bind h
    simp only [some.injEq, Prod.mk.injEq] at h
    rw [← h.1]
    exact ⟨_, _, Or.inr ⟨cfg, changes, last, rfl⟩, postConfChange_reacts hpost⟩

/-- What `Restore` does to a follower: nothing, a move of the commit index to a snapshot that
the log holds, or the installation of the snapshot. -/
theorem restore_follower {snapshot : Snapshot} {restored : Bool} (hstate : r.state = .follower)
    (h : r.restore snapshot = some (r', restored)) :
    (restored = false ∧ r' = r) ∨
    (restored = false ∧ ∃ log result, r' = { r with raftLog := log } ∧
      r.raftLog.matchTerm snapshot.metadata.index snapshot.metadata.term = some true ∧
      r.raftLog.commitTo snapshot.metadata.index = some (log, result)) ∨
    (restored = true ∧ ∃ log tracker, r.raftLog.committed ≤ snapshot.metadata.index ∧
      (r.pendingRequestSnapshot = kInvalidIndex →
        r.raftLog.matchTerm snapshot.metadata.index snapshot.metadata.term = some false) ∧
      restoreTracker (.new r.maxInflightMessages) (snapshot.metadata.index + 1)
        snapshot.metadata.confState = .ok tracker ∧
      r.raftLog.restore snapshot = (log, .ok ()) ∧
      r' = { r with
        raftLog := log, tracker, promotable := tracker.conf.voters.contains r.id
        pendingRequestSnapshot := kInvalidIndex }) := by
  simp only [restore] at h
  split at h
  · cases h
    exact Or.inl ⟨rfl, rfl⟩
  next hcommitted =>
    rw [if_neg (by simp [hstate])] at h
    split at h
    · cases h
      exact Or.inl ⟨rfl, rfl⟩
    obtain ⟨holds, hholds, h⟩ := of_bind h
    unfold holdsSnapshot at hholds
    cases holds with
    | true =>
        rw [if_pos rfl] at h
        split at hholds
        · obtain ⟨⟨log, result⟩, hcommit, h⟩ := of_bind h
          simp only [some.injEq, Prod.mk.injEq] at h
          exact Or.inr (Or.inl ⟨h.2.symm, log, result, h.1.symm, hholds, hcommit⟩)
        · simp at hholds
    | false =>
        rw [if_neg (by simp)] at h
        unfold installSnapshot at h
        simp only at h
        split at h
        · cases h
          exact Or.inl ⟨rfl, rfl⟩
        next tracker htracker =>
          split at h
          · cases h
            exact Or.inl ⟨rfl, rfl⟩
          next log hlog =>
            obtain ⟨⟨r₁, cs⟩, hpost, h⟩ := of_bind h
            simp only [some.injEq, Prod.mk.injEq] at h
            obtain rfl := postConfChange_follower (by exact hstate) hpost
            refine Or.inr (Or.inr ⟨h.2.symm, log, tracker, not_lt.mp hcommitted, ?_, htracker, hlog,
              h.1.symm⟩)
            intro hpending
            rwa [if_pos hpending] at hholds

/-- The less ordinary effects of a message are ones that the environment allows. -/
structure Expected (env : Env) (r : Raft σ) (m : Message) : Prop where
  transfer : m.msgType = .msgTimeoutNow → env.transfer
  stale : m.msgType = .msgRequestPreVoteResponse → m.reject = false → r.state = .preCandidate →
    m.term = r.term → ListMap.get r.tracker.votes m.sender = none → env.stale

section

omit [Storage σ] [Codec]

theorem Expected.free (net : Message → Prop) (r : Raft σ) (m : Message) :
    Expected (.free net) r m :=
  ⟨fun _ => trivial, fun _ _ _ _ _ => trivial⟩

/-- A message of another kind has no such effects. -/
theorem Expected.of_kind (htimeout : m.msgType ≠ .msgTimeoutNow)
    (hresponse : m.msgType ≠ .msgRequestPreVoteResponse) : Expected env r m :=
  ⟨fun hkind => absurd hkind htimeout, fun hkind => absurd hkind hresponse⟩

theorem Expected.of_follower (h : Expected env r m) (hstate : r'.state = .follower) :
    Expected env r' m :=
  ⟨h.transfer, fun _ _ hpre => absurd (hstate.symm.trans hpre) (by simp)⟩

end

theorem handleSnapshot_steps (hm : Delivered env r.id m) (hkind : m.msgType = .msgSnapshot)
    (hterm : env.proper → m.term = r.term) (hstate : r.state = .follower)
    (h : r.handleSnapshot m = some r') : Steps env r.core r'.core := by
  unfold handleSnapshot at h
  obtain ⟨⟨r₁, restored⟩, hrestore, h⟩ := of_bind h
  obtain ⟨index, -, h⟩ := of_bind h
  have hanswer : ∀ log tracker promotable pendingRequestSnapshot,
      r₁ = { r with raftLog := log, tracker, promotable, pendingRequestSnapshot } →
      Steps env r₁.core r'.core := by
    rintro log tracker promotable pendingRequestSnapshot rfl
    exact send_steps h (.accept m hm (Or.inr hkind) hterm hstate rfl rfl)
  obtain ⟨-, rfl⟩ | ⟨-, log, result, rfl, -, hcommit⟩ |
    ⟨-, log, tracker, hcommitted, -, htracker, hlog, rfl⟩ := restore_follower hstate hrestore
  · exact hanswer _ _ _ _ rfl
  · have hmicro : Steps env r.core ({ r with raftLog := log } : Raft σ).core :=
      .single (.commitTo r.core m.snapshot.metadata.index log result hstate hcommit)
    exact hmicro.trans (hanswer _ _ _ _ rfl)
  · obtain ⟨hvotes, hgroup⟩ := restoreTracker_rest htracker
    have hmicro := @Micro.install σ _ _ env r.core m log tracker r.maxInflightMessages hm hkind
      hstate hcommitted htracker hlog
    refine .trans (.single ?_) (hanswer _ _ _ _ rfl)
    convert hmicro using 1
    simp only [core, hvotes, hgroup]
    rfl

/-- A message as the second half of `Step` sees it: local, or delivered and of the node's
term, or a delivered pre-vote message. -/
structure Handled (env : Env) (r : Raft σ) (m : Message) : Prop where
  delivered : m.msgType.isProtocol = true → Delivered env r.id m
  term : env.proper → m.msgType.isProtocol = true → ¬m.Rejects → m.term = r.term ∨
    m.msgType = .msgRequestPreVote ∨ m.msgType = .msgRequestPreVoteResponse ∧ m.reject = false
  later : env.proper → m.msgType = .msgRequestPreVoteResponse → m.reject = false →
    r.term ≤ m.term
  expected : Expected env r m
  elect : m.msgType.elects = true → env.elect
  propose : m.msgType = .msgPropose → ∀ e ∈ m.entries, env.propose e

omit [Storage σ] [Codec] in
/-- Only pre-vote messages and rejections are handled in another term than their own. -/
theorem Handled.term_eq (hm : Handled env r m) (hprotocol : m.msgType.isProtocol = true)
    (hrequest : m.msgType ≠ .msgRequestPreVote)
    (hresponse : m.msgType ≠ .msgRequestPreVoteResponse) (hreject : ¬m.Rejects)
    (hproper : env.proper) : m.term = r.term :=
  (hm.term hproper hprotocol hreject).resolve_right
    (not_or.mpr ⟨hrequest, fun hgranted => hresponse hgranted.1⟩)

theorem forwardToLeader_steps (hkind : m.msgType.isProtocol = false)
    (hpropose : m.msgType = .msgPropose → ∀ e ∈ m.entries, env.propose e)
    (h : r.forwardToLeader m = some r') : Steps env r.core r'.core := by
  unfold forwardToLeader at h
  split at h
  · exact steps_of_some h
  · by_cases hproposal : m.msgType = .msgPropose
    · exact send_steps h (.forward hproposal (hpropose hproposal))
    · exact send_steps h (.other hkind hproposal)

omit [Storage σ] [Codec] in
theorem of_bind_pair {α : Type} {x : Option (Raft σ)} {a b : α}
    (h : (x.bind fun r => some (r, a)) = some (r', b)) : x = some r' := by
  obtain ⟨r₁, hx, h⟩ := of_bind h
  simp only [some.injEq, Prod.mk.injEq] at h
  rw [hx, h.1]

omit [Storage σ] [Codec] in
theorem of_some_pair {α : Type} {a b : α} (h : some (r, a) = some (r', b)) : r = r' :=
  congrArg Prod.fst (some.inj h)

theorem stepFollower_steps (hm : Handled env r m) (hstate : r.state = .follower)
    (h : r.stepFollower m = some (r', result)) : Steps env r.core r'.core := by
  have hdelivered : m.msgType.isProtocol = true → m.msgType.isVote = false →
      m.msgType ≠ .msgAppendResponse →
      Delivered env r.id m ∧ (env.proper → m.term = r.term) := by
    intro hprotocol hvote hresponse
    refine ⟨hm.delivered hprotocol, hm.term_eq hprotocol ?_ ?_ fun hreject => hresponse hreject.1⟩
    all_goals
      intro hkind
      rw [hkind] at hvote
      exact absurd hvote (by decide)
  unfold stepFollower at h
  split at h
  next hkind =>
    split at h
    · exact steps_of_pair h
    · exact forwardToLeader_steps (by rw [hkind]; rfl) hm.propose (of_bind_pair h)
  next hkind =>
    obtain ⟨hsent, hterm⟩ :=
      hdelivered (by rw [hkind]; rfl) (by rw [hkind]; rfl) (by rw [hkind]; decide)
    exact @handleAppendEntries_steps σ _ _ env
      { r with electionElapsed := 0, leaderId := m.sender } r' m hsent hkind hterm hstate
      (of_bind_pair h)
  · exact @handleHeartbeat_steps σ _ _ env
      { r with electionElapsed := 0, leaderId := m.sender } r' m hstate (of_bind_pair h)
  next hkind =>
    obtain ⟨hsent, hterm⟩ :=
      hdelivered (by rw [hkind]; rfl) (by rw [hkind]; rfl) (by rw [hkind]; decide)
    exact @handleSnapshot_steps σ _ _ env
      { r with electionElapsed := 0, leaderId := m.sender } r' m hsent hkind hterm hstate
      (of_bind_pair h)
  next hkind =>
    exact forwardToLeader_steps (by rw [hkind]; rfl) hm.propose (of_bind_pair h)
  next hkind =>
    exact forwardToLeader_steps (by rw [hkind]; rfl) hm.propose (of_bind_pair h)
  next hkind =>
    split at h
    next hpromotable =>
      exact hup_steps (hm.elect (by rw [hkind]; rfl)) hpromotable
        (fun _ => hm.expected.transfer hkind) (of_bind_pair h)
    · exact steps_of_pair h
  · split at h
    · exact steps_of_pair h
    split at h
    · obtain ⟨⟨log, committed⟩, hcommit, h⟩ := of_bind h
      cases h
      exact .single (.commitTold r.core _ _ log committed (by simp [hstate]) hcommit
        fun hne => absurd hstate hne)
    · exact steps_of_pair h
  · exact steps_of_pair h

/-- A candidate that hears from the leader of its term follows it. -/
theorem becomeFollower_handled {leader : ℕ} (hm : Handled env r m)
    (hkind : m.msgType = .msgAppend ∨ m.msgType = .msgHeartbeat ∨ m.msgType = .msgSnapshot)
    (h : r.becomeFollower m.term leader = some r') :
    Steps env r.core r'.core ∧ Delivered env r'.id m ∧ m.term = r'.term ∧
      r'.state = .follower := by
  have hprotocol : m.msgType.isProtocol = true := by
    rcases hkind with hkind | hkind | hkind <;> rw [hkind] <;> rfl
  have hterm : env.proper → m.term = r.term := by
    refine hm.term_eq hprotocol ?_ ?_ ?_ <;>
      rcases hkind with hkind | hkind | hkind <;> simp [Message.Rejects, hkind]
  obtain ⟨hsteps, hstate, hterm', hid⟩ := @becomeFollower_steps σ _ _ env r r' m.term leader
    (fun hproper => le_of_eq (hterm hproper).symm) h
  exact ⟨hsteps, hid ▸ hm.delivered hprotocol, hterm'.symm, hstate⟩

theorem stepCandidate_steps (hm : Handled env r m)
    (hstate : r.state = .candidate ∨ r.state = .preCandidate)
    (h : r.stepCandidate m = some (r', result)) : Steps env r.core r'.core := by
  unfold stepCandidate at h
  have hresponse : (m.msgType = .msgRequestPreVoteResponse ∨ m.msgType = .msgRequestVoteResponse) →
      (if (r.state = .preCandidate ∧ m.msgType ≠ .msgRequestPreVoteResponse) ∨
          (r.state = .candidate ∧ m.msgType ≠ .msgRequestVoteResponse) then some (r, .ok ())
        else (r.poll m.sender (!m.reject)).bind fun polled =>
          (polled.1.maybeCommitByVote m).bind fun r => some (r, .ok ())) = some (r', result) →
      Steps env r.core r'.core := by
    intro hkind h
    have hprotocol : m.msgType.isProtocol = true := by
      rcases hkind with hkind | hkind <;> rw [hkind] <;> rfl
    split at h
    · exact steps_of_pair h
    next hcurrent =>
      obtain ⟨⟨r₁, outcome⟩, hpoll, h⟩ := of_bind h
      rw [not_or, not_and, not_and, not_not, not_not] at hcurrent
      have hsteps : Steps env r.core r₁.core := by
        refine (poll_steps (hm.elect ?_) hstate ?_ hpoll).1
        · rcases hkind with hkind | hkind <;> rw [hkind] <;> rfl
        intro hgranted
        have hreject : m.reject = false := by simpa using hgranted
        refine Or.inr ⟨m, hm.delivered hprotocol, hreject, rfl, ?_⟩
        rcases hstate with hcandidate | hpre
        · have hkind' := hcurrent.2 hcandidate
          exact Or.inl ⟨hcandidate, hkind', hm.term_eq hprotocol (by rw [hkind']; decide)
            (by rw [hkind']; decide) (by simp [Message.Rejects, hkind'])⟩
        · have hkind' := hcurrent.1 hpre
          exact Or.inr ⟨hpre, hkind', fun hproper => hm.later hproper hkind' hreject,
            hm.expected.stale hkind' hreject hpre⟩
      exact hsteps.trans (maybeCommitByVote_steps (of_bind_pair h))
  split at h
  · exact steps_of_pair h
  next hkind =>
    obtain ⟨r₁, hfollow, h⟩ := of_bind h
    obtain ⟨hsteps, hsent, hterm, hstate⟩ := becomeFollower_handled hm (Or.inl hkind) hfollow
    exact hsteps.trans
      (handleAppendEntries_steps hsent hkind (fun _ => hterm) hstate (of_bind_pair h))
  next hkind =>
    obtain ⟨r₁, hfollow, h⟩ := of_bind h
    obtain ⟨hsteps, -, -, hstate⟩ :=
      becomeFollower_handled hm (Or.inr (Or.inl hkind)) hfollow
    exact hsteps.trans (handleHeartbeat_steps hstate (of_bind_pair h))
  next hkind =>
    obtain ⟨r₁, hfollow, h⟩ := of_bind h
    obtain ⟨hsteps, hsent, hterm, hstate⟩ :=
      becomeFollower_handled hm (Or.inr (Or.inr hkind)) hfollow
    exact hsteps.trans (handleSnapshot_steps hsent hkind (fun _ => hterm) hstate (of_bind_pair h))
  next hkind => exact hresponse (Or.inl hkind) h
  next hkind => exact hresponse (Or.inr hkind) h
  · exact steps_of_pair h

end Raft

/-! ## Leaders -/

namespace Raft

variable {σ : Type} [Storage σ] [Codec] {env : Env} {r r' : Raft σ} {m : Message}

variable {peer : ℕ} {position : Option ℕ} {pr pr₀ : Progress}

theorem handleAppendReject_run {probe : ℕ} (hstate : r.state = .leader)
    (hget : r.tracker.get m.sender = some pr₀) (htrack : pr.matched = pr₀.matched)
    (h : r.handleAppendReject m pr probe = some r') : LeaderRun env r r' := by
  have hrun : LeaderRun env r
      (r.setProgress m.sender (pr.afterReject m.index probe m.requestSnapshot)) :=
    retrack_run hstate hget (Or.inl ((pr.matched_afterReject _ _ _).trans htrack))
  simp only [handleAppendReject] at h
  unfold Progress.afterReject at hrun
  dsimp only at hrun
  split at h
  next hdec =>
    simp only [hdec, true_and] at hrun
    exact hrun.trans (sendAppend_run hstate h)
  next hdec =>
    cases h
    simpa only [hdec, Bool.false_eq_true, false_and, if_false] using hrun

/-- The peer has what it acknowledged; its progress may change further. -/
theorem acknowledge_run {pr' : Progress} (hm : Delivered env r.id m) (hstate : r.state = .leader)
    (hget : r.tracker.get m.sender = some pr₀) (htrack : pr.matched = pr₀.matched)
    (hmatched : pr'.matched = (pr.maybeUpdate m.index).1.matched) :
    LeaderRun env r (r.setProgress m.sender pr') := by
  refine retrack_run hstate hget (Or.inr (Or.inr ⟨m, hm, rfl, ?_⟩))
  rw [hmatched, pr.matched_maybeUpdate, htrack]

theorem sendAfterAccept_run {committed oldPaused : Bool} (hstate : r.state = .leader)
    (h : r.sendAfterAccept peer committed oldPaused = some r') : LeaderRun env r r' := by
  unfold sendAfterAccept at h
  split at h
  · split at h
    · exact broadcastAppend_run hstate h
    · exact .of_some hstate h
  split at h
  · exact sendAppend_run hstate h
  · exact .of_some hstate h

theorem sendTimeoutNow_run (hstate : r.state = .leader) (h : r.sendTimeoutNow peer = some r') :
    LeaderRun env r r' :=
  send_leaderRun hstate h (.other rfl (by simp [stamp]))

theorem maybeTimeoutNow_run (hstate : r.state = .leader) (h : r.maybeTimeoutNow peer = some r') :
    LeaderRun env r r' := by
  unfold maybeTimeoutNow at h
  split at h
  · obtain ⟨pr, -, h⟩ := of_bind h
    obtain ⟨last, -, h⟩ := of_bind h
    split at h
    · exact sendTimeoutNow_run hstate h
    · exact .of_some hstate h
  · exact .of_some hstate h

theorem handleAppendAccept_run (hm : Delivered env r.id m) (hstate : r.state = .leader)
    (hget : r.tracker.get m.sender = some pr₀) (htrack : pr.matched = pr₀.matched)
    (h : r.handleAppendAccept m pr = some r') : LeaderRun env r r' := by
  simp only [handleAppendAccept] at h
  split at h
  · cases h
    exact acknowledge_run hm hstate hget htrack rfl
  · obtain ⟨⟨r₁, committed⟩, hcommit, h⟩ := of_bind h
    obtain ⟨r₂, hsend, h⟩ := of_bind h
    obtain ⟨r₃, haggressive, h⟩ := of_bind h
    have hrun : LeaderRun env r _ :=
      acknowledge_run hm hstate hget htrack (matched_acknowledgedProgress _ m.index)
    have hrun₁ := hrun.trans (maybeCommit_run hrun.state hcommit)
    have hrun₂ := hrun₁.trans (sendAfterAccept_run hrun₁.state hsend)
    have hrun₃ := hrun₂.trans (sendAppendAggressively_run hrun₂.state haggressive)
    exact hrun₃.trans (maybeTimeoutNow_run hrun₃.state h)

theorem handleAppendResponse_run (hm : Delivered env r.id m) (hstate : r.state = .leader)
    (h : r.handleAppendResponse m = some r') : LeaderRun env r r' := by
  unfold handleAppendResponse at h
  obtain ⟨probe, -, h⟩ := of_bind h
  cases hget : r.tracker.get m.sender with
  | none =>
      rw [hget] at h
      exact .of_some hstate h
  | some pr =>
      rw [hget] at h
      have htrack : ({ pr with recentActive := true }.updateCommitted m.commit).matched =
          pr.matched := matched_updateCommitted _ _
      simp only at h
      split at h
      · exact handleAppendReject_run hstate hget htrack h
      · exact handleAppendAccept_run hm hstate hget htrack h

theorem handleHeartbeatResponse_run (hstate : r.state = .leader)
    (h : r.handleHeartbeatResponse m = some r') : LeaderRun env r r' := by
  unfold handleHeartbeatResponse at h
  cases hget : r.tracker.get m.sender with
  | none =>
      rw [hget] at h
      exact .of_some hstate h
  | some pr =>
      rw [hget] at h
      obtain ⟨r₁, hsend, h⟩ := of_bind h
      have hrun : LeaderRun env r (r.setProgress m.sender (resumedProgress pr m.commit)) :=
        retrack_run hstate hget (Or.inl (pr.matched_resumedProgress _))
      have hrun₁ : LeaderRun env r r₁ := by
        unfold sendAfterHeartbeat at hsend
        obtain ⟨last, -, hsend⟩ := of_bind hsend
        split at hsend
        · exact hrun.trans (sendAppend_run hrun.state hsend)
        · cases hsend
          exact hrun
      split at h
      · cases h
        exact hrun₁
      · exact hrun₁.trans (confirmReads_run hrun₁.state h)

theorem handleSnapshotStatus_run (hstate : r.state = .leader) :
    LeaderRun env r (r.handleSnapshotStatus m) := by
  unfold handleSnapshotStatus
  split
  · exact .refl hstate
  next pr hget =>
    split
    · exact .refl hstate
    · refine retrack_run hstate hget (Or.inl ?_)
      split <;> exact matched_becomeProbe _

theorem handleUnreachable_run (hstate : r.state = .leader) :
    LeaderRun env r (r.handleUnreachable m) := by
  unfold handleUnreachable
  split
  · exact .refl hstate
  next pr hget =>
    split
    · exact retrack_run hstate hget (Or.inl pr.matched_becomeProbe)
    · exact .refl hstate

theorem handleTransferLeader_run (hstate : r.state = .leader)
    (h : r.handleTransferLeader m = some r') : LeaderRun env r r' := by
  simp only [handleTransferLeader] at h
  split at h
  · exact .of_some hstate h
  split at h
  · exact .of_some hstate h
  split at h
  · exact .of_some hstate h
  split at h
  · cases h
    exact ⟨.refl, hstate, rfl⟩
  · obtain ⟨last, -, h⟩ := of_bind h
    split at h
    · obtain ⟨hsteps, hstate', hterm⟩ := @sendTimeoutNow_run σ _ _ env _ _ _ (by exact hstate) h
      exact ⟨hsteps, hstate', hterm⟩
    · obtain ⟨hsteps, hstate', hterm⟩ := @sendAppend_run σ _ _ env _ _ _ (by exact hstate) h
      exact ⟨hsteps, hstate', hterm⟩

section

omit [Storage σ]

/-- A second configuration change is refused. -/
theorem checkProposal_some {pending : Bool} {k : ℕ} :
    ∀ {i : ℕ} {entries : List Entry},
      checkProposal pending i (some k) entries = .ok position →
      position = some k ∧ ∀ e ∈ entries, e.entryType ≠ .entryConfChangeV2
  | _, [], h => ⟨(Except.ok.inj h).symm, by simp⟩
  | i, e :: es, h => by
      unfold checkProposal at h
      split at h
      · simp at h
      next hkind =>
        obtain ⟨hposition, hrest⟩ := checkProposal_some h
        exact ⟨hposition, List.forall_mem_cons.mpr ⟨hkind, hrest⟩⟩

/-- What the checks of a proposal leave: no configuration change, or one and none pending. -/
theorem checkProposal_spec {pending : Bool} :
    ∀ {i : ℕ} {entries : List Entry}, checkProposal pending i none entries = .ok position →
      (position = none ∧ ∀ e ∈ entries, e.entryType ≠ .entryConfChangeV2) ∨
        (pending = false ∧ ∃ before e after, entries = before ++ e :: after ∧
          (∀ f ∈ before ++ after, f.entryType ≠ .entryConfChangeV2) ∧
          position = some (i + before.length))
  | _, [], h => Or.inl ⟨(Except.ok.inj h).symm, by simp⟩
  | i, e :: es, h => by
      unfold checkProposal at h
      split at h
      · split at h
        · cases h
        next hfree =>
          obtain ⟨hposition, hrest⟩ := checkProposal_some h
          refine Or.inr ⟨?_, [], e, es, rfl, hrest, hposition⟩
          exact Bool.eq_false_iff.mpr fun hpending => hfree (Or.inl hpending)
      next hkind =>
        rcases checkProposal_spec h with ⟨hposition, hrest⟩ | ⟨hpending, before, f, after, rfl,
          hrest, rfl⟩
        · exact Or.inl ⟨hposition, List.forall_mem_cons.mpr ⟨hkind, hrest⟩⟩
        · refine Or.inr ⟨hpending, e :: before, f, after, rfl, ?_, ?_⟩
          · exact List.forall_mem_cons.mpr ⟨hkind, hrest⟩
          · simp only [List.length_cons]
            congr 1
            omega

/-- The index of the pending configuration change that a proposal leaves. -/
theorem confProposal_of_check {last : ℕ} {entries : List Entry}
    (h : checkProposal r.hasPendingConf 0 none entries = .ok position) :
    ConfProposal r.pendingConfIndex r.raftLog.applied last entries
      (position.elim r.pendingConfIndex fun k => last + k + 1) := by
  rcases checkProposal_spec h with ⟨rfl, hrest⟩ | ⟨hpending, before, e, after, rfl, hrest, rfl⟩
  · exact .none hrest
  · rw [Nat.zero_add]
    refine .one before after e rfl hrest ?_
    simpa [hasPendingConf] using hpending

end

theorem stepLeaderPropose_steps (hstate : r.state = .leader)
    (hpropose : ∀ e ∈ m.entries, env.propose e) (h : r.stepLeaderPropose m = some (r', result)) :
    Steps env r.core r'.core := by
  simp only [stepLeaderPropose] at h
  split at h
  · cases h
  split at h
  · exact steps_of_pair h
  split at h
  · exact steps_of_pair h
  next position hcheck =>
    obtain ⟨last, hlast, h⟩ := of_bind h
    obtain ⟨⟨r₁, appended⟩, happend, h⟩ := of_bind h
    have hrun : LeaderRun env r { r₁ with
        pendingConfIndex :=
          if appended then position.elim r.pendingConfIndex (fun k => last + k + 1)
          else r₁.pendingConfIndex } :=
      appendEntry_run hstate hlast (fun _ => confProposal_of_check hcheck)
        hpropose happend
    split at h
    next hdropped =>
      cases h
      obtain rfl : appended = false := hdropped
      exact hrun.steps
    next happended =>
      obtain rfl : appended = true := Bool.not_eq_false _ ▸ happended
      have hbroadcast := of_bind_pair h
      have hpending : r₁.pendingConfIndex = r.pendingConfIndex :=
        appendEntry_pendingConf happend
      cases position with
      | none =>
          have hrun' : LeaderRun env { r₁ with pendingConfIndex := r.pendingConfIndex } r' := by
            rw [← hpending]
            exact broadcastAppend_run hrun.state hbroadcast
          exact hrun.steps.trans hrun'.steps
      | some position =>
          have hrun' : LeaderRun env { r₁ with pendingConfIndex := last + position + 1 } r' :=
            broadcastAppend_run hrun.state hbroadcast
          exact hrun.steps.trans hrun'.steps

theorem stepLeaderReadIndex_steps (hstate : r.state = .leader)
    (h : r.stepLeaderReadIndex m = some r') : Steps env r.core r'.core := by
  unfold stepLeaderReadIndex at h
  obtain ⟨current, -, h⟩ := of_bind h
  split at h
  · split at h
    · exact (respondRead_run hstate h).steps
    split at h
    · split at h
      · exact steps_of_some h
      · have hrun : LeaderRun env
            { r with readOnly := r.readOnly.addRequest r.raftLog.committed m r.id } r' :=
          broadcastHeartbeatWith_run hstate h
        exact hrun.steps
    · exact (respondRead_run hstate h).steps
  · exact steps_of_some h

omit [Storage σ] [Codec] in
/-- A change of every peer's progress that acknowledges nothing does not show in the core. -/
theorem mapProgress_core {f : ℕ → Progress → Progress}
    (hf : ∀ id pr, (f id pr).matched = pr.matched) :
    ({ r with tracker := r.tracker.mapProgress f } : Raft σ).core = r.core := by
  have htracks : (fun v => ((r.tracker.mapProgress f).get v).map Progress.matched) =
      r.core.tracks := by
    funext v
    simp only [ProgressTracker.mapProgress, ProgressTracker.get, ListMap.get_mapValues, core]
    cases ListMap.get r.tracker.progress v <;> simp [hf]
  have hsplit : ({ r with tracker := r.tracker.mapProgress f } : Raft σ).core =
      { r.core with tracks := fun v => ((r.tracker.mapProgress f).get v).map Progress.matched } :=
    rfl
  rw [hsplit, htracks]

theorem stepLeaderCheckQuorum_steps (h : r.stepLeaderCheckQuorum = some r') :
    Steps env r.core r'.core := by
  simp only [stepLeaderCheckQuorum] at h
  have hcore : ({ r with tracker := (r.tracker.quorumRecentlyActive r.id).1 } : Raft σ).core =
      r.core := mapProgress_core fun _ _ => rfl
  rw [← hcore]
  split at h
  · exact steps_of_some h
  · exact (becomeFollower_steps (fun _ => le_rfl) h).1

theorem stepLeader_steps (hm : Handled env r m) (hstate : r.state = .leader)
    (h : r.stepLeader m = some (r', result)) : Steps env r.core r'.core := by
  unfold stepLeader at h
  split at h
  · exact (broadcastHeartbeat_run hstate (of_bind_pair h)).steps
  · exact stepLeaderCheckQuorum_steps (of_bind_pair h)
  next hkind => exact stepLeaderPropose_steps hstate (hm.propose hkind) h
  · exact stepLeaderReadIndex_steps hstate (of_bind_pair h)
  next hkind =>
    exact (handleAppendResponse_run (hm.delivered (by rw [hkind]; rfl)) hstate
      (of_bind_pair h)).steps
  · exact (handleHeartbeatResponse_run hstate (of_bind_pair h)).steps
  · cases h
    exact (handleSnapshotStatus_run hstate).steps
  · cases h
    exact (handleUnreachable_run hstate).steps
  · exact (handleTransferLeader_run hstate (of_bind_pair h)).steps
  · exact steps_of_pair h

/-! ## Votes -/

omit [Codec] in
/-- Who grants a vote has not voted for another node. -/
theorem vote_of_grantsVote (hkind : m.msgType = .msgRequestVote)
    (h : r.grantsVote m = some true) : r.vote = m.sender ∨ r.vote = kInvalidId := by
  simp only [grantsVote] at h
  split at h
  next hcan =>
    rcases hcan with hcan | ⟨hcan, -⟩ | ⟨hcan, -⟩
    · exact Or.inl hcan
    · exact Or.inr hcan
    · rw [hkind] at hcan
      exact absurd hcan (by decide)
  · simp at h

theorem stepVote_steps (hkind : m.msgType = .msgRequestVote ∨ m.msgType = .msgRequestPreVote)
    (hm : Handled env r m) (h : r.stepVote m = some r') : Steps env r.core r'.core := by
  have hprotocol : m.msgType.isProtocol = true := by
    rcases hkind with hkind | hkind <;> rw [hkind] <;> rfl
  have hsent := hm.delivered hprotocol
  unfold stepVote at h
  obtain ⟨granted, hgrants, h⟩ := of_bind h
  cases granted with
  | true =>
      rw [if_pos rfl] at h
      obtain ⟨r₁, hsend, h⟩ := of_bind h
      obtain ⟨rfl, -⟩ := send_eq hsend
      rcases hkind with hkind | hkind
      · rw [if_pos hkind] at h
        cases h
        have hterm := hm.term_eq hprotocol (by rw [hkind]; decide) (by rw [hkind]; decide)
          (by simp [Message.Rejects, hkind])
        -- the vote is recorded before the answer leaves, as far as anyone can tell
        have hvoted : Micro env r.core { r.core with vote := m.sender } :=
          .vote r.core m hsent hkind hterm (vote_of_grantsVote hkind hgrants)
        refine .tail (.single hvoted) (.send _ _ (.grant m hsent hkind hterm rfl ?_ ?_ rfl ?_))
        all_goals simp [stamp, hkind, voteRespMsgType, MessageType.isVote, kInvalidId]
      · rw [if_neg (by rw [hkind]; decide)] at h
        cases h
        refine .single (.send _ _ (.grantPre m hsent hkind ?_ ?_ rfl ?_))
        all_goals simp [stamp, hkind, voteRespMsgType, MessageType.isVote, kInvalidId]
  | false =>
      rw [if_neg (by simp)] at h
      obtain ⟨⟨commit, commitTerm⟩, -, h⟩ := of_bind h
      obtain ⟨r₁, hsend, h⟩ := of_bind h
      have hterm := (send_eq hsend).2
      refine .trans (send_steps hsend ?_) (maybeCommitByVote_steps h)
      rcases hkind with hkind | hkind
      · simp only [hkind, voteRespMsgType] at hterm ⊢
        exact .voteReject rfl rfl (hterm rfl) rfl
      · simp only [hkind, voteRespMsgType] at hterm ⊢
        exact .preVoteReject rfl (hterm rfl) rfl

end Raft

end Raftpp
