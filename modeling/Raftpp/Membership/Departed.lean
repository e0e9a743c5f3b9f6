import Raftpp.Membership.Reached
import Raftpp.Protocol.Traced
import Raftpp.Ready.Driver

/-!
# A leader that has left the configuration

A leader may commit and apply the change that removes it, and goes on as a leader:
`PostConfChange` only sees that it is no voter.  Its own progress is gone, but
`MaybeCommit` and `OnPersistEntries` look it up by `ProgressTracker::at`, which
asserts that it is there, and so does `BecomeLeader` after an election.

The traces of the calls tell exactly when the assertion fails: a node without a
progress of its own aborts as soon as it commits an entry as a leader, hears that one
is persisted, or wins an election.
-/

namespace Raftpp

open Option

/-- The assertion of `at` fails. -/
def asserts {α : Type} : Except Abort α → Bool
  | .error .progressAt => true
  | _ => false

instance {α : Type} {x : Except Abort α} : Decidable (x = .error .progressAt) :=
  decidable_of_iff (asserts x = true) (by unfold asserts; split <;> simp_all)

/-! ## The calls -/

namespace Raft.Traced

variable {σ : Type} [Storage σ] [Codec]

/-- `OnPersistEntries`. -/
def onPersistEntries (r : Raft σ) (index term : ℕ) : Except Abort (Raft σ) := do
  let (raftLog, update) := r.raftLog.maybePersist index term
  let r := { r with raftLog }
  if update ∧ r.state = .leader then
    let pr ← r.tracker.progressAt r.id
    let (pr, updated) := pr.maybeUpdate index
    let r := r.setProgress r.id pr
    if updated then
      let (r, committed) ← maybeCommit r
      if committed ∧ r.shouldBroadcastCommit then traced r.broadcastAppend else pure r
    else pure r
  else pure r

/-- Commit what can be committed, and tell the peers. -/
def commitAndBroadcast (r : Raft σ) : Except Abort (Raft σ) := do
  let (r, committed) ← maybeCommit r
  if committed then traced r.broadcastAppend else pure r

/-- `EnableGroupCommit`. -/
def enableGroupCommit (r : Raft σ) (enable : Bool) : Except Abort (Raft σ) :=
  let r := { r with tracker := { r.tracker with groupCommit := enable } }
  if r.state = .leader ∧ enable = false then commitAndBroadcast r else pure r

/-- `AssignCommitGroups`. -/
def assignCommitGroups (r : Raft σ) (ids : List (ℕ × ℕ)) : Except Abort (Raft σ) := do
  let r ← traced (r.assignGroups ids)
  if r.state = .leader ∧ r.tracker.groupCommit then commitAndBroadcast r else pure r

end Raft.Traced

/-- What may happen to a node: a message is stepped, which may be a response, a proposal or a
read request, time passes, something is persisted, or group commit is changed. -/
inductive LeaderCall
  | step (m : Message)
  | tick
  | onPersistEntries (index term : ℕ)
  | onPersistSnapshot (index : ℕ)
  | enableGroupCommit (enable : Bool)
  | assignCommitGroups (ids : List (ℕ × ℕ))
  | checkGroupCommitConsistent

namespace Raft

variable {σ : Type} [Storage σ] [Codec]

/-- Make a call; what it returns is the caller's affair. -/
def call (r : Raft σ) : LeaderCall → Option (Raft σ)
  | .step m => (r.step m).map Prod.fst
  | .tick => r.tick.map Prod.fst
  | .onPersistEntries index term => r.onPersistEntries index term
  | .onPersistSnapshot index => r.onPersistSnapshot index
  | .enableGroupCommit enable => r.enableGroupCommit enable
  | .assignCommitGroups ids => r.assignCommitGroups ids
  | .checkGroupCommitConsistent => r.checkGroupCommitConsistent.map fun _ => r

/-- The same call with the reason why it aborts. -/
def Traced.call (r : Raft σ) : LeaderCall → Except Abort (Raft σ)
  | .step m => (Traced.step r m).map Prod.fst
  | .tick => (Traced.tick r).map Prod.fst
  | .onPersistEntries index term => Traced.onPersistEntries r index term
  | .onPersistSnapshot index => traced (r.onPersistSnapshot index)
  | .enableGroupCommit enable => Traced.enableGroupCommit r enable
  | .assignCommitGroups ids => Traced.assignCommitGroups r ids
  | .checkGroupCommitConsistent => traced (r.checkGroupCommitConsistent.map fun _ => r)

/-- A sequence of calls. -/
def calls (r : Raft σ) (cs : List LeaderCall) : Option (Raft σ) := cs.foldlM call r

def Traced.calls (r : Raft σ) (cs : List LeaderCall) : Except Abort (Raft σ) :=
  cs.foldlM Traced.call r

end Raft

/-! ## The traces erase to the model -/

namespace Raft.Traced

variable {σ : Type} [Storage σ] [Codec] (r : Raft σ)

@[simp] theorem toOption_onPersistEntries (index term : ℕ) :
    (onPersistEntries r index term).toOption = r.onPersistEntries index term := by
  simp [onPersistEntries, Raft.onPersistEntries]

@[simp] theorem toOption_commitAndBroadcast :
    (commitAndBroadcast r).toOption = r.commitAndBroadcast := by
  simp [commitAndBroadcast, Raft.commitAndBroadcast]

/-- A traced call is the call. -/
theorem toOption_call (c : LeaderCall) : (call r c).toOption = r.call c := by
  cases c with
  | step m =>
      rw [call, Raft.call, ← toOption_step]
      cases step r m <;> rfl
  | tick =>
      rw [call, Raft.call, ← toOption_tick]
      cases tick r <;> rfl
  | onPersistEntries index term => exact toOption_onPersistEntries r index term
  | enableGroupCommit enable =>
      simp [call, Raft.call, enableGroupCommit, Raft.enableGroupCommit]
  | assignCommitGroups ids =>
      simp [call, Raft.call, assignCommitGroups, Raft.assignCommitGroups]
  | _ => exact toOption_traced _

theorem toOption_calls (cs : List LeaderCall) : (calls r cs).toOption = r.calls cs := by
  induction cs generalizing r with
  | nil => rfl
  | cons c cs ih =>
      simp only [calls, Raft.calls, List.foldlM_cons, toOption_bind, toOption_call] at ih ⊢
      congr 1
      funext r₁
      exact ih r₁

end Raft.Traced

/-! ## When the assertion fails -/

section Conditions

variable {σ : Type} [Storage σ]

/-- `MaybeCommit` of the log commits up to `i`: an entry of the current term beyond what is
committed. -/
def RaftLog.Commits (l : RaftLog σ) (i term : ℕ) : Prop :=
  l.committed < i ∧ l.term i = some (.ok term) ∧ l.lastIndex.isSome = true

/-- `MaybePersist` of the log takes note of `index`. -/
def RaftLog.Persists (l : RaftLog σ) (index term : ℕ) : Prop :=
  l.persisted < index ∧ index < l.firstUpdateIndex ∧ Storage.term l.store index = .ok term

/-- The tracker with the acknowledgement of one peer. -/
def ProgressTracker.acknowledge (t : ProgressTracker) (peer index : ℕ) : ProgressTracker :=
  t.modify peer fun pr => { pr with matched := index }

theorem RaftLog.maybeCommit_true_iff (l : RaftLog σ) (i term : ℕ) :
    (∃ log, l.maybeCommit i term = some (log, true)) ↔ l.Commits i term := by
  simp only [maybeCommit, Commits, bind_eq_bind]
  split
  next hlt =>
    cases hterm : l.term i with
    | none => simp
    | some result =>
        cases result with
        | error e => simp [resultIs]
        | ok t =>
            simp only [bind_some, resultIs_ok, decide_eq_true_eq, some.injEq, Except.ok.injEq]
            split
            next heq =>
              unfold commitTo
              rw [if_neg (by omega)]
              cases l.lastIndex with
              | none => simp
              | some last =>
                  simp only [bind_eq_bind, bind_some]
                  split <;> simp [hlt, heq]
            next hne => simp [hne]
  next hle =>
    simp only [some.injEq, Prod.mk.injEq, Bool.false_eq_true, and_false, exists_false, false_iff]
    omega

theorem RaftLog.maybePersist_iff (l : RaftLog σ) (index term : ℕ) :
    (l.maybePersist index term).2 = true ↔ l.Persists index term := by
  unfold maybePersist Persists
  split
  next h =>
    refine iff_of_true rfl ⟨h.1, h.2.1, ?_⟩
    cases hterm : Storage.term l.store index with
    | error e => simp [hterm, resultIs] at h
    | ok t => simpa [hterm] using h.2.2
  next h =>
    refine iff_of_false (by simp) ?_
    rintro ⟨hlt, hbound, hterm⟩
    exact h ⟨hlt, hbound, by simp [hterm]⟩

variable [Codec]

/-- The acknowledgement in the message makes a leader commit. -/
def Raft.CommitsBy (r : Raft σ) (m : Message) : Prop :=
  m.reject = false ∧ (∃ pr, r.tracker.get m.sender = some pr ∧ pr.matched < m.index) ∧
    r.raftLog.Commits (r.tracker.acknowledge m.sender m.index).maxCommittedIndex.1 r.term

/-- The call makes the node commit or take note of a persisted entry, as a leader, or become
one. -/
def Raft.LooksItselfUp (r : Raft σ) : LeaderCall → Prop
  | .step m =>
      ∃ r', r.adopted m = some r' ∧
        (r'.ElectedBy m ∨ Traced.Acknowledges r' m ∧ r'.CommitsBy m)
  | .tick => r.TickElects
  | .onPersistEntries index term => r.state = .leader ∧ r.raftLog.Persists index term
  | .enableGroupCommit enable =>
      r.state = .leader ∧ enable = false ∧
        r.raftLog.Commits { r.tracker with groupCommit := false }.maxCommittedIndex.1 r.term
  | .assignCommitGroups ids =>
      r.state = .leader ∧ r.tracker.groupCommit = true ∧
        ∃ r', r.assignGroups ids = some r' ∧
          r.raftLog.Commits r'.tracker.maxCommittedIndex.1 r.term
  | .onPersistSnapshot _ | .checkGroupCommitConsistent => False

end Conditions

namespace Raft.Traced

variable {σ : Type} [Storage σ] [Codec] {r r' : Raft σ} {peer : ℕ} {pr : Progress} {m : Message}

omit [Codec] in
theorem maybeCommit_asserts_iff (r : Raft σ) : maybeCommit r = .error .progressAt ↔
    r.tracker.get r.id = none ∧ r.raftLog.Commits r.tracker.maxCommittedIndex.1 r.term := by
  rw [← RaftLog.maybeCommit_true_iff]
  unfold maybeCommit
  cases r.raftLog.maybeCommit r.tracker.maxCommittedIndex.1 r.term with
  | none => simp [traced, Bind.bind, Except.bind]
  | some result =>
      obtain ⟨log, committed⟩ := result
      cases committed with
      | false => simp [traced, Bind.bind, Except.bind, pure, Except.pure]
      | true =>
          cases hget : r.tracker.get r.id with
          | none => simp [traced, ProgressTracker.progressAt, hget, Bind.bind, Except.bind]
          | some pr =>
              simp [traced, ProgressTracker.progressAt, hget, Bind.bind, Except.bind, pure,
                Except.pure]

/-- A peer that a leader tracks stays tracked while the leader sends. -/
theorem tracked_of_run (h : LeaderRun Env.silent r r') (v : ℕ) :
    (r'.tracker.get v).isSome = (r.tracker.get v).isSome := by
  have halike := (alike_of_leaderRun h).2 v
  simpa [ListMap.contains, ProgressTracker.get] using halike

theorem sendAppend_ne (h : (r.tracker.get peer).isSome = true) :
    sendAppend r peer ≠ .error .progressAt :=
  bind_ne (progressAt_ne h) fun _ _ => traced_ne _

theorem sendAfterAccept_ne {committed oldPaused : Bool} (h : (r.tracker.get peer).isSome = true) :
    sendAfterAccept r peer committed oldPaused ≠ .error .progressAt := by
  unfold sendAfterAccept
  split_ifs <;> simp [sendAppend_ne h]

omit [Codec] in
theorem maybeTimeoutNow_ne (h : (r.tracker.get peer).isSome = true) :
    maybeTimeoutNow r peer ≠ .error .progressAt := by
  unfold maybeTimeoutNow
  split
  · refine bind_ne (progressAt_ne h) fun pr _ => bind_ne (traced_ne _) fun last _ => ?_
    split <;> simp
  · exact pure_ne _

omit [Storage σ] [Codec] in
theorem get_setProgress_eq_none (r : Raft σ) (peer v : ℕ) (pr : Progress) :
    (r.setProgress peer pr).tracker.get v = none ↔ r.tracker.get v = none := by
  simp only [← not_isSome_iff_eq_none, isSome_get_setProgress]

section

omit [Codec]

theorem becomeProbe_acked (pr : Progress) :
    pr.becomeProbe.matched = pr.matched ∧ pr.becomeProbe.commitGroupId = pr.commitGroupId := by
  unfold Progress.becomeProbe
  split <;> exact ⟨rfl, rfl⟩

theorem acknowledgedProgress_acked (pr : Progress) (index : ℕ) :
    (acknowledgedProgress pr index).matched = pr.matched ∧
      (acknowledgedProgress pr index).commitGroupId = pr.commitGroupId := by
  simp only [acknowledgedProgress]
  split
  · exact ⟨rfl, rfl⟩
  all_goals
    split
    · exact becomeProbe_acked _
    · exact ⟨rfl, rfl⟩

theorem maybeUpdate_acked {index : ℕ} (h : pr.matched < index) :
    (pr.maybeUpdate index).1.matched = index ∧
      (pr.maybeUpdate index).1.commitGroupId = pr.commitGroupId := by
  simp only [Progress.maybeUpdate, h, if_true]
  split <;> exact ⟨rfl, rfl⟩

end

omit [Storage σ] [Codec] in
/-- Only the acknowledged index of a peer matters for what is committed. -/
theorem maxCommittedIndex_setProgress {index : ℕ} {pr' : Progress}
    (hget : r.tracker.get peer = some pr) (hmatched : pr'.matched = index)
    (hgroup : pr'.commitGroupId = pr.commitGroupId) :
    (r.setProgress peer pr').tracker.maxCommittedIndex =
      (r.tracker.acknowledge peer index).maxCommittedIndex := by
  have hacked : (r.setProgress peer pr').tracker.ackedIndex =
      (r.tracker.acknowledge peer index).ackedIndex := by
    funext v
    simp only [ProgressTracker.ackedIndex, setProgress, ProgressTracker.acknowledge,
      ProgressTracker.modify, ProgressTracker.get, ListMap.get_modify] at hget ⊢
    split
    next heq =>
      subst heq
      simp [hget, hmatched, hgroup]
    · rfl
  unfold ProgressTracker.maxCommittedIndex
  rw [hacked]
  rfl

/-- After the commit, the peer that answered is still there. -/
theorem afterCommit_ne {committed oldPaused : Bool} (hstate : r.state = .leader)
    (hpeer : (r.tracker.get peer).isSome = true) (hcommit : maybeCommit r = .ok (r', committed)) :
    (do
      let r ← sendAfterAccept r' peer committed oldPaused
      let r ← sendAppendAggressively r peer
      maybeTimeoutNow r peer) ≠ .error .progressAt := by
  have hrun₁ : LeaderRun Env.silent r r' :=
    maybeCommit_run hstate ((toOption_maybeCommit r).symm.trans (toOption_eq_some.mpr hcommit))
  have hpeer₁ := (tracked_of_run hrun₁ peer).trans hpeer
  refine bind_ne (sendAfterAccept_ne hpeer₁) fun r₂ hsend => ?_
  have hrun₂ : LeaderRun Env.silent r' r₂ := sendAfterAccept_run hrun₁.state
    ((toOption_sendAfterAccept r' peer committed oldPaused).symm.trans (toOption_eq_some.mpr hsend))
  have hpeer₂ := (tracked_of_run hrun₂ peer).trans hpeer₁
  refine bind_ne (bind_ne (progressAt_ne hpeer₂) fun _ _ => traced_ne _) fun r₃ haggressive => ?_
  have hrun₃ : LeaderRun Env.silent r₂ r₃ := sendAppendAggressively_run hrun₂.state
    ((toOption_sendAppendAggressively r₂ peer).symm.trans (toOption_eq_some.mpr haggressive))
  exact maybeTimeoutNow_ne ((tracked_of_run hrun₃ peer).trans hpeer₂)

theorem handleAppendAccept_asserts_iff {pr₀ : Progress} (hstate : r.state = .leader)
    (hget : r.tracker.get m.sender = some pr₀) (hmatched : pr.matched = pr₀.matched)
    (hgroup : pr.commitGroupId = pr₀.commitGroupId) :
    handleAppendAccept r m pr = .error .progressAt ↔
      r.tracker.get r.id = none ∧ pr₀.matched < m.index ∧
        r.raftLog.Commits (r.tracker.acknowledge m.sender m.index).maxCommittedIndex.1 r.term := by
  have hupdated : (pr.maybeUpdate m.index).2 = decide (pr₀.matched < m.index) := by
    rw [← hmatched]
    rfl
  simp only [handleAppendAccept, hupdated]
  split
  next hle =>
    simp only [decide_eq_false_iff_not] at hle
    simp [hle]
  next hlt =>
    have hlt : pr₀.matched < m.index := by simpa using hlt
    generalize hacked : r.setProgress m.sender
      (acknowledgedProgress (pr.maybeUpdate m.index).1 m.index) = acked
    have hpeer : (acked.tracker.get m.sender).isSome = true := by
      rw [← hacked, isSome_get_setProgress, hget]
      rfl
    have hleader : acked.state = .leader := by
      rw [← hacked]
      exact hstate
    have hlt' : pr.matched < m.index := hmatched ▸ hlt
    obtain ⟨hmatched₁, hgroup₁⟩ := maybeUpdate_acked hlt'
    obtain ⟨hmatched₂, hgroup₂⟩ := acknowledgedProgress_acked (pr.maybeUpdate m.index).1 m.index
    have hasserts : maybeCommit acked = .error .progressAt ↔ r.tracker.get r.id = none ∧
        r.raftLog.Commits (r.tracker.acknowledge m.sender m.index).maxCommittedIndex.1 r.term := by
      rw [maybeCommit_asserts_iff, ← hacked, get_setProgress_eq_none,
        maxCommittedIndex_setProgress hget (hmatched₂.trans hmatched₁)
          (hgroup₂.trans (hgroup₁.trans hgroup))]
      rfl
    rw [bind_progressAt_iff_left fun _ hcommit => afterCommit_ne hleader hpeer hcommit, hasserts]
    simp only [hlt, true_and]

theorem handleAppendReject_ne {probe : ℕ} (hget : (r.tracker.get m.sender).isSome = true) :
    handleAppendReject r m pr probe ≠ .error .progressAt := by
  simp only [handleAppendReject]
  split
  · exact sendAppend_ne ((isSome_get_setProgress _ _ _ _).trans hget)
  · exact pure_ne _

theorem handleAppendResponse_asserts_iff (hstate : r.state = .leader) :
    handleAppendResponse r m = .error .progressAt ↔
      r.tracker.get r.id = none ∧ r.CommitsBy m := by
  unfold handleAppendResponse CommitsBy
  cases hprobe : r.nextProbeIndex m with
  | none =>
      -- only a rejection is searched for in the log
      refine iff_of_false (by simp [traced, Bind.bind, Except.bind]) ?_
      rintro ⟨-, hreject, -⟩
      simp [nextProbeIndex, hreject] at hprobe
  | some probe =>
      simp only [traced_bind_progressAt_iff, some.injEq, exists_eq_left']
      cases hget : r.tracker.get m.sender with
      | none => simp
      | some pr =>
          simp only [some.injEq, exists_eq_left']
          split
          next hreject =>
            refine iff_of_false (handleAppendReject_ne (by rw [hget]; rfl)) ?_
            rintro ⟨-, hfalse, -⟩
            exact absurd (hreject.symm.trans hfalse) (by simp)
          next haccept =>
            have hcommitted : ∀ pr : Progress, (pr.updateCommitted m.commit).matched = pr.matched ∧
                (pr.updateCommitted m.commit).commitGroupId = pr.commitGroupId := by
              intro pr
              unfold Progress.updateCommitted
              split <;> exact ⟨rfl, rfl⟩
            have hfalse : m.reject = false := by simpa using haccept
            have hiff := handleAppendAccept_asserts_iff (m := m) hstate hget
              (hcommitted { pr with recentActive := true }).1
              (hcommitted { pr with recentActive := true }).2
            rw [hiff]
            simp only [hfalse, true_and]

theorem stepCurrentTerm_asserts_iff :
    stepCurrentTerm r m = .error .progressAt ↔ r.tracker.get r.id = none ∧
      (r.ElectedBy m ∨ Acknowledges r m ∧ r.CommitsBy m) := by
  by_cases hstate : r.state = .leader
  swap
  · exact (stepCurrentTerm_elects hstate).asserts.trans (by simp [Acknowledges, hstate])
  have hsilent : ¬Answers r m := by simp [Answers, hstate]
  simp only [ElectedBy, HupElects, hstate, ne_eq, not_true, false_and, and_false, false_or, hsilent,
    stepCurrentTerm, if_false]
  split
  next hcampaigns =>
    have hack : ¬Acknowledges r m := by
      obtain ⟨-, hkind | ⟨-, hkind⟩⟩ := hcampaigns <;> simp [Acknowledges, hkind]
    simp [hup, hstate, hack]
  · split
    next hack =>
      rw [bind_progressAt_iff_left (by simp), handleAppendResponse_asserts_iff hstate]
      simp [hack]
    next hother => simp [hother]

theorem step_asserts_iff (r : Raft σ) (m : Message) : step r m = .error .progressAt ↔
    r.tracker.get r.id = none ∧ r.LooksItselfUp (.step m) := by
  unfold LooksItselfUp
  rcases step_eq r m with ⟨r₁, hadopted, hstep⟩ | ⟨hadopted, hne, -⟩
  · rw [hstep, stepCurrentTerm_asserts_iff, (adopted_keeps hadopted).1]
    simp only [hadopted, some.injEq, exists_eq_left']
  · exact iff_of_false hne (by simp [hadopted])

theorem tick_asserts_iff (r : Raft σ) : tick r = .error .progressAt ↔
    r.tracker.get r.id = none ∧ r.LooksItselfUp .tick := by
  unfold tick
  split
  next hleader => simp [LooksItselfUp, TickElects, HupElects, hleader]
  next hstate => exact (tickElection_elects hstate).asserts

theorem onPersistEntries_asserts_iff (r : Raft σ) (index term : ℕ) :
    onPersistEntries r index term = .error .progressAt ↔
      r.tracker.get r.id = none ∧ r.LooksItselfUp (.onPersistEntries index term) := by
  simp only [onPersistEntries, LooksItselfUp, ← RaftLog.maybePersist_iff]
  split
  next hupdate =>
    cases hget : r.tracker.get r.id with
    | none => simp [ProgressTracker.progressAt, hget, Bind.bind, Except.bind, hupdate]
    | some pr =>
        refine iff_of_false (bind_ne (progressAt_ne (by rw [hget]; rfl)) fun pr' _ => ?_) (by simp)
        split
        · refine bind_ne ?_ fun result _ => ?_
          · rw [Ne, maybeCommit_asserts_iff, get_setProgress_eq_none]
            rintro ⟨hnone, -⟩
            exact absurd (hget.symm.trans hnone) (by simp)
          · split <;> simp
        · exact pure_ne _
  next hquiet =>
    refine iff_of_false (pure_ne _) ?_
    rintro ⟨-, hstate, hpersist⟩
    exact hquiet ⟨hpersist, hstate⟩

theorem commitAndBroadcast_asserts_iff (r : Raft σ) :
    commitAndBroadcast r = .error .progressAt ↔ r.tracker.get r.id = none ∧
      r.raftLog.Commits r.tracker.maxCommittedIndex.1 r.term := by
  unfold commitAndBroadcast
  rw [bind_progressAt_iff_left fun _ _ => by split; split <;> simp, maybeCommit_asserts_iff]

omit [Storage σ] [Codec] in
/-- Groups are assigned without another effect. -/
theorem assignGroups_eq {ids : List (ℕ × ℕ)} (h : r.assignGroups ids = some r') :
    ∃ tracker, r' = { r with tracker } ∧ tracker.groupCommit = r.tracker.groupCommit ∧
      ∀ v, (tracker.get v).isSome = (r.tracker.get v).isSome := by
  induction ids generalizing r with
  | nil =>
      obtain rfl := some.inj h
      exact ⟨r.tracker, rfl, rfl, fun _ => rfl⟩
  | cons p ids ih =>
      simp only [assignGroups, List.foldlM_cons] at h
      split at h
      · cases h
      · obtain ⟨tracker, rfl, hgroup, htracked⟩ := ih h
        refine ⟨tracker, rfl, hgroup, fun v => (htracked v).trans ?_⟩
        simp only [ProgressTracker.modify, ProgressTracker.get, ListMap.get_modify]
        split <;> simp

theorem assignCommitGroups_asserts_iff (r : Raft σ) (ids : List (ℕ × ℕ)) :
    assignCommitGroups r ids = .error .progressAt ↔
      r.tracker.get r.id = none ∧ r.LooksItselfUp (.assignCommitGroups ids) := by
  unfold assignCommitGroups LooksItselfUp
  cases hassign : r.assignGroups ids with
  | none =>
      refine iff_of_false (by simp [traced, Bind.bind, Except.bind]) ?_
      rintro ⟨-, -, -, r', hr', -⟩
      exact absurd (hassign.symm.trans hr') (by simp)
  | some r₁ =>
      obtain ⟨tracker, rfl, hgroup, htracked⟩ := assignGroups_eq hassign
      have hself : tracker.get r.id = none ↔ r.tracker.get r.id = none := by
        simp only [← not_isSome_iff_eq_none, htracked]
      show (if r.state = .leader ∧ tracker.groupCommit = true then _ else _) = _ ↔ _
      split
      next hleader =>
        rw [commitAndBroadcast_asserts_iff]
        simp only [hself, hleader.1, hgroup.symm.trans hleader.2, true_and, hassign,
          some.injEq, exists_eq_left']
      next hquiet =>
        refine iff_of_false (pure_ne _) ?_
        rintro ⟨-, hstate, htrue, -⟩
        exact hquiet ⟨hstate, hgroup.trans htrue⟩

theorem enableGroupCommit_asserts_iff (r : Raft σ) (enable : Bool) :
    enableGroupCommit r enable = .error .progressAt ↔
      r.tracker.get r.id = none ∧ r.LooksItselfUp (.enableGroupCommit enable) := by
  simp only [enableGroupCommit, LooksItselfUp]
  split
  next hleader =>
    obtain ⟨hstate, rfl⟩ := hleader
    rw [commitAndBroadcast_asserts_iff]
    simp only [hstate, true_and]
    rfl
  next hquiet =>
    refine iff_of_false (pure_ne _) ?_
    rintro ⟨-, hstate, henable, -⟩
    exact hquiet ⟨hstate, henable⟩

/-- One call: the assertion fails iff a node without a progress of its own has to look it up. -/
theorem call_asserts_iff (r : Raft σ) (c : LeaderCall) :
    call r c = .error .progressAt ↔ r.tracker.get r.id = none ∧ r.LooksItselfUp c := by
  cases c with
  | step m =>
      exact (map_progressAt_iff Prod.fst).trans (step_asserts_iff r m)
  | tick => exact (map_progressAt_iff Prod.fst).trans (tick_asserts_iff r)
  | onPersistEntries index term => exact onPersistEntries_asserts_iff r index term
  | enableGroupCommit enable => exact enableGroupCommit_asserts_iff r enable
  | assignCommitGroups ids => exact assignCommitGroups_asserts_iff r ids
  | _ => exact iff_of_false (traced_ne _) fun h => h.2

/-- **A leader that has left.**  The traces are those of the model, and in any sequence of calls
from any state the assertion of `ProgressTracker::at` fails iff the calls bring the node to a
state without a progress of its own where the next call makes it look itself up: as a leader it
commits or takes note of a persisted entry, or it is elected. -/
theorem calls_assert_iff (r : Raft σ) (cs : List LeaderCall) :
    (calls r cs).toOption = r.calls cs ∧
      (calls r cs = .error .progressAt ↔
        ∃ before c after r', cs = before ++ c :: after ∧ r.calls before = some r' ∧
          r'.tracker.get r'.id = none ∧ r'.LooksItselfUp c) := by
  refine ⟨toOption_calls r cs, ?_⟩
  induction cs generalizing r with
  | nil =>
      refine iff_of_false (pure_ne r) ?_
      rintro ⟨before, c, after, r', hcs, -⟩
      exact absurd hcs (by simp)
  | cons c cs ih =>
      have hcons : calls r (c :: cs) = (call r c >>= fun r' => calls r' cs) := by
        simp only [calls, List.foldlM_cons]
      rw [hcons, bind_progressAt_iff, call_asserts_iff]
      constructor
      · rintro (hfirst | ⟨r₁, hcall, hrest⟩)
        · exact ⟨[], c, cs, r, rfl, rfl, hfirst⟩
        · obtain ⟨before, c', after, r', rfl, hbefore, hmoves⟩ := (ih r₁).mp hrest
          refine ⟨c :: before, c', after, r', rfl, ?_, hmoves⟩
          have hcall' : r.call c = some r₁ :=
            (toOption_call r c).symm.trans (toOption_eq_some.mpr hcall)
          rw [Raft.calls, List.foldlM_cons, hcall']
          exact hbefore
      · rintro ⟨before, c', after, r', hcs, hbefore, hmoves⟩
        cases before with
        | nil =>
            obtain ⟨rfl, rfl⟩ := List.cons.inj hcs
            obtain rfl := some.inj hbefore
            exact Or.inl hmoves
        | cons c₁ before =>
            obtain ⟨rfl, rfl⟩ := List.cons.inj hcs
            rw [Raft.calls, List.foldlM_cons] at hbefore
            obtain ⟨r₁, hcall, hbefore⟩ := of_bind hbefore
            refine Or.inr ⟨r₁, ?_, (ih r₁).mpr ⟨before, c', after, r', rfl, hbefore, hmoves⟩⟩
            exact toOption_eq_some.mp ((toOption_call r c).trans hcall)

end Raft.Traced

/-! ## A leader that removes itself -/

namespace Driven

/-- Two voters. -/
def pairStore : MemoryStorage := { confState := { voters := [1, 2] } }

def removeOne : ConfChangeV2 := { changes := [{ changeType := .removeNode, nodeId := 1 }] }

/-- A codec that knows this change only. -/
@[reducible]
def removalCodec : Codec :=
  { Codec.plain with
    confChangeV2Bytes := fun _ => [1]
    confChangeV2OfBytes := fun _ => some removeOne }

/-- Server 2 answers to the leader. -/
def answerOfTwo (msgType : MessageType) (index : ℕ) : Message :=
  { msgType, sender := 2, receiver := 1, term := 1, index }

/-- Server 1 is elected and proposes to remove itself. -/
def proposesRemoval : List Drive :=
  [.input .campaign, .ready, .advance,
    .input (.step (answerOfTwo .msgRequestVoteResponse 0)), .ready, .advance,
    .input (.step (answerOfTwo .msgAppendResponse 1)), .ready, .advance,
    .proposeConfChange [] removeOne]

/-- It proposes one more entry, and applies the removal before that is committed. -/
def departs : List Drive :=
  proposesRemoval ++
    [.input (.propose [] [7]), .ready, .advance,
      .input (.step (answerOfTwo .msgAppendResponse 2)), .ready, .applyConfChange removeOne,
      .advance]

/-- It proposes one more entry, and applies the removal before that is reported as
persisted. -/
def departsUnpersisted : List Drive :=
  proposesRemoval ++
    [.ready, .advance, .input (.step (answerOfTwo .msgAppendResponse 2)),
      .input (.propose [] [7]), .ready, .applyConfChange removeOne, .advanceAppendAsync]

/-- Server 2 acknowledges the last entry, or the application reports it as persisted: the leader
aborts. -/
theorem departed_leader_asserts :
    letI := removalCodec
    ∃ n, RawNode.new { id := 1 } pairStore (fun _ => 0) = some n ∧
      (∃ d pages, Run Legal { node := n } departs d pages ∧ d.node.raft.state = .leader ∧
        d.node.raft.tracker.get d.node.raft.id = none ∧ d.node.raft.raftLog.committed = 2 ∧
        d.node.raft.raftLog.lastIndex = some 3 ∧
        Raft.Traced.calls d.node.raft [.step (answerOfTwo .msgAppendResponse 3)] =
          .error .progressAt) ∧
      ∃ d pages, Run Legal { node := n } departsUnpersisted d pages ∧
        d.node.raft.state = .leader ∧ d.node.raft.tracker.get d.node.raft.id = none ∧
        d.node.raft.raftLog.persisted = 2 ∧ d.node.raft.raftLog.lastIndex = some 3 ∧
        Raft.Traced.calls d.node.raft [.onPersistEntries 3 1] = .error .progressAt := by
  decide +kernel

end Driven

end Raftpp
