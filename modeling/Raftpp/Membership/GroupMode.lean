import Raftpp.Ready.Driver

/-!
# The mode of group commit

`EnableGroupCommit` sets a flag of the progress tracker.  Elections, configuration
changes and persistence leave it alone, and so does every message but one: a snapshot
that is restored brings a new tracker, in which the flag is off.  The node then goes
back to plain majorities although nobody has asked for it.

The elementary steps say this for every message but a snapshot, wherever it comes
from.
-/

namespace Raftpp

open Option RawNode

/-! ## Elementary steps -/

section Steps

variable {σ : Type} [Storage σ] [Codec] {env : Env} {c c' : NodeCore σ}

/-- Only the installation of a snapshot changes the mode. -/
theorem Micro.groupCommit_eq (hquiet : ∀ m, env.sent m → m.msgType ≠ .msgSnapshot)
    (h : Micro env c c') : c'.groupCommit = c.groupCommit := by
  cases h with
  | install m log tracker maxInflight hm hkind => exact absurd hkind (hquiet m hm.sent)
  | _ => rfl

theorem Steps.groupCommit_eq (hquiet : ∀ m, env.sent m → m.msgType ≠ .msgSnapshot)
    (h : Steps env c c') : c'.groupCommit = c.groupCommit := by
  induction h with
  | refl => rfl
  | tail _ hmicro ih => exact (hmicro.groupCommit_eq hquiet).trans ih

/-- Everything may happen but the delivery of a snapshot, and messages need not be addressed to
the node that gets them. -/
def Env.quiet : Env := { Env.free fun m => m.msgType ≠ .msgSnapshot with proper := False }

theorem Steps.quiet (h : Steps Env.quiet c c') : c'.groupCommit = c.groupCommit :=
  h.groupCommit_eq fun _ => id

end Steps

namespace Raft

variable {σ : Type} [Storage σ] [Codec] {r r' : Raft σ} {m : Message} {result : Result Unit}

variable {ids : List (ℕ × ℕ)}

/-- Two states of a node with one mode. -/
def SameMode (r r' : Raft σ) : Prop := r'.tracker.groupCommit = r.tracker.groupCommit

omit [Storage σ] [Codec] in
theorem SameMode.trans {r'' : Raft σ} (h : SameMode r r') (h' : SameMode r' r'') :
    SameMode r r'' := Eq.trans h' h

theorem SameMode.of_steps (h : Steps Env.quiet r.core r'.core) : SameMode r r' :=
  h.quiet

theorem SameMode.of_run (h : LeaderRun Env.quiet r r') : SameMode r r' :=
  .of_steps h.steps

/-! ## Messages other than snapshots -/

omit [Storage σ] [Codec] in
theorem send_mode (h : r.send m = some r') : SameMode r r' :=
  congrArg NodeCore.groupCommit (send_core h)

omit [Codec] in
theorem becomeFollower_mode {term leader : ℕ} (h : r.becomeFollower term leader = some r') :
    SameMode r r' := by
  obtain ⟨tracks, hcore⟩ := becomeFollower_core h
  exact congrArg NodeCore.groupCommit hcore

omit [Storage σ] [Codec] in
theorem stepLowerTerm_mode (h : r.stepLowerTerm m = some r') : SameMode r r' := by
  unfold stepLowerTerm at h
  split at h
  · exact send_mode h
  split at h
  · exact send_mode h
  · exact some.inj h ▸ rfl

/-- No message but a snapshot changes the mode. -/
theorem step_mode (hkind : m.msgType ≠ .msgSnapshot) (h : r.step m = some (r', result)) :
    SameMode r r' := by
  have hexpected : Expected .quiet r m := ⟨fun _ => trivial, fun _ _ _ _ _ => trivial⟩
  exact .of_steps (step_steps (fun _ => ⟨hkind, False.elim, False.elim⟩) hexpected
    ⟨fun _ => trivial, fun _ _ => trivial, fun _ _ _ => trivial⟩ h)

/-! ## Snapshots -/

/-- `Restore` installs the snapshot: it is not behind the commit index, it lists the node, the
log does not hold it, and its configuration can be restored. -/
structure Installs (r : Raft σ) (snapshot : Snapshot) : Prop where
  committed : r.raftLog.committed ≤ snapshot.metadata.index
  member : r.id ∈ snapshot.metadata.confState.voters ∨
    r.id ∈ snapshot.metadata.confState.learners ∨
      r.id ∈ snapshot.metadata.confState.votersOutgoing
  missing : r.holdsSnapshot snapshot.metadata = some false
  conf : ∃ tracker, restoreTracker (.new r.maxInflightMessages) (snapshot.metadata.index + 1)
    snapshot.metadata.confState = .ok tracker

/-- The message makes the node install a snapshot: it comes with a later term, or with the node's
term or none to a node that does not lead. -/
structure Restores (r : Raft σ) (m : Message) : Prop where
  kind : m.msgType = .msgSnapshot
  heard : r.term < m.term ∨ (m.term = 0 ∨ m.term = r.term) ∧ r.state ≠ .leader
  installs : r.Installs m.snapshot

/-- The mode after a step that installs a snapshot exactly if `P`. -/
def ModeAfter (P : Prop) (r r' : Raft σ) : Prop :=
  (P ∧ r'.tracker.groupCommit = false) ∨ (¬P ∧ SameMode r r')

theorem restore_mode {snapshot : Snapshot} {restored : Bool} (hstate : r.state = .follower)
    (h : r.restore snapshot = some (r', restored)) :
    ModeAfter (r.Installs snapshot) r r' := by
  simp only [restore] at h
  split at h
  next hbehind =>
    exact Or.inr ⟨fun hi => absurd hi.committed (not_le.mpr hbehind), of_some_pair h ▸ rfl⟩
  next hcommitted =>
    rw [if_neg (by simp [hstate])] at h
    split at h
    next hstranger =>
      refine Or.inr ⟨fun hi => ?_, of_some_pair h ▸ rfl⟩
      obtain ⟨hvoter, hlearner, houtgoing⟩ := hstranger
      exact hi.member.elim hvoter (Or.rec hlearner houtgoing)
    next hmember =>
      obtain ⟨holds, hholds, h⟩ := of_bind h
      cases holds with
      | true =>
          refine Or.inr ⟨fun hi => absurd (hi.missing.symm.trans hholds) (by simp), ?_⟩
          rw [if_pos rfl] at h
          obtain ⟨⟨log, result⟩, -, h⟩ := of_bind h
          exact of_some_pair h ▸ rfl
      | false =>
          rw [if_neg (by simp)] at h
          simp only [installSnapshot, RaftLog.restore, if_neg hcommitted] at h
          split at h
          next e hconf =>
            refine Or.inr ⟨fun hi => ?_, of_some_pair h ▸ rfl⟩
            obtain ⟨tracker, htracker⟩ := hi.conf
            exact absurd (hconf.symm.trans htracker) (by simp)
          next tracker htracker =>
            refine Or.inl ⟨⟨not_lt.mp hcommitted, by tauto, hholds, tracker, htracker⟩, ?_⟩
            obtain ⟨⟨r₁, cs⟩, hpost, h⟩ := of_bind h
            obtain rfl := postConfChange_follower (by exact hstate) hpost
            cases h
            exact (restoreTracker_rest htracker).2

section

omit [Storage σ] [Codec]

theorem ModeAfter.trans_left {P : Prop} {r₀ : Raft σ} (hsame : SameMode r₀ r)
    (h : ModeAfter P r r') : ModeAfter P r₀ r' :=
  h.imp_right fun hkept => ⟨hkept.1, hsame.trans hkept.2⟩

theorem ModeAfter.trans_right {P : Prop} {r'' : Raft σ} (h : ModeAfter P r r')
    (hsame : SameMode r' r'') : ModeAfter P r r'' :=
  h.imp (fun hoff => ⟨hoff.1, Eq.trans hsame hoff.2⟩) fun hkept => ⟨hkept.1, hkept.2.trans hsame⟩

theorem ModeAfter.congr {P Q : Prop} (hiff : P ↔ Q) (h : ModeAfter P r r') : ModeAfter Q r r' :=
  h.imp (And.imp_left hiff.mp) (And.imp_left fun hnot hq => hnot (hiff.mpr hq))

end

theorem handleSnapshot_mode (hstate : r.state = .follower)
    (h : r.handleSnapshot m = some r') : ModeAfter (r.Installs m.snapshot) r r' := by
  unfold handleSnapshot at h
  obtain ⟨⟨r₁, restored⟩, hrestore, h⟩ := of_bind h
  obtain ⟨index, -, h⟩ := of_bind h
  exact (restore_mode hstate hrestore).trans_right (send_mode h)

omit [Codec] in
/-- Becoming a follower does not change which snapshots a node installs. -/
theorem becomeFollower_installs {term leader : ℕ} {snapshot : Snapshot}
    (h : r.becomeFollower term leader = some r') :
    r'.state = .follower ∧ (r'.Installs snapshot ↔ r.Installs snapshot) := by
  simp only [becomeFollower, reset] at h
  obtain ⟨r₁, hreset, h⟩ := of_bind h
  obtain ⟨last, -, hreset⟩ := of_bind hreset
  cases hreset
  cases h
  exact ⟨rfl, fun h => ⟨h.1, h.2, h.3, h.4⟩, fun h => ⟨h.1, h.2, h.3, h.4⟩⟩

theorem stepCurrentTerm_snapshot_mode (hkind : m.msgType = .msgSnapshot)
    (h : r.stepCurrentTerm m = some (r', result)) :
    ModeAfter (r.state ≠ .leader ∧ r.Installs m.snapshot) r r' := by
  have hcandidate : r.state ≠ .leader → r.stepCandidate m = some (r', result) →
      ModeAfter (r.state ≠ .leader ∧ r.Installs m.snapshot) r r' := by
    intro hstate h
    simp only [stepCandidate, hkind] at h
    obtain ⟨r₁, hfollow, h⟩ := of_bind h
    obtain ⟨hfollower, hinstalls⟩ := becomeFollower_installs hfollow
    refine (ModeAfter.trans_left (becomeFollower_mode hfollow)
      (handleSnapshot_mode hfollower (of_bind_pair h))).congr ?_
    rw [hinstalls]
    exact (and_iff_right hstate).symm
  simp only [stepCurrentTerm, hkind] at h
  split at h
  next hstate => exact hcandidate (by simp [hstate]) h
  next hstate => exact hcandidate (by simp [hstate]) h
  next hstate =>
    simp only [stepFollower, hkind] at h
    have hafter := handleSnapshot_mode (by exact hstate) (of_bind_pair h)
    refine ModeAfter.congr ⟨fun h => ⟨by simp [hstate], ?_⟩, fun h => ?_⟩ hafter
    · exact ⟨h.1, h.2, h.3, h.4⟩
    · exact ⟨h.2.1, h.2.2, h.2.3, h.2.4⟩
  next hstate =>
    simp only [stepLeader, hkind] at h
    exact Or.inr ⟨fun hi => hi.1 hstate, of_some_pair h ▸ rfl⟩

/-- A step turns the mode off exactly if it restores a snapshot. -/
theorem step_modeAfter (h : r.step m = some (r', result)) : ModeAfter (r.Restores m) r r' := by
  by_cases hkind : m.msgType = .msgSnapshot
  · unfold step at h
    split at h
    next hzero =>
      refine (stepCurrentTerm_snapshot_mode hkind h).congr ⟨fun hi => ?_, fun hi => ?_⟩
      · exact ⟨hkind, Or.inr ⟨Or.inl hzero, hi.1⟩, hi.2⟩
      · exact ⟨(hi.heard.resolve_left (by omega)).2, hi.installs⟩
    next hne =>
      split at h
      next hlater =>
        rw [if_neg (by simp [ignoresVote, hkind])] at h
        obtain ⟨r₁, hhigher, h⟩ := of_bind h
        simp only [stepHigherTerm, hkind, reduceCtorEq, or_true, if_true, if_false, false_and,
          or_false] at hhigher
        obtain ⟨hfollower, hinstalls⟩ := becomeFollower_installs hhigher
        refine (ModeAfter.trans_left (becomeFollower_mode hhigher)
          (stepCurrentTerm_snapshot_mode hkind h)).congr ?_
        rw [hinstalls]
        exact ⟨fun hi => ⟨hkind, Or.inl hlater, hi.2⟩, fun hi => ⟨by simp [hfollower], hi.installs⟩⟩
      next hle =>
        split at h
        next hearlier =>
          refine Or.inr ⟨fun hi => ?_, stepLowerTerm_mode (of_bind_pair h)⟩
          rcases hi.heard with hlater | ⟨hzero | hsame, -⟩ <;> omega
        next hge =>
          refine (stepCurrentTerm_snapshot_mode hkind h).congr ⟨fun hi => ?_, fun hi => ?_⟩
          · exact ⟨hkind, Or.inr ⟨Or.inr (by omega), hi.1⟩, hi.2⟩
          · exact ⟨(hi.heard.resolve_left (by omega)).2, hi.installs⟩
  · exact Or.inr ⟨fun hi => hkind hi.kind, step_mode hkind h⟩

/-! ## Group commit -/

theorem commitAndBroadcast_mode (hstate : r.state = .leader)
    (h : r.commitAndBroadcast = some r') : SameMode r r' := by
  simp only [commitAndBroadcast] at h
  obtain ⟨⟨r₁, committed⟩, hcommit, h⟩ := of_bind h
  have h₁ : LeaderRun Env.quiet r r₁ := maybeCommit_run hstate hcommit
  split at h
  · exact .of_run (h₁.trans (broadcastAppend_run h₁.state h))
  · exact some.inj h ▸ .of_run h₁

/-- The setter sets the mode. -/
theorem enableGroupCommit_mode {enable : Bool} (h : r.enableGroupCommit enable = some r') :
    r'.tracker.groupCommit = enable := by
  unfold enableGroupCommit at h
  dsimp only at h
  split at h
  next hleader =>
    have hset : SameMode { r with tracker := { r.tracker with groupCommit := enable } } r' :=
      commitAndBroadcast_mode hleader.1 h
    exact hset
  · exact some.inj h ▸ rfl

omit [Storage σ] [Codec] in
theorem assignGroups_mode (h : r.assignGroups ids = some r') : SameMode r r' := by
  induction ids generalizing r with
  | nil => exact some.inj h ▸ rfl
  | cons id ids ih =>
      obtain ⟨peer, groupId⟩ := id
      simp only [assignGroups, List.foldlM_cons] at h
      obtain ⟨r₁, hone, h⟩ := of_bind h
      split at hone
      · cases hone
      · cases hone
        have hrest := ih h
        exact hrest

theorem assignCommitGroups_mode (h : r.assignCommitGroups ids = some r') : SameMode r r' := by
  unfold assignCommitGroups at h
  obtain ⟨r₁, hassign, h⟩ := of_bind h
  have hassigned := assignGroups_mode hassign
  split at h
  next hleader => exact hassigned.trans (commitAndBroadcast_mode hleader.1 h)
  · exact some.inj h ▸ hassigned

end Raft

namespace RawNode

variable {σ : Type} [WritableStorage σ] [Codec] {n n' : RawNode σ} {rd : Ready}

/-- Two states of a raw node with one mode. -/
def SameMode (n n' : RawNode σ) : Prop := Raft.SameMode n.raft n'.raft

theorem input_modeAfter {call : Input} (h : n.input call = some n') :
    Raft.ModeAfter (∃ m, call = .step m ∧ n.raft.Restores m) n.raft n'.raft := by
  by_cases hstep : ∃ m, call = .step m
  · obtain ⟨m, rfl⟩ := hstep
    have hiff : n.raft.Restores m ↔ ∃ m', Input.step m = .step m' ∧ n.raft.Restores m' := by
      constructor
      · exact fun hr => ⟨m, rfl, hr⟩
      · rintro ⟨m', hm, hr⟩
        cases hm
        exact hr
    refine Raft.ModeAfter.congr hiff ?_
    simp only [input, step] at h
    split at h
    next hlocal =>
      refine Or.inr ⟨fun hr => ?_, some.inj h ▸ rfl⟩
      rw [hr.kind] at hlocal
      cases hlocal
    split at h
    · obtain ⟨raft, result, hcall, rfl⟩ := of_withRaft h
      exact Raft.step_modeAfter hcall
    next hresponse =>
      refine Or.inr ⟨fun hr => hresponse (Or.inr ?_), some.inj h ▸ rfl⟩
      rw [hr.kind]
      rfl
  · refine Or.inr ⟨fun hr => hstep (hr.imp fun _ => And.left), ?_⟩
    obtain ⟨raft, hsteps, rfl⟩ := @input_eq σ _ _ Env.quiet n n' call h
      (fun m hm => absurd ⟨m, hm⟩ hstep) (fun m hm => absurd ⟨m, hm⟩ hstep) (fun _ => trivial)
      (fun _ => trivial) fun _ _ => trivial
    exact Raft.SameMode.of_steps hsteps

/-- A new node counts plain majorities. -/
theorem new_mode {config : Config} {store : σ} {rng : ℕ → ℕ}
    (h : RawNode.new config store rng = some n) : n.raft.tracker.groupCommit = false := by
  obtain ⟨-, -, -, -, state, -, hboot⟩ := new_booted h
  exact hboot.groupCommit

theorem getLightReady_mode {light : LightReady} (h : n.getLightReady = some (n', light)) :
    SameMode n n' :=
  congrArg NodeCore.groupCommit (getLightReady_flushes h).core

theorem getReady_mode (h : n.getReady = some (n', rd)) : SameMode n n' :=
  congrArg NodeCore.groupCommit (getReady_takes h).core

omit [WritableStorage σ] [Codec] in
theorem commitReady_mode (h : n.commitReady rd = some n') : SameMode n n' := by
  obtain ⟨record, log, -, -, rfl⟩ := commitReady_eq h
  rfl

theorem onPersistReady_mode {number : ℕ} (h : n.onPersistReady number = some n') :
    SameMode n n' := by
  unfold onPersistReady at h
  obtain ⟨raft, hreport, h⟩ := of_bind h
  cases h
  exact Raft.SameMode.of_steps (reportPersisted_steps trivial hreport)

theorem advanceAppend_mode {light : LightReady} (h : n.advanceAppend rd = some (n', light)) :
    SameMode n n' := by
  obtain ⟨n₁, n₂, n₃, light₃, hcommit, hpersist, hlight, -, rfl, -, -⟩ := advanceAppend_eq h
  have hmode := ((commitReady_mode hcommit).trans (onPersistReady_mode hpersist)).trans
    (getLightReady_mode hlight)
  exact hmode

theorem advanceApplyTo_mode {applied : ℕ} (h : n.advanceApplyTo applied = some n') :
    SameMode n n' := by
  obtain ⟨raft, hsteps, rfl⟩ := @advanceApplyTo_eq σ _ _ Env.quiet n n' applied
    (fun _ _ => trivial) h
  exact Raft.SameMode.of_steps hsteps

theorem applyConfChange_mode {cc : ConfChangeV2}
    (h : (n.applyConfChange cc).map Prod.fst = some n') : SameMode n n' := by
  obtain ⟨tracker, promotable, raft, htracker, hreacts, rfl⟩ :=
    @applyConfChange_eq σ _ _ Env.quiet n n' cc h
  have hconf : tracker.groupCommit = n.raft.tracker.groupCommit := by
    rcases htracker with rfl | ⟨cfg, changes, last, rfl⟩
    · rfl
    · exact (ProgressTracker.applyConf_rest _ _ _ _).2
  exact (Steps.quiet hreacts.steps).trans hconf

end RawNode

/-! ## Runs -/

/-- The calls of an application, with those for group commit. -/
inductive GroupCall
  | drive (op : Drive)
  | enableGroupCommit (enable : Bool)
  | assignCommitGroups (ids : List (ℕ × ℕ))
  deriving DecidableEq

/-- The argument of the latest `EnableGroupCommit` among some calls, `enabled` before them. -/
def latestMode (enabled : Bool) : List GroupCall → Bool
  | [] => enabled
  | .enableGroupCommit enable :: calls => latestMode enable calls
  | .drive _ :: calls | .assignCommitGroups _ :: calls => latestMode enabled calls

namespace Driven

variable {σ : Type} [WritableStorage σ] [Codec] {d d' : Driven σ}

/-- `GroupCommit`. -/
def groupCommit (d : Driven σ) : Bool := d.node.raft.tracker.groupCommit

/-- One call. -/
def groupStep (d : Driven σ) : GroupCall → Option (Driven σ)
  | .drive op => (d.step op).map Prod.fst
  | .enableGroupCommit enable =>
      (d.node.raft.enableGroupCommit enable).map fun raft =>
        { d with node := { d.node with raft } }
  | .assignCommitGroups ids =>
      (d.node.raft.assignCommitGroups ids).map fun raft => { d with node := { d.node with raft } }

/-- The call restores a snapshot while group commit is on. -/
def DropsMode (d : Driven σ) (call : GroupCall) : Prop :=
  d.groupCommit = true ∧
    ∃ m, call = .drive (.input (.step m)) ∧ d.node.raft.Restores m

/-- A sequence of calls, none of which aborts or restores a snapshot while group commit is on. -/
inductive GroupRun : Driven σ → List GroupCall → Driven σ → Prop
  | nil (d : Driven σ) : GroupRun d [] d
  | cons {d d₁ d₂ : Driven σ} {call : GroupCall} {calls : List GroupCall}
      (hkeeps : ¬d.DropsMode call) (hstep : d.groupStep call = some d₁)
      (hrun : GroupRun d₁ calls d₂) : GroupRun d (call :: calls) d₂

/-- What a call of the application does to the mode. -/
theorem step_modeAfter {op : Drive} {pages : List (Page σ)} (h : d.step op = some (d', pages)) :
    Raft.ModeAfter (∃ m, op = .input (.step m) ∧ d.node.raft.Restores m) d.node.raft
      d'.node.raft := by
  have hsame : ∀ {d' : Driven σ}, (∀ m, op ≠ .input (.step m)) →
      RawNode.SameMode d.node d'.node →
      Raft.ModeAfter (∃ m, op = .input (.step m) ∧ d.node.raft.Restores m) d.node.raft
        d'.node.raft :=
    fun hop hmode => Or.inr ⟨fun hr => hop _ hr.choose_spec.1, hmode⟩
  cases step_makes h with
  | input call node hidle hcall =>
      refine (input_modeAfter hcall).congr ⟨?_, ?_⟩
      · rintro ⟨m, rfl, hr⟩
        exact ⟨m, rfl, hr⟩
      · rintro ⟨m, hm, hr⟩
        cases hm
        exact ⟨m, rfl, hr⟩
  | proposeConfChange ctx cc node hidle hcall =>
      obtain ⟨raft, hsteps, rfl⟩ :=
        @RawNode.proposeConfChange_eq σ _ _ Env.quiet d.node node ctx cc trivial hcall
      exact hsame (by simp) (Raft.SameMode.of_steps hsteps)
  | applyConfChange cc node hcall => exact hsame (by simp) (applyConfChange_mode hcall)
  | ready node rd hidle hready =>
      obtain ⟨node, store, hget, -, rfl⟩ := processReady_eq hready
      have hmode := getReady_mode hget
      exact hsame (by simp) hmode
  | advance rd node₁ node light hpending happend happly =>
      exact hsame (by simp)
        ((advanceAppend_mode happend).trans (advanceApplyTo_mode happly))
  | advanceAppend rd node light hpending happend =>
      exact hsame (by simp) (advanceAppend_mode happend)
  | advanceAppendAsync rd node hpending hcommit =>
      exact hsame (by simp) (commitReady_mode hcommit)
  | onPersistReady number node hpersist =>
      exact hsame (by simp) (onPersistReady_mode hpersist)
  | advanceApplyTo applied node hcall => exact hsame (by simp) (advanceApplyTo_mode hcall)

/-- The mode after a call is the latest one, exactly if the call does not drop it. -/
theorem groupStep_mode_iff {call : GroupCall} (h : d.groupStep call = some d') :
    d'.groupCommit = latestMode d.groupCommit [call] ↔ ¬d.DropsMode call := by
  cases call with
  | drive op =>
      obtain ⟨⟨d₁, pages⟩, hstep, rfl⟩ := map_eq_some_iff.mp h
      have hiff : (∃ m, op = .input (.step m) ∧ d.node.raft.Restores m) ↔
          ∃ m, GroupCall.drive op = .drive (.input (.step m)) ∧ d.node.raft.Restores m := by
        simp only [GroupCall.drive.injEq]
      rw [DropsMode, ← hiff, latestMode, latestMode]
      rcases step_modeAfter hstep with ⟨hr, hoff⟩ | ⟨hr, hmode⟩
      · have hoff' : d₁.groupCommit = false := hoff
        simp [hoff', hr]
      · exact iff_of_true hmode fun hdrops => hr hdrops.2
  | enableGroupCommit enable =>
      obtain ⟨raft, henable, rfl⟩ := map_eq_some_iff.mp h
      refine iff_of_true (Raft.enableGroupCommit_mode henable) ?_
      rintro ⟨-, m, hm, -⟩
      cases hm
  | assignCommitGroups ids =>
      obtain ⟨raft, hassign, rfl⟩ := map_eq_some_iff.mp h
      refine iff_of_true (Raft.assignCommitGroups_mode hassign) ?_
      rintro ⟨-, m, hm, -⟩
      cases hm

theorem GroupRun.mode {calls : List GroupCall} (h : GroupRun d calls d') :
    d'.groupCommit = latestMode d.groupCommit calls := by
  induction h with
  | nil => rfl
  | @cons d d₁ d₂ call calls hkeeps hstep _ ih =>
      rw [ih, (groupStep_mode_iff hstep).mpr hkeeps]
      cases call <;> rfl

omit [Codec] in
theorem latestMode_append (enabled : Bool) (calls rest : List GroupCall) :
    latestMode enabled (calls ++ rest) = latestMode (latestMode enabled calls) rest := by
  induction calls generalizing enabled with
  | nil => rfl
  | cons call calls ih => cases call <;> exact ih _

/-- Along every run without such calls the mode is the latest one that was set, and it stays so
with the next call unless that restores a snapshot while group commit is on. -/
theorem groupCommit_latest {config : Config} {store : σ} {rng : ℕ → ℕ} {n : RawNode σ}
    (hnew : RawNode.new config store rng = some n) {calls : List GroupCall}
    (hrun : GroupRun { node := n } calls d) :
    d.groupCommit = latestMode false calls ∧
      ∀ call d', d.groupStep call = some d' →
        (d'.groupCommit = latestMode false (calls ++ [call]) ↔ ¬d.DropsMode call) := by
  have hboot : Driven.groupCommit ({ node := n } : Driven σ) = false := new_mode hnew
  have hmode : d.groupCommit = latestMode false calls := hboot ▸ hrun.mode
  refine ⟨hmode, fun call d' hstep => ?_⟩
  rw [latestMode_append, ← hmode]
  exact groupStep_mode_iff hstep

/-- A snapshot of a leader that has just taken node 1 in. -/
def firstSnapshot : Message :=
  { msgType := .msgSnapshot, receiver := 1, sender := 2, term := 1
    snapshot := { metadata := { index := 5, term := 1, confState := { voters := [1, 2] } } } }

omit [Codec] in
/-- The mode is set after a snapshot and survives an election. -/
theorem groupCommit_latest_campaign :
    letI := Codec.plain
    ∃ n d, RawNode.new { id := 1 } soloStore (fun _ => 0) = some n ∧
      GroupRun { node := n } [.drive (.input (.step firstSnapshot)), .enableGroupCommit true,
        .drive (.input .campaign)] d ∧ d.groupCommit = true := by
  obtain ⟨n, hnew, hoff, d₁, h₁, d₂, h₂, d, h₃, -⟩ : letI := Codec.plain
      ∃ n, RawNode.new { id := 1 } soloStore (fun _ => 0) = some n ∧
        n.raft.tracker.groupCommit = false ∧
        ∃ d₁, groupStep { node := n } (.drive (.input (.step firstSnapshot))) = some d₁ ∧
        ∃ d₂, d₁.groupStep (.enableGroupCommit true) = some d₂ ∧
        ∃ d, d₂.groupStep (.drive (.input .campaign)) = some d ∧ True := by
    decide +kernel
  let _ := Codec.plain
  have hrun : GroupRun { node := n } [.drive (.input (.step firstSnapshot)),
      .enableGroupCommit true, .drive (.input .campaign)] d := by
    refine .cons ?_ h₁ (.cons ?_ h₂ (.cons ?_ h₃ (.nil d)))
    · rintro ⟨hon, -⟩
      exact absurd (hon.symm.trans hoff) (by decide)
    · rintro ⟨-, m, hm, -⟩
      cases hm
    · rintro ⟨-, m, hm, -⟩
      cases hm
  exact ⟨n, d, hnew, hrun, (groupCommit_latest hnew hrun).1⟩

omit [Codec] in
/-- The mode is set, and a snapshot turns it off. -/
theorem groupCommit_dropped :
    letI := Codec.plain
    ∃ n d₁ d₂, RawNode.new { id := 1 } soloStore (fun _ => 0) = some n ∧
      groupStep { node := n } (.enableGroupCommit true) = some d₁ ∧
      d₁.groupStep (.drive (.input (.step firstSnapshot))) = some d₂ ∧
      latestMode false [.enableGroupCommit true, .drive (.input (.step firstSnapshot))] = true ∧
      d₂.groupCommit = false := by
  simp only [exists_and_left]
  decide +kernel

end Driven

end Raftpp
