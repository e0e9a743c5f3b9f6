import Raftpp.Membership.Restore
import Raftpp.Protocol.Backtrack

/-!
# A snapshot is installed as a whole or not at all

`HandleSnapshot` leaves `Restore` early for a snapshot that is behind the committed
index, that does not name the node, that the log holds already, or whose configuration
cannot be built.  Each of these is answered with the committed index and leaves the log,
the configuration and the progress of the peers as they are; a snapshot that is held
already may move the committed index.  Otherwise the log starts anew at the snapshot,
with the configuration of the snapshot, and the snapshot's index is acknowledged.
-/

namespace Raftpp

open Option

namespace Raft

variable {σ : Type} [WritableStorage σ] [Codec] [LawfulStorage σ] {r r' : Raft σ} {s : LogSpec}

/-- The log is the snapshot, and so is the configuration, if the snapshot describes one. -/
structure Installed (r' : Raft σ) (snapshot : Snapshot) (acknowledged : ℕ) : Prop where
  log : r'.raftLog.Represents ⟨snapshot.metadata.index, snapshot.metadata.term, []⟩
  committed : r'.raftLog.committed = snapshot.metadata.index
  lastIndex : r'.raftLog.lastIndex = some snapshot.metadata.index
  conf : ∀ t : ProgressTracker, t.Consistent → t.conf.voters.incoming.isEmpty = false →
    snapshot.metadata.confState.Describes t.conf →
    t.conf.Same r'.tracker.conf ∧ snapshot.metadata.confState.Describes r'.tracker.conf
  acknowledged : acknowledged = snapshot.metadata.index

/-- Nothing has changed but the committed index, and that only to a snapshot that the log `s`
holds. -/
structure Declined (s : LogSpec) (r r' : Raft σ) (snapshot : Snapshot) (acknowledged : ℕ) :
    Prop where
  log : r'.raftLog = { r.raftLog with committed := r'.raftLog.committed }
  tracker : r'.tracker = r.tracker
  committed : r'.raftLog.committed = r.raftLog.committed ∨
    (r'.raftLog.committed = snapshot.metadata.index ∧ s.index ≤ snapshot.metadata.index ∧
      snapshot.metadata.index ≤ s.lastIndex ∧
      s.termOf snapshot.metadata.index = snapshot.metadata.term)
  acknowledged : acknowledged = r'.raftLog.committed

/-- `Restore` returns, whatever the snapshot is. -/
theorem restore_returns {a : AbstractLog} (hlog : r.raftLog.Represents a)
    (hstate : r.state = .follower) (snapshot : Snapshot) :
    ∃ r' restored, r.restore snapshot = some (r', restored) := by
  simp only [restore, bind_eq_bind]
  split
  · exact ⟨_, _, rfl⟩
  rw [if_neg (by simp [hstate])]
  split
  · exact ⟨_, _, rfl⟩
  have hholds : ∃ holds, r.holdsSnapshot snapshot.metadata = some holds := by
    unfold holdsSnapshot
    split
    · exact ⟨_, hlog.matchTerm _ _⟩
    · exact ⟨false, rfl⟩
  obtain ⟨holds, hholds⟩ := hholds
  simp only [hholds, bind_some]
  cases holds with
  | true =>
      simp only [if_true, RaftLog.commitTo, hlog.lastIndex, bind_eq_bind, bind_some]
      split
      · exact ⟨_, _, rfl⟩
      · split <;> exact ⟨_, _, rfl⟩
  | false =>
      simp only [Bool.false_eq_true, if_false]
      unfold installSnapshot
      simp only
      split
      · exact ⟨_, _, rfl⟩
      · split
        · exact ⟨_, _, rfl⟩
        · simp [postConfChange, hstate]

/-- A committed index that has moved to a snapshot has moved to an index of the log. -/
theorem declined_of_commitTo {snapshot : Snapshot} {log : RaftLog σ} {result : Result Unit}
    (h : r.raftLog.Follows s)
    (hmatch : r.raftLog.matchTerm snapshot.metadata.index snapshot.metadata.term = some true)
    (hcommit : r.raftLog.commitTo snapshot.metadata.index = some (log, result)) :
    Declined s r { r with raftLog := log } snapshot log.committed := by
  rw [h.matchTerm, some.injEq, decide_eq_true_eq] at hmatch
  simp only [RaftLog.commitTo, h.lastIndex, bind_eq_bind, bind_some] at hcommit
  split at hcommit
  · cases hcommit
    exact ⟨rfl, rfl, Or.inl rfl, rfl⟩
  next hmoves =>
    split at hcommit
    · cases hcommit
      exact ⟨rfl, rfl, Or.inl rfl, rfl⟩
    next hreaches =>
      cases hcommit
      have hindex := h.index_le
      have hcommitted := h.committed_eq
      exact ⟨rfl, rfl, Or.inr ⟨rfl, by omega, by omega, hmatch⟩, rfl⟩

theorem installed_of_restore {snapshot : Snapshot} {log : RaftLog σ} {tracker : ProgressTracker}
    {size : ℕ} (h : r.raftLog.Follows s)
    (hcommitted : r.raftLog.committed ≤ snapshot.metadata.index)
    (htracker : restoreTracker (.new size) (snapshot.metadata.index + 1)
      snapshot.metadata.confState = .ok tracker)
    (hlog : r.raftLog.restore snapshot = (log, .ok ())) (hraftLog : r'.raftLog = log)
    (hconf : r'.tracker = tracker) : Installed r' snapshot snapshot.metadata.index := by
  have hrestored := h.restore hlog
  have hnew : s.restore snapshot =
      ⟨⟨snapshot.metadata.index, snapshot.metadata.term, []⟩, snapshot.metadata.index,
        s.applied⟩ := by
    unfold LogSpec.restore
    rw [if_neg (by rw [← h.committed_eq]; omega)]
  rw [hnew, ← hraftLog] at hrestored
  refine ⟨hrestored.toRepresents, hrestored.committed_eq, hrestored.lastIndex, ?_, rfl⟩
  intro t ht hvoters hcs
  obtain ⟨t', ht', -, hsame⟩ := restoreTracker_ok ht hcs hvoters size (snapshot.metadata.index + 1)
  cases ht'.symm.trans htracker
  rw [hconf]
  exact ⟨hsame, hcs.of_same hsame⟩

/-- A follower handles every snapshot message, and either installs the snapshot or declines it,
as `Restore` reports. -/
theorem handleSnapshot_all_or_nothing (h : r.raftLog.Follows s) (hstate : r.state = .follower)
    (m : Message) :
    ∃ r₁ restored r' resp, r.restore m.snapshot = some (r₁, restored) ∧
      r.handleSnapshot m = some r' ∧ r'.messages = r.messages ++ [resp] ∧
      resp.msgType = .msgAppendResponse ∧ resp.receiver = m.sender ∧ resp.reject = false ∧
      (restored = true → Installed r' m.snapshot resp.index) ∧
      (restored = false → Declined s r r' m.snapshot resp.index) := by
  obtain ⟨r₁, restored, hrestore⟩ := restore_returns h.toRepresents hstate m.snapshot
  -- the answer changes the queue of messages only
  have hanswer : ∀ {index : ℕ}, r₁.snapshotAckIndex restored = some index →
      r.handleSnapshot m = some { r₁ with messages := r₁.messages ++ [r₁.stamp
        { msgType := .msgAppendResponse, receiver := m.sender, index }] } := by
    intro index hindex
    simp only [handleSnapshot, hrestore, hindex, bind_eq_bind, bind_some]
    rfl
  rcases restore_follower hstate hrestore with ⟨rfl, rfl⟩ |
    ⟨rfl, log, result, rfl, hmatch, hcommit⟩ |
    ⟨rfl, log, tracker, hcommitted, -, htracker, hlog, rfl⟩
  · exact ⟨_, _, _, _, hrestore, hanswer rfl, rfl, rfl, rfl, rfl,
      by simp, fun _ => ⟨rfl, rfl, Or.inl rfl, rfl⟩⟩
  · have hdeclined := declined_of_commitTo h hmatch hcommit
    exact ⟨_, _, _, _, hrestore, hanswer rfl, rfl, rfl, rfl, rfl,
      by simp, fun _ => ⟨hdeclined.log, hdeclined.tracker, hdeclined.committed, rfl⟩⟩
  · have hinstalled : Installed { r with raftLog := log, tracker } m.snapshot
        m.snapshot.metadata.index :=
      installed_of_restore h hcommitted htracker hlog rfl rfl
    have hlast : log.lastIndex = some m.snapshot.metadata.index := hinstalled.lastIndex
    exact ⟨_, _, _, _, hrestore, hanswer hlast, rfl, rfl, rfl, rfl,
      fun _ => installed_of_restore h hcommitted htracker hlog rfl rfl, by simp⟩

end Raft

/-- A snapshot past the end of the log, with a configuration that names the node. -/
def aheadSnapshot : Message where
  msgType := .msgSnapshot
  sender := 1
  snapshot := { metadata := { index := 7, term := 3, confState := { voters := [1, 2, 3] } } }

theorem handleSnapshot_all_or_nothing_ahead :
    letI := Codec.plain
    ∃ r' resp, rejectingFollower.handleSnapshot aheadSnapshot = some r' ∧ r'.messages = [resp] ∧
      resp.index = 7 ∧ r'.raftLog.committed = 7 ∧ r'.raftLog.lastIndex = some 7 ∧
      r'.raftLog.term 7 = some (.ok 3) := by
  let _ := Codec.plain
  have hfollows : rejectingFollower.raftLog.Follows ⟨⟨0, 0, followerEntries⟩, 1, 0⟩ :=
    ⟨rejectingFollower_represents, rfl, by decide, by decide, by decide⟩
  have hrestored : (rejectingFollower.restore aheadSnapshot.snapshot).map Prod.snd = some true := by
    decide +kernel
  obtain ⟨r₁, restored, r', resp, hrestore, hrun, hmessages, -, -, -, hinstalled, -⟩ :=
    Raft.handleSnapshot_all_or_nothing hfollows rfl aheadSnapshot
  rw [hrestore, map_some, some.injEq] at hrestored
  have hdone := hinstalled hrestored
  exact ⟨r', resp, hrun, hmessages, hdone.acknowledged, hdone.committed, hdone.lastIndex,
    (hdone.log.term 7).trans (by decide)⟩

end Raftpp
