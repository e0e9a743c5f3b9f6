import Raftpp.Protocol.Answers
import Raftpp.Protocol.Traced
import Raftpp.Ready.Moves

/-!
# The calls around a `Ready` return

`GetReady`, `CommitReady`, `OnPersistReady`, `AdvanceAppend` and `GetLightReady`
assert that the node's records, its log, its hard state and its cursor of handed
out entries fit together.  `Steady` and `Held` say how they do, between two cycles
and while a `Ready` is being worked on, and each of the calls returns from there.

What can break this from the outside is named where it is used: the node is elected
while an outstanding record carries data, the term of an entry does not fit in 32
bits, or a leader has left its own configuration.
-/

namespace Raftpp

open List Option RaftLog RawNode

variable {rd : Ready}

/-- A record of entries or of a snapshot. -/
def ReadyRecord.carries (record : ReadyRecord) : Bool :=
  record.lastEntry.isSome || record.snapshot.isSome

namespace RawNode

variable {σ : Type} {n n' : RawNode σ} {a : AbstractLog} {records : List ReadyRecord}

/-! ## A `Ready` that is out -/

/-- Nothing has been added since `rd` was taken: the log's memory is what `rd` holds, the term,
the vote and the role are those it reports, and a node that is no leader has sent nothing. -/
structure Held (n : RawNode σ) (rd : Ready) : Prop where
  snapshot : rd.snapshot = n.raft.raftLog.unstable.snapshot
  entries : rd.entries = n.raft.raftLog.unstable.entries
  recorded : n.records.getLast? = some rd.record
  hard : ∃ commit ≤ n.raft.raftLog.committed,
    rd.hs.getD n.prevHs = ⟨n.raft.term, n.raft.vote, commit⟩
  role : (rd.ss.getD n.prevSs).raftState = n.raft.state
  quiet : n.raft.state ≠ .leader → n.raft.messages = []

theorem getD_if_ne {α : Type*} [DecidableEq α] (x y : α) :
    (if x ≠ y then some x else none).getD y = x := by
  by_cases hsame : x = y <;> simp [hsame]

theorem Held.undisturbed {raft : Raft σ} (h : Held n rd) (hsame : n.raft.Undisturbed raft)
    (hrecords : records.getLast? = some rd.record) : Held { n with raft, records } rd := by
  obtain ⟨commit, hle, hhard⟩ := h.hard
  refine ⟨?_, ?_, hrecords, ⟨commit, hle.trans hsame.committed, ?_⟩, ?_, fun hne => ?_⟩
  · rw [h.snapshot, hsame.unstable]
  · rw [h.entries, hsame.unstable]
  · simp only [hsame.term, hsame.vote]
    exact hhard
  · exact h.role.trans hsame.state.symm
  · have hne' : n.raft.state ≠ .leader := hsame.state ▸ hne
    exact (hsame.messages hne').trans (h.quiet hne')

/-- `CommitReady` returns.  `StableEntries` compares the last term as a `uint32_t`. -/
theorem commitReady_returns (h : Held n rd)
    (hterm : ∀ e, rd.entries.getLast? = some e → e.term < 2 ^ 32) :
    ∃ n', n.commitReady rd = some n' := by
  have hstable : ∃ log, stableRecord rd.record n.raft.raftLog = some log := by
    have hentries : ∀ {u : Unstable} {e : Entry}, u.snapshot = none → u.entries = rd.entries →
        rd.entries.getLast? = some e → ∃ u', u.stableEntries e.index e.term = some u' := by
      intro u e hnone hsame he
      simp only [Unstable.stableEntries, hnone, hsame, he, isSome_none,
        Nat.mod_eq_of_lt (hterm e he), ne_eq, not_true_eq_false, or_false, if_false,
        Bool.false_eq_true]
      exact ⟨_, rfl⟩
    unfold stableRecord
    cases hsnapshot : rd.snapshot with
    | none =>
        have hnone : n.raft.raftLog.unstable.snapshot = none := h.snapshot.symm.trans hsnapshot
        cases hlast : rd.entries.getLast? with
        | none => simp [Ready.record, hsnapshot, hlast]
        | some e =>
            obtain ⟨u, hu⟩ := hentries hnone h.entries.symm hlast
            simp [Ready.record, hsnapshot, hlast, stableEntries, hu]
    | some snapshot =>
        have hsome : n.raft.raftLog.unstable.snapshot = some snapshot :=
          h.snapshot.symm.trans hsnapshot
        cases hlast : rd.entries.getLast? with
        | none =>
            simp [Ready.record, hsnapshot, hlast, stableSnapshot,
              Unstable.stableSnapshot, hsome]
        | some e =>
            obtain ⟨u, hu⟩ := hentries (u := { n.raft.raftLog.unstable with snapshot := none }) rfl
              h.entries.symm hlast
            simp [Ready.record, hsnapshot, hlast, stableSnapshot,
              Unstable.stableSnapshot, hsome, stableEntries, hu]
  obtain ⟨log, hstable⟩ := hstable
  simp only [commitReady, h.recorded, hstable, bind_eq_bind, bind_some]
  exact ⟨_, if_neg fun hne => hne rfl⟩

theorem commitSinceAfter_eq {es : List Entry} {since : ℕ} (h : n.commitSinceAfter es = some since) :
    es = [] ∧ since = n.commitSinceIndex ∨ ∃ e, es.getLast? = some e ∧ since = e.index := by
  unfold commitSinceAfter at h
  split at h
  next hnone => exact Or.inl ⟨getLast?_eq_none_iff.mp hnone, (some.inj h).symm⟩
  next last hlast =>
    split at h
    · exact Or.inr ⟨last, hlast, (some.inj h).symm⟩
    · cases h

theorem readyRecords_subset (h : n.readyRecords = some records) :
    ∀ record ∈ records, record ∈ n.records := by
  unfold readyRecords at h
  split at h
  · split at h
    · cases h
      exact fun record hrecord => by cases hrecord
    · cases h
  · cases h
    exact fun record => id

variable [WritableStorage σ] [Codec] [LawfulStorage σ]

/-! ## Between two cycles -/

/-- `GetLightReady` returns. -/
theorem getLightReady_returns [ReliableStorage σ] (hlog : n.raft.raftLog.Sound a) :
    ∃ n' light, n.getLightReady = some (n', light) := by
  obtain ⟨entries, hnext⟩ := isSome_iff_exists.mp
    (hlog.nextEntriesSince_isSome n.commitSinceIndex (some n.raft.maxCommittedSizePerReady))
  have hdelivers := hlog.nextEntriesSince hnext
  have hsince : ∃ since, n.commitSinceAfter (entries.getD []) = some since := by
    unfold commitSinceAfter
    split
    · exact ⟨_, rfl⟩
    next last hlast =>
      have hlow := (hdelivers.index_range (mem_of_getLast? hlast)).1
      exact ⟨last.index, if_pos (by omega)⟩
  obtain ⟨since, hsince⟩ := hsince
  simp only [getLightReady, hnext, hsince, bind_eq_bind, bind_some]
  exact ⟨_, _, rfl⟩

/-- The next `GetReady` is the first to see the node as a leader. -/
def FirstSeen (n : RawNode σ) : Prop :=
  n.prevSs.raftState ≠ .leader ∧ n.raft.state = .leader

omit [Codec] [LawfulStorage σ] in
/-- With a snapshot pending nothing above it may be applied. -/
theorem readySnapshot_returns [Codec] [LawfulStorage σ] (hlog : n.raft.raftLog.Sound a)
    (hsince : n.raft.raftLog.unstable.snapshot ≠ none → n.commitSinceIndex ≤ a.index) :
    ∃ since, n.readySnapshot = some { n with commitSinceIndex := since } := by
  unfold readySnapshot
  split
  · exact ⟨n.commitSinceIndex, rfl⟩
  next snapshot hpending =>
    obtain ⟨hindex, -, -⟩ := hlog.represents.pending snapshot hpending
    have hne : n.raft.raftLog.unstable.snapshot ≠ none := by simp [hpending]
    have hpersisted := hlog.persisted_le hne
    have hle : n.commitSinceIndex ≤ snapshot.metadata.index := hindex ▸ hsince hne
    have hmore : n.raft.raftLog.hasNextEntriesSince snapshot.metadata.index = some false := by
      simp only [hasNextEntriesSince, hlog.represents.firstIndex, bind_eq_bind,
        bind_some, appliedIndexUpperBound, hlog.limit, AbstractLog.firstIndex,
        some.injEq, decide_eq_false_iff_not]
      omega
    refine ⟨snapshot.metadata.index, ?_⟩
    rw [if_pos hle]
    simp only [hmore, bind_eq_bind, bind_some, Bool.false_eq_true, if_false]

/-- `GetReady` returns. -/
theorem getReady_returns [ReliableStorage σ] (hlog : n.raft.raftLog.Sound a)
    (hsince : n.raft.raftLog.unstable.snapshot ≠ none → n.commitSinceIndex ≤ a.index)
    (hfresh : n.FirstSeen → ∀ record ∈ n.records, record.carries = false) :
    ∃ n' rd, n.getReady = some (n', rd) := by
  have hrecords : ∃ records, n.readyRecords = some records := by
    unfold readyRecords
    split
    next hfirst =>
      have hempty := hfresh hfirst
      simp only [ReadyRecord.carries, Bool.or_eq_false_iff, isSome_eq_false_iff] at hempty
      exact ⟨[], if_pos (all_eq_true.mpr fun record hrecord =>
        by simp [hempty record hrecord])⟩
    · exact ⟨_, rfl⟩
  obtain ⟨records, hrecords⟩ := hrecords
  obtain ⟨since, hsnapshot⟩ := readySnapshot_returns
    (n := { n with
      maxNumber := n.maxNumber + 1, records, raft := { n.raft with readStates := [] } })
    hlog hsince
  obtain ⟨n', light, hlight⟩ := getLightReady_returns
    (n := { n with
      maxNumber := n.maxNumber + 1, records, raft := { n.raft with readStates := [] }
      commitSinceIndex := since }) hlog
  simp only [getReady, hrecords, hsnapshot, hlight, bind_eq_bind, bind_some]
  exact ⟨_, _, rfl⟩

/-! ## While a `Ready` is being worked on -/

omit [LawfulStorage σ] in
theorem getReady_held (h : n.getReady = some (n', rd)) (store : σ) :
    Held (n'.setStore store) rd := by
  have htakes := getReady_takes h
  have hoffers := getReady_offers h
  have hlog := htakes.raftLog
  have hterm : n'.raft.term = n.raft.term := congrArg NodeCore.term htakes.core
  have hvote : n'.raft.vote = n.raft.vote := congrArg NodeCore.vote htakes.core
  have hstate : n'.raft.state = n.raft.state := congrArg NodeCore.state htakes.core
  obtain ⟨records, -, hrecords⟩ := hoffers.records
  have hss : rd.ss = if n.raft.softState ≠ n.prevSs then some n.raft.softState else none := by
    unfold getReady at h
    obtain ⟨records, -, h⟩ := of_bind h
    obtain ⟨n₁, -, h⟩ := of_bind h
    obtain ⟨⟨n₂, light⟩, -, h⟩ := of_bind h
    simp only [some.injEq, Prod.mk.injEq] at h
    rw [← h.2]
  refine ⟨?_, ?_, ?_, ⟨n.raft.raftLog.committed, ?_, ?_⟩, ?_, fun _ => ?_⟩
  · simp only [setStore, hlog]
    exact htakes.snapshot
  · simp only [setStore, hlog]
    exact htakes.entries
  · simp [setStore, hrecords]
  · simp [setStore, hlog]
  · simp only [setStore, hterm, hvote, htakes.hs, htakes.prevHs]
    exact getD_if_ne n.raft.hardState n.prevHs
  · simp only [setStore, hstate, hss, hoffers.prevSs]
    rw [getD_if_ne]
    rfl
  · exact congrArg NodeCore.messages htakes.core

/-- `OnPersistReady` returns. -/
theorem onPersistReady_returns [AnsweringStorage σ] (hlog : n.raft.raftLog.Sound a)
    (hsnapshots : ∀ record ∈ n.records, ∀ s, record.snapshot = some s → s.1 ≤ a.index)
    (hcan : n.raft.CanCommit) (number : ℕ) : ∃ n', n.onPersistReady number = some n' := by
  obtain ⟨⟨index, term, snapIndex⟩, records, hrecords⟩ : ∃ acc records,
      persistedUpTo number (0, 0, 0) n.records = (acc, records) := ⟨_, _, rfl⟩
  have hsnap : snapIndex ≤ a.index := by
    rcases (Driven.persistedUpTo_reports number n.records hrecords).2 with
      hzero | ⟨record, hrecord, t, hs⟩
    · simp only at hzero
      omega
    · exact hsnapshots record hrecord _ hs
  have hcommitted : a.index ≤ n.raft.raftLog.committed := hlog.index_le
  have hoffset := hlog.represents.lt_offset
  have hreport : ∃ raft, reportPersisted n.raft index term snapIndex = some raft := by
    have hentries : ∀ {r : Raft σ}, r.raftLog.Represents a → r.CanCommit →
        ∃ raft, (if index = 0 then some r else r.onPersistEntries index term) = some raft := by
      intro r hrep hcan
      split
      · exact ⟨r, rfl⟩
      · exact isSome_iff_exists.mp (Raft.onPersistEntries_isSome hrep hcan index term)
    unfold reportPersisted
    split
    · exact hentries hlog.represents hcan
    · have hpersist : ∃ log updated, n.raft.raftLog.maybePersistSnapshot snapIndex =
          some (log, updated) ∧ log.store = n.raft.raftLog.store ∧
            log.unstable = n.raft.raftLog.unstable := by
        unfold maybePersistSnapshot
        split
        · exact ⟨_, _, rfl, rfl, rfl⟩
        rw [if_neg (by omega), if_neg (by omega)]
        exact ⟨_, _, rfl, rfl, rfl⟩
      obtain ⟨log, updated, hpersist, hstore, hunstable⟩ := hpersist
      simp only [Raft.onPersistSnapshot, hpersist]
      have hrep := hlog.represents.congr hstore hunstable
      exact hentries hrep (hcan.setLog hstore
        (hrep.firstIndex.trans hlog.represents.firstIndex.symm))
  obtain ⟨raft, hreport⟩ := hreport
  simp only [onPersistReady, hrecords, hreport]
  exact ⟨_, rfl⟩

omit [LawfulStorage σ] in
theorem onPersistReady_undisturbed {number : ℕ} (h : n.onPersistReady number = some n') :
    n.raft.Undisturbed n'.raft ∧ n'.prevSs = n.prevSs ∧ n'.prevHs = n.prevHs ∧
      ∀ record ∈ n'.records, record ∈ n.records := by
  unfold onPersistReady at h
  obtain ⟨raft, hreport, h⟩ := of_bind h
  cases h
  obtain ⟨before, hbefore, -⟩ := Driven.persistedUpTo_suffix number (0, 0, 0) n.records
  refine ⟨reportPersisted_undisturbed hreport, rfl, rfl, fun record hrecord => ?_⟩
  rw [hbefore]
  exact mem_append_right _ hrecord

omit [LawfulStorage σ] in
/-- `AdvanceAppend` takes note of the role that the `Ready` reports. -/
theorem advanceAppend_role {light : LightReady} (h : n.advanceAppend rd = some (n', light)) :
    n'.prevSs = rd.ss.getD n.prevSs ∧ n'.raft.state = n.raft.state := by
  obtain ⟨n₁, n₂, n₃, light₃, hcommit, hpersist, hlight, -, rfl, -, -⟩ := advanceAppend_eq h
  obtain ⟨hsame, hprev, -, -⟩ := onPersistReady_undisturbed hpersist
  have hstate : n₃.raft.state = n₂.raft.state :=
    congrArg NodeCore.state (getLightReady_flushes hlight).core
  obtain ⟨record, log, -, -, rfl⟩ := commitReady_eq hcommit
  exact ⟨(getLightReady_hands hlight).prevSs.trans hprev, hstate.trans hsame.state⟩

end RawNode

/-! ## Along a run -/

namespace Driven

variable {σ : Type} [WritableStorage σ] [Codec] [LawfulStorage σ]
  {P : Driven σ → Drive → Prop} {d d' : Driven σ} {a a' : AbstractLog} {pages : List (Page σ)}

/-- What was handed out is committed and not above a pending snapshot, and no record is of a
snapshot above the one the log starts with. -/
structure Steady (d : Driven σ) (a : AbstractLog) : Prop where
  since_le : d.node.commitSinceIndex ≤ d.node.raft.raftLog.committed
  since_snapshot : d.node.raft.raftLog.unstable.snapshot ≠ none → d.node.commitSinceIndex ≤ a.index
  snapshots : ∀ record ∈ d.node.records, ∀ s, record.snapshot = some s → s.1 ≤ a.index

/-- Taking a `Ready` hands out committed entries, or the pending snapshot. -/
theorem Steady.ready [PagingStorage σ] (h : d.Steady a) (hsound : d.Sound a) {node : RawNode σ}
    (htakes : RawNode.Takes d.node node rd) (hoffers : RawNode.Offers d.node node rd) {store : σ}
    (hnode : d'.node = node.setStore store) : d'.Steady a := by
  have hindex : a.index ≤ d.node.raft.raftLog.committed := hsound.log.index_le
  have hlog := htakes.raftLog
  obtain ⟨since, es, hsince, hnext, hentries, hafter⟩ := hoffers.entries
  have hdelivers := hsound.log.nextEntriesSince hnext
  rw [← hentries] at hdelivers
  have hstart : since ≤ d.node.raft.raftLog.committed := by
    rcases hsince with ⟨-, rfl⟩ | ⟨snapshot, hsnapshot, -, rfl⟩
    · exact h.since_le
    · rw [← (hsound.log.represents.pending snapshot hsnapshot).1]
      exact hindex
  have hcases := commitSinceAfter_eq hafter
  refine ⟨?_, fun hsome => ?_, fun record hrecord s hs => ?_⟩
  · simp only [hnode, RawNode.setStore, hlog]
    rcases hcases with ⟨-, hsame⟩ | ⟨e, he, hlast⟩
    · rw [hsame]
      exact hstart
    · rw [hlast]
      exact (hdelivers.index_range (mem_of_getLast? he)).2.2.1
  · simp only [hnode, RawNode.setStore, hlog] at hsome ⊢
    have hpersisted := hsound.log.persisted_le hsome
    rcases hcases with ⟨-, hsame⟩ | ⟨e, he, -⟩
    · rw [hsame]
      rcases hsince with ⟨hnone, -⟩ | ⟨snapshot, hsnapshot, -, hat⟩
      · exact absurd hnone hsome
      · rw [hat, ← (hsound.log.represents.pending snapshot hsnapshot).1]
    · -- nothing above the snapshot is persisted
      have hrange := hdelivers.index_range (mem_of_getLast? he)
      omega
  · obtain ⟨rs, hrs, hrecords⟩ := hoffers.records
    simp only [hnode, RawNode.setStore, hrecords, mem_append, mem_singleton] at hrecord
    rcases hrecord with hold | rfl
    · exact h.snapshots record (readyRecords_subset hrs record hold) s hs
    · obtain ⟨snapshot, hsnapshot, rfl⟩ := map_eq_some_iff.mp hs
      rw [htakes.snapshot] at hsnapshot
      exact (hsound.log.represents.pending snapshot hsnapshot).1.ge

theorem Move.steady [PagingStorage σ] (hsound : d.Sound a) (h : d.Steady a)
    (hmove : Move P d a d' a' pages) :
    d'.Steady a' := by
  cases hmove with
  | run env tracker promotable raft a' hsent henv htracker hsteps hlog hlater hpending =>
      refine ⟨h.since_le.trans hlater.committed, fun hsome => ?_,
        fun record hrecord s hs => (h.snapshots record hrecord s hs).trans hlater.index⟩
      by_cases hnone : d.node.raft.raftLog.unstable.snapshot = none
      · exact h.since_le.trans (hlater.restored hsome hnone)
      · exact (h.since_snapshot hnone).trans hlater.index
  | ready node store rd hop hidle htakes hoffers hstored => exact h.ready hsound htakes hoffers rfl
  | settle rd log hpending hsame hsnapshot hoffset =>
      refine ⟨?_, fun hsome => absurd hsnapshot hsome, h.snapshots⟩
      simp only
      rw [hsame]
      exact h.since_le
  | report number index term snapIndex records log hnumber hrecords hlog =>
      have hsame := reported_eq hlog index term
      obtain ⟨before, hbefore, -⟩ := persistedUpTo_suffix number (0, 0, 0) d.node.records
      rw [hrecords] at hbefore
      refine ⟨?_, fun hsome => ?_, fun record hrecord s hs => ?_⟩
      · simp only
        rw [hsame]
        exact h.since_le
      · simp only at hsome
        rw [hsame] at hsome
        exact h.since_snapshot hsome
      · exact h.snapshots record (by rw [hbefore]; exact mem_append_right _ hrecord) s hs
  | hand node messages entries hsnapshot hflushes hhands =>
      have hlog := hflushes.raftLog
      obtain ⟨es, hnext, hentries⟩ := hhands.next
      have hdelivers := hsound.log.nextEntriesSince hnext
      rw [← hentries] at hdelivers
      refine ⟨?_, fun hsome => ?_, ?_⟩
      · simp only [hlog]
        rcases commitSinceAfter_eq hhands.since with ⟨-, hsame⟩ | ⟨e, he, hlast⟩
        · rw [hsame]
          exact h.since_le
        · rw [hlast]
          exact (hdelivers.index_range (mem_of_getLast? he)).2.2.1
      · simp only [hlog] at hsome
        exact absurd hsnapshot hsome
      · simp only [hhands.records]
        exact h.snapshots
  | note prevHs hsame => exact ⟨h.since_le, h.since_snapshot, h.snapshots⟩

theorem Moves.steady [PagingStorage σ] (h : d.Steady a)
    (hmoves : Moves P d a d' a' pages) : d'.Steady a' := by
  induction hmoves with
  | refl d a => exact h
  | head hsound hmove _ ih => exact ih (hmove.steady hsound h)

/-- The last term of the `Ready` being worked on fits in 32 bits. -/
def ShortTerm (d : Driven σ) : Prop :=
  ∀ rd ∈ d.pending, ∀ e ∈ rd.entries.getLast?, e.term < 2 ^ 32

/-- `AdvanceAppend` returns. -/
theorem advanceAppend_returns [AnsweringStorage σ] (hsound : d.Sound a) (hsteady : d.Steady a)
    (hheld : d.node.Held rd) (hpending : d.pending = some rd) (hcan : d.node.raft.CanCommit)
    (hterm : d.ShortTerm) : ∃ node light, d.node.advanceAppend rd = some (node, light) := by
  obtain ⟨n₁, hcommit⟩ := commitReady_returns hheld (hterm rd hpending)
  obtain ⟨hsound₁, hmoves₁, -⟩ := hsound.commitReady (P := Legal) hpending hcommit
  obtain ⟨record, log, hrecord, hstable, hn₁⟩ := commitReady_eq hcommit
  obtain rfl : rd.record = record := some.inj (hheld.recorded.symm.trans hrecord)
  have hrecords : RawNode.Records rd.record d.node.raft.raftLog.unstable :=
    ⟨by rw [← hheld.entries]; rfl, by rw [← hheld.snapshot]; rfl⟩
  have hsettled := stableRecord_settled hrecords hstable
  have hraft₁ : n₁.raft = { d.node.raft with raftLog := log } := by rw [hn₁]
  have hcan₁ : n₁.raft.CanCommit := by
    have hrep := hsound₁.log.represents
    simp only [hraft₁] at hrep ⊢
    exact hcan.setLog (by rw [hsettled.same])
      (hrep.firstIndex.trans hsound.log.represents.firstIndex.symm)
  obtain ⟨n₂, hpersist⟩ := onPersistReady_returns hsound₁.log
    (hmoves₁.steady hsteady).snapshots hcan₁ n₁.maxNumber
  obtain ⟨a₂, hsound₂, -⟩ := hsound₁.onPersistReady (P := Legal)
    ⟨le_rfl, fun rd hrd => by cases hrd⟩ hpersist
  obtain ⟨n₃, light, hlight⟩ := getLightReady_returns hsound₂.log
  obtain ⟨hsame, -, hprev₂, -⟩ := onPersistReady_undisturbed hpersist
  have hflushes := getLightReady_flushes hlight
  have hstate₃ : n₃.raft.state = n₂.raft.state := congrArg NodeCore.state hflushes.core
  have hquiet : ¬(n₃.raft.state ≠ .leader ∧ light.messages ≠ []) := by
    rintro ⟨hne, hmessages⟩
    rw [hstate₃, hsame.state] at hne
    rw [hflushes.messages, hsame.messages hne, hraft₁] at hmessages
    rw [hraft₁] at hne
    exact hmessages (hheld.quiet hne)
  -- only the commit index may have moved since the `Ready` was taken
  have hhard : n₃.raft.hardState =
      { n₃.prevHs with commit := max n₃.raft.hardState.commit n₃.prevHs.commit } := by
    obtain ⟨commit, hle, hhs⟩ := hheld.hard
    have hprev : n₃.prevHs = ⟨d.node.raft.term, d.node.raft.vote, commit⟩ := by
      rw [hflushes.prevHs, hprev₂, hn₁]
      exact hhs
    have hterm₃ : n₃.raft.term = n₂.raft.term := congrArg NodeCore.term hflushes.core
    have hvote₃ : n₃.raft.vote = n₂.raft.vote := congrArg NodeCore.vote hflushes.core
    have hlog₃ := hflushes.raftLog
    have hcommitted : commit ≤ n₂.raft.raftLog.committed := by
      refine hle.trans (le_trans ?_ hsame.committed)
      rw [hraft₁, hsettled.same]
    simp only [Raft.hardState, hprev, hterm₃, hvote₃, hlog₃, hsame.term, hsame.vote, hraft₁,
      max_eq_left hcommitted]
  simp only [RawNode.advanceAppend, hcommit, hpersist, hlight, bind_eq_bind,
    bind_some, hquiet, if_false]
  rw [if_pos hhard]
  exact ⟨_, _, rfl⟩

/-- A driven node between its calls: its log and its records fit together, none of them carries
data when the node is about to be seen as a leader, and while a `Ready` is being worked on
nothing is added to it. -/
structure Regular (d : Driven σ) (a : AbstractLog) : Prop where
  sound : d.Sound a
  steady : d.Steady a
  fresh : d.pending = none → d.node.FirstSeen →
    ∀ record ∈ d.node.records, record.carries = false
  held : ∀ rd, d.pending = some rd → d.node.Held rd

/-- What an application has to take care of: its calls are legal, a node that was no leader is not
elected while an outstanding record carries data, a leader that hears of something persisted is in
its own configuration and has the snapshots to send, terms fit in 32 bits, and `AdvanceApplyTo`
comes between two cycles. -/
def Guarded (d : Driven σ) (op : Drive) : Prop :=
  d.Legal op ∧
  match op with
  | .input call => d.node.prevSs.raftState ≠ .leader → d.node.elected call →
      ∀ record ∈ d.node.records, record.carries = false
  | .advance | .advanceAppend => d.node.raft.CanCommit ∧ d.ShortTerm
  | .advanceAppendAsync => d.ShortTerm
  | .onPersistReady _ => d.node.raft.CanCommit
  | .advanceApplyTo _ => d.pending = none
  | .proposeConfChange .. | .applyConfChange _ | .ready => True

instance (d : Driven σ) : Decidable d.ShortTerm :=
  inferInstanceAs (Decidable (∀ rd ∈ d.pending, ∀ e ∈ rd.entries.getLast?, e.term < 2 ^ 32))

instance (d : Driven σ) (op : Drive) : Decidable (d.Guarded op) :=
  match op with
  | .input call => inferInstanceAs (Decidable (d.Legal (.input call) ∧
      (d.node.prevSs.raftState ≠ .leader → d.node.elected call →
        ∀ record ∈ d.node.records, record.carries = false)))
  | .advance => inferInstanceAs (Decidable (d.Legal .advance ∧ d.node.raft.CanCommit ∧ d.ShortTerm))
  | .advanceAppend =>
      inferInstanceAs (Decidable (d.Legal .advanceAppend ∧ d.node.raft.CanCommit ∧ d.ShortTerm))
  | .advanceAppendAsync =>
      inferInstanceAs (Decidable (d.Legal .advanceAppendAsync ∧ d.ShortTerm))
  | .onPersistReady number =>
      inferInstanceAs (Decidable (d.Legal (.onPersistReady number) ∧ d.node.raft.CanCommit))
  | .advanceApplyTo applied =>
      inferInstanceAs (Decidable (d.Legal (.advanceApplyTo applied) ∧ d.pending = none))
  | .proposeConfChange .. | .applyConfChange _ | .ready => isTrue ⟨trivial, trivial⟩

/-- The call of the node that `op` is about returns. -/
def Returns (d : Driven σ) : Drive → Prop
  | .ready => d.pending = none → d.node.getReady.isSome = true
  | .advance | .advanceAppend => ∀ rd ∈ d.pending, (d.node.advanceAppend rd).isSome = true
  | .advanceAppendAsync => ∀ rd ∈ d.pending, (d.node.commitReady rd).isSome = true
  | .onPersistReady number => (d.node.onPersistReady number).isSome = true
  | .input _ | .proposeConfChange .. | .applyConfChange _ | .advanceApplyTo _ => True

namespace Regular

theorem returns [AnsweringStorage σ] (h : d.Regular a) {op : Drive} (hop : d.Guarded op) :
    d.Returns op := by
  have hadvance : d.node.raft.CanCommit ∧ d.ShortTerm →
      ∀ rd ∈ d.pending, (d.node.advanceAppend rd).isSome = true := by
    rintro ⟨hcan, hterm⟩ rd hrd
    obtain ⟨node, light, hcall⟩ :=
      advanceAppend_returns h.sound h.steady (h.held rd hrd) hrd hcan hterm
    exact isSome_iff_exists.mpr ⟨_, hcall⟩
  cases op with
  | ready =>
      intro hidle
      obtain ⟨node, rd, hcall⟩ := getReady_returns h.sound.log h.steady.since_snapshot
        (h.fresh hidle)
      exact isSome_iff_exists.mpr ⟨_, hcall⟩
  | advance => exact hadvance hop.2
  | advanceAppend => exact hadvance hop.2
  | advanceAppendAsync =>
      intro rd hrd
      exact isSome_iff_exists.mpr
        (commitReady_returns (h.held rd hrd) (hop.2 rd hrd))
  | onPersistReady number =>
      exact isSome_iff_exists.mpr
        (onPersistReady_returns h.sound.log h.steady.snapshots hop.2 number)
  | input call => trivial
  | proposeConfChange ctx cc => trivial
  | applyConfChange cc => trivial
  | advanceApplyTo applied => trivial

omit [LawfulStorage σ] in
/-- A quiet call elects nobody. -/
theorem fresh_of_quiet {n : RawNode σ} {raft : Raft σ}
    (hfresh : n.FirstSeen → ∀ record ∈ n.records, record.carries = false)
    (hsteps : Steps quietEnv n.raft.core raft.core) :
    ({ n with raft } : RawNode σ).FirstSeen → ∀ record ∈ n.records, record.carries = false := by
  rintro ⟨hprev, hstate⟩
  exact hfresh ⟨hprev, hsteps.leader_before id hstate⟩

theorem step [PagingStorage σ] (h : d.Regular a) {op : Drive} (hop : d.Guarded op)
    (hstep : d.step op = some (d', pages)) : ∃ a', d'.Regular a' := by
  obtain ⟨a', hsound, hmoves⟩ := h.sound.step (P := fun _ _ => True) trivial hop.1 hstep
  have hsteady := hmoves.steady h.steady
  have hrole : ∀ {rd : Ready} {n : RawNode σ} {light : LightReady}, d.pending = some rd →
      d.node.advanceAppend rd = some (n, light) → ¬n.FirstSeen := by
    intro rd n light hpending hcall hfirst
    obtain ⟨hprev, hstate⟩ := advanceAppend_role hcall
    refine hfirst.1 ?_
    rw [hprev, (h.held rd hpending).role, ← hstate]
    exact hfirst.2
  cases step_makes hstep with
  | input call node hidle hcall =>
      refine ⟨a', hsound, hsteady, fun _ hfirst => ?_, fun rd hrd => by cases hidle.symm.trans hrd⟩
      obtain ⟨-, -, -, raft, hcall', -, -⟩ := input_steps hop.1 hstep
      obtain rfl : { d.node with raft } = node := some.inj (hcall'.symm.trans hcall)
      by_cases hstate : d.node.raft.state = .leader
      · exact h.fresh hidle ⟨hfirst.1, hstate⟩
      · exact hop.2 hfirst.1 ((RawNode.elected_iff hcall).mpr ⟨hstate, hfirst.2⟩)
  | proposeConfChange ctx cc node hidle hcall =>
      obtain ⟨raft, hsteps, rfl⟩ :=
        proposeConfChange_eq (quietEnv_propose ctx cc) hcall
      exact ⟨a', hsound, hsteady, fun _ => fresh_of_quiet (h.fresh hidle) hsteps,
        fun rd hrd => by cases hidle.symm.trans hrd⟩
  | applyConfChange cc node hcall =>
      obtain ⟨tracker, promotable, raft, -, hreacts, rfl⟩ := applyConfChange_eq hcall
      obtain ⟨hterm, hvote, hstate, hunstable, hcommitted, hmessages⟩ := hreacts.undisturbed
      have hsame : d.node.raft.Undisturbed raft :=
        ⟨hterm, hvote, hstate, hunstable, hcommitted, hmessages⟩
      refine ⟨a', hsound, hsteady, fun hidle hfirst => ?_, fun rd hrd => ?_⟩
      · exact h.fresh hidle ⟨hfirst.1, hsame.state.symm.trans hfirst.2⟩
      · exact (h.held rd hrd).undisturbed hsame (h.held rd hrd).recorded
  | ready node rd hidle hready =>
      obtain ⟨node, store, hget, -, rfl⟩ := processReady_eq hready
      refine ⟨a', hsound, hsteady, fun hidle => (by cases hidle), fun rd' hrd' => ?_⟩
      cases hrd'
      exact getReady_held hget store
  | advance rd node₁ node light hpending hcall happly =>
      obtain ⟨raft, hsteps, rfl⟩ := advanceApplyTo_eq quietEnv_ofLeader happly
      refine ⟨a', hsound, hsteady, fun _ => ?_, fun rd' hrd' => by cases hrd'⟩
      exact fresh_of_quiet (n := node₁) (fun hfirst => absurd hfirst (hrole hpending hcall)) hsteps
  | advanceAppend rd node light hpending hcall =>
      exact ⟨a', hsound, hsteady, fun _ hfirst => absurd hfirst (hrole hpending hcall),
        fun rd' hrd' => by cases hrd'⟩
  | advanceAppendAsync rd node hpending hcommit =>
      obtain ⟨record, log, -, -, rfl⟩ := commitReady_eq hcommit
      refine ⟨a', hsound, hsteady, fun _ hfirst => absurd ?_ hfirst.1,
        fun rd' hrd' => by cases hrd'⟩
      exact (h.held rd hpending).role.trans hfirst.2
  | onPersistReady number node hpersist =>
      obtain ⟨hsame, hprev, hhs, hrecords⟩ := onPersistReady_undisturbed hpersist
      refine ⟨a', hsound, hsteady, fun hidle hfirst record hrecord => ?_, fun rd hrd => ?_⟩
      · exact h.fresh hidle ⟨hprev ▸ hfirst.1, hsame.state.symm.trans hfirst.2⟩ record
          (hrecords record hrecord)
      · have hheld := (h.held rd hrd).undisturbed hsame (hsound.recorded rd hrd)
        obtain ⟨raft, prevSs, prevHs, maxNumber, records, since⟩ := node
        obtain rfl := hprev
        obtain rfl := hhs
        exact ⟨hheld.snapshot, hheld.entries, hheld.recorded, hheld.hard, hheld.role, hheld.quiet⟩
  | advanceApplyTo applied node hcall =>
      obtain ⟨raft, hsteps, rfl⟩ := advanceApplyTo_eq quietEnv_ofLeader hcall
      exact ⟨a', hsound, hsteady, fun hidle => fresh_of_quiet (h.fresh hidle) hsteps,
        fun rd hrd => by cases hop.2.symm.trans hrd⟩

/-- A node before its first call. -/
theorem new {config : Config} {store : σ} {rng : ℕ → ℕ} {n : RawNode σ}
    (hstore : (LawfulStorage.view store).Contiguous)
    (hnew : RawNode.new config store rng = some n)
    (happlied : config.applied ≤ n.raft.raftLog.committed) :
    Regular { node := n } (LogSpec.ofStable (LawfulStorage.view store)).toAbstractLog := by
  obtain ⟨hsound, hsnapshot, -, hsince, hrecords, -⟩ := Sound.new hstore hnew
  refine ⟨hsound, ⟨?_, fun hsome => absurd hsnapshot hsome, ?_⟩, ?_, fun rd hrd => by cases hrd⟩
  · simp only [hsince]
    exact happlied
  · simp [hrecords]
  · simp [hrecords]

theorem run [PagingStorage σ] {ops : List Drive} (h : d.Regular a)
    (hrun : Run Guarded d ops d' pages) :
    ∃ a', d'.Regular a' := by
  induction hrun generalizing a with
  | nil d => exact ⟨a, h⟩
  | cons hop hstep _ ih =>
      obtain ⟨a₁, h₁⟩ := h.step hop hstep
      exact ih h₁

end Regular

end Driven

/-! ## Terms of 64 bits

`ReadyRecord` keeps the term of the last entry in 64 bits, and so does `RaftLog::StableEntries`;
`Unstable::StableEntries` takes it in 32. -/

namespace RawNode

variable {σ : Type} {n n' : RawNode σ}

/-- `StableEntries` returns only if the term of the last entry is its own lower half. -/
theorem stableEntries_short {log log' : RaftLog σ} {e : Entry}
    (hlast : log.unstable.entries.getLast? = some e)
    (h : log.stableEntries e.index e.term = some log') : e.term < 2 ^ 32 := by
  obtain ⟨-, last, hlast', -, hterm, -⟩ := stableEntries_eq h
  obtain rfl : last = e := some.inj (hlast'.symm.trans hlast)
  rw [hterm]
  exact Nat.mod_lt _ (by decide)

theorem stableRecord_short {log log' : RaftLog σ} {e : Entry} (hlast : rd.entries.getLast? = some e)
    (hentries : rd.entries = log.unstable.entries) (h : stableRecord rd.record log = some log') :
    e.term < 2 ^ 32 := by
  rw [hentries] at hlast
  simp only [stableRecord, Ready.record, hentries, hlast, map_some] at h
  cases hsnapshot : rd.snapshot with
  | none =>
      simp only [hsnapshot, map_none] at h
      exact stableEntries_short hlast h
  | some snapshot =>
      simp only [hsnapshot, map_some] at h
      obtain ⟨log₁, hfirst, h⟩ := of_bind h
      have hlast₁ : log₁.unstable.entries.getLast? = some e := by
        rw [(stableSnapshot_eq hfirst).2]
        exact hlast
      exact stableEntries_short hlast₁ h

/-- The `Ready` just taken is accepted exactly if the term of its last entry fits in 32 bits.
Then the log's memory is cleared and its offset moves behind the last entry. -/
theorem commitReady_settles_iff [WritableStorage σ] [Codec] {rd : Ready}
    (h : n.getReady = some (n', rd)) (store : σ) :
    (∃ n'', (n'.setStore store).commitReady rd = some n'' ∧
        Settled (n'.setStore store).raft.raftLog n''.raft.raftLog) ↔
      ∀ e, n.raft.raftLog.unstable.entries.getLast? = some e → e.term < 2 ^ 32 := by
  have hheld := getReady_held h store
  have hentries : rd.entries = n.raft.raftLog.unstable.entries := (getReady_takes h).entries
  rw [← hentries]
  constructor
  · rintro ⟨n'', hcommit, -⟩ e hlast
    obtain ⟨record, log, hrecord, hstable, -⟩ := commitReady_eq hcommit
    obtain rfl : rd.record = record := some.inj (hheld.recorded.symm.trans hrecord)
    exact stableRecord_short hlast hheld.entries hstable
  · intro hterm
    obtain ⟨n'', hcommit⟩ := commitReady_returns hheld hterm
    obtain ⟨record, log, hrecord, hstable, rfl⟩ := commitReady_eq hcommit
    obtain rfl : rd.record = record := some.inj (hheld.recorded.symm.trans hrecord)
    refine ⟨_, hcommit, stableRecord_settled ?_ hstable⟩
    exact ⟨by rw [← hheld.entries]; rfl, by rw [← hheld.snapshot]; rfl⟩

/-- A leader of term 1 takes its first `Ready`. -/
theorem commitReady_settles_solo :
    letI := Codec.plain
    ∃ n₀ n n' rd n'', RawNode.new { id := 1 } Driven.soloStore (fun _ => 0) = some n₀ ∧
      n₀.input .campaign = some n ∧ n.getReady = some (n', rd) ∧ rd.entries.length = 1 ∧
      (n'.setStore Driven.soloStore).commitReady rd = some n'' ∧
      Settled (n'.setStore Driven.soloStore).raft.raftLog n''.raft.raftLog := by
  obtain ⟨n₀, hnew, n, hcampaign, n', rd, hready, hlength, hterm⟩ : letI := Codec.plain
      ∃ n₀, RawNode.new { id := 1 } Driven.soloStore (fun _ => 0) = some n₀ ∧
        ∃ n, n₀.input .campaign = some n ∧ ∃ n' rd, n.getReady = some (n', rd) ∧
          rd.entries.length = 1 ∧
          ∀ e ∈ n.raft.raftLog.unstable.entries.getLast?, e.term < 2 ^ 32 := by
    decide +kernel
  let _ := Codec.plain
  obtain ⟨n'', hcommit, hsettled⟩ := (commitReady_settles_iff hready Driven.soloStore).mpr hterm
  exact ⟨n₀, n, n', rd, n'', hnew, hcampaign, hready, hlength, hcommit, hsettled⟩

/-- An entry of the first term that does not fit in 32 bits. -/
def longTerm : List Drive :=
  [.input (.step { msgType := .msgAppend, receiver := 1, sender := 2, term := 2 ^ 32
                   entries := [{ index := 1, term := 2 ^ 32 }] })]

/-- A follower that has received it cannot make it stable. -/
theorem commitReady_aborts_longTerm :
    letI := Codec.plain
    ∃ n₀ d pages n' rd, RawNode.new { id := 1 } Driven.soloStore (fun _ => 0) = some n₀ ∧
      Driven.Run Driven.Legal { node := n₀ } longTerm d pages ∧
      d.node.getReady = some (n', rd) ∧ (n'.setStore Driven.soloStore).commitReady rd = none := by
  simp only [exists_and_left]
  decide +kernel

end RawNode

end Raftpp
