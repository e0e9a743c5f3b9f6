import Raftpp.Log.Paging
import Raftpp.Ready.Moves

/-!
# Campaigns while applying lags

Before a node campaigns it scans its committed entries for a configuration change that
is not applied yet, from the pending snapshot on or from the applied index on.  An
application may tell the node late what it has applied, and meanwhile the entries after
the applied index may go: a snapshot is written and no longer pending, or the storage is
compacted.  The scan then starts below the first index, which is an error it does not
survive.

A run here may also compact the storage between two calls, by a snapshot of the
application at a committed index of what is stored.
-/

namespace Raftpp

open Option WritableStorage AbstractLog
open LawfulStorage (view)

namespace Raft

variable {σ : Type} [Storage σ] [Codec]

/-- Where the scan of `Hup` starts. -/
def hupLow (r : Raft σ) : ℕ := r.raftLog.unstable.maybeFirstIndex.getD (r.raftLog.applied + 1)

/-- The scan of `Hup`. -/
def hupScan (r : Raft σ) : Option Bool :=
  r.hasUnappliedConfChanges r.hupLow (r.raftLog.committed + 1) .transferLeader

end Raft

/-- What is left of a log that is compacted up to `i`. -/
def AbstractLog.compactTo (a : AbstractLog) (i : ℕ) : AbstractLog :=
  ⟨i, a.termOf i, a.entries.drop (i - a.index)⟩

theorem AbstractLog.compactTo_lastIndex {a : AbstractLog} {i : ℕ} (hindex : a.index ≤ i)
    (hlast : i ≤ a.lastIndex) : (a.compactTo i).lastIndex = a.lastIndex := by
  simp only [compactTo, lastIndex, List.length_drop] at hlast ⊢
  omega

/-- The entries between the applied and the committed index are still there, or a pending
snapshot stands for those that are not. -/
def RaftLog.Scannable {σ : Type} [Storage σ] (l : RaftLog σ) : Prop :=
  l.unstable.snapshot = none → l.applied < l.committed →
    ∃ first, l.firstIndex = some first ∧ first ≤ l.applied + 1

instance {σ : Type} [Storage σ] (l : RaftLog σ) : Decidable l.Scannable :=
  inferInstanceAs (Decidable (_ → _ → ∃ first, l.firstIndex = some first ∧ first ≤ l.applied + 1))

/-! ## The scan -/

section Scan

variable {σ : Type} [WritableStorage σ] [Codec] [LawfulStorage σ] {r : Raft σ} {a : AbstractLog}

/-- A scan that starts inside the log looks at every committed entry that is not applied. -/
theorem Raft.hupScan_inside [ReliableStorage σ] (h : r.raftLog.Sound a) (hlow : a.index < r.hupLow)
    (hlt : r.raftLog.applied < r.raftLog.committed) (hle : r.hupLow ≤ r.raftLog.committed + 1) :
    r.hupScan = some ((a.between r.hupLow (r.raftLog.committed + 1)).any
      fun e => e.entryType = .entryConfChangeV2) := by
  have hlast : r.raftLog.committed ≤ a.lastIndex := h.committed_le
  have hscan := h.represents.scan_any
    (show GetEntriesContext.transferLeader.canAsync = false from rfl) r.maxCommittedSizePerReady
    (fun e => e.entryType = .entryConfChangeV2) hlow hle (Nat.succ_le_succ hlast)
    (Nat.lt_succ_self _)
  unfold hupScan hasUnappliedConfChanges
  rw [if_neg (by omega)]
  simp only [hscan, bind_eq_bind, bind_some]

/-- A scan that starts below the first index stops the node. -/
theorem Raft.hupScan_compacted [ReliableStorage σ] (h : r.raftLog.Sound a)
    (hlow : r.hupLow ≤ a.index) (hlt : r.raftLog.applied < r.raftLog.committed) :
    r.hupScan = none := by
  have hindex : a.index ≤ r.raftLog.committed := h.index_le
  have hslice := h.represents.slice r.hupLow (r.raftLog.committed + 1)
    (some r.maxCommittedSizePerReady)
    (show GetEntriesContext.transferLeader.canAsync = false from rfl)
  have hcompacted : a.slice r.hupLow (r.raftLog.committed + 1) (some r.maxCommittedSizePerReady) =
      .error (.storage .compacted) := by
    unfold AbstractLog.slice firstIndex
    rw [if_neg (by omega), if_pos (by omega)]
  unfold hupScan hasUnappliedConfChanges
  rw [if_neg (by omega)]
  simp only [RaftLog.scan, if_pos (show r.hupLow < r.raftLog.committed + 1 by omega), hslice,
    hcompacted, bind_eq_bind, bind_some]

/-- Where the scan starts, every committed entry that is not applied is still to come. -/
theorem Raft.mem_between_hupLow (h : r.raftLog.Sound a) (hlow : a.index < r.hupLow) {e : Entry}
    (he : e ∈ a.entries) (happlied : r.raftLog.applied < e.index)
    (hcommitted : e.index ≤ r.raftLog.committed) :
    e ∈ a.between r.hupLow (r.raftLog.committed + 1) := by
  refine List.mem_of_getElem? (h.contiguous.mem_between hlow he ?_ (by omega))
  -- a pending snapshot is where the log starts
  unfold hupLow Unstable.maybeFirstIndex
  cases hsnapshot : r.raftLog.unstable.snapshot with
  | none => exact happlied
  | some snapshot =>
      have hindex : a.index = snapshot.metadata.index := (h.pending snapshot hsnapshot).1
      have hbelow := (h.contiguous.getElem?_of_mem he).1
      change a.index < e.index at hbelow
      simp only [map_some, getD_some]
      omega

/-- The scan finds what it looks for, unless entries that it needs are gone. -/
theorem Raft.hupScan_iff [ReliableStorage σ] (h : r.raftLog.Sound a) :
    (∃ found, r.hupScan = some found ∧
      ∀ e ∈ a.entries, r.raftLog.applied < e.index → e.index ≤ r.raftLog.committed →
        e.entryType = .entryConfChangeV2 → found = true) ↔ r.raftLog.Scannable := by
  have hindex : a.index ≤ r.raftLog.committed := h.index_le
  have hfirst : r.raftLog.firstIndex = some (a.index + 1) := h.represents.firstIndex
  by_cases hlt : r.raftLog.applied < r.raftLog.committed
  swap
  · refine iff_of_true ⟨false, ?_, fun e _ happlied hcommitted => ?_⟩ fun _ happlied =>
      absurd happlied hlt
    · unfold hupScan hasUnappliedConfChanges
      rw [if_pos (by omega)]
    · omega
  by_cases hlow : a.index < r.hupLow
  · have hle : r.hupLow ≤ r.raftLog.committed + 1 := by
      unfold hupLow Unstable.maybeFirstIndex
      cases hsnapshot : r.raftLog.unstable.snapshot with
      | none =>
          simp only [map_none, getD_none]
          omega
      | some snapshot =>
          have hat : a.index = snapshot.metadata.index := (h.pending snapshot hsnapshot).1
          simp only [map_some, getD_some]
          omega
    refine iff_of_true ⟨_, hupScan_inside h hlow hlt hle, fun e he happlied hcommitted hkind => ?_⟩
      fun hnone _ => ⟨a.index + 1, hfirst, ?_⟩
    · exact List.any_eq_true.mpr
        ⟨e, mem_between_hupLow h hlow he happlied hcommitted, by simpa using hkind⟩
    · simp only [hupLow, Unstable.maybeFirstIndex, hnone, map_none, getD_none] at hlow
      omega
  · refine iff_of_false ?_ fun hscannable => ?_
    · rintro ⟨found, hfound, -⟩
      rw [hupScan_compacted h (by omega) hlt] at hfound
      cases hfound
    · have hnone : r.raftLog.unstable.snapshot = none := by
        cases hsnapshot : r.raftLog.unstable.snapshot with
        | none => rfl
        | some snapshot =>
            have hat : a.index = snapshot.metadata.index := (h.pending snapshot hsnapshot).1
            simp only [hupLow, Unstable.maybeFirstIndex, hsnapshot, map_some, getD_some] at hlow
            omega
      obtain ⟨first, hfirst', hle⟩ := hscannable hnone hlt
      cases hfirst.symm.trans hfirst'
      simp only [hupLow, Unstable.maybeFirstIndex, hnone, map_none, getD_none] at hlow
      omega

end Scan

/-! ## Compaction -/

theorem Stable.le_lastIndex_of_termAt {s : Stable} {i t : ℕ} (h : s.termAt i = some t) :
    i ≤ s.lastIndex := by
  unfold termAt at h
  unfold lastIndex
  split at h
  · omega
  split at h
  · obtain ⟨e, hget, -⟩ := map_eq_some_iff.mp h
    obtain ⟨hlt, -⟩ := List.getElem?_eq_some_iff.mp hget
    omega
  · cases h

section Compaction

variable {σ : Type} [WritableStorage σ] [Codec] [LawfulStorage σ]

namespace RaftLog

variable {l : RaftLog σ} {a : AbstractLog} {snapshot : Snapshot}

/-- A snapshot covers what the storage is asked to drop: committed entries that it holds, up to
the one whose term the snapshot has. -/
structure Covers (l : RaftLog σ) (snapshot : Snapshot) : Prop where
  committed : snapshot.metadata.index ≤ l.committed
  stored : snapshot.metadata.index < l.unstable.offset
  term : Storage.term l.store snapshot.metadata.index = .ok snapshot.metadata.term

theorem Represents.compacted_view (h : Represents l a) (hcovers : l.Covers snapshot)
    (hok : Accepts (applyLocalSnapshot l.store snapshot)) :
    l.stored.index < snapshot.metadata.index ∧
      (view (applyLocalSnapshot l.store snapshot).1).index =
        snapshot.metadata.index ∧
      (view (applyLocalSnapshot l.store snapshot).1).term =
        snapshot.metadata.term ∧
      (view (applyLocalSnapshot l.store snapshot).1).entries =
        l.stored.entries.drop (snapshot.metadata.index - l.stored.index) ∧
      snapshot.metadata.index ≤ l.stored.lastIndex := by
  have hterm := (LawfulStorage.term_eq_ok l.store _ _ h.stored_contiguous).mp hcovers.term
  have hle : snapshot.metadata.index ≤ l.stored.lastIndex := Stable.le_lastIndex_of_termAt hterm
  obtain ⟨hlt, hindex, hterm', hentries⟩ :=
    LawfulStorage.applyLocalSnapshot_log l.store snapshot h.stored_contiguous hle hok
  exact ⟨hlt, hindex, hterm', hentries, hle⟩

theorem Represents.compacted_contiguous (h : Represents l a) (hcovers : l.Covers snapshot)
    (hok : Accepts (applyLocalSnapshot l.store snapshot)) :
    (view (applyLocalSnapshot l.store snapshot).1).Contiguous := by
  obtain ⟨hlt, hindex, -, hentries, -⟩ := h.compacted_view hcovers hok
  have hdrop := NumberedFrom.drop h.stored_contiguous (snapshot.metadata.index - l.stored.index)
  rw [show l.stored.index + 1 + (snapshot.metadata.index - l.stored.index) =
    snapshot.metadata.index + 1 by omega] at hdrop
  simp only [Stable.Contiguous, hindex, hentries]
  exact hdrop

/-- While a snapshot is pending, the log does not depend on what is stored. -/
theorem Represents.compact_pending (h : Represents l a) (hpending : l.unstable.snapshot ≠ none)
    (hcovers : l.Covers snapshot)
    (hok : Accepts (applyLocalSnapshot l.store snapshot)) :
    Represents { l with store := (applyLocalSnapshot l.store snapshot).1 } a :=
  ⟨h.compacted_contiguous hcovers hok, h.contiguous, h.lt_offset, h.offset_add, h.entries,
    h.pending, fun hnone => absurd hnone hpending, fun hnone => absurd hnone hpending⟩

/-- The term of an entry that is stored. -/
theorem Represents.termOf_of_termAt {i t : ℕ} (h : Represents l a)
    (hsettled : l.unstable.snapshot = none) (hlow : a.index < i) (hhigh : i < l.unstable.offset)
    (hterm : l.stored.termAt i = some t) : a.termOf i = t := by
  have hindex := (h.plain hsettled).1
  rw [Stable.termAt_of_gt (by omega), hindex, h.stored_getElem? hsettled (by omega)] at hterm
  rw [termOf_of_gt hlow, hterm, getD_some]

/-- A compacted log represents what is left. -/
theorem Represents.compact (h : Represents l a) (hsettled : l.unstable.snapshot = none)
    (hcovers : l.Covers snapshot)
    (hok : Accepts (applyLocalSnapshot l.store snapshot)) :
    Represents { l with store := (applyLocalSnapshot l.store snapshot).1 }
      (a.compactTo snapshot.metadata.index) := by
  obtain ⟨hlt, hindex, hterm, hentries, -⟩ := h.compacted_view hcovers hok
  obtain ⟨hindex₀, -, htake⟩ := h.plain hsettled
  rw [hindex₀] at hlt hentries
  have hoffset := h.offset_add
  have hstored := hcovers.stored
  have hat : a.termOf snapshot.metadata.index = snapshot.metadata.term :=
    h.termOf_of_termAt hsettled hlt hstored
      ((LawfulStorage.term_eq_ok l.store _ _ h.stored_contiguous).mp hcovers.term)
  refine ⟨h.compacted_contiguous hcovers hok, ?_, hstored, ?_, ?_, ?_, ?_, ?_⟩
  · have hdrop := NumberedFrom.drop h.contiguous (snapshot.metadata.index - a.index)
    rwa [show a.index + 1 + (snapshot.metadata.index - a.index) = snapshot.metadata.index + 1
      by omega] at hdrop
  · rw [compactTo_lastIndex hlt.le (by omega), hoffset]
  · simp only [compactTo, List.drop_drop]
    rw [h.entries]
    congr 1
    omega
  · intro pending hpending
    exact absurd (hsettled.symm.trans hpending) (by simp)
  · intro _
    refine ⟨hindex, hterm.trans hat.symm, ?_⟩
    simp only [stored, hentries, compactTo]
    have hdrop := congrArg (List.drop (snapshot.metadata.index - a.index)) htake
    rw [List.drop_take, List.drop_take] at hdrop
    rwa [show l.unstable.offset - (a.index + 1) - (snapshot.metadata.index - a.index) =
      l.unstable.offset - (snapshot.metadata.index + 1) by omega] at hdrop
  · intro hnone hempty
    simp only [stored, hentries, compactTo]
    rw [show l.stored.entries = a.entries from h.settled hnone hempty]

/-- A compaction keeps the log sound, and what a `Ready` asked for stays stored. -/
theorem Sound.compact (h : Sound l a) (hcovers : l.Covers snapshot)
    (hok : Accepts (applyLocalSnapshot l.store snapshot)) :
    ∃ a', Sound { l with store := (applyLocalSnapshot l.store snapshot).1 } a' ∧
      ∀ rd, Taken l a rd → Taken
        { l with store := (applyLocalSnapshot l.store snapshot).1 } a' rd := by
  obtain ⟨hlt, hindex, hterm, hentries, hle⟩ := h.toRepresents.compacted_view hcovers hok
  have hcommitted := hcovers.committed
  have hstored := hcovers.stored
  have hlast : l.committed ≤ a.lastIndex := h.committed_le
  cases hsnapshot : l.unstable.snapshot with
  | some pending =>
      have hpending : l.unstable.snapshot ≠ none := by simp [hsnapshot]
      obtain ⟨hat, -, hoffset⟩ := h.pending pending hsnapshot
      refine ⟨a, ⟨⟨h.toRepresents.compact_pending hpending hcovers hok, rfl, h.index_le,
        h.committed_le, h.persisted_lt⟩, h.limit, h.persisted_le⟩, fun rd htaken => ?_⟩
      -- a snapshot that is written leaves nothing to compact
      have hindex₀ := htaken.index
      change a.index = _ at hat
      omega
  | none =>
      have hrep := h.toRepresents.compact hsnapshot hcovers hok
      have hindex₀ : l.stored.index = a.index := (h.plain hsnapshot).1
      have hlast' := compactTo_lastIndex (a := a) (i := snapshot.metadata.index)
        (by omega) (by omega)
      refine ⟨a.compactTo snapshot.metadata.index, ⟨⟨hrep, rfl, hcommitted, ?_, h.persisted_lt⟩,
        h.limit, fun hne => absurd hsnapshot hne⟩, fun rd htaken => ?_⟩
      · show l.committed ≤ (a.compactTo snapshot.metadata.index).lastIndex
        rwa [hlast']
      · obtain ⟨extra, hunstable, hlog⟩ := htaken.entries
        have hreach : l.stored.lastIndex = l.stored.index + l.stored.entries.length := rfl
        obtain ⟨-, hterm', -⟩ := hrep.plain hsnapshot
        refine ⟨htaken.snapshot, hindex, hterm', extra, hunstable, ?_⟩
        simp only [hentries, compactTo]
        rw [hlog, hindex₀, List.drop_append_of_le_length (by omega)]

end RaftLog

/-! ## Runs -/

namespace Driven

variable {d d' : Driven σ} {a : AbstractLog}

/-- A call of the application, or a compaction of the storage. -/
inductive LagOp
  | drive (op : Drive)
  | compact (snapshot : Snapshot)

/-- One step of a run with compactions. -/
def lagStep (d : Driven σ) : LagOp → Option (Driven σ)
  | .drive op => (d.step op).map Prod.fst
  | .compact snapshot =>
      match (applyLocalSnapshot d.node.raft.raftLog.store snapshot).2 with
      | .ok () =>
          some { d with
            node := d.node.setStore
              (applyLocalSnapshot d.node.raft.raftLog.store snapshot).1 }
      | .error _ => none

/-- The storage compacts only what a snapshot covers. -/
def LagLegal (d : Driven σ) : LagOp → Prop
  | .drive op => d.Legal op
  | .compact snapshot => d.node.raft.raftLog.Covers snapshot

/-- A sequence of steps of which none aborts. -/
inductive LagRun : Driven σ → List LagOp → Driven σ → Prop
  | nil (d : Driven σ) : LagRun d [] d
  | cons {d d₁ d₂ : Driven σ} {op : LagOp} {ops : List LagOp} (hop : d.LagLegal op)
      (hstep : d.lagStep op = some d₁) (hrun : LagRun d₁ ops d₂) : LagRun d (op :: ops) d₂

omit [LawfulStorage σ] in
theorem of_lagStep_compact {snapshot : Snapshot} (hstep : d.lagStep (.compact snapshot) = some d') :
    Accepts (applyLocalSnapshot d.node.raft.raftLog.store snapshot) ∧
      d' = { d with
        node := d.node.setStore
          (applyLocalSnapshot d.node.raft.raftLog.store snapshot).1 } := by
  simp only [lagStep] at hstep
  split at hstep
  next hok => exact ⟨hok, (some.inj hstep).symm⟩
  next => cases hstep

theorem Sound.lagStep (h : d.Sound a) {op : LagOp} (hop : d.LagLegal op)
    (hstep : d.lagStep op = some d') : ∃ a', d'.Sound a' := by
  cases op with
  | drive op =>
      obtain ⟨⟨d₁, pages⟩, hcall, rfl⟩ := map_eq_some_iff.mp hstep
      obtain ⟨a', hsound, -⟩ := h.step (P := fun d op => d.Legal op) hop hop hcall
      exact ⟨a', hsound⟩
  | compact snapshot =>
      obtain ⟨hok, rfl⟩ := of_lagStep_compact hstep
      obtain ⟨a', hlog, htaken⟩ := h.log.compact hop hok
      exact ⟨a', hlog, fun rd hrd => htaken rd (h.taken rd hrd), h.recorded, h.number⟩

theorem Sound.lagRun {ops : List LagOp} (h : d.Sound a) (hrun : LagRun d ops d') :
    ∃ a', d'.Sound a' := by
  induction hrun generalizing a with
  | nil d => exact ⟨a, h⟩
  | cons hop hstep _ ih =>
      obtain ⟨a₁, hsound₁⟩ := h.lagStep hop hstep
      exact ih hsound₁

omit [LawfulStorage σ] in
theorem LagRun.of_run {ops : List Drive} {pages : List (Page σ)} (h : Run Legal d ops d' pages) :
    LagRun d (ops.map .drive) d' := by
  induction h with
  | nil d => exact .nil d
  | cons hop hstep _ ih => exact .cons hop (map_eq_some_iff.mpr ⟨_, hstep, rfl⟩) ih

/-- In every state of every run, the scan that precedes a campaign returns and finds each
configuration change that is committed and not applied, if and only if the entries after the
applied index are still there or a pending snapshot stands for those that are not.  Whatever
the role the node scans in, it is the log of this state it scans. -/
theorem hup_scan_safe [ReliableStorage σ] {config : Config} {store : σ} {rng : ℕ → ℕ}
    {n : RawNode σ} {ops : List LagOp} (hstore : (view store).Contiguous)
    (hnew : RawNode.new config store rng = some n) (hrun : LagRun { node := n } ops d) :
    ∃ a, d.node.raft.raftLog.Represents a ∧
      ∀ r : Raft σ, r.raftLog = d.node.raft.raftLog →
        ((∃ found, r.hupScan = some found ∧
          ∀ e ∈ a.entries, r.raftLog.applied < e.index → e.index ≤ r.raftLog.committed →
            e.entryType = .entryConfChangeV2 → found = true) ↔
          d.node.raft.raftLog.Scannable) := by
  obtain ⟨hsound₀, -⟩ := Sound.new hstore hnew
  obtain ⟨a, hsound⟩ := hsound₀.lagRun hrun
  refine ⟨a, hsound.log.toRepresents, fun r hlog => ?_⟩
  rw [← hlog]
  exact Raft.hupScan_iff (hlog ▸ hsound.log)

end Driven

end Compaction

/-! ## A run -/

namespace Driven

/-- A snapshot of the first five entries, from the leader of term 1. -/
def snapshotAtFive : Drive :=
  .input (.step
    { msgType := .msgSnapshot, sender := 2, receiver := 1, term := 1
      snapshot :=
        { metadata := { confState := { voters := [1, 2] }, index := 5, term := 1 } } })

/-- The first two entries, both committed, of which the second changes the configuration. -/
def changeAtTwo : Drive :=
  .input (.step
    { msgType := .msgAppend, sender := 2, receiver := 1, term := 1, commit := 2
      entries := [{ term := 1, index := 1 },
        { entryType := .entryConfChangeV2, term := 1, index := 2 }] })

theorem hup_scan_safe_pending :
    letI := Codec.plain
    ∃ n d, RawNode.new { id := 1 } soloStore (fun _ => 0) = some n ∧
      LagRun { node := n } [.drive changeAtTwo] d ∧
      d.node.raft.raftLog.applied = 0 ∧ d.node.raft.raftLog.committed = 2 ∧
      d.node.raft.raftLog.Scannable ∧ d.node.raft.hupScan = some true := by
  obtain ⟨n, hnew, d, pages, hrun, happlied, hcommitted, hscannable, hslice⟩ : letI := Codec.plain
      ∃ n, RawNode.new { id := 1 } soloStore (fun _ => 0) = some n ∧
        ∃ d pages, Run Legal { node := n } [changeAtTwo] d pages ∧
          d.node.raft.raftLog.applied = 0 ∧ d.node.raft.raftLog.committed = 2 ∧
          d.node.raft.raftLog.Scannable ∧ d.node.raft.raftLog.slice 2 3 none (.empty false) =
            some (.ok [{ entryType := .entryConfChangeV2, term := 1, index := 2 }]) := by
    decide +kernel
  let _ := Codec.plain
  have hlag := LagRun.of_run hrun
  obtain ⟨a, hrep, hscan⟩ := hup_scan_safe soloStore_contiguous hnew hlag
  obtain ⟨found, hfound, hfinds⟩ := (hscan d.node.raft rfl).mpr hscannable
  -- the second entry is committed and not applied
  obtain rfl : found = true := hfinds _ (hrep.mem_of_slice hslice List.mem_cons_self)
    (happlied.trans_lt (by decide)) hcommitted.ge rfl
  exact ⟨n, d, hnew, hlag, happlied, hcommitted, hscannable, hfound⟩

/-- A follower that has written the snapshot and not yet been told that it is applied does not
survive its election timeout. -/
theorem hup_scan_stops :
    letI := Codec.plain
    ∃ n d, RawNode.new { id := 1 } soloStore (fun _ => 0) = some n ∧
      LagRun { node := n } [.drive snapshotAtFive, .drive .ready, .drive .advanceAppendAsync] d ∧
      d.node.raft.hupScan = none ∧ d.node.input .campaign = none := by
  obtain ⟨n, hnew, d, pages, hrun, hstops⟩ : letI := Codec.plain
      ∃ n, RawNode.new { id := 1 } soloStore (fun _ => 0) = some n ∧
        ∃ d pages, Run Legal { node := n } [snapshotAtFive, .ready, .advanceAppendAsync] d pages ∧
          d.node.raft.hupScan = none ∧ d.node.input .campaign = none := by
    decide +kernel
  let _ := Codec.plain
  exact ⟨n, d, hnew, .of_run hrun, hstops⟩

end Driven

end Raftpp
