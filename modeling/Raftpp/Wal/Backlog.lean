import Raftpp.Wal.Append

/-!
# A write buffer that could not be written

When a flush fails, the records and the pending index entries stay in the write
buffer, and the batch that is appended next goes behind them.  Its first entry has the
index of the first entry in the buffer, and the index takes both: `Insert` accepts an
index that it has.  So the log grows by the entries of the failed batch as well.

`Backlog` counts them: the entries of the index and of the write buffer together.
-/

namespace Raftpp

open List

namespace Wal

variable [WalCodec] {e : Entry}

/-- A log with `n` entries in the index and the write buffer, whose current segment is `id`. -/
structure Backlog (first n id : ℕ) (w : Wal) : Prop where
  firstIndex : w.firstIndex = first
  manager : ∃ before im, Increasing (before ++ [im]) ∧ im.id = id ∧
    w.manager = managerOf (before ++ [im])
  buffer : ∃ records, w.writeBuffer = recordsBytes records
  filled : w.pendingEntries ≠ [] → w.writeBuffer ≠ []
  index : w.index.Holds first w.index.entries
  count : w.index.entries.length + w.pendingEntries.length = n
  pending : ∀ (j : ℕ) p, w.pendingEntries[j]? = some p →
    first ≤ p.index ∧ p.index ≤ first + (w.index.entries.length + j)

variable {first n id : ℕ} {w : Wal}

omit [WalCodec] in
/-- Every pending entry makes the index longer, new or not. -/
theorem holds_insertPending (segmentId start : ℕ) {ps : List PendingEntry} {x : WalIndex}
    {xs : List IndexEntry} (h : x.Holds first xs)
    (hps : ∀ (j : ℕ) p, ps[j]? = some p → first ≤ p.index ∧ p.index ≤ first + (xs.length + j)) :
    ∃ xs', (insertPending segmentId start ps x).Holds first xs' ∧
      xs'.length = xs.length + ps.length := by
  induction ps generalizing x xs with
  | nil => exact ⟨xs, h, rfl⟩
  | cons p ps ih =>
      obtain ⟨hlow, hhigh⟩ := hps 0 p rfl
      have hinsert := h.insert_again
        { segmentId, offset := start + p.offsetInBuffer, length := p.recordLength
          term := p.term } hlow hhigh
      obtain ⟨xs', hholds, hlength⟩ := ih hinsert fun j q hq => by
        have hbound := hps (j + 1) q hq
        rw [length_append, length_singleton]
        omega
      refine ⟨xs', hholds, ?_⟩
      rw [hlength, length_append, length_singleton, length_cons]
      omega

/-- A log with an empty write buffer. -/
theorem Backlog.of_flushed {before : List Image} (im : Image) {xs : List IndexEntry}
    (hfirst : w.firstIndex = first) (hincreasing : Increasing (before ++ [im]))
    (hmanager : w.manager = managerOf (before ++ [im]))
    (hbuffer : ∃ records, w.writeBuffer = recordsBytes records) (hpending : w.pendingEntries = [])
    (hindex : w.index.Holds first xs) (hcount : xs.length = n) : Backlog first n im.id w where
  firstIndex := hfirst
  manager := ⟨before, im, hincreasing, rfl, hmanager⟩
  buffer := hbuffer
  filled := fun hne => absurd hpending hne
  index := ⟨rfl, fun hne => hindex.2 (hindex.1 ▸ hne)⟩
  count := by rw [hindex.1, hcount, hpending, length_nil, Nat.add_zero]
  pending := fun j p hp => by simp [hpending] at hp

/-- Without faults a flush empties the write buffer. -/
theorem Backlog.flush (h : Backlog first n id w) :
    Ends (flushWriteBuffer Faults.none) w
      (fun _ w' => Backlog first n id w' ∧ w'.pendingEntries = [])
      fun _ _ => False := by
  obtain ⟨before, im, hincreasing, rfl, hmanager⟩ := h.manager
  obtain ⟨records, hrecords⟩ := h.buffer
  unfold flushWriteBuffer
  rw [ends_bind, ends_get]
  split
  next hnil =>
    refine ⟨h, ?_⟩
    by_contra hne
    exact h.filled hne hnil
  next hne =>
    rw [ends_bind, ends_onManager, hmanager]
    refine (ends_getCurrentSegment hincreasing _).mono ?_ fun _ _ => False.elim
    rintro s m ⟨rfl, rfl⟩
    rw [ends_bind, ends_onManager, hrecords]
    refine (ends_appendTo hincreasing .flush records).mono ?_ fun _ m hm => ?_
    · rintro - m ⟨-, rfl⟩
      obtain ⟨xs, hholds, hlength⟩ := holds_insertPending im.id im.size h.index h.pending
      exact ⟨Backlog.of_flushed (im.extend records) h.firstIndex (hincreasing.replace rfl) rfl
        ⟨[], rfl⟩ rfl hholds (hlength.trans h.count), rfl⟩
    · obtain ⟨fault, hfault, -⟩ := hm
      exact absurd hfault (by simp [Faults.none])

/-- A new segment. -/
theorem Backlog.roll (h : Backlog first n id w) (config : WalConfig) (index : ℕ) :
    Ends (onManager (SegmentManager.rollToNewSegment Faults.none config index)) w
      (fun s w' => Backlog first n s.segmentId w' ∧ w'.pendingEntries = w.pendingEntries)
      fun _ _ => False := by
  obtain ⟨before, im, hincreasing, rfl, hmanager⟩ := h.manager
  rw [ends_onManager, hmanager]
  refine (ends_rollToNewSegment hincreasing index).mono ?_ ?_
  · rintro s m ⟨rfl, rfl⟩
    refine ⟨⟨h.firstIndex, ⟨_, _, ?_, rfl, rfl⟩, h.buffer, h.filled, h.index, h.count, h.pending⟩,
      rfl⟩
    refine pairwise_append.mpr ⟨hincreasing, pairwise_singleton _ _, ?_⟩
    intro b hb c hc
    rw [mem_singleton.mp hc]
    exact Nat.lt_succ_of_le (hincreasing.id_le hb)
  · rintro - m ⟨-, hcreate⟩
    rcases hcreate with hfault | hfault | hfault <;> exact absurd hfault (by simp [Faults.none])

theorem Backlog.segment (h : Backlog first n id w) :
    Ends (segment id) w (fun s w' => w' = w ∧ ∃ before im, Increasing (before ++ [im]) ∧
      im.id = id ∧ s = im.segment ∧ w.manager = managerOf (before ++ [im]))
      fun _ _ => False := by
  obtain ⟨before, im, hincreasing, rfl, hmanager⟩ := h.manager
  unfold Wal.segment
  rw [ends_bind, ends_get, hmanager, managerOf_find hincreasing (by simp)]
  exact ⟨rfl, before, im, hincreasing, rfl, rfl, rfl⟩

theorem Backlog.maybeRoll (h : Backlog first n id w) (index : ℕ) :
    Ends (maybeRollSegmentForAppend Faults.none index id) w
      (fun id' w' => Backlog first n id' w' ∧ (w.pendingEntries = [] → w'.pendingEntries = []))
      fun _ _ => False := by
  unfold maybeRollSegmentForAppend
  rw [ends_bind]
  refine h.segment.mono ?_ fun _ _ => False.elim
  rintro s w' ⟨rfl, -⟩
  rw [ends_bind, ends_get]
  dsimp only
  split
  · rw [ends_bind]
    refine h.flush.mono ?_ fun _ _ => False.elim
    rintro - w'' ⟨hbacklog, hpending⟩
    rw [ends_bind]
    refine (hbacklog.roll _ index).mono ?_ fun _ _ => False.elim
    rintro s w''' ⟨hrolled, hsame⟩
    exact ⟨hrolled, fun _ => hsame.trans hpending⟩
  · exact ⟨h, fun hnil => hnil⟩

theorem Backlog.currentSegment (h : Backlog first n id w) (config : WalConfig) (index : ℕ) :
    Ends (onManager (SegmentManager.getCurrentSegment Faults.none config index)) w
      (fun s w' => s.segmentId = id ∧ w' = w) fun _ _ => False := by
  obtain ⟨before, im, hincreasing, rfl, hmanager⟩ := h.manager
  rw [ends_onManager, hmanager]
  refine (ends_getCurrentSegment hincreasing index).mono ?_ fun _ _ => False.elim
  rintro s m ⟨rfl, rfl⟩
  exact ⟨rfl, by rw [← hmanager]⟩

theorem Backlog.current (h : Backlog first n id w) (index : ℕ) :
    Ends (getCurrentSegmentForAppend Faults.none index) w
      (fun id' w' => Backlog first n id' w' ∧ (w.pendingEntries = [] → w'.pendingEntries = []))
      fun _ _ => False := by
  unfold getCurrentSegmentForAppend
  rw [ends_bind, ends_get, ends_bind]
  refine (h.currentSegment _ index).mono ?_ fun _ _ => False.elim
  rintro s w' ⟨rfl, rfl⟩
  exact h.maybeRoll index

/-- An entry that is written at once enters the index. -/
theorem Backlog.direct (h : Backlog first n id w) (hlow : first ≤ e.index)
    (hhigh : e.index ≤ first + n) :
    Ends (appendDirect Faults.none e) w (fun id' w' => Backlog first (n + 1) id' w')
      fun _ _ => False := by
  unfold appendDirect
  rw [ends_bind]
  refine h.flush.mono ?_ fun _ _ => False.elim
  rintro - w' ⟨hflush, hpending⟩
  rw [ends_bind]
  refine (hflush.current e.index).mono ?_ fun _ _ => False.elim
  rintro id' w' ⟨hcurrent, hempty⟩
  have hnil := hempty hpending
  rw [ends_bind]
  refine hcurrent.segment.mono ?_ fun _ _ => False.elim
  rintro s w'' ⟨rfl, before, im, hincreasing, rfl, rfl, hmanager⟩
  rw [ends_bind, ends_onManager, hmanager, entryRecord_eq]
  refine (ends_appendTo hincreasing (.direct e.index) (entryRecords [e])).mono ?_ fun _ m hm => ?_
  · rintro - m ⟨-, rfl⟩
    rw [ends_bind, ends_modify, ends_pure]
    have hcount := hcurrent.count
    rw [hnil, length_nil, Nat.add_zero] at hcount
    have hinsert := hcurrent.index.insert_again
      { segmentId := im.id, offset := im.size
        length := (recordsBytes (entryRecords [e])).length % 2 ^ 32, term := e.term }
      hlow (hcount ▸ hhigh)
    refine Backlog.of_flushed (im.extend (entryRecords [e])) hcurrent.firstIndex
      (hincreasing.replace rfl) rfl hcurrent.buffer hnil hinsert ?_
    rw [length_append, hcount, length_singleton]
  · obtain ⟨fault, hfault, -⟩ := hm
    exact absurd hfault (by simp [Faults.none])

/-- An entry that waits in the write buffer is counted too. -/
theorem Backlog.buffered (h : Backlog first n id w) (hlow : first ≤ e.index)
    (hhigh : e.index ≤ first + n) :
    Ends (appendBuffered Faults.none e) w (fun _ w' => Backlog first (n + 1) id w')
      fun _ _ => False := by
  -- the record is copied behind what is in the write buffer
  have hcopy : ∀ w' : Wal, Backlog first n id w' → Backlog first (n + 1) id (w'.bufferEntry e) := by
    intro w' hbacklog
    obtain ⟨records, hrecords⟩ := hbacklog.buffer
    have hcount := hbacklog.count
    refine ⟨hbacklog.firstIndex, hbacklog.manager, ⟨records ++ entryRecords [e], ?_⟩, fun _ => ?_,
      hbacklog.index, ?_, fun j p hp => ?_⟩
    · rw [recordsBytes_append, ← entryRecord_eq, ← hrecords]
      rfl
    · intro hnil
      have hlength := (LogRecord.entry e).size_ge
      rw [LogRecord.size, show (LogRecord.entry e).bytes = [] from
        (append_eq_nil_iff.mp hnil).2] at hlength
      exact absurd hlength (by decide)
    · rw [bufferEntry, length_append, length_singleton]
      dsimp only
      omega
    · rcases Nat.lt_or_ge j w'.pendingEntries.length with hold | hnew
      · rw [bufferEntry, getElem?_append_left hold] at hp
        exact hbacklog.pending j p hp
      · rw [bufferEntry, getElem?_append_right hnew] at hp
        have hj : j - w'.pendingEntries.length = 0 := by
          by_contra hpos
          rw [getElem?_eq_none (by rw [length_singleton]; omega)] at hp
          cases hp
        rw [hj] at hp
        cases hp
        exact ⟨hlow, by dsimp only [bufferEntry]; omega⟩
  unfold appendBuffered makeSpace flushWriteBufferIfNeeded
  rw [ends_bind, ends_bind, ends_get]
  have hrest : ∀ w' : Wal, Backlog first n id w' →
      Ends (do
        modify fun w => w.bufferEntry e
        let w ← get
        let s ← onManager (SegmentManager.getCurrentSegment Faults.none w.config w.firstIndex)
        if w.shouldFlushBuffer s then flushWriteBuffer Faults.none else pure ()) w'
        (fun _ w' => Backlog first (n + 1) id w') fun _ _ => False := by
    intro w' hbacklog
    have hcopied := hcopy w' hbacklog
    rw [ends_bind, ends_modify, ends_bind, ends_get, ends_bind]
    refine (hcopied.currentSegment _ _).mono ?_ fun _ _ => False.elim
    rintro s w'' ⟨-, rfl⟩
    split
    · exact hcopied.flush.mono (fun _ _ => And.left) fun _ _ => False.elim
    · exact hcopied
  split
  · exact h.flush.mono (fun _ w' hflush => hrest w' hflush.1) fun _ _ => False.elim
  · exact hrest w h

/-- A batch of one entry is appended behind the backlog. -/
theorem Backlog.append (h : Backlog first n id w) (hlow : first ≤ e.index)
    (hhigh : e.index ≤ first + n) (hnext : e.index = w.lastIndex + 1) :
    Ends (append Faults.none [e]) w
      (fun _ w' => w'.firstIndex = first ∧ w'.lastIndex + 1 = first + (n + 1))
      fun _ _ => False := by
  unfold Wal.append
  rw [ends_bind]
  unfold makeRoom
  rw [ends_bind, ends_get]
  dsimp only
  rw [if_pos hnext, ends_pure]
  unfold writeBatch
  rw [ends_bind]
  refine (h.current e.index).mono ?_ fun _ _ => False.elim
  rintro id w' ⟨hcurrent, -⟩
  have hlast : Ends (appendEntries Faults.none id [e]) w'
      (fun _ w' => ∃ id, Backlog first (n + 1) id w') fun _ _ => False := by
    unfold appendEntries
    rw [ends_bind]
    refine (hcurrent.maybeRoll e.index).mono ?_ fun _ _ => False.elim
    rintro id w' ⟨hrolled, -⟩
    rw [ends_bind, ends_get]
    split
    · rw [ends_bind]
      exact (hrolled.direct hlow hhigh).mono (fun id w' hw' => ⟨id, hw'⟩) fun _ _ => False.elim
    · rw [ends_bind]
      exact (hrolled.buffered hlow hhigh).mono (fun _ w' hw' => ⟨_, hw'⟩) fun _ _ => False.elim
  rw [ends_bind]
  refine hlast.mono ?_ fun _ _ => False.elim
  rintro - w' ⟨id, hw'⟩
  rw [ends_bind]
  refine hw'.flush.mono ?_ fun _ _ => False.elim
  rintro - w' ⟨hflush, hpending⟩
  have hdone : w'.firstIndex = first ∧ w'.lastIndex + 1 = first + (n + 1) := by
    have hcount := hflush.count
    rw [hpending, length_nil, Nat.add_zero] at hcount
    have hne : w'.index.entries ≠ [] := by
      intro hnil
      rw [hnil] at hcount
      exact absurd hcount (Nat.succ_ne_zero n).symm
    refine ⟨hflush.firstIndex, ?_⟩
    rw [lastIndex, if_neg hne, hflush.index.lastIndex hne, hcount]
  rw [ends_bind, ends_get]
  split
  · rw [ends_onManager]
    refine (ends_syncAll _).mono ?_ fun _ m hm => ?_
    · rintro - m rfl
      exact hdone
    · obtain ⟨-, id, hfault⟩ := hm
      exact absurd hfault (by simp [Faults.none])
  · exact hdone

end Wal

end Raftpp
