import Raftpp.Wal.Backlog
import Raftpp.Wal.Paging
import Raftpp.Wal.Reopen
import Raftpp.Wal.Replace

/-!
# After a failed append

One call to the file system fails within `WAL::Append`, and the process stays alive.
What the log reports afterwards should be the old log, cut where the batch starts or
not at all, and a part of the batch; what is appended next should go behind that, in
memory and in the files: `NoTrace`.

A failed call of one of three kinds leaves a trace:

* the write of the write buffer: its records are written again with the next batch, in
  front of it (`Backlog`);
* the sync of the segment that was cut, or the removal of a segment behind it: the index
  still leads to records that are gone (`CutOff`);
* the making of a segment for the first entry, or its direct write, when the batch
  replaces the whole of a log whose snapshot is older than its beginning: with no entry
  left, `LastIndex` falls back to the index of the snapshot.
-/

namespace Raftpp

open List

namespace Wal

variable [WalCodec] {w' : Wal}

/-! ## A log without a trace of a batch -/

/-- A log between two operations, whose files are some images. -/
structure InOrder (w : Wal) (images : List Image) : Prop where
  sized : w.config.Sized
  state : w.withLog images [] = w
  laid : w.Laid ((images.getLast?.map Image.tail).getD []) images
  based : w.Based (walEntries w.firstIndex images)
  firstIndex : (w.metadataFile.getD {}).firstIndex = w.firstIndex
  snapshotIndex : (w.metadataFile.getD {}).snapshotIndex = w.snapshotIndex

/-- A log is found again when its directory is reopened, as long as the names of its segments
have six digits.  `Open` itself also checks that the log reaches the commit index. -/
def ReopensTo (w : Wal) (log : List Entry) : Prop :=
  w.manager.currentSegmentId < 1000000 →
    ∃ w', replayLog w.config w.directory = .ok w' ∧ w'.firstIndex = w.firstIndex ∧
      w'.Reports log ∧
      (w'.hardState.commit ≤ w'.lastIndex → openLog w.config w.directory = .ok w')

/-- The log is `log`, and a batch that is appended to it replaces it from the first index of the
batch on. -/
structure Settles (w : Wal) (log : List Entry) : Prop where
  reports : w.Reports log
  later : ∀ e es w', NumberedFrom e.index (e :: es) → (∀ f ∈ e :: es, f.Fits) →
    w.firstIndex ≤ e.index → e.index ≤ w.lastIndex + 1 →
    append Faults.none (e :: es) w = .ok () w' →
      w'.Reports (log.take (e.index - w.firstIndex) ++ e :: es) ∧
        w'.ReopensTo (log.take (e.index - w.firstIndex) ++ e :: es)

/-- A batch that starts at `first` has left no trace but a part of itself. -/
def NoTrace (w : Wal) (log : List Entry) (first : ℕ) (batch : List Entry) (w' : Wal) : Prop :=
  (∃ j, first ≤ w.firstIndex + j ∧ w'.Settles (log.take j)) ∨
    ∃ k, w'.Settles (log.take (first - w.firstIndex) ++ batch.take k)

/-- The calls whose failure leaves a trace of a batch that starts at `first`. -/
def LeavesTrace (w : Wal) (first : ℕ) : IoCall → Prop
  | .write .flush _ _ => True
  | .sync .truncate _ => True
  | .remove _ => True
  | .create _ i => i = first ∧ first = w.firstIndex ∧ w.snapshotIndex + 1 ≠ w.firstIndex
  | .writeHeader _ i => i = first ∧ first = w.firstIndex ∧ w.snapshotIndex + 1 ≠ w.firstIndex
  | .stat _ i => i = first ∧ first = w.firstIndex ∧ w.snapshotIndex + 1 ≠ w.firstIndex
  | .write (.direct i) _ _ =>
      i = first ∧ first = w.firstIndex ∧ w.snapshotIndex + 1 ≠ w.firstIndex
  | _ => False

/-! ## What is kept -/

section Kept

variable {w : Wal} {spare : Bytes} {images : List Image} {log : List Entry}

theorem InOrder.lastIndex (h : w.InOrder images) : w.lastIndex + 1 = w.nextIndex images := by
  have hheld := h.laid.holds_nil.lastIndex ⟨h.based.snapshot, h.based.empty⟩
  rw [h.state] at hheld
  exact hheld

variable [LawfulWalCodec]

/-- A log whose entries are all in the files is found again. -/
theorem Written.reports {saved : List HardState} (h : w.Written saved log w') (hbased : w.Based log)
    (hfirst : (w.metadataFile.getD {}).firstIndex = w.firstIndex)
    (hsnapshot : (w.metadataFile.getD {}).snapshotIndex = w.snapshotIndex) :
    w'.Reports log ∧ w'.ReopensTo log := by
  obtain ⟨spare, images, hlaid, hstops, rfl, -, rfl⟩ := h
  have hholds := hlaid.holds_nil
  refine ⟨hholds.reports ⟨hbased.snapshot, hbased.empty⟩, fun hcurrent => ?_⟩
  have hids : ∀ im ∈ images, im.id < 1000000 := fun im him =>
    (hlaid.chain.increasing.id_le him).trans_lt hcurrent
  obtain ⟨w', hreplay, hfirst', hreports⟩ := reports_replayLog w.config
    (w.withLog images []).directory hfirst hsnapshot rfl hlaid.chain hids hstops hlaid.numbered
    hbased.snapshot hbased.empty
  refine ⟨w', hreplay, hfirst', hreports, fun hcommit => ?_⟩
  change Except.bind (replayLog w.config (w.withLog images []).directory) _ = _
  rw [hreplay]
  exact if_neg (not_lt.mpr hcommit)

/-- A log with a layout is settled. -/
theorem Laid.settles (h : w.Laid spare images) (hsized : w.config.Sized)
    (hbased : w.Based (walEntries w.firstIndex images))
    (hfirst : (w.metadataFile.getD {}).firstIndex = w.firstIndex)
    (hsnapshot : (w.metadataFile.getD {}).snapshotIndex = w.snapshotIndex) :
    (w.withLog images []).Settles (walEntries w.firstIndex images) where
  reports := h.holds_nil.reports ⟨hbased.snapshot, hbased.empty⟩
  later := by
    intro e es w' hes hfits hlow hhigh hrun
    obtain ⟨-, saved, -, hwritten⟩ := (ends_append hsized h hbased hes hfits
      fun f _ => tornInert_none spare f).ok hrun
    exact hwritten.reports ⟨hbased.snapshot, fun hnil => by simp at hnil⟩ hfirst hsnapshot

end Kept

/-! ## What leaves a trace -/

section Trace

variable {w : Wal} {images : List Image} {buffered : List Entry}

theorem readEntries_error {i : ℕ} {error : RaftError} (hfirst : w.firstIndex ≤ i)
    (hlast : i ≤ w.lastIndex) (h : w.readEntry i = .error error) :
    w.readEntries i (i + 1) none = .error error := by
  unfold readEntries
  rw [if_neg (not_lt.mpr hfirst), if_neg (by omega), min_eq_left (Nat.add_le_add_right hlast 1)]
  dsimp only
  rw [if_neg (by omega), Nat.add_sub_cancel_left, readLoop, h]
  rfl

/-- Records that the index leads to are gone. -/
theorem CutOff.not_reports {i : ℕ} (h : w.CutOff images i w') (hfirst : w.firstIndex ≤ i)
    (hlast : i ≤ (w.withLog images []).lastIndex) (log : List Entry) : ¬w'.Reports log := by
  intro hreports
  obtain ⟨⟨manager, hstate⟩, error, herror⟩ := h
  have hfirst' : w'.firstIndex ≤ i := by
    rw [hstate]
    exact hfirst
  have hlast' : i ≤ w'.lastIndex := by
    rw [hstate]
    exact hlast
  have hread := hreports.readEntries i (i + 1) none hfirst' (Nat.le_succ i)
    (Nat.succ_le_succ hlast')
  rw [readEntries_error hfirst' hlast' herror] at hread
  cases hread

theorem length_pendingOf (offset : ℕ) (es : List Entry) :
    (pendingOf offset es).length = es.length := by
  induction es generalizing offset with
  | nil => rfl
  | cons e es ih => rw [pendingOf, length_cons, ih, length_cons]

theorem index_pendingOf {offset j : ℕ} {es : List Entry} {p : PendingEntry}
    (h : (pendingOf offset es)[j]? = some p) : ∃ e, es[j]? = some e ∧ p.index = e.index := by
  induction es generalizing offset j with
  | nil => simp [pendingOf] at h
  | cons e es ih =>
      cases j with
      | zero =>
          cases h
          exact ⟨e, rfl, rfl⟩
      | succ j => exact ih h

/-- What is left in the write buffer counts. -/
theorem backlog_withLog {before : List Image} {im : Image}
    (hincreasing : Increasing (before ++ [im]))
    (hnumbered : NumberedFrom (w.nextIndex (before ++ [im])) buffered) :
    Backlog w.firstIndex ((walEntries w.firstIndex (before ++ [im])).length + buffered.length)
      im.id (w.withLog (before ++ [im]) buffered) where
  firstIndex := rfl
  manager := ⟨before, im, hincreasing, rfl, rfl⟩
  buffer := ⟨_, rfl⟩
  filled := by
    intro hne hnil
    have hbuffered : buffered = [] := map_eq_nil_iff.mp (recordsBytes_eq_nil hnil)
    rw [hbuffered] at hne
    exact hne rfl
  index := ⟨rfl, fun _ => rfl⟩
  count := by
    rw [Holds.length_entries, withLog, length_map, length_pendingOf]
  pending := by
    intro j p hp
    obtain ⟨e, he, hindex⟩ := index_pendingOf hp
    have hnumber := hnumbered j e he
    rw [nextIndex, Holds.length_entries] at hnumber
    rw [withLog, length_map]
    omega

/-- What is left in the write buffer is written in front of the next batch. -/
theorem not_settles_of_buffered {before : List Image} {im : Image}
    (hsnapshot : w.snapshotIndex < w.firstIndex) (hincreasing : Increasing (before ++ [im]))
    (hne : buffered ≠ []) (hnumbered : NumberedFrom (w.nextIndex (before ++ [im])) buffered)
    (hfits : ∀ e ∈ buffered, e.Fits) (log : List Entry) :
    ¬(w.withLog (before ++ [im]) buffered).Settles log := by
  intro hsettles
  obtain ⟨e, es, rfl⟩ := exists_cons_of_ne_nil hne
  have hindex : e.index = w.nextIndex (before ++ [im]) := hnumbered.head
  have hfirst : w.firstIndex ≤ e.index := hindex ▸ Nat.le_add_right _ _
  have hbacklog := backlog_withLog hincreasing hnumbered
  have hlast := hsettles.reports.lastIndex
  -- the next index is that of the first entry in the write buffer
  have hnext : e.index = (w.withLog (before ++ [im]) (e :: es)).lastIndex + 1 := by
    by_cases hempty : (w.withLog (before ++ [im]) (e :: es)).index.entries = []
    · have hlength : (walEntries w.firstIndex (before ++ [im])).length = 0 := by
        rw [Holds.length_entries, map_eq_nil_iff.mp hempty]
        rfl
      have hback : (w.withLog (before ++ [im]) (e :: es)).lastIndex = w.snapshotIndex :=
        if_pos hempty
      rw [hback] at hlast ⊢
      rw [nextIndex, hlength] at hindex
      change w.snapshotIndex + 1 = w.firstIndex + log.length at hlast
      omega
    · rw [lastIndex, if_neg hempty, hbacklog.index.lastIndex hempty, hindex, nextIndex,
        Holds.length_entries, withLog, length_map]
  have hhigh : e.index ≤ w.firstIndex +
      ((walEntries w.firstIndex (before ++ [im])).length + (e :: es).length) := by
    rw [hindex, nextIndex]
    omega
  obtain ⟨⟨⟩, w', hrun, hfirst', hlast'⟩ :=
    (hbacklog.append hfirst hhigh hnext).exists_ok
  have hlater := (hsettles.later e [] w' (fun k f hf => ?_) (fun f hf => ?_) hfirst hnext.le
    hrun).1.lastIndex
  · rw [hfirst', hlast', length_append, length_take, length_singleton, length_cons] at hlater
    change _ = w.firstIndex + (min (e.index - w.firstIndex) _ + 1) at hlater
    rw [nextIndex] at hindex
    omega
  · cases k with
    | zero =>
        cases hf
        rfl
    | succ k => simp at hf
  · rw [mem_singleton.mp hf]
    exact hfits e mem_cons_self

/-- With no entry left, `LastIndex` is the index of a snapshot that ends before the log. -/
theorem not_reports_of_empty (hempty : walEntries w.firstIndex images = [])
    (hsnapshot : w.snapshotIndex < w.firstIndex) (hgap : w.snapshotIndex + 1 ≠ w.firstIndex)
    (log : List Entry) : ¬(w.withLog images []).Reports log := by
  intro hreports
  have hlast := hreports.lastIndex
  have hentries : (w.withLog images []).index.entries = [] := by
    rw [walEntries, map_eq_nil_iff] at hempty
    rw [withLog, hempty]
    rfl
  rw [lastIndex, if_pos hentries] at hlast
  change w.snapshotIndex + 1 = w.firstIndex + log.length at hlast
  omega

end Trace

/-! ## The failing calls -/

section Main

variable [LawfulWalCodec] {w : Wal} {images : List Image} {call : IoCall} {fault : Fault}

omit [WalCodec] [LawfulWalCodec] in
theorem eq_of_only {c : IoCall} (h : (Faults.only call fault c).isSome = true) : c = call := by
  unfold Faults.only at h
  by_contra hne
  rw [if_neg hne] at h
  cases h

omit [WalCodec] [LawfulWalCodec] in
/-- A call that stops the writing of the entry with the next index. -/
theorem leavesTrace_next {next first : ℕ}
    (h : (∃ id, CreateFails (Faults.only call fault) id next) ∨
      ∃ id offset, (Faults.only call fault (.write (.direct next) id offset)).isSome = true) :
    w.LeavesTrace first call ↔
      next = first ∧ first = w.firstIndex ∧ w.snapshotIndex + 1 ≠ w.firstIndex := by
  rcases h with ⟨id, hcreate | hcreate | hcreate⟩ | ⟨id, offset, hwrite⟩
  · rw [← eq_of_only hcreate]
    rfl
  · rw [← eq_of_only hcreate]
    rfl
  · rw [← eq_of_only hcreate]
    rfl
  · rw [← eq_of_only hwrite]
    rfl

/-- An entry cannot be written, and those before it are kept. -/
theorem kept_noTrace_iff (h : w.InOrder images) {first k : ℕ} {batch : List Entry}
    (hrange : w.firstIndex ≤ first ∧ first ≤ w.nextIndex images) (hk : k < batch.length)
    {spare : Bytes} {images' : List Image} {log : List Entry} (hlaid : w.Laid spare images')
    (hlog : log = (walEntries w.firstIndex images).take (first - w.firstIndex) ++ batch.take k)
    (hentries : walEntries w.firstIndex images' = log)
    (hfault : (∃ id, CreateFails (Faults.only call fault) id (w.firstIndex + log.length)) ∨
      ∃ id offset, (Faults.only call fault
        (.write (.direct (w.firstIndex + log.length)) id offset)).isSome = true) :
    w.NoTrace (walEntries w.firstIndex images) first batch (w.withLog images' []) ↔
      ¬(w.firstIndex ≤ first ∧ first ≤ w.nextIndex images ∧ w.LeavesTrace first call) := by
  have hlength : log.length = first - w.firstIndex + k := by
    rw [nextIndex] at hrange
    rw [hlog, length_append, length_take, length_take]
    omega
  have hcall : w.LeavesTrace first call ↔ _ := leavesTrace_next hfault
  by_cases hbad : log = [] ∧ w.snapshotIndex + 1 ≠ w.firstIndex
  · obtain ⟨hempty, hgap⟩ := hbad
    rw [hempty, length_nil] at hlength
    have hnone := not_reports_of_empty (hentries.trans hempty) h.based.snapshot hgap
    refine iff_of_false ?_ fun hnot => hnot ⟨hrange.1, hrange.2, hcall.mpr ⟨?_, ?_, hgap⟩⟩
    · rintro (⟨j, -, hsettled⟩ | ⟨k, hsettled⟩)
      · exact hnone _ hsettled.reports
      · exact hnone _ hsettled.reports
    · rw [hempty, length_nil]
      omega
    · omega
  · have hbased : w.Based (walEntries w.firstIndex images') := by
      refine ⟨h.based.snapshot, fun hnil => ?_⟩
      by_contra hgap
      exact hbad ⟨hentries ▸ hnil, hgap⟩
    refine iff_of_true (Or.inr ⟨k, ?_⟩) ?_
    · rw [← hlog, ← hentries]
      exact hlaid.settles h.sized hbased h.firstIndex h.snapshotIndex
    · rintro ⟨-, -, hleaves⟩
      obtain ⟨hnext, hfirst, hgap⟩ := hcall.mp hleaves
      exact hbad ⟨eq_nil_of_length_eq_zero (by omega), hgap⟩

end Main

/-! ## Logs in order -/

/-- A new log. -/
def newLog (config : WalConfig) : Wal := { config, metadataFile := some {} }

theorem inOrder_newLog {config : WalConfig} (h : config.Sized) : (newLog config).InOrder [] where
  sized := h
  state := rfl
  laid := ⟨⟨by simp, List.Pairwise.nil⟩, NumberedFrom.nil _, by simp [located], by simp, by simp,
    by simp⟩
  based := ⟨Nat.one_pos, fun _ => rfl⟩
  firstIndex := rfl
  snapshotIndex := rfl

theorem Laid.congr {w : Wal} {spare : Bytes} {images : List Image} (h : w.Laid spare images)
    (hconfig : w'.config = w.config) (hfirst : w'.firstIndex = w.firstIndex) :
    w'.Laid ((images.getLast?.map Image.tail).getD []) images := by
  have hnext : w'.nextIndex images = w.nextIndex images := by
    rw [nextIndex, hfirst, nextIndex]
  refine ⟨h.chain, hfirst ▸ h.numbered, ?_, h.inert, h.stops, fun im him => ⟨?_, ?_, ?_⟩⟩
  · rw [hfirst, hconfig]
    exact h.offsets
  · exact hnext ▸ (h.last im him).firstIndex
  · rw [hconfig, hnext]
    exact (h.last im him).full
  · rw [Option.mem_def.mp him]
    exact Or.inr ⟨0, Nat.dvd_zero 8, rfl⟩

/-- A batch that is appended leaves the log in order. -/
theorem InOrder.append [LawfulWalCodec] {w : Wal} {images : List Image} (h : w.InOrder images)
    {e : Entry} {es : List Entry} (hes : NumberedFrom e.index (e :: es))
    (hfits : ∀ f ∈ e :: es, f.Fits) (hrun : append Faults.none (e :: es) w = .ok () w') :
    ∃ images', w'.InOrder images' ∧ (∀ im ∈ images', Stops im.tail) ∧
      w' = w.withLog images' [] ∧ walEntries w.firstIndex images' =
        (walEntries w.firstIndex images).take (e.index - w.firstIndex) ++ e :: es ∧
      (e.index = w.lastIndex + 1 → savedStates images' = savedStates images) := by
  obtain ⟨-, saved, hsaved, spare, images', hlaid, hstops, hentries, rfl, rfl⟩ :=
    (ends_append h.sized h.laid h.based hes hfits fun f _ => tornInert_none _ f).ok
      (h.state.symm ▸ hrun)
  refine ⟨images', ⟨h.sized, rfl, hlaid.congr rfl rfl, ⟨h.based.snapshot, fun hnil => ?_⟩,
    h.firstIndex, h.snapshotIndex⟩, hstops, rfl, hentries,
    fun hnext => hsaved (hnext.trans h.lastIndex)⟩
  rw [show walEntries (w.withLog images' []).firstIndex images' = _ from hentries] at hnil
  simp at hnil

end Wal

end Raftpp
