import Raftpp.Wal.Append

/-!
# Appending a batch

`WAL::Append`: a batch that starts within the log cuts the log first.  The index is cut
after the files, so a failure between the two leaves index entries without records.
-/

namespace Raftpp

open List

variable [WalCodec]

namespace Wal

variable {faults : Faults} {w : Wal} {spare : Bytes} {images : List Image}

/-- The record of an index is gone from the files. -/
def CutOff (w : Wal) (images : List Image) (i : ℕ) (w' : Wal) : Prop :=
  (∃ manager, w' = { w.withLog images [] with manager }) ∧ ∃ error, w'.readEntry i = .error error

omit [WalCodec] in
theorem truncateFrom_eq {first i : ℕ} {xs : List IndexEntry} (hfirst : first ≤ i)
    (hlt : i < first + xs.length) :
    WalIndex.truncateFrom { firstIndex := first, entries := xs } i =
      { firstIndex := first, entries := xs.take (i - first) } := by
  have hne : xs ≠ [] := by
    rintro rfl
    simp at hlt
    omega
  have hlast : ¬i > WalIndex.lastIndex { firstIndex := first, entries := xs } := by
    rw [WalIndex.lastIndex, if_neg hne]
    dsimp only
    omega
  rw [WalIndex.truncateFrom, if_neg (by simp only [hne, hlast, or_self, not_false_eq_true])]
  split
  next hle =>
    obtain rfl : i = first := le_antisymm hle hfirst
    simp
  next => rfl

/-- Reading behind the end of a file. -/
theorem read_cut {before rest' : List Image} (rest : List Image) {im : Image}
    {pre : List LogRecord} {length : ℕ} (h : Chain (before ++ im.cut pre :: rest'))
    (hlength : 0 < length) :
    ∃ error, SegmentManager.read
      { managerOf (before ++ im.cut pre :: rest) with
        files := (managerOf (before ++ im.cut pre :: rest')).files }
      (im.cut pre).segment (SegmentHeader.size + recordsSize pre) length = .error error := by
  have hfile : SegmentManager.bytesOf
      { managerOf (before ++ im.cut pre :: rest) with
        files := (managerOf (before ++ im.cut pre :: rest')).files }
      (im.cut pre).segment = (im.cut pre).file :=
    congrArg (Option.getD · []) h.get_file
  have hsize : (im.cut pre).file.length = SegmentHeader.size + recordsSize pre :=
    (im.cut pre).file_length
  unfold SegmentManager.read
  rw [hfile, ← hsize, drop_length, take_nil]
  exact ⟨_, if_pos hlength⟩

/-- The files are cut first, then the index. -/
theorem ends_truncateSuffixFrom (h : w.Laid spare images) {i : ℕ} (hfirst : w.firstIndex ≤ i)
    (hlt : i < w.nextIndex images) :
    Ends (truncateSuffixFrom faults i) (w.withLog images [])
      (fun _ w' => ∃ images', w.Laid spare images' ∧ w' = w.withLog images' [] ∧
        walEntries w.firstIndex images' =
          (walEntries w.firstIndex images).take (i - w.firstIndex))
      fun _ w' =>
        w' = w.withLog images [] ∧ (∃ id offset, (faults (.truncate id offset)).isSome = true) ∨
          ((∃ id, (faults (.sync .truncate id)).isSome = true) ∨
              ∃ id, (faults (.remove id)).isSome = true) ∧ w.CutOff images i w' := by
  obtain ⟨e, he⟩ : ∃ e, (walEntries w.firstIndex images)[i - w.firstIndex]? = some e :=
    ⟨_, getElem?_eq_getElem (by rw [nextIndex] at hlt; omega)⟩
  obtain ⟨before, im, after, pre, post, rfl, hrecords, rfl, hlookup, hsegment, hpre⟩ :=
    h.holds_nil.entry_at hfirst he
  have hchain := h.chain
  have hcut := hchain.cut hrecords
  obtain ⟨hlaid, -, hentries⟩ := h.cut hrecords hfirst hpre hlt
  have hlocated : located w.firstIndex (before ++ [im.cut pre]) =
      (located w.firstIndex (before ++ im :: after)).take (e.index - w.firstIndex) := by
    rw [located_append, located_singleton]
    exact hpre
  unfold truncateSuffixFrom
  rw [ends_bind, ends_get, hlookup]
  dsimp only
  rw [ends_bind, ends_get, hsegment]
  dsimp only
  rw [if_neg (show ¬im.segment.segmentId ≠
    (indexInfo im.id (SegmentHeader.size + recordsSize pre) e).segmentId from
    fun hne => hne rfl), ends_bind, ends_onManager]
  refine (ends_cutSegments hchain.increasing hrecords).mono ?_ ?_
  · rintro - m rfl
    rw [ends_modify]
    refine ⟨before ++ [im.cut pre], hlaid, ?_, hentries⟩
    have hlength : e.index < w.firstIndex +
        ((located w.firstIndex (before ++ im :: after)).map Prod.fst).length := by
      rwa [length_map, ← Holds.length_entries]
    unfold withLog
    dsimp only
    rw [truncateFrom_eq hfirst hlength, hlocated, map_take]
  · rintro - m (⟨rfl, hfault⟩ | ⟨hfault, rest, rest', hrest, hrest', rfl⟩)
    · exact Or.inl ⟨rfl, hfault⟩
    · refine Or.inr ⟨hfault, ⟨_, rfl⟩, ?_⟩
      have hsuffix : ∀ {images : List Image}, images <:+ after →
          (before ++ im.cut pre :: images).Sublist (before ++ im.cut pre :: after) :=
        fun hsuffix => (hsuffix.sublist.cons_cons _).append_left _
      have hchainRest : Chain (before ++ im.cut pre :: rest) :=
        ⟨fun b hb => hcut.sound b ((hsuffix hrest).subset hb), hcut.ordered.sublist (hsuffix hrest)⟩
      have hchainRest' : Chain (before ++ im.cut pre :: rest') :=
        ⟨fun b hb => hcut.sound b ((hsuffix hrest').subset hb),
          hcut.ordered.sublist (hsuffix hrest')⟩
      have hhas : im.Has e := by
        rw [Image.Has, hrecords]
        simp
      have hsegment' : SegmentManager.segmentForIndex e.index none
          ((before ++ im.cut pre :: rest).map Image.segment) = some (im.cut pre).segment := by
        refine hchainRest.segmentForIndex ((hchain.sound im (by simp)).entries e hhas) ?_
        intro im' him'
        have hordered := (pairwise_append.mp hchain.ordered).2.1
        exact ((pairwise_cons.mp hordered).1 im'
          (hrest.subset (mem_of_mem_head? him'))).entries e hhas
      have hpos : 0 < (LogRecord.entry e).size := by
        have := (LogRecord.entry e).size_ge
        omega
      obtain ⟨error, hread⟩ := read_cut rest hchainRest' hpos
      refine ⟨error, ?_⟩
      unfold readEntry
      rw [hlookup]
      dsimp only
      rw [show SegmentManager.getSegmentForIndex
        { managerOf (before ++ im.cut pre :: rest) with
          files := (managerOf (before ++ im.cut pre :: rest')).files } e.index =
        some (im.cut pre).segment from hsegment']
      dsimp only [indexInfo]
      rw [hread]
      rfl

/-! ## A whole batch -/

/-- How `Append` fails on a batch that starts at `first`. -/
inductive AppendFails (w : Wal) (faults : Faults) (images : List Image) (first : ℕ)
    (batch : List Entry) : Wal → Prop
  /-- The batch does not start within the log or right behind it. -/
  | refused (range : ¬(w.firstIndex ≤ first ∧ first ≤ w.nextIndex images)) :
      AppendFails w faults images first batch (w.withLog images [])
  /-- The log cannot be cut. -/
  | uncut (range : w.firstIndex ≤ first ∧ first < w.nextIndex images)
      (fault : ∃ id offset, (faults (.truncate id offset)).isSome = true) :
      AppendFails w faults images first batch (w.withLog images [])
  /-- The files are cut, but not the index. -/
  | cutOff {w' : Wal} (range : w.firstIndex ≤ first ∧ first < w.nextIndex images)
      (fault : (∃ id, (faults (.sync .truncate id)).isSome = true) ∨
        ∃ id, (faults (.remove id)).isSome = true)
      (state : w.CutOff images first w') : AppendFails w faults images first batch w'
  /-- An entry cannot be written. -/
  | unwritten {w' : Wal} (range : w.firstIndex ≤ first ∧ first ≤ w.nextIndex images) {k : ℕ}
      (lt : k < batch.length)
      (state : w.Failed faults
        ((walEntries w.firstIndex images).take (first - w.firstIndex) ++ batch.take k) w') :
      AppendFails w faults images first batch w'
  /-- The batch is written, but not synced. -/
  | unsynced {w' : Wal} (range : w.firstIndex ≤ first ∧ first ≤ w.nextIndex images)
      (fault : ∃ id, (faults (.sync .all id)).isSome = true)
      {saved : List HardState} (state : w.Written saved
        ((walEntries w.firstIndex images).take (first - w.firstIndex) ++ batch) w') :
      AppendFails w faults images first batch w'

/-- `Append` replaces the log from the first index of the batch on; behind the log it leaves the
hard states alone. -/
theorem ends_append [LawfulWalCodec] (hsized : w.config.Sized) (h : w.Laid spare images)
    (hbased : w.Based (walEntries w.firstIndex images)) {e : Entry} {es : List Entry}
    (hes : NumberedFrom e.index (e :: es)) (hfits : ∀ f ∈ e :: es, f.Fits)
    (htorn : ∀ f ∈ e :: es, TornInert faults spare f) :
    Ends (append faults (e :: es)) (w.withLog images [])
      (fun _ w' => w.firstIndex ≤ e.index ∧ ∃ saved,
        (e.index = w.nextIndex images → saved = savedStates images) ∧ w.Written saved
          ((walEntries w.firstIndex images).take (e.index - w.firstIndex) ++ e :: es) w')
      fun _ w' => w.AppendFails faults images e.index (e :: es) w' := by
  have hlast : (w.withLog images []).lastIndex + 1 = w.nextIndex images :=
    h.holds_nil.lastIndex ⟨hbased.snapshot, hbased.empty⟩
  -- the batch is written behind a log that ends before it
  have hwrite : ∀ images', w.Laid spare images' → w.firstIndex ≤ e.index →
      e.index ≤ w.nextIndex images → walEntries w.firstIndex images' =
        (walEntries w.firstIndex images).take (e.index - w.firstIndex) →
      Ends (writeBatch faults e.index (e :: es)) (w.withLog images' [])
        (fun _ w' => w.Written (savedStates images')
          ((walEntries w.firstIndex images).take (e.index - w.firstIndex) ++ e :: es) w')
        fun _ w' => w.AppendFails faults images e.index (e :: es) w' := by
    intro images' hlaid hfirst hle hentries
    have hnext : w.nextIndex images' = e.index := by
      rw [nextIndex] at hle
      rw [nextIndex, hentries, length_take]
      omega
    have hbatch := ends_writeBatch hsized (cons_ne_nil e es) hlaid (by rwa [hnext]) hfits
      htorn
    rw [hnext, hentries] at hbatch
    refine hbatch.mono (fun _ w' => id) ?_
    rintro - w' (⟨k, hk, hfailed⟩ | ⟨hwritten, hfault⟩)
    · exact AppendFails.unwritten ⟨hfirst, hle⟩ hk hfailed
    · exact AppendFails.unsynced ⟨hfirst, hle⟩ hfault hwritten
  unfold append
  rw [ends_bind]
  unfold makeRoom
  rw [ends_bind, ends_get]
  dsimp only
  rw [hlast]
  split
  next hnext =>
    rw [ends_pure]
    have hfirst : w.firstIndex ≤ e.index := by
      rw [hnext, nextIndex]
      omega
    refine (hwrite images h hfirst hnext.le ?_).mono
      (fun _ w' hwritten => ⟨hfirst, _, fun _ => rfl, hwritten⟩) fun _ _ => id
    rw [take_of_length_le]
    rw [nextIndex] at hnext
    omega
  next hother =>
    split
    next hrange =>
      refine (ends_truncateSuffixFrom h hrange.2 hrange.1).mono ?_ ?_
      · rintro - w' ⟨images', hlaid, rfl, hentries⟩
        exact (hwrite images' hlaid hrange.2 hrange.1.le hentries).mono (fun _ w' hwritten =>
          ⟨hrange.2, _, fun hnext => absurd hnext hother, hwritten⟩) fun _ _ => id
      · rintro - w' (⟨rfl, hfault⟩ | ⟨hfault, hcut⟩)
        · exact AppendFails.uncut ⟨hrange.2, hrange.1⟩ hfault
        · exact AppendFails.cutOff ⟨hrange.2, hrange.1⟩ hfault hcut
    next hrange =>
      refine AppendFails.refused fun hin => hrange ⟨?_, hin.1⟩
      exact lt_of_le_of_ne hin.2 hother

end Wal

end Raftpp
