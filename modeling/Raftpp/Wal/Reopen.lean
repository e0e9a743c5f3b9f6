import Raftpp.Wal.Layout

/-!
# Reopening a log

What `Open` makes of segment files in order.  The segments are opened at the end of
their files and replayed one after the other: the records of a segment enter the
index, the bytes behind them are cut off, and the replay goes on with the next
segment, which it finds by its first index.

The result is the log of the same images without the bytes behind their records.
-/

namespace Raftpp

open List SegmentManager

variable [WalCodec] {images : List Image}

/-- An image without the bytes behind its records. -/
def Image.trim (im : Image) : Image := { im with tail := [] }

/-- The segment that `Segment::Open` makes: it writes at the end of the file. -/
def Image.opened (im : Image) : Segment := { im.segment with writeOffset := im.file.length }

/-- The hard state that a replay of records leaves. -/
def replayedHardState : HardState → List LogRecord → HardState
  | hs, [] => hs
  | hs, .entry _ :: rs => replayedHardState hs rs
  | hs, .hardState hs' :: rs => replayedHardState (if hs'.term ≥ hs.term then hs' else hs) rs

omit [WalCodec] in
theorem replayedHardState_append (hs : HardState) (rs rs' : List LogRecord) :
    replayedHardState hs (rs ++ rs') = replayedHardState (replayedHardState hs rs) rs' := by
  induction rs generalizing hs with
  | nil => rfl
  | cons r rs ih => cases r <;> exact ih _

omit [WalCodec] in
/-- Only the hard states in the files matter. -/
theorem replayedHardState_congr {images' : List Image}
    (h : savedStates images' = savedStates images) (hs : HardState) :
    replayedHardState hs (images'.flatMap Image.records) =
      replayedHardState hs (images.flatMap Image.records) := by
  have hfold : ∀ (rs : List LogRecord) (hs : HardState), replayedHardState hs rs =
      (rs.filterMap LogRecord.saved?).foldl
        (fun hs hs' => if hs'.term ≥ hs.term then hs' else hs) hs := by
    intro rs
    induction rs with
    | nil => exact fun _ => rfl
    | cons r rs ih => exact fun hs => by cases r <;> exact ih _
  rw [hfold, hfold]
  exact congrArg (foldl _ hs) h

/-- Segments that are replayed in order: their ids and their first indexes increase. -/
structure Sequence (images : List Image) : Prop where
  sound : ∀ im ∈ images, im.Sound
  ordered : images.Pairwise fun im im' => im.id < im'.id ∧ im.firstIndex < im'.firstIndex

section

omit [WalCodec]

theorem Chain.sequence (h : Chain images) : Sequence images :=
  ⟨h.sound, h.ordered.imp fun hbefore => ⟨hbefore.id, hbefore.firstIndex⟩⟩

theorem Sequence.increasing (h : Sequence images) : Increasing images :=
  h.ordered.imp And.left

theorem Sequence.trim {done todo : List Image} {im : Image} (h : Sequence (done ++ im :: todo)) :
    Sequence (done ++ [im.trim] ++ todo) := by
  obtain ⟨hdone, hright, hcross⟩ := pairwise_append.mp h.ordered
  rw [append_assoc, singleton_append]
  refine ⟨fun b hb => ?_, pairwise_append.mpr ⟨hdone, pairwise_cons.mpr
    ⟨(pairwise_cons.mp hright).1, (pairwise_cons.mp hright).2⟩, fun b hb c hc => ?_⟩⟩
  · rcases mem_append.mp hb with hmem | hmem
    · exact h.sound b (mem_append_left _ hmem)
    · rcases mem_cons.mp hmem with rfl | hmem
      · have hsound := h.sound im (by simp)
        exact ⟨hsound.firstIndex, hsound.fits, hsound.entries⟩
      · exact h.sound b (by simp [hmem])
  · rcases mem_cons.mp hc with rfl | hmem
    · exact hcross b hb im (by simp)
    · exact hcross b hb c (mem_cons_of_mem _ hmem)

end

namespace Wal

variable {xs : List IndexEntry}

section Records

variable [LawfulWalCodec] {first id : ℕ} {offset : ℕ} {records : List LogRecord}

/-- A record of the log, as the replay takes it. -/
def replayLogRecord (first : ℕ) (info : IndexEntry) : LogRecord → Replay → Result Replay
  | .entry e, st => replayEntry "entry" first info e st
  | .hardState hs, st =>
      .ok { st with hardState := if hs.term ≥ st.hardState.term then hs else st.hardState }

/-- The records of a segment from an offset on. -/
def replayRecords (first id : ℕ) : ℕ → List LogRecord → Replay → Result Replay
  | _, [], st => .ok st
  | offset, r :: rs, st => do
      let st ← replayLogRecord first { segmentId := id, offset, length := r.size, term := 0 } r st
      replayRecords first id (offset + r.size) rs st

theorem replayRecord_of_fits {r : LogRecord} (h : r.Fits) (info : IndexEntry) (st : Replay) :
    replayRecord first info r.type.number r.payload st = replayLogRecord first info r st := by
  have hwords := r.payloadWords_payload
  cases r with
  | entry e =>
      have hdecode : WalCodec.entryOfBytes (LogRecord.entry e).payload = some e :=
        LawfulWalCodec.entryOfBytes_entryBytes h
      unfold replayRecord
      rw [if_pos (show (LogRecord.entry e).type.number = RecordType.number .entry from rfl),
        hwords, hdecode]
      rfl
  | hardState hs =>
      have hdecode : WalCodec.hardStateOfBytes (LogRecord.hardState hs).payload = some hs :=
        LawfulWalCodec.hardStateOfBytes_hardStateBytes h
      unfold replayRecord
      rw [if_neg (by simp [LogRecord.type, RecordType.number]),
        if_neg (by simp [LogRecord.type, RecordType.number]),
        if_pos (show (LogRecord.hardState hs).type.number = RecordType.number .hardState from rfl),
        replayHardState, hwords, hdecode, replayLogRecord]
      by_cases hterm : hs.term ≥ st.hardState.term
      · rw [if_pos hterm]
        exact congrArg Except.ok (if_pos hterm)
      · rw [if_neg hterm]
        exact congrArg Except.ok (if_neg hterm)

theorem replayBuilt_built (hfits : ∀ r ∈ records, r.Fits) {st : Replay} :
    replayBuilt first id offset (records.map LogRecord.built) st =
      replayRecords first id offset records st := by
  induction records generalizing offset st with
  | nil => rfl
  | cons r rs ih =>
      have hrest : ∀ st, replayBuilt first id (offset + r.size) (rs.map LogRecord.built) st =
          replayRecords first id (offset + r.size) rs st :=
        fun st => ih fun s hs => hfits s (mem_cons_of_mem _ hs)
      rw [map_cons, replayBuilt, replayRecords]
      change (replayRecord first { segmentId := id, offset, length := r.size, term := 0 }
        r.type.number r.payload st).bind _ = _
      rw [replayRecord_of_fits (hfits r mem_cons_self)]
      cases replayLogRecord first { segmentId := id, offset, length := r.size, term := 0 } r st with
      | error error => rfl
      | ok st => exact hrest st

/-- The records of a segment are replayed, up to bytes at which the replay stops. -/
theorem replayLoop_records (hfits : ∀ r ∈ records, r.Fits) {tail : Bytes} (hstops : Stops tail)
    {fuel : ℕ} {st : Replay} (hfuel : (recordsBytes records ++ tail).length < fuel) :
    replayLoop first id fuel offset (recordsBytes records ++ tail) st =
      (replayRecords first id offset records st).map fun st =>
        (st, if tail = [] then none else some (offset + recordsSize records)) := by
  have hsize : ∀ r ∈ records.map LogRecord.built, r.size < 2 ^ 32 := by
    intro built hbuilt
    obtain ⟨r, hr, rfl⟩ := mem_map.mp hbuilt
    exact LogRecord.size_lt (hfits r hr)
  rw [← builtBytes_built] at hfuel ⊢
  rw [replayLoop_built hsize hstops hfuel, replayBuilt_built hfits, builtBytes_built,
    recordsBytes_length]

/-! ## Entries in order -/

/-- A replay that has reached an entry of the log. -/
def replayOf (first : ℕ) (xs : List IndexEntry) (hs : HardState) : Replay where
  index := { firstIndex := first, entries := xs }
  hardState := hs

omit [WalCodec] [LawfulWalCodec] in
theorem expected_replayOf (first : ℕ) (xs : List IndexEntry) (hs : HardState) :
    (if (replayOf first xs hs).index.entries = [] then first
      else (replayOf first xs hs).index.lastIndex + 1) = first + xs.length := by
  split
  next hnil =>
    rw [show xs = [] from hnil]
    rfl
  next hne =>
    have hpos := length_pos_iff.mpr (show xs ≠ [] from hne)
    rw [WalIndex.lastIndex, if_neg hne]
    change first + xs.length - 1 + 1 = _
    omega

omit [WalCodec] [LawfulWalCodec] in
/-- The entry that comes next is added. -/
theorem replayEntry_next {what : String} {info : IndexEntry} {e : Entry} {hs : HardState}
    (hindex : e.index = first + xs.length) :
    replayEntry what first info e (replayOf first xs hs) =
      .ok (replayOf first (xs ++ [{ info with term := e.term }]) hs) := by
  unfold replayEntry
  rw [if_pos (show e.index ≥ first by omega), expected_replayOf, if_neg (fun hne => hne hindex)]
  exact congrArg (fun index => Except.ok (Replay.mk index hs)) (WalIndex.insert_last hindex _)

omit [LawfulWalCodec] in
/-- Records whose entries continue the log. -/
theorem replayRecords_numbered {hs : HardState} (hnumbered : NumberedFrom (first + xs.length)
      ((locate first id offset records).map Prod.snd)) :
    replayRecords first id offset records (replayOf first xs hs) =
      .ok (replayOf first (xs ++ (locate first id offset records).map Prod.fst)
        (replayedHardState hs records)) := by
  induction records generalizing offset xs hs with
  | nil => simp [replayRecords, locate, replayedHardState]
  | cons r rs ih =>
      cases r with
      | hardState hs' => exact ih hnumbered
      | entry e =>
          by_cases hfirst : first ≤ e.index
          · rw [locate, if_pos hfirst] at hnumbered ⊢
            have htail : NumberedFrom (first + (xs ++ [indexInfo id offset e]).length)
                ((locate first id (offset + (LogRecord.entry e).size) rs).map Prod.snd) := by
              rw [length_append, length_singleton, ← Nat.add_assoc]
              exact hnumbered.tail
            have hrest := @ih _ _ hs htail
            rw [append_assoc, singleton_append] at hrest
            rw [replayRecords, replayLogRecord, replayEntry_next hnumbered.head]
            exact hrest
          · rw [locate, if_neg hfirst] at hnumbered ⊢
            rw [replayRecords, replayLogRecord, replayEntry, if_neg hfirst]
            exact ih hnumbered

end Records

/-! ## Segments -/

/-- The segment manager that opens some images.  A replay trims them one by one, and the segment
of a trimmed image writes at the end of the file. -/
def openManager (images : List Image) : SegmentManager where
  segments := images.map Image.opened
  currentSegmentId := lastId images
  files := images.map fun im => (im.id, im.file)

theorem opened_trim (im : Image) : im.trim.opened = im.trim.segment := by
  rw [Image.opened, im.trim.file_length]
  rfl

theorem openManager_trim (images : List Image) :
    openManager (images.map Image.trim) = managerOf (images.map Image.trim) := by
  have hsegments : (images.map Image.trim).map Image.opened =
      (images.map Image.trim).map Image.segment := by
    rw [map_map, map_map]
    exact map_congr_left fun im _ => opened_trim im
  rw [openManager, hsegments]
  rfl

section Segments

variable {first : ℕ} {before after done todo : List Image} {im : Image}

/-- Cutting the bytes behind the records. -/
theorem openManager_cut (h : Increasing (before ++ im :: after)) :
    { (openManager (before ++ im :: after)).modifySegment im.id fun s =>
        { s with writeOffset := im.size } with
      files := (openManager (before ++ im :: after)).files.modify im.id fun file =>
        truncateBytes file im.size } = openManager (before ++ im.trim :: after) := by
  obtain ⟨hbefore, hafter⟩ := h.id_ne
  have hsegments : ((before ++ im :: after).map Image.opened).map
      (fun s => if s.segmentId = im.id then { s with writeOffset := im.size } else s) =
      (before ++ im.trim :: after).map Image.opened := by
    rw [map_map]
    refine map_change ((if_pos rfl).trans ?_) (fun z hz => if_neg (hbefore z hz))
      fun z hz => if_neg (hafter z hz)
    rw [opened_trim]
    rfl
  have hfiles : ListMap.modify ((before ++ im :: after).map fun im => (im.id, im.file)) im.id
      (fun file => truncateBytes file im.size) =
      (before ++ im.trim :: after).map fun im => (im.id, im.file) := by
    have hfile : truncateBytes im.file im.size = im.trim.file :=
      truncateBytes_file (append_nil _).symm
    rw [ListMap.modify, map_map]
    refine map_change ((if_pos rfl).trans ?_) (fun z hz => if_neg (hbefore z hz))
      fun z hz => if_neg (hafter z hz)
    rw [hfile]
    rfl
  have hcurrent : lastId (before ++ im :: after) = lastId (before ++ im.trim :: after) := by
    rcases eq_nil_or_concat after with rfl | ⟨init, last, rfl⟩
    · rw [lastId_append_singleton, lastId_append_singleton]
      rfl
    · rw [concat_eq_append, ← cons_append, ← append_assoc, ← cons_append,
        ← append_assoc, lastId_append_singleton, lastId_append_singleton]
  unfold openManager modifySegment
  rw [← hsegments, ← hfiles, ← hcurrent]

/-- The replay of a segment trims its image. -/
theorem replaySegment_image [LawfulWalCodec] (h : Increasing (before ++ im :: after))
    (hfits : ∀ r ∈ im.records, r.Fits) (hstops : Stops im.tail) (st : Replay) :
    replaySegment first im.opened (openManager (before ++ im :: after)) st =
      (replayRecords first im.id SegmentHeader.size im.records st).map fun st =>
        (openManager (before ++ im.trim :: after), st) := by
  have hfile : (openManager (before ++ im :: after)).bytesOf im.opened = im.file :=
    congrArg (Option.getD · []) (get_file h)
  have hbytes : (im.file.take im.file.length).drop SegmentHeader.size =
      recordsBytes im.records ++ im.tail := by
    rw [take_length, Image.file, drop_left' im.header_length]
  have hfuel := Nat.lt_add_one (recordsBytes im.records ++ im.tail).length
  unfold replaySegment
  rw [hfile, show im.opened.writeOffset = im.file.length from rfl, hbytes,
    show im.opened.segmentId = im.id from rfl]
  dsimp only
  rw [replayLoop_records hfits hstops hfuel]
  cases replayRecords first im.id SegmentHeader.size im.records st with
  | error error => rfl
  | ok st =>
      simp only [Except.map, bind, Except.bind]
      by_cases hnil : im.tail = []
      · have htrim : im.trim = im := by
          rw [Image.trim, ← hnil]
        rw [if_pos hnil, htrim]
      · rw [if_neg hnil, ← openManager_cut h]
        rfl

/-- Among segments in order, one is found by its first index. -/
theorem openManager_getSegmentForIndex (h : Sequence (before ++ im :: after)) :
    (openManager (before ++ im :: after)).getSegmentForIndex im.firstIndex = some im.opened := by
  obtain ⟨-, hright, hcross⟩ := pairwise_append.mp h.ordered
  unfold getSegmentForIndex openManager
  rw [map_append, map_cons]
  refine segmentForIndex_between (fun s hs => ?_) le_rfl fun s hs => ?_
  · obtain ⟨b, hb, rfl⟩ := mem_map.mp hs
    exact (hcross b hb im (by simp)).2.le
  · rw [head?_map] at hs
    obtain ⟨b, hb, rfl⟩ := Option.map_eq_some_iff.mp hs
    exact ((pairwise_cons.mp hright).1 b (mem_of_mem_head? hb)).2

/-- Segments in order are replayed one after the other. -/
theorem replaySegments_images [LawfulWalCodec] (hs : HardState) (h : Sequence (done ++ todo))
    (hstops : ∀ im ∈ todo, Stops im.tail)
    (hnumbered : NumberedFrom (first + xs.length) (walEntries first todo)) :
    replaySegments first (todo.map Image.opened) (openManager (done ++ todo))
        (replayOf first xs hs) =
      .ok (openManager (done ++ todo.map Image.trim),
        replayOf first (xs ++ (located first todo).map Prod.fst)
          (replayedHardState hs (todo.flatMap Image.records))) := by
  induction todo generalizing done xs hs with
  | nil => simp [replaySegments, replayedHardState]
  | cons im todo ih =>
      rw [walEntries, located_cons, map_append] at hnumbered
      have hhead : NumberedFrom (first + xs.length) ((im.located first).map Prod.snd) := by
        intro k e hk
        exact hnumbered k e (by
          rw [List.getElem?_append_left (List.getElem?_eq_some_iff.mp hk).1]
          exact hk)
      have htail : NumberedFrom (first + (xs ++ (im.located first).map Prod.fst).length)
          (walEntries first todo) := by
        have hdrop := hnumbered.drop ((im.located first).map Prod.snd).length
        rw [drop_left] at hdrop
        rw [length_append, length_map, ← Nat.add_assoc]
        rwa [length_map] at hdrop
      have hrest := ih (replayedHardState hs im.records) h.trim
        (fun b hb => hstops b (mem_cons_of_mem _ hb)) htail
      rw [append_assoc, singleton_append, append_assoc, singleton_append]
        at hrest
      rw [map_cons, replaySegments, show im.opened.firstIndex = im.firstIndex from rfl,
        openManager_getSegmentForIndex h]
      dsimp only
      rw [replaySegment_image h.increasing (h.sound im (by simp)).fits
        (hstops im mem_cons_self), replayRecords_numbered hhead]
      simp only [Except.map, bind, Except.bind]
      rw [show locate first im.id SegmentHeader.size im.records = im.located first from rfl, hrest,
        located_cons, map_append, append_assoc, flatMap_cons,
        replayedHardState_append, map_cons]

/-! ## Opening the files -/

theorem openSegment_file (him : im.Sound) (hid : im.id < 1000000) :
    openSegment Faults.none im.id im.file = some im.opened := by
  have hheader : SegmentHeader.deserialize im.file =
      { segmentId := im.id, firstIndex := im.firstIndex } :=
    SegmentHeader.deserialize_serialize (by omega) him.firstIndex _
  have hlength := im.file_length
  have hsize : SegmentHeader.size ≤ im.size := Nat.le_add_right _ _
  have hopen : ¬((Faults.none (.openSegment im.id)).isSome = true ∨
      im.file.length < SegmentHeader.size) := by
    rintro (hfault | hshort)
    · exact absurd hfault (by simp [Faults.none])
    · omega
  unfold SegmentManager.openSegment
  rw [if_neg hopen]
  dsimp only
  rw [hheader]
  rfl

/-- Files in the order of their ids are opened behind each other. -/
theorem openSegments_images {files : ListMap ℕ Bytes} (h : Increasing (done ++ todo))
    (hsound : ∀ im ∈ todo, im.Sound) (hids : ∀ im ∈ todo, im.id < 1000000) :
    openSegments Faults.none
        { segments := done.map Image.opened, currentSegmentId := lastId done, files }
        (todo.map fun im => (im.id, im.file)) =
      { segments := (done ++ todo).map Image.opened, currentSegmentId := lastId (done ++ todo)
        files } := by
  induction todo generalizing done with
  | nil => simp [openSegments]
  | cons im todo ih =>
      have hsplit : done ++ im :: todo = done ++ [im] ++ todo := by simp
      have hbefore : ∀ b ∈ done, b.id < im.id := fun b hb =>
        (pairwise_append.mp h).2.2 b hb im (by simp)
      have hinsert : insertSegment im.opened (done.map Image.opened) =
          (done ++ [im]).map Image.opened := by
        rw [map_append]
        refine insertSegment_last fun s hs => ?_
        obtain ⟨b, hb, rfl⟩ := mem_map.mp hs
        exact hbefore b hb
      have hcurrent : max (lastId done) im.id = lastId (done ++ [im]) := by
        rw [lastId_append_singleton, max_eq_right]
        rcases eq_nil_or_concat done with rfl | ⟨init, last, rfl⟩
        · exact Nat.zero_le _
        · rw [concat_eq_append, lastId_append_singleton]
          exact (hbefore last (by simp)).le
      rw [map_cons, openSegments,
        openSegment_file (hsound im mem_cons_self) (hids im mem_cons_self)]
      dsimp only
      rw [hinsert, show im.opened.segmentId = im.id from rfl, hcurrent,
        ih (hsplit ▸ h) (fun b hb => hsound b (mem_cons_of_mem _ hb))
          fun b hb => hids b (mem_cons_of_mem _ hb), ← hsplit]

/-- Every file is found, and they are in order already. -/
theorem scan_files (h : Increasing images) (hids : ∀ im ∈ images, im.id < 1000000) :
    scanned (images.map fun im => (im.id, im.file)) =
      images.map fun im => (im.id, im.file) := by
  have hfound : (images.map fun im => (im.id, im.file)).filter
      (fun f => f.1 < 1000000) = images.map fun im => (im.id, im.file) := by
    rw [filter_eq_self]
    intro f hf
    obtain ⟨im, him, rfl⟩ := mem_map.mp hf
    exact decide_eq_true (hids im him)
  have hsorted : (images.map fun im => (im.id, im.file)).Pairwise fun f g => f.1 ≤ g.1 :=
    pairwise_map.mpr (h.imp le_of_lt)
  rw [scanned_eq, hfound, hsorted.insertionSort_eq]

end Segments

section Open

variable {images : List Image}

theorem located_trim (first : ℕ) (images : List Image) :
    located first (images.map Image.trim) = located first images := by
  rw [located, flatMap_map]
  rfl

theorem walEntries_trim (first : ℕ) (images : List Image) :
    walEntries first (images.map Image.trim) = walEntries first images := by
  rw [walEntries, located_trim, walEntries]

/-- The hard state that a replay starts with. -/
def filedHardState (metadata : WalMetadata) : HardState :=
  if metadata.snapshotIndex > 0 then
    raiseHardState metadata.hardState metadata.snapshotIndex metadata.snapshotTerm
  else metadata.hardState

/-- The log that a replay leaves. -/
def ofReplay (config : WalConfig) (metadata : WalMetadata) (snapshotFile : Option Snapshot)
    (result : SegmentManager × Replay) : Wal where
  config := config
  manager := result.1
  metadataFile := some metadata
  snapshotFile := snapshotFile
  index := result.2.index
  hardState := result.2.hardState
  confState := metadata.confState
  peerAddresses := metadata.peerAddresses
  firstIndex := metadata.firstIndex
  snapshotIndex := metadata.snapshotIndex
  snapshotTerm := metadata.snapshotTerm

/-- Whatever the first indexes of the segments are, they are replayed in the order of their ids. -/
theorem replayLog_files (config : WalConfig) (dir : WalDirectory)
    (hfiles : dir.files = images.map fun im => (im.id, im.file)) (hincreasing : Increasing images)
    (hsound : ∀ im ∈ images, im.Sound) (hids : ∀ im ∈ images, im.id < 1000000) :
    replayLog config dir =
      (replaySegments (dir.metadata.getD {}).firstIndex (images.map Image.opened)
        (openManager images) (replayOf (dir.metadata.getD {}).firstIndex []
          (filedHardState (dir.metadata.getD {})))).map
        (ofReplay config (dir.metadata.getD {}) dir.snapshot) := by
  have hopen : openSegments Faults.none
      { files := images.map fun im => (im.id, im.file) }
      (images.map fun im => (im.id, im.file)) = openManager images :=
    openSegments_images (show Increasing ([] ++ images) from hincreasing) hsound hids
  unfold replayLog
  rw [hfiles, scan_files hincreasing hids]
  dsimp only
  rw [hopen]
  change Except.bind (replaySegments _ (images.map Image.opened) (openManager images)
    (replayOf _ [] (filedHardState (dir.metadata.getD {})))) _ = _
  cases replaySegments (dir.metadata.getD {}).firstIndex (images.map Image.opened)
    (openManager images) (replayOf (dir.metadata.getD {}).firstIndex []
      (filedHardState (dir.metadata.getD {}))) with
  | error error => rfl
  | ok result => rfl

/-- Segment files in order are opened as the log of their records. -/
theorem replayLog_images [LawfulWalCodec] (config : WalConfig) (dir : WalDirectory)
    (hfiles : dir.files = images.map fun im => (im.id, im.file)) (hsequence : Sequence images)
    (hids : ∀ im ∈ images, im.id < 1000000) (hstops : ∀ im ∈ images, Stops im.tail)
    (hnumbered : NumberedFrom (dir.metadata.getD {}).firstIndex
      (walEntries (dir.metadata.getD {}).firstIndex images)) :
    replayLog config dir = .ok (ofImages config (dir.metadata.getD {}) dir.snapshot
      (replayedHardState (filedHardState (dir.metadata.getD {})) (images.flatMap Image.records))
      (images.map Image.trim)) := by
  have hreplay : replaySegments (dir.metadata.getD {}).firstIndex (images.map Image.opened)
      (openManager images) (replayOf (dir.metadata.getD {}).firstIndex []
        (filedHardState (dir.metadata.getD {}))) = _ :=
    replaySegments_images _ (show Sequence ([] ++ images) from hsequence) hstops hnumbered
  rw [nil_append, nil_append, openManager_trim, ← located_trim] at hreplay
  rw [replayLog_files config dir hfiles hsequence.increasing hsequence.sound hids, hreplay]
  rfl

/-- So the log that is reopened reports what its files hold. -/
theorem reports_replayLog [LawfulWalCodec] (config : WalConfig) (dir : WalDirectory)
    {first snapshotIndex : ℕ}
    (hfirst : (dir.metadata.getD {}).firstIndex = first)
    (hsnapshot : (dir.metadata.getD {}).snapshotIndex = snapshotIndex)
    (hfiles : dir.files = images.map fun im => (im.id, im.file)) (hchain : Chain images)
    (hids : ∀ im ∈ images, im.id < 1000000) (hstops : ∀ im ∈ images, Stops im.tail)
    (hnumbered : NumberedFrom first (walEntries first images)) (hlt : snapshotIndex < first)
    (hempty : walEntries first images = [] → snapshotIndex + 1 = first) :
    ∃ w, replayLog config dir = .ok w ∧ w.firstIndex = first ∧
      w.Reports (walEntries first images) := by
  subst hfirst hsnapshot
  have hchainTrim : Chain (images.map Image.trim) := by
    refine ⟨fun im him => ?_, pairwise_map.mpr (hchain.ordered.imp fun h =>
      ⟨h.id, h.firstIndex, h.entries⟩)⟩
    obtain ⟨im, hmem, rfl⟩ := mem_map.mp him
    have hsound := hchain.sound im hmem
    exact ⟨hsound.firstIndex, hsound.fits, hsound.entries⟩
  have hentries := walEntries_trim (dir.metadata.getD {}).firstIndex images
  refine ⟨_, replayLog_images config dir hfiles hchain.sequence hids hstops hnumbered, rfl, ?_⟩
  rw [← hentries] at hnumbered hempty ⊢
  exact (holds_ofImages hchainTrim hnumbered).reports ⟨hlt, hempty⟩

end Open

end Wal

end Raftpp
