import Raftpp.Wal.Image

/-!
# What a write-ahead log holds

`Wal.Holds w images buffered` ties the memory of a log to its files: the open
segments, the index and the current segment are those of the images, and the write
buffer holds the records of some entries that follow.  From there an index leads to
the record of its entry, and `ReadEntries` returns entries of the log.
-/

namespace Raftpp

open List

variable [WalCodec]

/-- The entries of a log. -/
def walEntries (first : ℕ) (images : List Image) : List Entry :=
  (located first images).map Prod.snd

/-- The pending entries of records that start at an offset of the write buffer. -/
def pendingOf : ℕ → List Entry → List PendingEntry
  | _, [] => []
  | offset, e :: es =>
      { index := e.index, term := e.term, offsetInBuffer := offset
        recordLength := (LogRecord.entry e).size } ::
        pendingOf (offset + (LogRecord.entry e).size) es

/-- The segment manager of some images. -/
def managerOf (images : List Image) : SegmentManager where
  segments := images.map Image.segment
  currentSegmentId := (images.getLast?.map Image.id).getD 0
  files := images.map fun im => (im.id, im.file)

namespace Wal

/-- The memory of a log is what its files say, and the write buffer holds the records of
`buffered`. -/
structure Holds (w : Wal) (images : List Image) (buffered : List Entry) : Prop where
  manager : w.manager = managerOf images
  index : w.index.Holds w.firstIndex ((located w.firstIndex images).map Prod.fst)
  chain : Chain images
  numbered : NumberedFrom w.firstIndex (walEntries w.firstIndex images ++ buffered)
  buffer : w.writeBuffer = recordsBytes (buffered.map LogRecord.entry)
  pending : w.pendingEntries = pendingOf 0 buffered

/-- The log that holds some images, with the metadata file it was opened with. -/
def ofImages (config : WalConfig) (metadata : WalMetadata) (snapshotFile : Option Snapshot)
    (hardState : HardState) (images : List Image) : Wal where
  config := config
  manager := managerOf images
  metadataFile := some metadata
  snapshotFile := snapshotFile
  index :=
    { firstIndex := metadata.firstIndex
      entries := (located metadata.firstIndex images).map Prod.fst }
  hardState := hardState
  confState := metadata.confState
  peerAddresses := metadata.peerAddresses
  firstIndex := metadata.firstIndex
  snapshotIndex := metadata.snapshotIndex
  snapshotTerm := metadata.snapshotTerm

variable {w : Wal} {images : List Image} {buffered : List Entry}

theorem holds_ofImages {config : WalConfig} {metadata : WalMetadata}
    {snapshotFile : Option Snapshot} {hardState : HardState} (hchain : Chain images)
    (hnumbered : NumberedFrom metadata.firstIndex (walEntries metadata.firstIndex images)) :
    (ofImages config metadata snapshotFile hardState images).Holds images [] where
  manager := rfl
  index := ⟨rfl, fun _ => rfl⟩
  chain := hchain
  numbered := by rwa [append_nil]
  buffer := rfl
  pending := rfl

/-! ## Pages -/

/-- Reading from `i` on finds these entries. -/
def Finds (w : Wal) (i : ℕ) (es : List Entry) : Prop :=
  ∀ k e, es[k]? = some e → w.readEntry (i + k) = .ok (e, Codec.entrySize e)

/-- Reading from `i` on finds these entries or fails. -/
def Gives (w : Wal) (i : ℕ) (es : List Entry) : Prop :=
  ∀ k e, es[k]? = some e →
    w.readEntry (i + k) = .ok (e, Codec.entrySize e) ∨ ∃ error, w.readEntry (i + k) = .error error

/-- The entries that `ReadEntries` takes, with a total size behind it: it stops behind the entry
that reaches the limit. -/
def page (maxSize : Option ℕ) : ℕ → List Entry → List Entry
  | _, [] => []
  | total, e :: es =>
      if maxSize.any fun max => decide (total + Codec.entrySize e ≥ max) then [e]
      else e :: page maxSize (total + Codec.entrySize e) es

section Pages

variable {i total : ℕ} {maxSize : Option ℕ} {e : Entry} {es : List Entry}

theorem Finds.gives (h : w.Finds i es) : w.Gives i es := fun k e he => Or.inl (h k e he)

theorem finds_cons : w.Finds i (e :: es) ↔
    w.readEntry i = .ok (e, Codec.entrySize e) ∧ w.Finds (i + 1) es := by
  refine ⟨fun h => ⟨h 0 e rfl, fun k f hf => ?_⟩, fun h k f hf => ?_⟩
  · rw [Nat.add_assoc, Nat.add_comm 1]
    exact h (k + 1) f hf
  · cases k with
    | zero => exact Option.some.inj hf ▸ h.1
    | succ k =>
        rw [show i + (k + 1) = i + 1 + k by omega]
        exact h.2 k f hf

theorem Finds.take (h : w.Finds i es) (n : ℕ) : w.Finds i (es.take n) := by
  intro k e he
  rw [getElem?_take] at he
  split at he
  · exact h k e he
  · cases he

/-- A page is a first part of the entries. -/
theorem Finds.page (h : w.Finds i es) : w.Finds i (page maxSize total es) := by
  induction es generalizing i total with
  | nil => exact h
  | cons e es ih =>
      obtain ⟨hread, hrest⟩ := finds_cons.mp h
      rw [Wal.page]
      split
      · exact finds_cons.mpr ⟨hread, fun k f hf => absurd hf (by simp)⟩
      · exact finds_cons.mpr ⟨hread, ih hrest⟩

/-- The loop of `ReadEntries` takes a page if it finds the entries of the page, and fails
otherwise. -/
theorem readLoop_page (h : w.Gives i es) :
    (w.Finds i (page maxSize total es) ∧
        w.readLoop maxSize es.length i total = .ok (page maxSize total es)) ∨
      (¬w.Finds i (page maxSize total es) ∧
        ∃ error, w.readLoop maxSize es.length i total = .error error) := by
  induction es generalizing i total with
  | nil => exact Or.inl ⟨fun k e he => absurd he (by simp [page]), rfl⟩
  | cons e es ih =>
      have hrest : w.Gives (i + 1) es := fun k f hf => by
        rw [Nat.add_assoc, Nat.add_comm 1]
        exact h (k + 1) f hf
      rw [length_cons, readLoop, page]
      rcases h 0 e rfl with hread | ⟨error, hread⟩
      · rw [Nat.add_zero] at hread
        simp only [hread, bind, Except.bind]
        split
        · exact Or.inl ⟨finds_cons.mpr ⟨hread, fun k f hf => absurd hf (by simp)⟩, rfl⟩
        · rcases ih hrest with ⟨hfinds, hloop⟩ | ⟨hlost, error, hloop⟩
          · exact Or.inl ⟨finds_cons.mpr ⟨hread, hfinds⟩, by rw [hloop]⟩
          · exact Or.inr ⟨fun hfinds => hlost (finds_cons.mp hfinds).2, error, by rw [hloop]⟩
      · rw [Nat.add_zero] at hread
        refine Or.inr ⟨fun hfinds => ?_, error, by rw [hread]; rfl⟩
        have hhead : w.readEntry i = .ok (e, Codec.entrySize e) := by
          split at hfinds
          · exact (finds_cons.mp hfinds).1
          · exact (finds_cons.mp hfinds).1
        exact absurd (hread.symm.trans hhead) (by simp)

theorem Finds.readLoop (h : w.Finds i es) (maxSize : Option ℕ) (total : ℕ) :
    w.readLoop maxSize es.length i total = .ok (Wal.page maxSize total es) :=
  ((readLoop_page h.gives).resolve_right fun hlost => hlost.1 h.page).2

end Pages

namespace Holds

/-! ## Reading entries -/

section Read

theorem length_entries (first : ℕ) (images : List Image) :
    (walEntries first images).length = (located first images).length := by
  simp [walEntries]

/-- Where the entry with an index is. -/
theorem entry_at (h : w.Holds images buffered) {i : ℕ} {e : Entry} (hi : w.firstIndex ≤ i)
    (he : (walEntries w.firstIndex images)[i - w.firstIndex]? = some e) :
    ∃ before im after pre post, images = before ++ im :: after ∧
      im.records = pre ++ .entry e :: post ∧ e.index = i ∧
      w.index.lookup i =
        some (indexInfo im.id (SegmentHeader.size + recordsSize pre) e) ∧
      w.manager.getSegmentForIndex i = some im.segment ∧
      located w.firstIndex before ++ locate w.firstIndex im.id SegmentHeader.size pre =
        (located w.firstIndex images).take (i - w.firstIndex) := by
  obtain ⟨x, hx, rfl⟩ : ∃ x, (located w.firstIndex images)[i - w.firstIndex]? = some x ∧
      x.2 = e := by
    rw [walEntries, getElem?_map] at he
    exact Option.map_eq_some_iff.mp he
  obtain ⟨before, im, after, pre, e, post, rfl, hrecords, hfirst, rfl, htake⟩ :=
    located_split hx
  have hindex : e.index = i := by
    have hat := h.numbered (i - w.firstIndex) e (by
      rw [List.getElem?_append_left (List.getElem?_eq_some_iff.mp he).1]
      exact he)
    omega
  have hhas : im.Has e := by
    rw [Image.Has, hrecords]
    simp
  have hsound : im.Sound := h.chain.sound im (by simp)
  refine ⟨before, im, after, pre, post, rfl, hrecords, hindex, ?_, ?_, htake⟩
  · rw [h.index.lookup hi, getElem?_map, hx]
    rfl
  · rw [SegmentManager.getSegmentForIndex, h.manager]
    refine h.chain.segmentForIndex (hindex ▸ hsound.entries e hhas) fun im' him' => ?_
    have hordered := (pairwise_append.mp h.chain.ordered).2.1
    have hbefore := (pairwise_cons.mp hordered).1 im' (mem_of_mem_head? him')
    exact hindex ▸ hbefore.entries e hhas

/-- The record of an entry lies where its index entry says. -/
theorem read_record (h : w.Holds images buffered) {before after : List Image} {im : Image}
    {pre post : List LogRecord} {r : LogRecord} (himages : images = before ++ im :: after)
    (hrecords : im.records = pre ++ r :: post) :
    w.manager.read im.segment (SegmentHeader.size + recordsSize pre) r.size = .ok r.bytes := by
  subst himages
  have hfile : w.manager.bytesOf im.segment = im.file := by
    rw [SegmentManager.bytesOf, h.manager, show im.segment.path = im.id from rfl]
    exact congrArg (Option.getD · []) h.chain.get_file
  have hslice : (im.file.drop (SegmentHeader.size + recordsSize pre)).take r.size = r.bytes := by
    have hfields : im.file =
        (im.header ++ recordsBytes pre) ++ (r.bytes ++ (recordsBytes post ++ im.tail)) := by
      simp [Image.file, hrecords]
    rw [hfields]
    exact take_drop_append (by simp) rfl
  simp only [SegmentManager.read, hfile, hslice]
  exact if_neg (lt_irrefl _)

variable [LawfulWalCodec]

/-- Reading one entry. -/
theorem readEntry (h : w.Holds images buffered) {i : ℕ} {e : Entry} (hi : w.firstIndex ≤ i)
    (he : (walEntries w.firstIndex images)[i - w.firstIndex]? = some e) :
    w.readEntry i = .ok (e, Codec.entrySize e) := by
  obtain ⟨before, im, after, pre, post, himages, hrecords, -, hlookup, hsegment, -⟩ :=
    h.entry_at hi he
  have hfits : (LogRecord.entry e).Fits :=
    (h.chain.sound im (by simp [himages])).fits _ (by simp [hrecords])
  have hread := h.read_record himages hrecords
  have hparse := LogRecord.parseRecord_bytes hfits
  have hwords := (LogRecord.entry e).payloadWords_payload
  have hdecode : WalCodec.entryOfBytes (WalCodec.entryBytes e) = some e :=
    LawfulWalCodec.entryOfBytes_entryBytes hfits
  unfold Wal.readEntry
  simp only [hlookup, hsegment, indexInfo, hread, bind, Except.bind, hparse, hwords]
  rw [show (LogRecord.entry e).payload = WalCodec.entryBytes e from rfl, hdecode,
    LawfulWalCodec.entrySize_eq]

/-- Reading finds the entries in the files. -/
theorem finds (h : w.Holds images buffered) {i : ℕ} (hi : w.firstIndex ≤ i) :
    w.Finds i ((walEntries w.firstIndex images).drop (i - w.firstIndex)) := by
  intro k e he
  rw [getElem?_drop] at he
  exact h.readEntry (by omega) (by rwa [show i + k - w.firstIndex = i - w.firstIndex + k by omega])

end Read

end Holds

/-! ## What the reads report -/

/-- The log starts behind its snapshot; while it is empty, right behind it. -/
structure Based (w : Wal) (log : List Entry) : Prop where
  snapshot : w.snapshotIndex < w.firstIndex
  empty : log = [] → w.snapshotIndex + 1 = w.firstIndex

/-- `LastIndex`, `Term` and `ReadEntries` describe a log that starts at `FirstIndex`. -/
structure Reports (w : Wal) (log : List Entry) : Prop where
  lastIndex : w.lastIndex + 1 = w.firstIndex + log.length
  term : ∀ i, w.firstIndex ≤ i → w.term i =
    match log[i - w.firstIndex]? with
    | some e => .ok e.term
    | none => .error (.storage .unavailable)
  readEntries : ∀ low high maxSize, w.firstIndex ≤ low → low ≤ high → high ≤ w.lastIndex + 1 →
    w.readEntries low high maxSize =
      .ok (page maxSize 0 ((log.drop (low - w.firstIndex)).take (high - low)))

theorem Holds.lastIndex (h : w.Holds images buffered)
    (hbased : w.Based (walEntries w.firstIndex images)) :
    w.lastIndex + 1 = w.firstIndex + (walEntries w.firstIndex images).length := by
  have hentries : w.index.entries = (located w.firstIndex images).map Prod.fst := h.index.1
  unfold Wal.lastIndex
  split
  next hnil =>
    have hlog : walEntries w.firstIndex images = [] := by
      rw [hentries, map_eq_nil_iff] at hnil
      rw [walEntries, hnil]
      rfl
    rw [hlog, hbased.empty hlog]
    rfl
  next hne =>
    rw [hentries] at hne
    rw [h.index.lastIndex hne, length_map, Holds.length_entries]

/-- A log reports the entries that its files hold. -/
theorem Holds.reports [LawfulWalCodec] (h : w.Holds images buffered)
    (hbased : w.Based (walEntries w.firstIndex images)) :
    w.Reports (walEntries w.firstIndex images) := by
  have hlast := h.lastIndex hbased
  refine ⟨hlast, fun i hi => ?_, fun low high maxSize hlow hle hhigh => ?_⟩
  · have hsnapshot := hbased.snapshot
    rw [Wal.term, if_neg (by omega), if_neg (by omega), WalIndex.term, h.index.lookup hi,
      walEntries, getElem?_map, getElem?_map]
    cases hx : (located w.firstIndex images)[i - w.firstIndex]? with
    | none => rfl
    | some x =>
        obtain ⟨before, im, after, pre, e, post, -, -, -, rfl, -⟩ := located_split hx
        rfl
  · rw [Wal.readEntries, if_neg (by omega), if_neg (by omega), min_eq_left hhigh]
    dsimp only
    split
    next hge =>
      rw [show high - low = 0 by omega, take_zero]
      rfl
    next hlt =>
      have hloop := ((h.finds hlow).take (high - low)).readLoop maxSize 0
      rwa [length_take, length_drop, min_eq_left (by omega)] at hloop

end Wal

end Raftpp
