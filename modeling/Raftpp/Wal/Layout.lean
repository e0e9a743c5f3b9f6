import Raftpp.Wal.Files

/-!
# The layout of a write-ahead log

`Wal.Laid` is what holds of the segment files of a log between its operations, beyond
what the reads need: a record starts below the size at which a segment is full, the
last segment can take the entry that comes next, and where the records of a segment
end a replay stops.

The bytes behind the records need not be blank, since a failed write leaves some of
its bytes there.  The next write starts at the same place and covers them with whole
records, so a replay has to stop only behind those: `InertBehind`.
-/

namespace Raftpp

open List

/-! ## Records of entries -/

/-- The records of some entries. -/
def entryRecords (es : List Entry) : List LogRecord := es.map .entry

@[simp]
theorem entryRecords_nil : entryRecords [] = [] := rfl

@[simp]
theorem entryRecords_cons (e : Entry) (es : List Entry) :
    entryRecords (e :: es) = .entry e :: entryRecords es := rfl

@[simp]
theorem entryRecords_append (es fs : List Entry) :
    entryRecords (es ++ fs) = entryRecords es ++ entryRecords fs := by simp [entryRecords]

theorem mem_entryRecords {r : LogRecord} {es : List Entry} (h : r ∈ entryRecords es) :
    ∃ e ∈ es, r = .entry e := by
  obtain ⟨e, he, rfl⟩ := mem_map.mp h
  exact ⟨e, he, rfl⟩

/-- The hard state of a record. -/
def LogRecord.saved? : LogRecord → Option HardState
  | .entry _ => none
  | .hardState hs => some hs

/-- The hard states in the files. -/
def savedStates (images : List Image) : List HardState :=
  (images.flatMap Image.records).filterMap LogRecord.saved?

theorem savedStates_concat (images : List Image) (im : Image) :
    savedStates (images ++ [im]) = savedStates images ++ im.records.filterMap LogRecord.saved? := by
  simp [savedStates]

variable [WalCodec] {e : Entry}

theorem savedStates_extend (before : List Image) (im : Image) (es : List Entry) :
    savedStates (before ++ [im.extend (entryRecords es)]) = savedStates (before ++ [im]) := by
  have hnone : (entryRecords es).filterMap LogRecord.saved? = [] :=
    filterMap_eq_nil_iff.mpr fun r hr => by
      obtain ⟨e, -, rfl⟩ := mem_entryRecords hr
      rfl
  rw [savedStates_concat, savedStates_concat, Image.extend, filterMap_append, hnone, append_nil]

section Locate

variable {first id : ℕ} {es : List Entry} {records : List LogRecord}

theorem locate_entryRecords (h : ∀ e ∈ es, first ≤ e.index) (offset : ℕ) :
    (locate first id offset (entryRecords es)).map Prod.snd = es := by
  induction es generalizing offset with
  | nil => rfl
  | cons e es ih =>
      rw [entryRecords_cons, locate, if_pos (h e mem_cons_self), map_cons,
        ih fun f hf => h f (mem_cons_of_mem _ hf)]

theorem mem_locate (he : .entry e ∈ records) (hfirst : first ≤ e.index) (offset : ℕ) :
    e ∈ (locate first id offset records).map Prod.snd := by
  obtain ⟨pre, post, rfl⟩ := append_of_mem he
  rw [locate_append, locate, if_pos hfirst]
  simp

theorem mem_walEntries {images : List Image} {im : Image} (him : im ∈ images) (he : im.Has e)
    (hfirst : first ≤ e.index) : e ∈ walEntries first images := by
  obtain ⟨before, after, rfl⟩ := append_of_mem him
  have hmem : e ∈ (im.located first).map Prod.snd := mem_locate he hfirst SegmentHeader.size
  rw [walEntries, located_append, located_cons, map_append, map_append]
  exact mem_append_right _ (mem_append_left _ hmem)

/-- Where a record of some entries starts. -/
theorem offset_locate_entryRecords {offset : ℕ} {x : IndexEntry × Entry}
    (h : x ∈ locate first id offset (entryRecords es)) :
    ∃ pre e post, es = pre ++ e :: post ∧
      x.1.offset = offset + recordsSize (entryRecords pre) := by
  obtain ⟨k, hk⟩ := mem_iff_getElem?.mp h
  obtain ⟨pre, e, post, hrecords, -, rfl, -⟩ := locate_split hk
  obtain ⟨pre', rest, rfl, rfl, hrest⟩ := map_eq_append_iff.mp hrecords
  obtain ⟨e', post', rfl, -, -⟩ := map_eq_cons_iff.mp hrest
  exact ⟨pre', e', post', rfl, rfl⟩

/-- The entries behind those of an image that is extended. -/
theorem located_extend (before : List Image) (im : Image) (records : List LogRecord) :
    located first (before ++ [im.extend records]) =
      located first (before ++ [im]) ++ locate first im.id im.size records := by
  rw [located_append, located_append, located_singleton, located_singleton, append_assoc]
  exact congrArg (located first before ++ ·) (locate_append _ _ _)

theorem walEntries_extend (h : ∀ e ∈ es, first ≤ e.index) (before : List Image) (im : Image) :
    walEntries first (before ++ [im.extend (entryRecords es)]) =
      walEntries first (before ++ [im]) ++ es := by
  rw [walEntries, located_extend, map_append, locate_entryRecords h]
  rfl

theorem located_torn (before : List Image) (im : Image) (data : Bytes) :
    located first (before ++ [im.torn data]) = located first (before ++ [im]) := by
  rw [located_append, located_append, located_singleton, located_singleton]
  rfl

theorem walEntries_torn (before : List Image) (im : Image) (data : Bytes) :
    walEntries first (before ++ [im.torn data]) = walEntries first (before ++ [im]) := by
  rw [walEntries, located_torn, walEntries]

theorem located_newImage {faults : Faults} {config : WalConfig} {firstIndex : ℕ}
    (images : List Image) (first : ℕ) :
    located first (images ++ [newImage faults config images firstIndex]) =
      located first images := by
  rw [located_append, located_singleton]
  exact append_nil _

omit [WalCodec] in
theorem savedStates_newImage {faults : Faults} {config : WalConfig} {firstIndex : ℕ}
    (images : List Image) :
    savedStates (images ++ [newImage faults config images firstIndex]) = savedStates images := by
  rw [savedStates_concat]
  exact append_nil _

theorem size_extend (im : Image) (records : List LogRecord) :
    (im.extend records).size = im.size + recordsSize records := by
  rw [Image.size, Image.extend, recordsSize_append, ← Nat.add_assoc]
  rfl

theorem extend_nil (im : Image) : im.extend [] = im := by
  simp [Image.extend]

variable [LawfulWalCodec]

theorem recordsSize_words (h : ∀ r ∈ records, r.Fits) : 8 ∣ recordsSize records := by
  induction records with
  | nil => exact Nat.dvd_zero 8
  | cons r rs ih =>
      rw [recordsSize_cons]
      exact Nat.dvd_add (LogRecord.size_words (h r mem_cons_self))
        (ih fun s hs => h s (mem_cons_of_mem _ hs))

omit [LawfulWalCodec] in
theorem recordsSize_pos (h : records ≠ []) : 0 < recordsSize records := by
  obtain ⟨r, rs, rfl⟩ := exists_cons_of_ne_nil h
  have hsize := r.size_ge
  rw [recordsSize_cons]
  omega

end Locate

/-! ## Bytes behind the records -/

/-- The replay of a segment stops at these bytes. -/
def Stops (tail : Bytes) : Prop := Wal.nextRecord tail = none

/-- The replay stops behind any whole records that are written over these bytes. -/
def InertBehind (tail : Bytes) : Prop := ∀ s, 0 < s → 8 ∣ s → Stops (tail.drop s)

/-- What whole records leave of `spare`, or of the blank bytes of a new segment. -/
def LeftOver (spare tail : Bytes) : Prop :=
  (∃ n, tail = List.replicate n 0) ∨ ∃ s, 8 ∣ s ∧ tail = spare.drop s

theorem stops_replicate (n : ℕ) : Stops (List.replicate n 0) :=
  Wal.nextRecord_broken (.blank ⟨n, rfl⟩)

theorem inertBehind_replicate (n : ℕ) : InertBehind (List.replicate n 0) := by
  intro s _ _
  rw [drop_replicate]
  exact stops_replicate _

theorem InertBehind.drop {tail : Bytes} (h : InertBehind tail) {s : ℕ} (hs : 8 ∣ s) :
    InertBehind (tail.drop s) := by
  intro t ht hwords
  rw [drop_drop]
  exact h (s + t) (by omega) (Nat.dvd_add hs hwords)

omit [WalCodec] in
theorem LeftOver.drop {spare tail : Bytes} (h : LeftOver spare tail) {s : ℕ} (hs : 8 ∣ s) :
    LeftOver spare (tail.drop s) := by
  rcases h with ⟨n, rfl⟩ | ⟨t, ht, rfl⟩
  · exact Or.inl ⟨n - s, drop_replicate⟩
  · exact Or.inr ⟨t + s, Nat.dvd_add ht hs, drop_drop⟩

/-! ## The layout -/

section Chain

omit [WalCodec]

variable {before after : List Image} {im im' : Image} {pre post : List LogRecord}

/-- Another image in the place of one. -/
theorem Chain.replace (h : Chain (before ++ im :: after)) (hid : im'.id = im.id)
    (hfirst : im'.firstIndex = im.firstIndex) (hsound : im'.Sound)
    (hentries : ∀ c ∈ after, ∀ e, im'.Has e → e.index < c.firstIndex) :
    Chain (before ++ im' :: after) := by
  obtain ⟨hbefore, hright, hcross⟩ := pairwise_append.mp h.ordered
  obtain ⟨hlater, hrest⟩ := pairwise_cons.mp hright
  obtain ⟨hsounds, hsounds'⟩ := forall_mem_append.mp h.sound
  refine ⟨forall_mem_append.mpr ⟨hsounds, forall_mem_cons.mpr
    ⟨hsound, (forall_mem_cons.mp hsounds').2⟩⟩, pairwise_append.mpr ⟨hbefore, pairwise_cons.mpr
      ⟨fun c hc => ?_, hrest⟩, fun b hb => forall_mem_cons.mpr ⟨?_, fun c hc => ?_⟩⟩⟩
  · exact ⟨hid ▸ (hlater c hc).id, hfirst ▸ (hlater c hc).firstIndex, hentries c hc⟩
  · have hold := hcross b hb im mem_cons_self
    exact ⟨hid ▸ hold.id, hfirst ▸ hold.firstIndex, hfirst ▸ hold.entries⟩
  · exact hcross b hb c (mem_cons_of_mem _ hc)

theorem Image.Sound.cut (h : im.Sound) (hrecords : im.records = pre ++ post) :
    (im.cut pre).Sound := by
  have hsub : ∀ {r : LogRecord}, r ∈ pre → r ∈ im.records := fun hr =>
    hrecords ▸ mem_append_left _ hr
  exact ⟨h.firstIndex, fun r hr => h.fits r (hsub hr), fun e he => h.entries e (hsub he)⟩

/-- A chain with an image cut. -/
theorem Chain.cut (h : Chain (before ++ im :: after)) (hrecords : im.records = pre ++ post) :
    Chain (before ++ im.cut pre :: after) := by
  refine h.replace rfl rfl ((h.sound im (by simp)).cut hrecords) fun c hc e he => ?_
  have hlater := (pairwise_cons.mp (pairwise_append.mp h.ordered).2.1).1 c hc
  exact hlater.entries e (show _ ∈ im.records from hrecords ▸ mem_append_left _ he)

end Chain

/-- A segment that is not full has room behind its header, and offsets in the write buffer fit
in 32 bits. -/
structure WalConfig.Sized (config : WalConfig) : Prop where
  segmentSize : SegmentHeader.size < config.segmentSize
  writeBufferSize : config.writeBufferSize ≤ 2 ^ 32

namespace Wal

/-- A log whose files are some images and whose write buffer holds some entries. -/
def withLog (w : Wal) (images : List Image) (buffered : List Entry) : Wal :=
  { w with
    manager := managerOf images
    index :=
      { firstIndex := w.firstIndex, entries := (located w.firstIndex images).map Prod.fst }
    writeBuffer := recordsBytes (entryRecords buffered)
    pendingEntries := pendingOf 0 buffered }

/-- The index of the entry behind those in the files. -/
def nextIndex (w : Wal) (images : List Image) : ℕ :=
  w.firstIndex + (walEntries w.firstIndex images).length

/-- The last segment can take the entry that comes next; if it is full, the next segment can. -/
structure Takes (w : Wal) (spare : Bytes) (images : List Image) (im : Image) : Prop where
  firstIndex : im.firstIndex ≤ w.nextIndex images
  full : w.config.segmentSize ≤ im.size → im.firstIndex < w.nextIndex images ∧ Stops im.tail
  spare : LeftOver spare im.tail

/-- The layout of the files of a log. -/
structure Laid (w : Wal) (spare : Bytes) (images : List Image) : Prop where
  chain : Chain images
  numbered : NumberedFrom w.firstIndex (walEntries w.firstIndex images)
  offsets : ∀ x ∈ located w.firstIndex images, x.1.offset < w.config.segmentSize
  inert : ∀ im ∈ images, InertBehind im.tail
  stops : ∀ im ∈ images.dropLast, Stops im.tail
  last : ∀ im ∈ images.getLast?, w.Takes spare images im

/-- Entries in the write buffer that go to the segment `im`. -/
structure Waits (w : Wal) (images : List Image) (im : Image) (buffered : List Entry) :
    Prop where
  numbered : NumberedFrom (w.nextIndex images) buffered
  fits : ∀ e ∈ buffered, e.Fits
  starts : ∀ pre e post, buffered = pre ++ e :: post →
    im.size + recordsSize (entryRecords pre) < w.config.segmentSize

variable {w : Wal} {spare : Bytes} {images before : List Image} {im : Image}
  {buffered : List Entry}

/-- The reads of such a log. -/
theorem Laid.holds (h : w.Laid spare images)
    (hnumbered : NumberedFrom (w.nextIndex images) buffered) :
    (w.withLog images buffered).Holds images buffered where
  manager := rfl
  index := ⟨rfl, fun _ => rfl⟩
  chain := h.chain
  numbered := h.numbered.append hnumbered
  buffer := rfl
  pending := rfl

theorem Laid.holds_nil (h : w.Laid spare images) : (w.withLog images []).Holds images [] :=
  h.holds (NumberedFrom.nil _)

theorem Laid.takes (h : w.Laid spare (before ++ [im])) : w.Takes spare (before ++ [im]) im :=
  h.last im (by simp)

/-- An entry in the files comes before the next one. -/
theorem Laid.has_lt (h : w.Laid spare images) {im : Image} (him : im ∈ images) (he : im.Has e) :
    e.index < w.nextIndex images := by
  rw [nextIndex]
  by_cases hfirst : w.firstIndex ≤ e.index
  · obtain ⟨k, hk⟩ := mem_iff_getElem?.mp (mem_walEntries him he hfirst)
    have hindex := h.numbered k e hk
    have hlt := (List.getElem?_eq_some_iff.mp hk).1
    omega
  · omega

/-- Another image in the place of the last one, or of one whose followers are removed. -/
theorem Laid.replace {after : List Image} {im' : Image} {spare' : Bytes}
    (h : w.Laid spare (before ++ im :: after)) (hid : im'.id = im.id)
    (hfirst : im'.firstIndex = im.firstIndex) (hsound : im'.Sound)
    (hnumbered : NumberedFrom w.firstIndex (walEntries w.firstIndex (before ++ [im'])))
    (hoffsets : ∀ x ∈ located w.firstIndex (before ++ [im']), x.1.offset < w.config.segmentSize)
    (hinert : InertBehind im'.tail) (htakes : w.Takes spare' (before ++ [im']) im') :
    w.Laid spare' (before ++ [im']) where
  chain := by
    have hsublist : (before ++ [im]).Sublist (before ++ im :: after) :=
      (sublist_append_left [im] after).append_left before
    have hchain : Chain (before ++ [im]) :=
      ⟨fun b hb => h.chain.sound b (hsublist.subset hb), h.chain.ordered.sublist hsublist⟩
    exact hchain.replace hid hfirst hsound (by simp)
  numbered := hnumbered
  offsets := hoffsets
  inert := forall_mem_append.mpr
    ⟨fun b hb => h.inert b (mem_append_left _ hb), forall_mem_singleton.mpr hinert⟩
  stops := by
    rw [dropLast_concat]
    exact fun b hb => h.stops b (by rw [dropLast_append_cons]; exact mem_append_left _ hb)
  last := by simpa using htakes

theorem Waits.nextIndex_le (h : w.Waits images im buffered) :
    ∀ e ∈ buffered, w.nextIndex images ≤ e.index := by
  intro e he
  obtain ⟨k, hk⟩ := mem_iff_getElem?.mp he
  have hindex := h.numbered k e hk
  omega

theorem Waits.firstIndex_le (h : w.Waits images im buffered) :
    ∀ e ∈ buffered, w.firstIndex ≤ e.index :=
  fun e he => (Nat.le_add_right _ _).trans (h.nextIndex_le e he)

section Lawful

variable [LawfulWalCodec]

/-- The entries of the write buffer are written. -/
theorem Laid.extend (h : w.Laid spare (before ++ [im]))
    (hwaits : w.Waits (before ++ [im]) im buffered) (hne : buffered ≠ []) :
    w.Laid spare (before ++ [im.extend (entryRecords buffered)]) ∧
      Stops (im.extend (entryRecords buffered)).tail := by
  have htakes := h.takes
  have hfits : ∀ r ∈ entryRecords buffered, r.Fits := by
    intro r hr
    obtain ⟨e, he, rfl⟩ := mem_entryRecords hr
    exact hwaits.fits e he
  have hwords := recordsSize_words hfits
  have hpos : 0 < recordsSize (entryRecords buffered) :=
    recordsSize_pos (by simpa [entryRecords] using hne)
  have hinert := h.inert im (by simp)
  have hstops : Stops (im.extend (entryRecords buffered)).tail := hinert _ hpos hwords
  have hentries := walEntries_extend hwaits.firstIndex_le before im
  have hnext : w.nextIndex (before ++ [im.extend (entryRecords buffered)]) =
      w.nextIndex (before ++ [im]) + buffered.length := by
    rw [nextIndex, hentries, length_append, ← Nat.add_assoc]
    rfl
  have hsound := h.chain.sound im (by simp)
  refine ⟨h.replace rfl rfl ⟨hsound.firstIndex, forall_mem_append.mpr ⟨hsound.fits, hfits⟩,
    fun e he => ?_⟩ ?_ (fun x hx => ?_) (hinert.drop hwords) ?_, hstops⟩
  · rcases mem_append.mp he with hmem | hmem
    · exact hsound.entries e hmem
    · obtain ⟨f, hf, heq⟩ := mem_entryRecords hmem
      obtain rfl : e = f := LogRecord.entry.inj heq
      exact htakes.firstIndex.trans (hwaits.nextIndex_le e hf)
  · rw [hentries]
    exact h.numbered.append hwaits.numbered
  · rw [located_extend] at hx
    rcases mem_append.mp hx with hmem | hmem
    · exact h.offsets x hmem
    · obtain ⟨pre, e, post, hsplit, hoffset⟩ := offset_locate_entryRecords hmem
      rw [hoffset]
      exact hwaits.starts pre e post hsplit
  · have hlength := length_pos_iff.mpr hne
    have hle := htakes.firstIndex
    refine ⟨?_, fun _ => ⟨?_, hstops⟩, htakes.spare.drop hwords⟩
    · rw [hnext]
      exact hle.trans (Nat.le_add_right _ _)
    · rw [hnext]
      exact hle.trans_lt (Nat.lt_add_of_pos_right hlength)

end Lawful

/-- The last image is full, so it stops and starts before the next entry; the images before it
always do. -/
theorem Laid.full (h : w.Laid spare images)
    (hfull : ∀ im ∈ images.getLast?, w.config.segmentSize ≤ im.size) (him : im ∈ images) :
    im.firstIndex < w.nextIndex images ∧ Stops im.tail := by
  rcases eq_nil_or_concat images with rfl | ⟨init, last, rfl⟩
  · cases him
  · rw [concat_eq_append] at h hfull him ⊢
    have hlast := h.takes.full (hfull last (by simp))
    rcases mem_append.mp him with hmem | hmem
    · have hstops := h.stops im (by rwa [dropLast_concat])
      have hbefore := (pairwise_append.mp h.chain.ordered).2.2 im hmem last (by simp)
      exact ⟨hbefore.firstIndex.trans hlast.1, hstops⟩
    · rw [mem_singleton.mp hmem]
      exact hlast

/-- A segment is added behind full ones. -/
theorem Laid.roll (h : w.Laid spare images) (hsized : w.config.Sized)
    (hfull : ∀ im ∈ images.getLast?, w.config.segmentSize ≤ im.size) (faults : Faults)
    (hnext : w.nextIndex images < 2 ^ 64) :
    w.Laid spare (images ++ [newImage faults w.config images (w.nextIndex images)]) ∧
      walEntries w.firstIndex (images ++ [newImage faults w.config images (w.nextIndex images)]) =
        walEntries w.firstIndex images := by
  set new := newImage faults w.config images (w.nextIndex images)
  have hlocated : located w.firstIndex (images ++ [new]) = located w.firstIndex images :=
    located_newImage images _
  have hentries : walEntries w.firstIndex (images ++ [new]) = walEntries w.firstIndex images := by
    rw [walEntries, hlocated, walEntries]
  have hsame : w.nextIndex (images ++ [new]) = w.nextIndex images := by
    rw [nextIndex, hentries, nextIndex]
  obtain ⟨n, hblank⟩ : ∃ n, new.tail = List.replicate n 0 := blankTail_eq _
  refine ⟨⟨⟨forall_mem_append.mpr ⟨h.chain.sound, forall_mem_singleton.mpr ?_⟩, ?_⟩, ?_, ?_,
    forall_mem_append.mpr ⟨h.inert, forall_mem_singleton.mpr ?_⟩, ?_, ?_⟩, hentries⟩
  · exact ⟨hnext, fun _ hr => absurd hr not_mem_nil, fun _ he => absurd he not_mem_nil⟩
  · refine pairwise_append.mpr ⟨h.chain.ordered, pairwise_singleton _ _, ?_⟩
    intro im him c hc
    rw [mem_singleton.mp hc]
    exact ⟨Nat.lt_succ_of_le (h.chain.increasing.id_le him), (h.full hfull him).1,
      fun e he => h.has_lt him he⟩
  · rw [hentries]
    exact h.numbered
  · rw [hlocated]
    exact h.offsets
  · rw [hblank]
    exact inertBehind_replicate n
  · rw [dropLast_concat]
    exact fun im him => (h.full hfull him).2
  · intro im him
    obtain rfl : new = im := by simpa using him
    refine ⟨hsame.ge, fun hsize => ?_, Or.inl ⟨n, hblank⟩⟩
    exact absurd hsized.segmentSize (Nat.not_lt.mpr hsize)

/-- A failed write leaves some bytes behind the records. -/
theorem Laid.torn (h : w.Laid spare (before ++ [im])) {data : Bytes}
    (hinert : InertBehind (im.torn data).tail) (hroom : im.size < w.config.segmentSize) :
    w.Laid (im.torn data).tail (before ++ [im.torn data]) := by
  have hentries : walEntries w.firstIndex (before ++ [im.torn data]) =
      walEntries w.firstIndex (before ++ [im]) := walEntries_torn before im data
  have hsound := h.chain.sound im (by simp)
  refine h.replace rfl rfl ⟨hsound.firstIndex, hsound.fits, hsound.entries⟩ ?_ ?_ hinert
    ⟨?_, fun hsize => absurd hroom (Nat.not_lt.mpr hsize), Or.inr ⟨0, Nat.dvd_zero 8, rfl⟩⟩
  · rw [hentries]
    exact h.numbered
  · rw [located_torn]
    exact h.offsets
  · rw [nextIndex, hentries]
    exact h.takes.firstIndex

/-- The log is cut before an entry. -/
theorem Laid.cut {after : List Image} {pre post : List LogRecord}
    (h : w.Laid spare (before ++ im :: after)) (hrecords : im.records = pre ++ .entry e :: post)
    (hfirst : w.firstIndex ≤ e.index)
    (hpre : located w.firstIndex before ++ locate w.firstIndex im.id SegmentHeader.size pre =
      (located w.firstIndex (before ++ im :: after)).take (e.index - w.firstIndex))
    (hlt : e.index < w.nextIndex (before ++ im :: after)) :
    w.Laid spare (before ++ [im.cut pre]) ∧ (im.cut pre).size < w.config.segmentSize ∧
      walEntries w.firstIndex (before ++ [im.cut pre]) =
        (walEntries w.firstIndex (before ++ im :: after)).take (e.index - w.firstIndex) := by
  have hlocated : located w.firstIndex (before ++ [im.cut pre]) =
      (located w.firstIndex (before ++ im :: after)).take (e.index - w.firstIndex) := by
    rw [located_append, located_singleton, ← hpre]
    rfl
  have hentries : walEntries w.firstIndex (before ++ [im.cut pre]) =
      (walEntries w.firstIndex (before ++ im :: after)).take (e.index - w.firstIndex) := by
    rw [walEntries, hlocated, walEntries, map_take]
  have hnext : w.nextIndex (before ++ [im.cut pre]) = e.index := by
    rw [nextIndex] at hlt
    rw [nextIndex, hentries, length_take]
    omega
  have hsize : (im.cut pre).size < w.config.segmentSize := by
    refine h.offsets (indexInfo im.id (SegmentHeader.size + recordsSize pre) e, e) ?_
    rw [located_append, located_cons, Image.located, hrecords, locate_append, locate, if_pos hfirst]
    simp
  have hsound := h.chain.sound im (by simp)
  have hhas : im.Has e := by
    rw [Image.Has, hrecords]
    simp
  refine ⟨h.replace rfl rfl (hsound.cut hrecords) ?_ (fun x hx => ?_) (inertBehind_replicate 0)
    ⟨?_, fun hfull => absurd hsize (Nat.not_lt.mpr hfull), Or.inl ⟨0, rfl⟩⟩, hsize, hentries⟩
  · rw [hentries]
    exact h.numbered.take _
  · rw [hlocated] at hx
    exact h.offsets x (mem_of_mem_take hx)
  · rw [hnext]
    exact hsound.entries e hhas

end Wal

end Raftpp
