import Raftpp.Wal.Layout

/-!
# Writing entries

What the functions of `WAL::Append` do to a log with a layout, with the calls that
fail as a parameter.  A batch goes to the write buffer and from there to the last
segment; a record that is larger than the buffer goes to the segment at once.

Two kinds of failures are told apart.  If a segment cannot be made, or a direct write
fails, the entries before are in the files and the index, and nothing is left in the
write buffer (`Failed.kept`).  If the write buffer cannot be written, its entries stay
there (`Failed.stale`).
-/

namespace Raftpp

open List

namespace Wal

variable [WalCodec] {faults : Faults} {w : Wal} {spare : Bytes} {saved : List HardState}
  {images before : List Image} {im : Image} {buffered log : List Entry} {id : ℕ}

variable {e : Entry} {es : List Entry}

omit [WalCodec] in
theorem ends_onManager {α : Type} {m : SegmentM α} {Q : α → Wal → Prop}
    {E : RaftError → Wal → Prop} :
    Ends (onManager m) w Q E ↔ Ends m w.manager (fun a manager => Q a { w with manager })
      fun e manager => E e { w with manager } :=
  ends_zoom

/-! ## The write buffer -/

theorem pendingOf_append_singleton (offset : ℕ) (es : List Entry) (e : Entry) :
    pendingOf offset (es ++ [e]) = pendingOf offset es ++
      [{ index := e.index, term := e.term
         offsetInBuffer := offset + recordsSize (entryRecords es)
         recordLength := (LogRecord.entry e).size }] := by
  induction es generalizing offset with
  | nil => rfl
  | cons f es ih =>
      rw [cons_append, pendingOf, ih, pendingOf, entryRecords_cons, recordsSize_cons, Nat.add_assoc]
      rfl

theorem recordsBytes_eq_nil {records : List LogRecord} (h : recordsBytes records = []) :
    records = [] := by
  by_contra hne
  have hpos := recordsSize_pos hne
  rw [← recordsBytes_length, h] at hpos
  exact lt_irrefl _ hpos

/-- The entries of the write buffer enter the index behind those in it. -/
theorem insertPending_pendingOf {first start offset : ℕ} {xs : List IndexEntry}
    (h : NumberedFrom (first + xs.length) es) :
    insertPending id start (pendingOf offset es) { firstIndex := first, entries := xs } =
      { firstIndex := first
        entries := xs ++
          (locate first id (start + offset) (entryRecords es)).map Prod.fst } := by
  induction es generalizing offset xs with
  | nil => simp [pendingOf, insertPending, locate]
  | cons e es ih =>
      have hindex : e.index = first + xs.length := h.head
      have htail : NumberedFrom (first + (xs ++ [indexInfo id (start + offset) e]).length) es := by
        rw [length_append, length_singleton, ← Nat.add_assoc]
        exact h.tail
      rw [pendingOf, insertPending, WalIndex.insert_last hindex, entryRecords_cons, locate,
        if_pos (show first ≤ e.index by omega), map_cons]
      have hrest := @ih (offset + (LogRecord.entry e).size) _ htail
      rw [append_assoc, singleton_append, ← Nat.add_assoc] at hrest
      exact hrest

theorem withLog_setManager {images' : List Image}
    (h : located w.firstIndex images' = located w.firstIndex images) :
    { w.withLog images buffered with manager := managerOf images' } =
      w.withLog images' buffered := by
  unfold withLog
  rw [h]

/-- Records that are written at the end of the last segment enter the index. -/
theorem withLog_extend (hnumbered : NumberedFrom (w.nextIndex (before ++ [im])) buffered) :
    { w.withLog (before ++ [im]) [] with
      manager := managerOf (before ++ [im.extend (entryRecords buffered)])
      index := insertPending im.id im.size (pendingOf 0 buffered)
        (w.withLog (before ++ [im]) []).index } =
      w.withLog (before ++ [im.extend (entryRecords buffered)]) [] := by
  have hlength : NumberedFrom
      (w.firstIndex + ((located w.firstIndex (before ++ [im])).map Prod.fst).length) buffered := by
    rwa [length_map, ← Holds.length_entries]
  unfold withLog
  dsimp only
  rw [insertPending_pendingOf hlength, located_extend, map_append]
  rfl

/-- The entries of the write buffer go to the last segment. -/
theorem ends_flushWriteBuffer (h : w.Laid spare (before ++ [im]))
    (hwaits : w.Waits (before ++ [im]) im buffered) :
    Ends (flushWriteBuffer faults) (w.withLog (before ++ [im]) buffered)
      (fun _ w' => w' = w.withLog (before ++ [im.extend (entryRecords buffered)]) [])
      fun _ w' => buffered ≠ [] ∧ ∃ data id offset,
        (faults (.write .flush id offset)).isSome = true ∧
        w' = w.withLog (before ++ [im.torn data]) buffered := by
  have hincreasing := h.chain.increasing
  unfold flushWriteBuffer
  rw [ends_bind, ends_get]
  by_cases hne : buffered = []
  · subst hne
    rw [if_pos (show (w.withLog (before ++ [im]) []).writeBuffer = [] from rfl), ends_pure,
      entryRecords_nil, extend_nil]
  · have hbytes : (w.withLog (before ++ [im]) buffered).writeBuffer ≠ [] := fun hnil =>
      hne (map_eq_nil_iff.mp (recordsBytes_eq_nil hnil))
    rw [if_neg hbytes, ends_bind, ends_onManager]
    refine (ends_getCurrentSegment hincreasing _).mono ?_ fun _ _ => False.elim
    rintro s m ⟨rfl, rfl⟩
    rw [ends_bind, ends_onManager]
    refine (ends_appendTo hincreasing .flush (entryRecords buffered)).mono ?_ ?_
    · rintro - m ⟨-, rfl⟩
      exact withLog_extend hwaits.numbered
    · rintro - m ⟨fault, hfault, rfl⟩
      exact ⟨hne, _, im.id, im.size, Option.isSome_of_mem hfault,
        withLog_setManager (located_torn before im _)⟩

/-! ## Within a batch -/

/-- The log within a batch: it is in the files and the write buffer, and the write buffer does
not fill the segment; `saved` are the hard states in the files. -/
structure Fills (w : Wal) (spare : Bytes) (saved : List HardState) (log : List Entry)
    (before : List Image) (im : Image) (buffered : List Entry) : Prop where
  laid : w.Laid spare (before ++ [im])
  waits : w.Waits (before ++ [im]) im buffered
  used : recordsSize (entryRecords buffered) ≤ w.config.writeBufferSize
  short : buffered ≠ [] →
    im.size + recordsSize (entryRecords buffered) < w.config.segmentSize
  log : walEntries w.firstIndex (before ++ [im]) ++ buffered = log
  saved : savedStates (before ++ [im]) = saved

/-- A state within a batch, with the current segment. -/
def Writing (w : Wal) (spare : Bytes) (saved : List HardState) (log : List Entry)
    (P : Image → List Entry → Prop) (id : ℕ) (w' : Wal) : Prop :=
  ∃ before im buffered, w.Fills spare saved log before im buffered ∧ P im buffered ∧ im.id = id ∧
    w' = w.withLog (before ++ [im]) buffered

/-- The states in which a batch fails while its entries are written, with the log that the files
hold. -/
inductive Failed (w : Wal) (faults : Faults) (log : List Entry) : Wal → Prop
  | kept {spare : Bytes} {images : List Image} (laid : w.Laid spare images)
      (entries : walEntries w.firstIndex images = log)
      (fault : (∃ id, CreateFails faults id (w.firstIndex + log.length)) ∨ ∃ id offset,
        (faults (.write (.direct (w.firstIndex + log.length)) id offset)).isSome = true) :
      Failed w faults log (w.withLog images [])
  | stale {before : List Image} {im : Image} {buffered : List Entry}
      (increasing : Increasing (before ++ [im])) (nonempty : buffered ≠ [])
      (numbered : NumberedFrom (w.nextIndex (before ++ [im])) buffered)
      (fits : ∀ e ∈ buffered, e.Fits)
      (fault : ∃ id offset, (faults (.write .flush id offset)).isSome = true) :
      Failed w faults log (w.withLog (before ++ [im]) buffered)

/-- What a failed direct write of an entry leaves behind is not taken for a record. -/
def TornInert (faults : Faults) (spare : Bytes) (e : Entry) : Prop :=
  ∀ id offset fault, faults (.write (.direct e.index) id offset) = some fault →
    ∀ tail, LeftOver spare tail →
      InertBehind ((entryRecord e).take fault.transferred ++
        tail.drop ((entryRecord e).take fault.transferred).length)

theorem tornInert_none (spare : Bytes) (e : Entry) : TornInert Faults.none spare e :=
  fun _ _ _ hfault => absurd hfault (by simp [Faults.none])

theorem Waits.nil (images : List Image) (im : Image) : w.Waits images im [] where
  numbered := NumberedFrom.nil _
  fits := fun _ he => absurd he not_mem_nil
  starts := fun pre e post h => absurd h (by simp)

theorem Fills.next (h : w.Fills spare saved log before im buffered) :
    w.nextIndex (before ++ [im]) + buffered.length = w.firstIndex + log.length := by
  rw [nextIndex, ← h.log, length_append, Nat.add_assoc]

/-- A failed flush leaves the write buffer as it was. -/
theorem ends_flush (h : w.Laid spare (before ++ [im]))
    (hwaits : w.Waits (before ++ [im]) im buffered) (log : List Entry) :
    Ends (flushWriteBuffer faults) (w.withLog (before ++ [im]) buffered)
      (fun _ w' => w' = w.withLog (before ++ [im.extend (entryRecords buffered)]) [])
      fun _ w' => buffered ≠ [] ∧ w.Failed faults log w' := by
  refine (ends_flushWriteBuffer h hwaits).mono (fun _ _ => id) ?_
  rintro - w' ⟨hne, data, id, offset, hfault, rfl⟩
  refine ⟨hne, .stale (h.chain.increasing.replace rfl) hne ?_ hwaits.fits ⟨id, offset, hfault⟩⟩
  rw [nextIndex, walEntries_torn]
  exact hwaits.numbered

/-! ### Segments -/

theorem ends_segment (h : Increasing (before ++ [im])) :
    Ends (segment im.id) (w.withLog (before ++ [im]) buffered)
      (fun s w' => s = im.segment ∧ w' = w.withLog (before ++ [im]) buffered)
      fun _ _ => False := by
  have hfind : (w.withLog (before ++ [im]) buffered).manager.find im.id = some im.segment :=
    managerOf_find h (by simp)
  unfold segment
  rw [ends_bind, ends_get, hfind]
  exact ⟨rfl, rfl⟩

/-- Afterwards the current segment is not full. -/
theorem ends_maybeRollSegmentForAppend (hsized : w.config.Sized)
    (h : w.Fills spare saved log before im buffered) (hlog : w.firstIndex + log.length < 2 ^ 64) :
    Ends (maybeRollSegmentForAppend faults (w.firstIndex + log.length) im.id)
      (w.withLog (before ++ [im]) buffered)
      (w.Writing spare saved log fun im' buffered' =>
        im'.size < w.config.segmentSize ∧ buffered' = buffered)
      fun _ w' => w.Failed faults log w' := by
  have hincreasing := h.laid.chain.increasing
  unfold maybeRollSegmentForAppend
  rw [ends_bind]
  refine (ends_segment hincreasing).mono ?_ fun _ _ => False.elim
  rintro s w' ⟨rfl, rfl⟩
  rw [ends_bind, ends_get]
  change Ends (if im.segment.isFull w.config.segmentSize = true then _ else _) _ _ _
  by_cases hfull : w.config.segmentSize ≤ im.size
  · -- the write buffer never fills a segment, so it is empty here
    obtain rfl : buffered = [] := by
      by_contra hne
      have hshort := h.short hne
      omega
    have hentries : walEntries w.firstIndex (before ++ [im]) = log := by
      rw [← h.log, append_nil]
    have hnext : w.nextIndex (before ++ [im]) = w.firstIndex + log.length := by
      rw [nextIndex, hentries]
    have hlast : ∀ im' ∈ (before ++ [im]).getLast?, w.config.segmentSize ≤ im'.size := by
      intro im' him'
      obtain rfl : im = im' := by simpa using him'
      exact hfull
    obtain ⟨hlaid, hnew⟩ := h.laid.roll hsized hlast faults (hnext ▸ hlog)
    rw [if_pos (show im.segment.isFull _ = true from decide_eq_true hfull), ends_bind]
    refine (ends_flush h.laid h.waits log).mono ?_ fun _ _ hfailed => absurd rfl hfailed.1
    rintro - w' rfl
    rw [entryRecords_nil, extend_nil, ends_bind, ends_onManager]
    refine (ends_rollToNewSegment hincreasing (w.firstIndex + log.length)).mono ?_ ?_
    · rintro s m ⟨rfl, rfl⟩
      rw [hnext] at hlaid hnew
      refine ⟨before ++ [im], _, [], ⟨hlaid, Waits.nil _ _, Nat.zero_le _, absurd rfl, ?_, ?_⟩,
        ⟨?_, rfl⟩, rfl, withLog_setManager ?_⟩
      · rw [hnew, append_nil, hentries]
      · exact (savedStates_newImage _).trans h.saved
      · exact hsized.segmentSize
      · exact located_newImage _ _
    · rintro - m ⟨rfl, hcreate⟩
      exact Failed.kept h.laid hentries (Or.inl ⟨_, hcreate⟩)
  · rw [if_neg (show ¬im.segment.isFull _ = true from fun hle => hfull (of_decide_eq_true hle))]
    exact ⟨before, im, buffered, h, ⟨not_le.mp hfull, rfl⟩, rfl, rfl⟩

theorem ends_getCurrentSegmentForAppend (hsized : w.config.Sized)
    (h : w.Fills spare saved log before im buffered) (hlog : w.firstIndex + log.length < 2 ^ 64) :
    Ends (getCurrentSegmentForAppend faults (w.firstIndex + log.length))
      (w.withLog (before ++ [im]) buffered)
      (w.Writing spare saved log fun im' buffered' =>
        im'.size < w.config.segmentSize ∧ buffered' = buffered)
      fun _ w' => w.Failed faults log w' := by
  unfold getCurrentSegmentForAppend
  rw [ends_bind, ends_get, ends_bind, ends_onManager]
  refine (ends_getCurrentSegment h.laid.chain.increasing _).mono ?_ fun _ _ => False.elim
  rintro s m ⟨rfl, rfl⟩
  exact ends_maybeRollSegmentForAppend hsized h hlog

/-- At the beginning of a batch there may be no segment yet. -/
theorem ends_getCurrentSegmentForAppend_first (hsized : w.config.Sized)
    (h : w.Laid spare images) (hlog : w.nextIndex images < 2 ^ 64) :
    Ends (getCurrentSegmentForAppend faults (w.nextIndex images)) (w.withLog images [])
      (w.Writing spare (savedStates images) (walEntries w.firstIndex images) fun im' buffered' =>
        im'.size < w.config.segmentSize ∧ buffered' = [])
      fun _ w' => w.Failed faults (walEntries w.firstIndex images) w' := by
  rcases eq_nil_or_concat images with rfl | ⟨before, im, rfl⟩
  · obtain ⟨hlaid, hnew⟩ := h.roll hsized (by simp) faults hlog
    unfold getCurrentSegmentForAppend
    rw [ends_bind, ends_get, ends_bind, ends_onManager]
    refine (ends_getCurrentSegment_nil (w.nextIndex [])).mono ?_ ?_
    · rintro s m ⟨rfl, rfl⟩
      have hfills : w.Fills spare (savedStates []) (walEntries w.firstIndex []) []
          (newImage faults w.config [] (w.nextIndex [])) [] :=
        ⟨hlaid, Waits.nil _ _, Nat.zero_le _, absurd rfl, by rw [append_nil]; exact hnew, rfl⟩
      exact ends_maybeRollSegmentForAppend hsized hfills hlog
    · rintro - m ⟨rfl, hcreate⟩
      exact Failed.kept h rfl (Or.inl ⟨_, hcreate⟩)
  · rw [concat_eq_append] at h hlog ⊢
    exact ends_getCurrentSegmentForAppend hsized
      ⟨h, Waits.nil _ _, Nat.zero_le _, absurd rfl, append_nil _, rfl⟩ hlog

theorem Fills.size_lt (h : w.Fills spare saved log before im buffered)
    (hroom : im.size < w.config.segmentSize) :
    (im.extend (entryRecords buffered)).size < w.config.segmentSize := by
  rw [size_extend]
  by_cases hne : buffered = []
  · subst hne
    exact hroom
  · exact h.short hne

theorem entryRecord_eq (e : Entry) : entryRecord e = recordsBytes (entryRecords [e]) :=
  (append_nil _).symm

/-- The next entry may wait in the write buffer, or go to the segment. -/
theorem Fills.waits_append (h : w.Fills spare saved log before im buffered)
    (hroom : im.size < w.config.segmentSize) (he : e.Fits)
    (hindex : e.index = w.firstIndex + log.length) :
    w.Waits (before ++ [im]) im (buffered ++ [e]) where
  numbered := by
    refine h.waits.numbered.append fun k f hf => ?_
    cases k with
    | zero =>
        obtain rfl : e = f := by simpa using hf
        have hnext := h.next
        omega
    | succ k => simp at hf
  fits := forall_mem_append.mpr ⟨h.waits.fits, forall_mem_singleton.mpr he⟩
  starts := by
    intro pre f post hsplit
    rcases eq_nil_or_concat post with rfl | ⟨post', g, rfl⟩
    · obtain ⟨rfl, -⟩ := append_inj' hsplit rfl
      by_cases hne : buffered = []
      · subst hne
        exact hroom
      · exact h.short hne
    · rw [concat_eq_append, ← cons_append, ← append_assoc] at hsplit
      obtain ⟨hbuffered, -⟩ := append_inj' hsplit rfl
      exact h.waits.starts pre f post' hbuffered

section Lawful

variable [LawfulWalCodec]

/-! ### Direct writes -/

theorem Fills.flush (h : w.Fills spare saved log before im buffered) :
    w.Fills spare saved log before (im.extend (entryRecords buffered)) [] := by
  by_cases hne : buffered = []
  · subst hne
    rw [entryRecords_nil, extend_nil]
    exact h
  · refine ⟨(h.laid.extend h.waits hne).1, Waits.nil _ _, Nat.zero_le _, absurd rfl, ?_,
      (savedStates_extend _ _ _).trans h.saved⟩
    rw [append_nil, walEntries_extend h.waits.firstIndex_le, h.log]

/-- A record that is written at once. -/
theorem ends_appendDirect (hsized : w.config.Sized) {e : Entry}
    (h : w.Fills spare saved log before im buffered) (he : e.Fits)
    (hindex : e.index = w.firstIndex + log.length) (htorn : TornInert faults spare e) :
    Ends (appendDirect faults e) (w.withLog (before ++ [im]) buffered)
      (w.Writing spare saved (log ++ [e]) fun im' buffered' => buffered' = [] → Stops im'.tail)
      fun _ w' => w.Failed faults log w' := by
  have hlog : w.firstIndex + log.length < 2 ^ 64 := hindex ▸ he.index
  unfold appendDirect
  rw [ends_bind]
  refine (ends_flush h.laid h.waits log).mono ?_ fun _ _ => And.right
  rintro - w' rfl
  rw [ends_bind, hindex]
  refine (ends_getCurrentSegmentForAppend hsized h.flush hlog).mono ?_ fun _ _ => id
  rintro id w' ⟨before', im', buffered', hfills, ⟨hroom', rfl⟩, rfl, rfl⟩
  rw [ends_bind]
  refine (ends_segment hfills.laid.chain.increasing).mono ?_ fun _ _ => False.elim
  rintro s w' ⟨rfl, rfl⟩
  have hwaits := hfills.waits_append hroom' he hindex
  rw [nil_append] at hwaits
  rw [ends_bind, ends_onManager, entryRecord_eq, ← hindex]
  refine (ends_appendTo hfills.laid.chain.increasing (.direct e.index) (entryRecords [e])).mono
    ?_ ?_
  · rintro - m ⟨-, rfl⟩
    obtain ⟨hlaid, hstops⟩ := hfills.laid.extend hwaits (cons_ne_nil e [])
    have hsize : (recordsBytes (entryRecords [e])).length % 2 ^ 32 =
        (LogRecord.entry e).size := by
      rw [← entryRecord_eq]
      exact Nat.mod_eq_of_lt (LogRecord.size_lt (r := .entry e) he)
    rw [ends_bind, ends_modify, ends_pure, hsize]
    refine ⟨before', im'.extend (entryRecords [e]), [], ⟨hlaid, Waits.nil _ _, Nat.zero_le _,
      absurd rfl, ?_, (savedStates_extend _ _ _).trans hfills.saved⟩, fun _ => hstops, rfl,
      withLog_extend hwaits.numbered⟩
    have hentries := hfills.log
    rw [append_nil] at hentries
    rw [append_nil, walEntries_extend hwaits.firstIndex_le, hentries]
  · rintro - m ⟨fault, hfault, rfl⟩
    have hentries := hfills.log
    rw [append_nil] at hentries
    have hinert := htorn _ _ fault hfault im'.tail hfills.laid.takes.spare
    have hlaid := hfills.laid.torn hinert hroom'
    rw [withLog_setManager (located_torn before' im' _), ← entryRecord_eq]
    refine Failed.kept hlaid ?_ (Or.inr ⟨im'.id, im'.size, ?_⟩)
    · rw [walEntries_torn, hentries]
    · rw [← hindex]
      exact Option.isSome_of_mem hfault

/-! ### The write buffer -/

theorem ends_makeSpace {size : ℕ} (h : w.Fills spare saved log before im buffered)
    (hroom : im.size < w.config.segmentSize) (hsize : size ≤ w.config.writeBufferSize) :
    Ends (makeSpace faults size) (w.withLog (before ++ [im]) buffered)
      (fun _ w' => w.Writing spare saved log (fun im' buffered' =>
        im'.size < w.config.segmentSize ∧
          recordsSize (entryRecords buffered') + size ≤ w.config.writeBufferSize) im.id w')
      fun _ w' => w.Failed faults log w' := by
  have hlength : (w.withLog (before ++ [im]) buffered).writeBuffer.length =
      recordsSize (entryRecords buffered) := recordsBytes_length _
  unfold makeSpace
  rw [ends_bind, ends_get, hlength]
  change Ends (if _ > w.config.writeBufferSize then _ else _) _ _ _
  split
  next hbeyond =>
    refine (ends_flush h.laid h.waits log).mono ?_ fun _ _ => And.right
    rintro - w' rfl
    exact ⟨before, _, [], h.flush, ⟨h.size_lt hroom, by simpa using hsize⟩, rfl, rfl⟩
  next hwithin => exact ⟨before, im, buffered, h, ⟨hroom, not_lt.mp hwithin⟩, rfl, rfl⟩

/-- An entry that fits in the write buffer. -/
theorem bufferEntry_withLog (hsized : w.config.Sized) (he : e.Fits)
    (hused : recordsSize (entryRecords buffered) + (entryRecord e).length ≤
      w.config.writeBufferSize) :
    (w.withLog images buffered).bufferEntry e = w.withLog images (buffered ++ [e]) := by
  have hpos : 16 ≤ (entryRecord e).length := (LogRecord.entry e).size_ge
  have hoffset : (w.withLog images buffered).writeBuffer.length % 2 ^ 32 =
      0 + recordsSize (entryRecords buffered) := by
    have hlimit := hsized.writeBufferSize
    rw [withLog, recordsBytes_length, Nat.zero_add]
    exact Nat.mod_eq_of_lt (by omega)
  have hsize : (entryRecord e).length % 2 ^ 32 = (LogRecord.entry e).size :=
    Nat.mod_eq_of_lt (LogRecord.size_lt (r := .entry e) he)
  unfold bufferEntry
  rw [hoffset, hsize]
  unfold withLog
  rw [entryRecords_append, recordsBytes_append, pendingOf_append_singleton, entryRecord_eq]

/-- What waits in the write buffer is written if it fills the buffer or the segment. -/
theorem ends_flushWriteBufferIfNeeded (h : w.Laid spare (before ++ [im]))
    (hwaits : w.Waits (before ++ [im]) im buffered) (hne : buffered ≠ [])
    (hlog : walEntries w.firstIndex (before ++ [im]) ++ buffered = log)
    (hsaved : savedStates (before ++ [im]) = saved) (old : List Entry) :
    Ends (flushWriteBufferIfNeeded faults) (w.withLog (before ++ [im]) buffered)
      (fun _ w' => w.Writing spare saved log (fun im' buffered' => buffered' = [] → Stops im'.tail)
        im.id w')
      fun _ w' => w.Failed faults old w' := by
  have hlength : (w.withLog (before ++ [im]) buffered).writeBuffer.length =
      recordsSize (entryRecords buffered) := recordsBytes_length _
  unfold flushWriteBufferIfNeeded
  rw [ends_bind, ends_get, ends_bind, ends_onManager]
  refine (ends_getCurrentSegment h.chain.increasing _).mono ?_ fun _ _ => False.elim
  rintro s m ⟨rfl, rfl⟩
  split
  next hflush =>
    refine (ends_flush h hwaits old).mono ?_ fun _ _ => And.right
    rintro - w' rfl
    obtain ⟨hlaid, hstops⟩ := h.extend hwaits hne
    refine ⟨before, _, [], ⟨hlaid, Waits.nil _ _, Nat.zero_le _, absurd rfl, ?_,
      (savedStates_extend _ _ _).trans hsaved⟩, fun _ => hstops, rfl, rfl⟩
    rw [append_nil, walEntries_extend hwaits.firstIndex_le, hlog]
  next hwait =>
    have hshort : recordsSize (entryRecords buffered) < w.config.writeBufferSize ∧
        recordsSize (entryRecords buffered) < w.config.segmentSize - im.size := by
      rw [shouldFlushBuffer, Bool.or_eq_true, decide_eq_true_eq, decide_eq_true_eq, hlength,
        not_or] at hwait
      exact ⟨not_le.mp hwait.1, not_le.mp hwait.2⟩
    exact ⟨before, im, buffered, ⟨h, hwaits, hshort.1.le, fun _ => by omega, hlog, hsaved⟩,
      fun hnil => absurd hnil hne, rfl, rfl⟩

/-- A record that waits in the write buffer. -/
theorem ends_appendBuffered (hsized : w.config.Sized)
    (h : w.Fills spare saved log before im buffered) (hroom : im.size < w.config.segmentSize)
    (he : e.Fits) (hindex : e.index = w.firstIndex + log.length)
    (hsize : (entryRecord e).length ≤ w.config.writeBufferSize) :
    Ends (appendBuffered faults e) (w.withLog (before ++ [im]) buffered)
      (fun _ w' => w.Writing spare saved (log ++ [e])
        (fun im' buffered' => buffered' = [] → Stops im'.tail) im.id w')
      fun _ w' => w.Failed faults log w' := by
  unfold appendBuffered
  rw [ends_bind]
  refine (ends_makeSpace h hroom hsize).mono ?_ fun _ _ => id
  rintro - w' ⟨before', im', buffered', hfills, ⟨hroom', hused⟩, hid, rfl⟩
  rw [ends_bind, ends_modify, bufferEntry_withLog hsized he hused, ← hid]
  refine ends_flushWriteBufferIfNeeded hfills.laid (hfills.waits_append hroom' he hindex)
    (by simp) ?_ hfills.saved log
  rw [← append_assoc, hfills.log]

/-! ## Batches -/

/-- The loop of `Append`.  Once an entry has been written, the last segment stops where its
records end. -/
theorem ends_appendEntries (hsized : w.config.Sized)
    (hes : NumberedFrom (w.firstIndex + log.length) es) (hfits : ∀ e ∈ es, e.Fits)
    (htorn : ∀ e ∈ es, TornInert faults spare e) {w' : Wal} (h : w.Writing spare saved log
      (fun im buffered => es = [] → buffered = [] → Stops im.tail) id w') :
    Ends (appendEntries faults id es) w'
      (fun _ w'' => ∃ id', w.Writing spare saved (log ++ es)
        (fun im buffered => buffered = [] → Stops im.tail) id' w'')
      fun _ w'' => ∃ k < es.length, w.Failed faults (log ++ es.take k) w'' := by
  induction es generalizing log id w' with
  | nil =>
      obtain ⟨before, im, buffered, hfills, hstops, rfl, rfl⟩ := h
      exact ⟨im.id, before, im, buffered, by rwa [append_nil], hstops rfl, rfl, rfl⟩
  | cons e es ih =>
      obtain ⟨before, im, buffered, hfills, -, rfl, rfl⟩ := h
      have hindex : e.index = w.firstIndex + log.length := hes.head
      have he : e.Fits := hfits e mem_cons_self
      have hlog : w.firstIndex + log.length < 2 ^ 64 := hindex ▸ he.index
      have hnumbered : NumberedFrom (w.firstIndex + (log ++ [e]).length) es := by
        rw [length_append, length_singleton, ← Nat.add_assoc]
        exact hes.tail
      have hfail : ∀ w'', w.Failed faults log w'' →
          ∃ k < (e :: es).length, w.Failed faults (log ++ (e :: es).take k) w'' :=
        fun w'' hfailed => ⟨0, Nat.succ_pos _, by rwa [take_zero, append_nil]⟩
      -- the rest of the batch, once this entry is in the files or the write buffer
      have hrest : ∀ id w'', w.Writing spare saved (log ++ [e])
          (fun im buffered => buffered = [] → Stops im.tail) id w'' →
          Ends (appendEntries faults id es) w''
            (fun _ w'' => ∃ id', w.Writing spare saved (log ++ e :: es)
              (fun im buffered => buffered = [] → Stops im.tail) id' w'')
            fun _ w'' => ∃ k < (e :: es).length,
              w.Failed faults (log ++ (e :: es).take k) w'' := by
        rintro id w'' ⟨before', im', buffered', hfills', hstops, hid, rfl⟩
        refine (ih hnumbered (fun f hf => hfits f (mem_cons_of_mem _ hf))
          (fun f hf => htorn f (mem_cons_of_mem _ hf))
          ⟨before', im', buffered', hfills', fun _ => hstops, hid, rfl⟩).mono ?_ ?_
        · rintro - w'' ⟨id', hwriting⟩
          rw [append_assoc, singleton_append] at hwriting
          exact ⟨id', hwriting⟩
        · rintro - w'' ⟨k, hk, hfailed⟩
          rw [append_assoc, singleton_append] at hfailed
          exact ⟨k + 1, Nat.succ_lt_succ hk, hfailed⟩
      unfold appendEntries
      rw [ends_bind, hindex]
      refine (ends_maybeRollSegmentForAppend hsized hfills hlog).mono ?_ fun _ => hfail
      rintro id w' ⟨before', im', buffered', hfills', ⟨hroom, rfl⟩, rfl, rfl⟩
      rw [ends_bind, ends_get]
      split
      next hlarge =>
        rw [ends_bind]
        exact (ends_appendDirect hsized hfills' he hindex (htorn e mem_cons_self)).mono hrest
          fun _ => hfail
      next hsmall =>
        rw [ends_bind]
        exact (ends_appendBuffered hsized hfills' hroom he hindex (not_lt.mp hsmall)).mono
          (fun _ => hrest im'.id) fun _ => hfail

/-- A log whose entries are all in the files, with nothing behind the records that a replay would
take for one. -/
def Written (w : Wal) (saved : List HardState) (log : List Entry) (w' : Wal) : Prop :=
  ∃ spare images, w.Laid spare images ∧ (∀ im ∈ images, Stops im.tail) ∧
    walEntries w.firstIndex images = log ∧ savedStates images = saved ∧ w' = w.withLog images []

/-- A batch that starts with the next index. -/
theorem ends_writeBatch (hsized : w.config.Sized) (hne : es ≠ []) (h : w.Laid spare images)
    (hes : NumberedFrom (w.nextIndex images) es) (hfits : ∀ e ∈ es, e.Fits)
    (htorn : ∀ e ∈ es, TornInert faults spare e) :
    Ends (writeBatch faults (w.nextIndex images) es) (w.withLog images [])
      (fun _ w' => w.Written (savedStates images) (walEntries w.firstIndex images ++ es) w')
      fun _ w' =>
        (∃ k < es.length, w.Failed faults (walEntries w.firstIndex images ++ es.take k) w') ∨
          w.Written (savedStates images) (walEntries w.firstIndex images ++ es) w' ∧
            ∃ id, (faults (.sync .all id)).isSome = true := by
  have hpos := length_pos_iff.mpr hne
  have hlog : w.nextIndex images < 2 ^ 64 := by
    obtain ⟨e, rest, rfl⟩ := exists_cons_of_ne_nil hne
    rw [← hes.head]
    exact (hfits e mem_cons_self).index
  unfold writeBatch
  rw [ends_bind]
  refine (ends_getCurrentSegmentForAppend_first hsized h hlog).mono ?_ ?_
  swap
  · exact fun _ w' hfailed => Or.inl ⟨0, hpos, by rwa [take_zero, append_nil]⟩
  rintro id w' ⟨before, im, buffered, hfills, -, hid, rfl⟩
  rw [ends_bind]
  refine (ends_appendEntries hsized hes hfits htorn
    ⟨before, im, buffered, hfills, fun hnil => absurd hnil hne, hid, rfl⟩).mono ?_
    fun _ w' => Or.inl
  rintro - w' ⟨id', before', im', buffered', hfills', hstops, -, rfl⟩
  rw [ends_bind]
  refine (ends_flush hfills'.laid hfills'.waits _).mono ?_
    fun _ _ hfailed => Or.inl ⟨0, hpos, hfailed.2⟩
  rintro - w' rfl
  have hwritten : w.Written (savedStates images) (walEntries w.firstIndex images ++ es)
      (w.withLog (before' ++ [im'.extend (entryRecords buffered')]) []) := by
    have hflush := hfills'.flush
    refine ⟨spare, _, hflush.laid, forall_mem_append.mpr ⟨fun b hb => ?_,
      forall_mem_singleton.mpr ?_⟩, (append_nil _).symm.trans hflush.log, hflush.saved, rfl⟩
    · exact hflush.laid.stops b (by rwa [dropLast_concat])
    · by_cases hnil : buffered' = []
      · subst hnil
        rw [entryRecords_nil, extend_nil]
        exact hstops rfl
      · exact (hfills'.laid.extend hfills'.waits hnil).2
  rw [ends_bind, ends_get]
  split
  · rw [ends_onManager]
    refine (ends_syncAll _).mono ?_ ?_
    · rintro - m rfl
      exact hwritten
    · rintro - m ⟨rfl, hfault⟩
      exact Or.inr ⟨hwritten, hfault⟩
  · exact hwritten

end Lawful

end Wal

end Raftpp
