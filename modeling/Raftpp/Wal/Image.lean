import Raftpp.Log.Abstract
import Raftpp.Wal.Scan

/-!
# What the segment files hold

An `Image` is the meaning of a segment file: its records, and bytes behind them that
no record has been written over.  A list of images describes the segment files of a
log.  `located` lists the entries in them that are not compacted, each with the index
entry that leads to its record.

`Chain` is what lets a segment be found by an index: the ids and the first indexes of
the segments increase, and a segment holds the entries from its first index to the
first index of the next one.
-/

namespace Raftpp

open List SegmentManager

variable [WalCodec]

/-! ## Records -/

/-- A record that the log writes. -/
inductive LogRecord
  | entry (e : Entry)
  | hardState (hs : HardState)

namespace LogRecord

variable {r : LogRecord}

def type : LogRecord → RecordType
  | .entry _ => .entry
  | .hardState _ => .hardState

def payload : LogRecord → Bytes
  | .entry e => WalCodec.entryBytes e
  | .hardState hs => WalCodec.hardStateBytes hs

/-- The bytes of a record. -/
def bytes (r : LogRecord) : Bytes := buildRecord r.type r.payload

def size (r : LogRecord) : ℕ := r.bytes.length

/-- What the builder of a record is given. -/
def built (r : LogRecord) : BuiltRecord := ⟨r.type, r.payload⟩

/-- The numbers and blobs of a record fit. -/
def Fits : LogRecord → Prop
  | .entry e => e.Fits
  | .hardState hs => hs.Fits

variable [LawfulWalCodec]

theorem payload_lt (h : r.Fits) : r.payload.length < 2 ^ 31 := by
  cases r with
  | entry e => exact LawfulWalCodec.entryBytes_lt h
  | hardState hs => exact LawfulWalCodec.hardStateBytes_lt hs

theorem payload_words (r : LogRecord) : 8 ∣ r.payload.length := by
  cases r with
  | entry e => exact LawfulWalCodec.entryBytes_words e
  | hardState hs => exact LawfulWalCodec.hardStateBytes_words hs

theorem payloadWords_payload (r : LogRecord) : Wal.payloadWords r.payload = r.payload := by
  rw [Wal.payloadWords, Nat.mul_div_cancel' r.payload_words, take_length]

omit [LawfulWalCodec] in
theorem size_ge (r : LogRecord) : 16 ≤ r.size := r.built.size_ge

theorem size_lt (h : r.Fits) : r.size < 2 ^ 32 := by
  have hpayload := payload_lt h
  have hpadding := recordHeader_padding_lt r.type r.payload
  rw [size, bytes, buildRecord_length]
  omega

theorem size_words (h : r.Fits) : 8 ∣ r.size := buildRecord_words (size_lt h)

theorem parseRecord_bytes (h : r.Fits) : parseRecord r.bytes = some (r.type.number, r.payload) :=
  parseRecord_buildRecord (size_lt h)

end LogRecord

/-! ## Images -/

/-- The total size of some records. -/
def recordsSize (records : List LogRecord) : ℕ := (records.map LogRecord.size).sum

@[simp]
theorem recordsSize_nil : recordsSize [] = 0 := rfl

@[simp]
theorem recordsSize_cons (r : LogRecord) (rs : List LogRecord) :
    recordsSize (r :: rs) = r.size + recordsSize rs := by simp [recordsSize]

@[simp]
theorem recordsSize_append (rs rs' : List LogRecord) :
    recordsSize (rs ++ rs') = recordsSize rs + recordsSize rs' := by simp [recordsSize]

/-- Some records one after the other. -/
def recordsBytes (records : List LogRecord) : Bytes := records.flatMap LogRecord.bytes

@[simp]
theorem recordsBytes_nil : recordsBytes [] = [] := rfl

@[simp]
theorem recordsBytes_cons (r : LogRecord) (rs : List LogRecord) :
    recordsBytes (r :: rs) = r.bytes ++ recordsBytes rs := rfl

@[simp]
theorem recordsBytes_append (rs rs' : List LogRecord) :
    recordsBytes (rs ++ rs') = recordsBytes rs ++ recordsBytes rs' := by simp [recordsBytes]

@[simp]
theorem recordsBytes_length (records : List LogRecord) :
    (recordsBytes records).length = recordsSize records := by
  induction records with
  | nil => rfl
  | cons r rs ih =>
      rw [recordsBytes_cons, length_append, ih, recordsSize_cons, LogRecord.size]

theorem builtBytes_built (records : List LogRecord) :
    builtBytes (records.map LogRecord.built) = recordsBytes records :=
  flatMap_map LogRecord.built BuiltRecord.bytes records

/-- A segment file: its header, its records and what lies behind them. -/
structure Image where
  id : ℕ
  firstIndex : ℕ
  records : List LogRecord := []
  tail : Bytes := []

namespace Image

/-- Where the next record goes. -/
def size (im : Image) : ℕ := SegmentHeader.size + recordsSize im.records

/-- The bytes of its header. -/
def header (im : Image) : Bytes :=
  SegmentHeader.serialize { segmentId := im.id, firstIndex := im.firstIndex }

/-- The bytes of the file. -/
def file (im : Image) : Bytes := im.header ++ (recordsBytes im.records ++ im.tail)

/-- The open segment that writes to the file. -/
def segment (im : Image) : Segment where
  path := im.id
  segmentId := im.id
  firstIndex := im.firstIndex
  writeOffset := im.size

/-- The entries of an image. -/
def Has (im : Image) (e : Entry) : Prop := .entry e ∈ im.records

/-- An image by itself: its numbers fit, and its entries are from its first index on. -/
structure Sound (im : Image) : Prop where
  firstIndex : im.firstIndex < 2 ^ 64
  fits : ∀ r ∈ im.records, r.Fits
  entries : ∀ e, im.Has e → im.firstIndex ≤ e.index

/-- One image comes before another. -/
structure Before (im im' : Image) : Prop where
  id : im.id < im'.id
  firstIndex : im.firstIndex < im'.firstIndex
  entries : ∀ e, im.Has e → e.index < im'.firstIndex

omit [WalCodec] in
@[simp]
theorem header_length (im : Image) : im.header.length = SegmentHeader.size :=
  SegmentHeader.serialize_length _

theorem file_length (im : Image) : im.file.length = im.size + im.tail.length := by
  simp only [file, length_append, header_length, recordsBytes_length, size]
  omega

end Image

/-- Images in order. -/
structure Chain (images : List Image) : Prop where
  sound : ∀ im ∈ images, im.Sound
  ordered : images.Pairwise Image.Before

/-! ## Finding entries -/

/-- The index entry of a record at an offset of a segment. -/
def indexInfo (id offset : ℕ) (e : Entry) : IndexEntry where
  segmentId := id
  offset := offset
  length := (LogRecord.entry e).size
  term := e.term

/-- The entries from `first` on among records that start at an offset. -/
def locate (first id : ℕ) : ℕ → List LogRecord → List (IndexEntry × Entry)
  | _, [] => []
  | offset, .entry e :: rs =>
      if first ≤ e.index then
        (indexInfo id offset e, e) :: locate first id (offset + (LogRecord.entry e).size) rs
      else locate first id (offset + (LogRecord.entry e).size) rs
  | offset, .hardState hs :: rs =>
      locate first id (offset + (LogRecord.hardState hs).size) rs

/-- The entries from `first` on of an image. -/
def Image.located (first : ℕ) (im : Image) : List (IndexEntry × Entry) :=
  locate first im.id SegmentHeader.size im.records

/-- The entries from `first` on of some images. -/
def located (first : ℕ) (images : List Image) : List (IndexEntry × Entry) :=
  images.flatMap (Image.located first)

section Located

variable {first id : ℕ} {x : IndexEntry × Entry}

theorem locate_append (offset : ℕ) (rs rs' : List LogRecord) :
    locate first id offset (rs ++ rs') =
      locate first id offset rs ++ locate first id (offset + recordsSize rs) rs' := by
  induction rs generalizing offset with
  | nil => rfl
  | cons r rs ih =>
      cases r with
      | entry e =>
          simp only [cons_append, locate, ih, recordsSize_cons, Nat.add_assoc]
          split <;> rfl
      | hardState hs =>
          simp only [cons_append, locate, ih, recordsSize_cons, Nat.add_assoc]

@[simp]
theorem located_nil : located first [] = [] := rfl

@[simp]
theorem located_append (images images' : List Image) :
    located first (images ++ images') = located first images ++ located first images' := by
  simp [located]

@[simp]
theorem located_singleton (im : Image) : located first [im] = im.located first := by
  simp [located]

theorem located_cons (im : Image) (images : List Image) :
    located first (im :: images) = im.located first ++ located first images := rfl

/-- Where the record of a located entry is. -/
theorem locate_split {offset k : ℕ} {records : List LogRecord}
    (h : (locate first id offset records)[k]? = some x) :
    ∃ pre e post, records = pre ++ .entry e :: post ∧ first ≤ e.index ∧
      x = (indexInfo id (offset + recordsSize pre) e, e) ∧
      locate first id offset pre = (locate first id offset records).take k := by
  induction records generalizing offset k with
  | nil => simp [locate] at h
  | cons r rs ih =>
      -- a record that is not located is passed over
      have hpass : ∀ {r : LogRecord}, (∀ offset rs, locate first id offset (r :: rs) =
          locate first id (offset + r.size) rs) →
          (locate first id offset (r :: rs))[k]? = some x →
          ∃ pre e post, r :: rs = pre ++ .entry e :: post ∧ first ≤ e.index ∧
            x = (indexInfo id (offset + recordsSize pre) e, e) ∧
            locate first id offset pre = (locate first id offset (r :: rs)).take k := by
        intro r hskip h
        rw [hskip] at h
        obtain ⟨pre, e, post, rfl, hfirst, rfl, htake⟩ := ih h
        refine ⟨r :: pre, e, post, rfl, hfirst, ?_, ?_⟩
        · rw [recordsSize_cons, Nat.add_assoc]
        · rw [hskip, hskip, htake]
      cases r with
      | hardState hs => exact hpass (fun _ _ => rfl) h
      | entry e =>
          by_cases hfirst : first ≤ e.index
          · have hhere : ∀ offset rs, locate first id offset (.entry e :: rs) =
                (indexInfo id offset e, e) ::
                  locate first id (offset + (LogRecord.entry e).size) rs :=
              fun _ _ => if_pos hfirst
            rw [hhere] at h
            cases k with
            | zero =>
                obtain rfl : (indexInfo id offset e, e) = x := by simpa using h
                exact ⟨[], e, rs, rfl, hfirst, rfl, by simp [locate]⟩
            | succ k =>
                rw [getElem?_cons_succ] at h
                obtain ⟨pre, e', post, rfl, hfirst', rfl, htake⟩ := ih h
                refine ⟨.entry e :: pre, e', post, rfl, hfirst', ?_, ?_⟩
                · rw [recordsSize_cons, Nat.add_assoc]
                · rw [hhere, hhere, htake, take_succ_cons]
          · exact hpass (fun _ _ => if_neg hfirst) h

/-- The image and the records before the record of a located entry. -/
theorem located_split {k : ℕ} {images : List Image} (h : (located first images)[k]? = some x) :
    ∃ before im after pre e post, images = before ++ im :: after ∧
      im.records = pre ++ .entry e :: post ∧ first ≤ e.index ∧
      x = (indexInfo im.id (SegmentHeader.size + recordsSize pre) e, e) ∧
      located first before ++ locate first im.id SegmentHeader.size pre =
        (located first images).take k := by
  induction images generalizing k with
  | nil => simp at h
  | cons im images ih =>
      rw [located_cons] at h
      by_cases hk : k < (im.located first).length
      · rw [getElem?_append_left hk] at h
        obtain ⟨pre, e, post, hrecords, hfirst, rfl, htake⟩ := locate_split h
        refine ⟨[], im, images, pre, e, post, rfl, hrecords, hfirst, rfl, ?_⟩
        rw [located_nil, nil_append, htake, located_cons, take_append_of_le_length hk.le]
        rfl
      · rw [getElem?_append_right (by omega)] at h
        obtain ⟨before, im', after, pre, e, post, rfl, hrecords, hfirst, rfl, htake⟩ := ih h
        refine ⟨im :: before, im', after, pre, e, post, rfl, hrecords, hfirst, rfl, ?_⟩
        have hwhole : (im.located first).take k = im.located first :=
          take_of_length_le (by omega)
        rw [located_cons, append_assoc, htake, located_cons, take_append, hwhole]

end Located

/-! ## Finding segments and files -/

section Chain

variable {before after : List Image} {im : Image}

omit [WalCodec] in
theorem segmentForIndex_append {i : ℕ} {result : Option Segment} {ss ss' : List Segment}
    (h : ∀ s ∈ ss, s.firstIndex ≤ i) :
    segmentForIndex i result (ss ++ ss') =
      segmentForIndex i (ss.getLast?.or result) ss' := by
  induction ss generalizing result with
  | nil => simp
  | cons s ss ih =>
      rw [cons_append, segmentForIndex, if_pos (h s mem_cons_self),
        ih fun t ht => h t (mem_cons_of_mem _ ht)]
      cases ss with
      | nil => rfl
      | cons t ts =>
          rw [getLast?_cons_cons, getLast?_eq_some_getLast (cons_ne_nil t ts)]
          rfl

omit [WalCodec] in
theorem segmentForIndex_between {i : ℕ} {ss ss' : List Segment} {s : Segment}
    (hbefore : ∀ t ∈ ss, t.firstIndex ≤ i) (hs : s.firstIndex ≤ i)
    (hafter : ∀ t ∈ ss'.head?, i < t.firstIndex) :
    segmentForIndex i none (ss ++ s :: ss') = some s := by
  have hle : ∀ t ∈ ss ++ [s], t.firstIndex ≤ i := by
    intro t ht
    rcases mem_append.mp ht with hmem | hmem
    · exact hbefore t hmem
    · rw [mem_singleton.mp hmem]
      exact hs
  rw [show ss ++ s :: ss' = (ss ++ [s]) ++ ss' by simp, segmentForIndex_append hle]
  cases ss' with
  | nil => simp [segmentForIndex]
  | cons t ss' =>
      rw [segmentForIndex, if_neg (not_le.mpr (hafter t rfl))]
      simp

/-- The segment that an index between two first indexes leads to. -/
theorem Chain.segmentForIndex {i : ℕ} (h : Chain (before ++ im :: after))
    (hlow : im.firstIndex ≤ i) (hhigh : ∀ im' ∈ after.head?, i < im'.firstIndex) :
    segmentForIndex i none ((before ++ im :: after).map Image.segment) =
      some im.segment := by
  rw [map_append, map_cons]
  refine segmentForIndex_between (fun s hs => ?_) hlow fun s hs => ?_
  · obtain ⟨im', him', rfl⟩ := mem_map.mp hs
    have hlt := ((pairwise_append.mp h.ordered).2.2 im' him' im (by simp)).firstIndex
    exact hlt.le.trans hlow
  · rw [head?_map] at hs
    obtain ⟨im', him', rfl⟩ := Option.map_eq_some_iff.mp hs
    exact hhigh im' him'

/-- The bytes of an image are found under its number. -/
theorem get_file (h : (before ++ im :: after).Pairwise fun im im' => im.id < im'.id) :
    ListMap.get ((before ++ im :: after).map fun im => (im.id, im.file)) im.id =
      some im.file := by
  induction before with
  | nil => simp [ListMap.get_cons]
  | cons b before ih =>
      have hordered := pairwise_cons.mp h
      have hid := hordered.1 im (by simp)
      rw [cons_append, map_cons, ListMap.get_cons, if_neg hid.ne']
      exact ih hordered.2

theorem Chain.get_file (h : Chain (before ++ im :: after)) :
    ListMap.get ((before ++ im :: after).map fun im => (im.id, im.file)) im.id =
      some im.file :=
  Raftpp.get_file (h.ordered.imp Image.Before.id)

end Chain

end Raftpp
