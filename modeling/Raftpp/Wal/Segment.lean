import Raftpp.Lib.Assoc
import Raftpp.Lib.Decimal
import Raftpp.Lib.Fallible
import Raftpp.Wal.Record
import Mathlib.Data.List.Sort

/-!
# Segments

`Segment` and `SegmentManager`: the segment files of a log and the open segments
that write to them.  A file is named after the number of the segment, in at least six
digits, and a scan of the directory finds only names that have exactly six.  Up to
there the names are read back and sorted as the numbers are.

Calls to the file system may fail.  Each is named by an `IoCall`, with the place in
the source it is made from where that matters, and `Faults` says which calls fail
and how: a failed write may have transferred some bytes.  Removing a temporary file
or a file that was being made does not fail.
-/

namespace Raftpp

/-! ## Calls to the file system -/

/-- The call of `Segment::Append`; a direct write is of the entry with an index. -/
inductive WriteSite
  | flush
  | direct (index : ℕ)
  | hardState
  deriving DecidableEq

/-- The call of `Segment::Sync`. -/
inductive SyncSite
  | truncate
  | roll
  | all
  deriving DecidableEq

/-- The calls of `MetadataStore::AtomicWrite` whose failure it reports. -/
inductive MetadataStep
  | openFile
  | write
  | sync
  | rename
  deriving DecidableEq

/-- The calls of `PersistSnapshotFile`. -/
inductive SnapshotStep
  | createDirectories
  | openFile
  | write
  | sync
  | close
  | rename
  | openDirectory
  | syncDirectory
  deriving DecidableEq

inductive IoCall
  | create (id firstIndex : ℕ)
  | preallocate (id : ℕ)
  | writeHeader (id firstIndex : ℕ)
  | stat (id firstIndex : ℕ)
  | write (site : WriteSite) (id offset : ℕ)
  | truncate (id offset : ℕ)
  | sync (site : SyncSite) (id : ℕ)
  | remove (id : ℕ)
  | scan
  | openSegment (id : ℕ)
  | metadata (step : MetadataStep)
  | snapshot (step : SnapshotStep)
  deriving DecidableEq

/-- How a call fails: the text of `errno`, and for a write the number of bytes transferred. -/
structure Fault where
  strerror : String := ""
  short : Bool := false
  transferred : ℕ := 0

/-- The calls that fail. -/
abbrev Faults := IoCall → Option Fault

/-- No call fails. -/
def Faults.none : Faults := fun _ => Option.none

/-- One call fails. -/
def Faults.only (call : IoCall) (fault : Fault) : Faults := fun c =>
  if c = call then some fault else Option.none

/-- A call whose failure ends the computation with a message. -/
def check {σ : Type} (fault : Option Fault) (message : String) : EStateM RaftError σ Unit :=
  match fault with
  | some fault => throw (.storageOther (message ++ fault.strerror))
  | none => pure ()

theorem ends_check {σ : Type} {fault : Option Fault} {message : String} {s : σ}
    {Q : Unit → σ → Prop} {E : RaftError → σ → Prop} :
    Ends (check fault message) s Q E ↔ (fault = none → Q () s) ∧
      ∀ f, fault = some f → E (.storageOther (message ++ f.strerror)) s := by
  cases fault with
  | none => exact ⟨fun h => ⟨fun _ => h, nofun⟩, fun h => h.1 rfl⟩
  | some f => exact ⟨fun h => ⟨nofun, fun g hg => Option.some.inj hg ▸ h⟩, fun h => h.2 f rfl⟩

/-! ## Segments -/

/-- `WALConfig`, without what selects an implementation of the calls. -/
structure WalConfig where
  dir : String := ""
  segmentSize : ℕ := 64 * 1024 * 1024
  writeBufferSize : ℕ := 4 * 1024 * 1024
  syncOnWrite : Bool := true
  preallocate : Bool := true
  deriving DecidableEq

/-- `Segment`; `path` is the number in the name of its file. -/
structure Segment where
  path : ℕ
  segmentId : ℕ
  firstIndex : ℕ
  writeOffset : ℕ
  deriving DecidableEq

namespace Segment

/-- `IsFull`. -/
def isFull (s : Segment) (threshold : ℕ) : Bool := decide (s.writeOffset ≥ threshold)

/-- `MakeSegmentFilename`. -/
def makeSegmentFilename (id : ℕ) : String :=
  let digits := toString id
  "segment-" ++ String.ofList (List.replicate (6 - digits.length) '0') ++ digits ++ ".wal"

/-- `ParseSegmentId`: the whole name is `segment-`, six digits and `.wal`. -/
def parseSegmentId (filename : String) : Option ℕ :=
  let digits := (filename.toList.drop 8).take 6
  if filename.toList = "segment-".toList ++ (digits ++ ".wal".toList) ∧ digits.length = 6 ∧
      digits.all Char.isDigit then
    some (Nat.ofDigitChars 10 digits 0)
  else none

end Segment

/-- The bytes of a file after a write at an offset. -/
def pwriteBytes (file : Bytes) (offset : ℕ) (data : Bytes) : Bytes :=
  (file ++ List.replicate (offset - file.length) 0).take offset ++
    (data ++ file.drop (offset + data.length))

/-- The bytes of a file after `ftruncate`. -/
def truncateBytes (file : Bytes) (size : ℕ) : Bytes :=
  (file ++ List.replicate (size - file.length) 0).take size

/-- `SegmentManager`, with the segment files of its directory. -/
structure SegmentManager where
  segments : List Segment := []
  currentSegmentId : ℕ := 0
  files : ListMap ℕ Bytes := []

abbrev SegmentM := EStateM RaftError SegmentManager

namespace SegmentManager

/-- An entry of the map of segments, by id. -/
def find (m : SegmentManager) (id : ℕ) : Option Segment :=
  m.segments.find? fun s => s.segmentId = id

/-- The bytes of a segment's file. -/
def bytesOf (m : SegmentManager) (s : Segment) : Bytes := (m.files.get s.path).getD []

/-- Bind a segment in the map, which is ordered by id. -/
def insertSegment (s : Segment) : List Segment → List Segment
  | [] => [s]
  | t :: ts =>
      if s.segmentId < t.segmentId then s :: t :: ts
      else if s.segmentId = t.segmentId then s :: ts
      else t :: insertSegment s ts

/-- Change a segment of the map. -/
def modifySegment (m : SegmentManager) (id : ℕ) (f : Segment → Segment) : SegmentManager :=
  { m with segments := m.segments.map fun s => if s.segmentId = id then f s else s }

section Io

variable (faults : Faults) (config : WalConfig)

/-- `SegmentIo::PWrite` and the rest of `Segment::Append`. -/
def appendTo (site : WriteSite) (s : Segment) (data : Bytes) : SegmentM Unit := do
  let write (bytes : Bytes) (m : SegmentManager) : SegmentManager :=
    { m with files := m.files.modify s.path fun file => pwriteBytes file s.writeOffset bytes }
  match faults (.write site s.segmentId s.writeOffset) with
  | some fault =>
      modify (write (data.take fault.transferred))
      if fault.short then
        throw (.storageOther ("short write: expected " ++ toString data.length ++ ", got " ++
          toString fault.transferred))
      else throw (.storageOther ("pwrite failed: " ++ fault.strerror))
  | none =>
      modify (write data)
      modify fun m => m.modifySegment s.segmentId fun s =>
        { s with writeOffset := s.writeOffset + data.length }

/-- `Segment::Read`. -/
def read (m : SegmentManager) (s : Segment) (offset length : ℕ) : Result Bytes :=
  let data := ((m.bytesOf s).drop offset).take length
  if data.length < length then
    .error (.storageOther ("short read: expected " ++ toString length ++ ", got " ++
      toString data.length))
  else .ok data

/-- `Segment::Sync`. -/
def sync (site : SyncSite) (s : Segment) : SegmentM Unit :=
  check (faults (.sync site s.segmentId)) "sync failed: "

/-- `Segment::Truncate`. -/
def truncate (s : Segment) (offset : ℕ) : SegmentM Unit := do
  check (faults (.truncate s.segmentId offset)) "failed to truncate segment: "
  modify fun m =>
    { m with files := m.files.modify s.path fun file => truncateBytes file offset }
  modify fun m => m.modifySegment s.segmentId fun s => { s with writeOffset := offset }

/-- The bytes of a new segment file. -/
def newFile (id firstIndex : ℕ) : Bytes :=
  let blank := if config.preallocate ∧ (faults (.preallocate id)).isNone then
    List.replicate config.segmentSize 0 else []
  pwriteBytes blank 0 (SegmentHeader.serialize { segmentId := id, firstIndex })

/-- `Segment::Create`. -/
def create (id firstIndex : ℕ) : SegmentM Segment := do
  let path := config.dir ++ "/" ++ Segment.makeSegmentFilename id
  let taken := if (← get).files.contains id then some { strerror := "File exists" } else none
  check taken ("failed to create segment " ++ path ++ ": ")
  check (faults (.create id firstIndex)) ("failed to create segment " ++ path ++ ": ")
  check (faults (.writeHeader id firstIndex)) "failed to write segment header: "
  check (faults (.stat id firstIndex)) "failed to stat segment: "
  modify fun m => { m with files := m.files ++ [(id, newFile faults config id firstIndex)] }
  pure { path := id, segmentId := id, firstIndex, writeOffset := SegmentHeader.size }

/-- Sync the current segment before another one is made. -/
def syncCurrent : SegmentM Unit := do
  match (← get).find (← get).currentSegmentId with
  | some s => sync faults .roll s
  | none => pure ()

/-- `RollToNewSegment`: a failed sync of the old segment is only logged. -/
def rollToNewSegment (firstIndex : ℕ) : SegmentM Segment := do
  ignoring (syncCurrent faults)
  let segment ← create faults config ((← get).currentSegmentId + 1) firstIndex
  modify fun m =>
    { m with
      segments := insertSegment segment m.segments
      currentSegmentId := m.currentSegmentId + 1 }
  pure segment

/-- `GetCurrentSegment`. -/
def getCurrentSegment (firstIndexHint : ℕ) : SegmentM Segment := do
  if (← get).segments = [] then rollToNewSegment faults config firstIndexHint
  else
    match (← get).find (← get).currentSegmentId with
    | some s => pure s
    | none => throw (.storage .currentSegmentNotFound)

/-- `GetSegmentForIndex`: the last segment before the first one that starts beyond the index. -/
def segmentForIndex (index : ℕ) : Option Segment → List Segment → Option Segment
  | result, [] => result
  | result, s :: ss => if s.firstIndex ≤ index then segmentForIndex index (some s) ss else result

def getSegmentForIndex (m : SegmentManager) (index : ℕ) : Option Segment :=
  segmentForIndex index none m.segments

/-- `RemoveSegment`: the segment is gone from the map even if its file stays. -/
def removeSegment (id : ℕ) : SegmentM Unit := do
  match (← get).find id with
  | none => pure ()
  | some s =>
      modify fun m => { m with segments := m.segments.filter fun s => s.segmentId ≠ id }
      modify fun m =>
        { m with
          currentSegmentId :=
            if m.currentSegmentId = id then (m.segments.getLast?.map Segment.segmentId).getD 0
            else m.currentSegmentId }
      check (faults (.remove id)) "failed to remove segment file: "
      modify fun m => { m with files := m.files.erase s.path }

/-- Remove some segments, up to the first failure. -/
def removeSegments : List ℕ → SegmentM Unit
  | [] => pure ()
  | id :: ids => do
      removeSegment faults id
      removeSegments ids

/-- Cut a segment and remove those behind it, for `TruncateSuffixFrom`. -/
def cutSegments (s : Segment) (offset : ℕ) : SegmentM Unit := do
  truncate faults s offset
  sync faults .truncate s
  let later := (← get).segments.filter fun t => decide (t.segmentId > s.segmentId)
  removeSegments faults (later.map Segment.segmentId)

/-- `RemoveAllSegments`. -/
def removeAllSegments : SegmentM Unit := do
  removeSegments faults ((← get).segments.map Segment.segmentId)

/-- Sync some segments, up to the first failure. -/
def syncSegments : List Segment → SegmentM Unit
  | [] => pure ()
  | s :: ss => do
      sync faults .all s
      syncSegments ss

/-- `SyncAll`. -/
def syncAll : SegmentM Unit := do syncSegments faults (← get).segments

/-- `Segment::Open`, where `none` is a failure that is only logged. -/
def openSegment (path : ℕ) (file : Bytes) : Option Segment :=
  if (faults (.openSegment path)).isSome ∨ file.length < SegmentHeader.size then none
  else
    let header := SegmentHeader.deserialize file
    if header.isValid then
      some { path, segmentId := header.segmentId, firstIndex := header.firstIndex
             writeOffset := file.length }
    else none

/-- Open the files of the directory one after the other. -/
def openSegments (m : SegmentManager) : List (ℕ × Bytes) → SegmentManager
  | [] => m
  | (path, file) :: files =>
      match openSegment faults path file with
      | none => openSegments m files
      | some s =>
          openSegments
            { m with
              segments := insertSegment s m.segments
              currentSegmentId := max m.currentSegmentId s.segmentId } files

/-- The files that `Initialize` opens: those whose name is parsed, sorted by their names. -/
def scanned (files : ListMap ℕ Bytes) : List (ℕ × Bytes) :=
  (files.filter fun f =>
    (Segment.parseSegmentId (Segment.makeSegmentFilename f.1)).isSome).insertionSort
    fun f g => ¬Segment.makeSegmentFilename g.1 < Segment.makeSegmentFilename f.1

/-- `Initialize`.  The loop over the directory does not run if the directory cannot be opened, and
the error is looked at only in the loop. -/
def initializeSegments : SegmentM Unit :=
  modify fun m =>
    if (faults .scan).isSome then m
    else openSegments faults m (scanned m.files)

end Io

end SegmentManager

/-! ## Names -/

open List

namespace Segment

theorem makeSegmentFilename_toList (id : ℕ) :
    (makeSegmentFilename id).toList = "segment-".toList ++ (padded 6 id ++ ".wal".toList) := by
  simp [makeSegmentFilename, padded, ← String.length_toList]

theorem parseSegmentId_make {id : ℕ} (h : id < 1000000) :
    parseSegmentId (makeSegmentFilename id) = some id := by
  have hlength : (padded 6 id).length = 6 := (padded_length_iff (by decide)).mpr h
  have hdigits : ((makeSegmentFilename id).toList.drop 8).take 6 = padded 6 id := by
    rw [makeSegmentFilename_toList]
    exact take_drop_append (by decide) hlength
  unfold parseSegmentId
  rw [hdigits, if_pos ⟨makeSegmentFilename_toList id, hlength,
      all_eq_true.mpr fun _ => padded_isDigit⟩, ofDigitChars_padded]

/-- A name that is found at all has six digits. -/
theorem lt_of_parseSegmentId {id : ℕ}
    (h : (parseSegmentId (makeSegmentFilename id)).isSome = true) : id < 1000000 := by
  unfold parseSegmentId at h
  dsimp only at h
  split at h
  next hmatch =>
      obtain ⟨hname, hlength, -⟩ := hmatch
      refine (padded_length_iff (by decide : 0 < 6)).mp ?_
      have hlengths := congrArg List.length hname
      rw [makeSegmentFilename_toList, length_append, length_append,
        length_append, ← makeSegmentFilename_toList, length_append, hlength] at hlengths
      omega
  next => exact absurd h Bool.false_ne_true

theorem parseSegmentId_make_iff (id : ℕ) :
    parseSegmentId (makeSegmentFilename id) = some id ↔ id < 1000000 :=
  ⟨fun h => lt_of_parseSegmentId (h ▸ rfl), parseSegmentId_make⟩

theorem parseSegmentId_isSome (id : ℕ) :
    (parseSegmentId (makeSegmentFilename id)).isSome = decide (id < 1000000) := by
  rw [Bool.eq_iff_iff, decide_eq_true_iff]
  exact ⟨lt_of_parseSegmentId, fun h => by rw [parseSegmentId_make h]; rfl⟩

/-- Names of six digits are in the order of the numbers. -/
theorem makeSegmentFilename_lt_iff {a b : ℕ} (ha : a < 1000000) (hb : b < 1000000) :
    makeSegmentFilename a < makeSegmentFilename b ↔ a < b := by
  have hlength : (padded 6 a).length = (padded 6 b).length :=
    ((padded_length_iff (by decide)).mpr ha).trans ((padded_length_iff (by decide)).mpr hb).symm
  rw [String.lt_iff, makeSegmentFilename_toList, makeSegmentFilename_toList,
    append_lt_append_left_iff, append_lt_append_right_iff hlength,
    padded_lt_iff (by decide) ha hb]

end Segment

namespace SegmentManager

open Segment

/-- The scan by names is the scan by numbers. -/
theorem scanned_eq (files : ListMap ℕ Bytes) :
    scanned files = (files.filter fun f => f.1 < 1000000).insertionSort fun f g => f.1 ≤ g.1 := by
  have hfilter : (files.filter fun f => (parseSegmentId (makeSegmentFilename f.1)).isSome) =
      files.filter fun f => f.1 < 1000000 :=
    filter_congr fun f _ => parseSegmentId_isSome f.1
  have hfound : ∀ f ∈ files.filter (fun f => f.1 < 1000000), f.1 < 1000000 := fun f hf =>
    of_decide_eq_true (mem_filter.mp hf).2
  rw [scanned, hfilter, ← map_id (List.insertionSort _ _), map_insertionSort
    (fun f g : ℕ × Bytes => ¬makeSegmentFilename g.1 < makeSegmentFilename f.1)
    (fun f g : ℕ × Bytes => f.1 ≤ g.1) id, map_id]
  intro f hf g hg
  rw [makeSegmentFilename_lt_iff (hfound g hg) (hfound f hf), not_lt]
  rfl

end SegmentManager

end Raftpp
