import Raftpp.Wal.Index
import Raftpp.Wal.Segment

/-!
# The write-ahead log

`WAL` of `wal.cc`: what it keeps in memory, its operations and its reads.  The
metadata file and the snapshot file are replaced by a rename, so each holds what the
last completed replacement wrote; the model keeps the decoded contents.

An operation is a computation that may fail.  Where the source goes on after a
failure that it logs, the computation is run with `ignoring`.
-/

namespace Raftpp

open SegmentManager

structure PeerAddress where
  id : ℕ := 0
  addr : Bytes := []
  deriving DecidableEq

/-- `WALMetadata`. -/
structure WalMetadata where
  hardState : HardState := {}
  confState : ConfState := {}
  peerAddresses : List PeerAddress := []
  firstIndex : ℕ := 1
  snapshotIndex : ℕ := 0
  snapshotTerm : ℕ := 0
  deriving DecidableEq

structure PendingEntry where
  index : ℕ
  term : ℕ
  offsetInBuffer : ℕ
  recordLength : ℕ
  deriving DecidableEq

/-- `WAL`, with the files of its directory.  `writeBuffer` is the part of the buffer in use. -/
structure Wal where
  config : WalConfig
  manager : SegmentManager := {}
  metadataFile : Option WalMetadata := none
  snapshotFile : Option Snapshot := none
  index : WalIndex := {}
  hardState : HardState := {}
  confState : ConfState := {}
  peerAddresses : List PeerAddress := []
  firstIndex : ℕ := 1
  snapshotIndex : ℕ := 0
  snapshotTerm : ℕ := 0
  writeBuffer : Bytes := []
  pendingEntries : List PendingEntry := []

abbrev WalM := EStateM RaftError Wal

namespace Wal

variable (w : Wal)

/-- A computation of the segment manager. -/
def onManager {α : Type} (m : SegmentM α) : WalM α :=
  zoom Wal.manager (fun manager w => { w with manager }) m

/-! ## Reads -/

/-- `LastIndex`. -/
def lastIndex (w : Wal) : ℕ := if w.index.entries = [] then w.snapshotIndex else w.index.lastIndex

/-- `Term`. -/
def term (w : Wal) (index : ℕ) : Result ℕ :=
  if index = w.snapshotIndex ∧ w.snapshotIndex > 0 then .ok w.snapshotTerm
  else if index < w.firstIndex then .error (.storage .compacted)
  else
    match w.index.term index with
    | none => .error (.storage .unavailable)
    | some term => .ok term

/-- `LoadSnapshot`. -/
def loadSnapshot : Result Snapshot :=
  if w.snapshotIndex = 0 then .error (.storage .snapshotTemporarilyUnavailable)
  else
    match w.snapshotFile with
    | none => .error (.storageOther "failed to open snapshot: No such file or directory")
    | some snapshot =>
        if snapshot.metadata.index ≠ w.snapshotIndex ∨
            snapshot.metadata.term ≠ w.snapshotTerm then
          .error (.storageOther ("snapshot file metadata mismatch: file=(" ++
            toString snapshot.metadata.index ++ "," ++ toString snapshot.metadata.term ++
            ") wal=(" ++ toString w.snapshotIndex ++ "," ++ toString w.snapshotTerm ++ ")"))
        else .ok snapshot

section Codec

variable [WalCodec]

/-- The whole words of a payload, which is what the decoder is given. -/
def payloadWords (payload : Bytes) : Bytes := payload.take (8 * (payload.length / 8))

/-- One entry of `ReadEntries`, with the size of its payload. -/
def readEntry (index : ℕ) : Result (Entry × ℕ) :=
  match w.index.lookup index with
  | none => .error (.storage .unavailable)
  | some info =>
      match w.manager.getSegmentForIndex index with
      | none => .error (.storage .unavailable)
      | some segment => do
          let data ← w.manager.read segment info.offset info.length
          match parseRecord data with
          | none => .error (.storage .corruptEntryRecord)
          | some (_, payload) =>
              match WalCodec.entryOfBytes (payloadWords payload) with
              | none => .error (.storage .entryParseError)
              | some entry => .ok (entry, payload.length)

/-- The loop of `ReadEntries`: it stops behind the entry that reaches the limit. -/
def readLoop (w : Wal) (maxSize : Option ℕ) : ℕ → ℕ → ℕ → Result (List Entry)
  | 0, _, _ => .ok []
  | count + 1, index, total => do
      let (entry, size) ← w.readEntry index
      let total := total + size
      if maxSize.any fun max => decide (total ≥ max) then .ok [entry]
      else do
        let rest ← readLoop w maxSize count (index + 1) total
        .ok (entry :: rest)

/-- `ReadEntries`. -/
def readEntries (low high : ℕ) (maxSize : Option ℕ) : Result (List Entry) :=
  if low < w.firstIndex then .error (.storage .compacted)
  else if low > w.lastIndex + 1 then .error (.storage .unavailable)
  else
    let high := min high (w.lastIndex + 1)
    if low ≥ high then .ok [] else w.readLoop maxSize (high - low) low 0

end Codec

/-! ## Writing entries -/

section Append

variable (faults : Faults) (e : Entry)

/-- Add the entries whose records have been written from `start` on. -/
def insertPending (segmentId start : ℕ) : List PendingEntry → WalIndex → WalIndex
  | [], index => index
  | pending :: rest, index =>
      insertPending segmentId start rest (index.insert pending.index
        { segmentId, offset := start + pending.offsetInBuffer, length := pending.recordLength
          term := pending.term })

/-- `FlushWriteBuffer`. -/
def flushWriteBuffer : WalM Unit := do
  let w ← get
  if w.writeBuffer = [] then pure ()
  else
    let segment ← onManager (getCurrentSegment faults w.config w.firstIndex)
    onManager (appendTo faults .flush segment w.writeBuffer)
    modify fun w =>
      { w with
        index := insertPending segment.segmentId segment.writeOffset w.pendingEntries w.index
        pendingEntries := []
        writeBuffer := [] }

/-- The segment a pointer points to. -/
def segment (id : ℕ) : WalM Segment := do
  match (← get).manager.find id with
  | some s => pure s
  | none => throw (.storage .currentSegmentNotFound)

/-- `MaybeRollSegmentForAppend`, which returns the segment to go on with. -/
def maybeRollSegmentForAppend (firstIndex id : ℕ) : WalM ℕ := do
  let s ← segment id
  let config := (← get).config
  if s.isFull config.segmentSize then
    flushWriteBuffer faults
    let s ← onManager (rollToNewSegment faults config firstIndex)
    pure s.segmentId
  else pure id

/-- `GetCurrentSegmentForAppend`. -/
def getCurrentSegmentForAppend (firstIndexHint : ℕ) : WalM ℕ := do
  let s ← onManager
    (getCurrentSegment faults (← get).config firstIndexHint)
  maybeRollSegmentForAppend faults firstIndexHint s.segmentId

/-- `ShouldFlushBuffer`. -/
def shouldFlushBuffer (s : Segment) : Bool :=
  decide (w.writeBuffer.length ≥ w.config.writeBufferSize) ||
    decide (w.writeBuffer.length ≥ w.config.segmentSize - s.writeOffset)

/-- `FlushWriteBufferIfNeeded`. -/
def flushWriteBufferIfNeeded : WalM Unit := do
  let w ← get
  let s ← onManager (getCurrentSegment faults w.config w.firstIndex)
  if w.shouldFlushBuffer s then flushWriteBuffer faults else pure ()

/-- `TruncateSuffixFrom`. -/
def truncateSuffixFrom (index : ℕ) : WalM Unit := do
  match (← get).index.lookup index with
  | none => throw (.fatal ("cannot truncate WAL suffix at missing index " ++ toString index))
  | some info =>
      match (← get).manager.getSegmentForIndex index with
      | none =>
          throw (.fatal ("cannot truncate WAL suffix at index " ++ toString index ++
            ": segment not found"))
      | some s =>
          if s.segmentId ≠ info.segmentId then
            throw (.fatal ("cannot truncate WAL suffix at index " ++ toString index ++
              ": segment not found"))
          else
            onManager (cutSegments faults s info.offset)
            modify fun w => { w with index := w.index.truncateFrom index }

variable [WalCodec]

/-- The record of an entry. -/
def entryRecord : Bytes := buildRecord .entry (WalCodec.entryBytes e)

/-- A record that does not fit into the write buffer is written at once. -/
def appendDirect : WalM ℕ := do
  flushWriteBuffer faults
  let id ← getCurrentSegmentForAppend faults e.index
  let s ← segment id
  onManager (appendTo faults (.direct e.index) s (entryRecord e))
  modify fun w =>
    { w with
      index := w.index.insert e.index
        { segmentId := s.segmentId, offset := s.writeOffset
          length := (entryRecord e).length % 2 ^ 32, term := e.term } }
  pure id

/-- Make space for a record in the write buffer. -/
def makeSpace (size : ℕ) : WalM Unit := do
  let w ← get
  if w.writeBuffer.length + size > w.config.writeBufferSize then flushWriteBuffer faults

/-- Copy the record of an entry to the write buffer. -/
def bufferEntry : Wal :=
  { w with
    writeBuffer := w.writeBuffer ++ entryRecord e
    pendingEntries := w.pendingEntries ++
      [{ index := e.index, term := e.term
         offsetInBuffer := w.writeBuffer.length % 2 ^ 32
         recordLength := (entryRecord e).length % 2 ^ 32 }] }

/-- Other records wait in the write buffer. -/
def appendBuffered : WalM Unit := do
  makeSpace faults (entryRecord e).length
  modify fun w => w.bufferEntry e
  flushWriteBufferIfNeeded faults

/-- The loop of `Append`. -/
def appendEntries : ℕ → List Entry → WalM Unit
  | _, [] => pure ()
  | id, e :: es => do
      let id ← maybeRollSegmentForAppend faults e.index id
      if (entryRecord e).length > (← get).config.writeBufferSize then
        let id ← appendDirect faults e
        appendEntries id es
      else
        appendBuffered faults e
        appendEntries id es

/-- Make room for a batch that starts at `first`. -/
def makeRoom (first : ℕ) : WalM Unit := do
  let w ← get
  let expectedIndex := w.lastIndex + 1
  if first = expectedIndex then pure ()
  else if first < expectedIndex ∧ first ≥ w.firstIndex then truncateSuffixFrom faults first
  else
    throw (.fatal ("non-continuous entries: expected " ++ toString expectedIndex ++ ", got " ++
      toString first))

/-- Write a batch that starts at `first`. -/
def writeBatch (first : ℕ) (entries : List Entry) : WalM Unit := do
  let id ← getCurrentSegmentForAppend faults first
  appendEntries faults id entries
  flushWriteBuffer faults
  if (← get).config.syncOnWrite then onManager (syncAll faults)

/-- `Append`. -/
def append : List Entry → WalM Unit
  | [] => pure ()
  | e :: es => do
      makeRoom faults e.index
      writeBatch faults e.index (e :: es)

end Append

/-! ## Metadata -/

section Metadata

variable (faults : Faults) (snapshot : Snapshot)

/-- `CreateMetadata`. -/
def createMetadata : WalMetadata where
  hardState := w.hardState
  confState := w.confState
  peerAddresses := w.peerAddresses
  firstIndex := w.firstIndex
  snapshotIndex := w.snapshotIndex
  snapshotTerm := w.snapshotTerm

/-- `MetadataStore::Save`; a failed sync of the directory is not noticed. -/
def saveMetadata (metadata : WalMetadata) : WalM Unit := do
  check (faults (.metadata .openFile)) "failed to create temp metadata: "
  check (faults (.metadata .write)) "failed to write temp metadata: "
  check (faults (.metadata .sync)) "failed to sync temp metadata: "
  check (faults (.metadata .rename)) "failed to rename metadata: "
  modify fun w => { w with metadataFile := some metadata }

/-- `SaveHardState`. -/
def saveHardState [WalCodec] (hs : HardState) : WalM Unit := do
  modify fun w => { w with hardState := hs }
  flushWriteBuffer faults
  let id ← getCurrentSegmentForAppend faults (← get).firstIndex
  let s ← segment id
  onManager (appendTo faults .hardState s
    (buildRecord .hardState (WalCodec.hardStateBytes hs)))
  saveMetadata faults (← get).createMetadata
  if (← get).config.syncOnWrite then onManager (syncAll faults)

/-- `SaveConfState`. -/
def saveConfState (cs : ConfState) : WalM Unit := do
  modify fun w => { w with confState := cs }
  saveMetadata faults (← get).createMetadata

/-- `SavePeerAddresses`. -/
def savePeerAddresses (peerAddresses : List PeerAddress) : WalM Unit := do
  modify fun w => { w with peerAddresses }
  saveMetadata faults (← get).createMetadata

/-- Give the first peer with an id another address, or add the peer. -/
def upsertPeer (id : ℕ) (addr : Bytes) : List PeerAddress → List PeerAddress
  | [] => [{ id, addr }]
  | peer :: peers =>
      if peer.id = id then { peer with addr } :: peers else peer :: upsertPeer id addr peers

/-- `UpsertPeerAddress`. -/
def upsertPeerAddress (id : ℕ) (addr : Bytes) : WalM Unit := do
  modify fun w => { w with peerAddresses := upsertPeer id addr w.peerAddresses }
  saveMetadata faults (← get).createMetadata

/-- `RemovePeerAddress`. -/
def removePeerAddress (id : ℕ) : WalM Unit := do
  modify fun w => { w with peerAddresses := w.peerAddresses.filter fun peer => peer.id ≠ id }
  saveMetadata faults (← get).createMetadata

/-! ## Compaction and snapshots -/

/-- Some index from `firstIndex` to `last` lies in a segment. -/
def hasEntries (last : ℕ) (s : Segment) : Bool :=
  (List.range' w.firstIndex (last + 1 - w.firstIndex)).any fun i =>
    (w.index.lookup i).any fun info => decide (info.segmentId = s.segmentId)

/-- Remove some segments; a failure is only logged. -/
def removeLogged : List ℕ → WalM Unit
  | [] => pure ()
  | id :: ids => do
      ignoring (onManager (removeSegment faults id))
      removeLogged ids

/-- `Compact`. -/
def compact (compactIndex : ℕ) : WalM Unit := do
  let w ← get
  if compactIndex ≤ w.firstIndex then pure ()
  else
    let last := w.lastIndex
    if compactIndex > last then
      throw (.fatal ("compact index " ++ toString compactIndex ++ " > last index " ++
        toString last))
    modify fun w =>
      { w with firstIndex := compactIndex, index := w.index.truncateBefore compactIndex }
    let w ← get
    let toRemove := (w.manager.segments.filter fun s =>
      decide (s.firstIndex < compactIndex) && !w.hasEntries last s).map Segment.segmentId
    saveMetadata faults w.createMetadata
    removeLogged faults toRemove

/-- `PersistSnapshotFile`. -/
def persistSnapshotFile : WalM Unit := do
  check (faults (.snapshot .createDirectories)) "failed to create snapshot directory: "
  check (faults (.snapshot .openFile)) "failed to create snapshot temp file: "
  check (faults (.snapshot .write)) "failed to write snapshot: "
  check (faults (.snapshot .sync)) "failed to sync snapshot temp file: "
  check (faults (.snapshot .close)) "failed to close snapshot temp file: "
  check (faults (.snapshot .rename)) "failed to install snapshot file: "
  modify fun w => { w with snapshotFile := some snapshot }
  check (faults (.snapshot .openDirectory)) "failed to open snapshot directory for sync: "
  check (faults (.snapshot .syncDirectory)) "failed to sync snapshot directory: "

/-- The hard state after a snapshot. -/
def raiseHardState (hs : HardState) (index term : ℕ) : HardState :=
  { hs with term := max hs.term term, commit := max hs.commit index }

/-- The metadata of a log that starts after a snapshot. -/
def snapshotMetadata : WalMetadata where
  hardState := raiseHardState w.hardState snapshot.metadata.index snapshot.metadata.term
  confState := snapshot.metadata.confState
  peerAddresses := w.peerAddresses
  firstIndex := snapshot.metadata.index + 1
  snapshotIndex := snapshot.metadata.index
  snapshotTerm := snapshot.metadata.term

/-- `ApplySnapshot`. -/
def applySnapshot : WalM Unit := do
  let w ← get
  if snapshot.metadata.index ≤ w.snapshotIndex then throw (.storage .snapshotOutOfDate)
  persistSnapshotFile faults snapshot
  let metadata := w.snapshotMetadata snapshot
  saveMetadata faults metadata
  modify fun w =>
    { w with
      snapshotIndex := metadata.snapshotIndex
      snapshotTerm := metadata.snapshotTerm
      hardState := metadata.hardState
      confState := metadata.confState
      firstIndex := metadata.firstIndex
      index := w.index.clear.setFirstIndex metadata.firstIndex }
  ignoring (onManager (removeAllSegments faults))
  onManager (initializeSegments faults)

/-- `ApplyLocalSnapshot`. -/
def applyLocalSnapshot : WalM Unit := do
  let w ← get
  if snapshot.metadata.index ≤ w.snapshotIndex then throw (.storage .snapshotOutOfDate)
  let last := w.lastIndex
  if snapshot.metadata.index > last then
    throw (.fatal ("local snapshot index " ++ toString snapshot.metadata.index ++
      " > last index " ++ toString last))
  persistSnapshotFile faults snapshot
  let metadata := w.snapshotMetadata snapshot
  saveMetadata faults metadata
  modify fun w =>
    { w with
      snapshotIndex := metadata.snapshotIndex
      snapshotTerm := metadata.snapshotTerm
      hardState := metadata.hardState
      confState := metadata.confState
      firstIndex := metadata.firstIndex
      index := (w.index.truncateBefore metadata.firstIndex).setFirstIndex metadata.firstIndex }
  let w ← get
  removeLogged faults ((w.manager.segments.filter fun s =>
    !w.hasEntries last s).map Segment.segmentId)

/-- `Sync`. -/
def sync : WalM Unit := do
  flushWriteBuffer faults
  onManager (syncAll faults)

end Metadata

end Wal

end Raftpp
