import Raftpp.Wal.Wal

/-!
# Opening a write-ahead log

`WAL::Open`: the metadata file is loaded, the segment files are opened, and the
segments are replayed in order.  A segment is cut where no valid record follows;
the entries that the metadata has not compacted must continue each other.

Opening reads files that are there and does not fail on them: the calls of this
module have no faults.
-/

namespace Raftpp

/-- What is left of a log when its process ends. -/
structure WalDirectory where
  files : ListMap ℕ Bytes := []
  metadata : Option WalMetadata := none
  snapshot : Option Snapshot := none

/-- The directory of a log. -/
def Wal.directory (w : Wal) : WalDirectory where
  files := w.manager.files
  metadata := w.metadataFile
  snapshot := w.snapshotFile

namespace Wal

variable [WalCodec]

/-- What a replay builds up. -/
structure Replay where
  index : WalIndex
  hardState : HardState

/-- An entry of a record: it is skipped below `firstIndex`, and must continue the log. -/
def replayEntry (what : String) (firstIndex : ℕ) (info : IndexEntry) (e : Entry) (st : Replay) :
    Result Replay :=
  if e.index ≥ firstIndex then
    let expectedIndex := if st.index.entries = [] then firstIndex else st.index.lastIndex + 1
    if e.index ≠ expectedIndex then
      .error (.fatal ("WAL recovery found non-continuous " ++ what ++ ": expected " ++
        toString expectedIndex ++ ", got " ++ toString e.index))
    else .ok { st with index := st.index.insert e.index { info with term := e.term } }
  else .ok st

/-- The entries of a batch record; an entry that cannot be decoded is skipped. -/
def replayBatch (firstIndex : ℕ) (info : IndexEntry) : ℕ → Bytes → Replay → Result Replay
  | 0, _, st => .ok st
  | fuel + 1, payload, st =>
      if payload.length < 4 then .ok st
      else
        let length := leNat (payload.take 4)
        let rest := payload.drop 4
        if rest.length < length then .ok st
        else
          match WalCodec.entryOfBytes (payloadWords (rest.take length)) with
          | none => replayBatch firstIndex info fuel (rest.drop length) st
          | some e => do
              let st ← replayEntry "batch entry" firstIndex info e st
              replayBatch firstIndex info fuel (rest.drop length) st

/-- The record of a hard state replaces one of an older or the same term. -/
def replayHardState (payload : Bytes) (st : Replay) : Replay :=
  match WalCodec.hardStateOfBytes (payloadWords payload) with
  | none => st
  | some hs => if hs.term ≥ st.hardState.term then { st with hardState := hs } else st

/-- A valid record; a record of an unknown type is skipped. -/
def replayRecord (firstIndex : ℕ) (info : IndexEntry) (type : ℕ) (payload : Bytes)
    (st : Replay) : Result Replay :=
  if type = RecordType.number .entry then
    match WalCodec.entryOfBytes (payloadWords payload) with
    | none => .ok st
    | some e => replayEntry "entry" firstIndex info e st
  else if type = RecordType.number .entryBatch then
    replayBatch firstIndex info payload.length payload st
  else if type = RecordType.number .hardState then .ok (replayHardState payload st)
  else .ok st

/-- The record at the beginning of some bytes, with its size, unless the replay stops there. -/
def nextRecord (bytes : Bytes) : Option (ℕ × ℕ × Bytes) :=
  if bytes.length < RecordHeader.size then none
  else
    let header := RecordHeader.deserialize bytes
    if header.length = 0 ∧ header.type = 0 then none
    else
      let total := header.totalSize
      if bytes.length < total then none
      else (parseRecord (bytes.take total)).map fun record => (total, record)

/-- The loop of `ReplaySegment` over the bytes behind `offset`.  Besides the replay it returns
the offset where the segment is to be cut. -/
def replayLoop (firstIndex segmentId : ℕ) :
    ℕ → ℕ → Bytes → Replay → Result (Replay × Option ℕ)
  | 0, offset, _, st => .ok (st, some offset)
  | fuel + 1, offset, bytes, st =>
      if bytes = [] then .ok (st, none)
      else
        match nextRecord bytes with
        | none => .ok (st, some offset)
        | some (total, type, payload) => do
            let st ← replayRecord firstIndex
              { segmentId, offset, length := total, term := 0 } type payload st
            replayLoop firstIndex segmentId fuel (offset + total) (bytes.drop total) st

/-- `ReplaySegment`.  A record has at least sixteen bytes, so the fuel is enough. -/
def replaySegment (firstIndex : ℕ) (s : Segment) (m : SegmentManager) (st : Replay) :
    Result (SegmentManager × Replay) := do
  let bytes := ((m.bytesOf s).take s.writeOffset).drop SegmentHeader.size
  let (st, cut) ← replayLoop firstIndex s.segmentId (bytes.length + 1) SegmentHeader.size bytes st
  match cut with
  | none => .ok (m, st)
  | some offset =>
      .ok ({ m.modifySegment s.segmentId fun s => { s with writeOffset := offset } with
        files := m.files.modify s.path fun file => truncateBytes file offset }, st)

/-- Replay the segments of a list, each found by its first index. -/
def replaySegments (firstIndex : ℕ) :
    List Segment → SegmentManager → Replay → Result (SegmentManager × Replay)
  | [], m, st => .ok (m, st)
  | info :: infos, m, st =>
      match m.getSegmentForIndex info.firstIndex with
      | none => replaySegments firstIndex infos m st
      | some s => do
          let (m, st) ← replaySegment firstIndex s m st
          replaySegments firstIndex infos m st

/-- `Recover`, up to its last check. -/
def replayLog (config : WalConfig) (dir : WalDirectory) : Result Wal := do
  let metadata := dir.metadata.getD {}
  let manager := SegmentManager.openSegments Faults.none { files := dir.files }
    (SegmentManager.scanned dir.files)
  let hardState :=
    if metadata.snapshotIndex > 0 then
      raiseHardState metadata.hardState metadata.snapshotIndex metadata.snapshotTerm
    else metadata.hardState
  let (manager, st) ← replaySegments metadata.firstIndex manager.segments manager
    { index := WalIndex.setFirstIndex {} metadata.firstIndex, hardState }
  .ok { config, manager, metadataFile := some metadata, snapshotFile := dir.snapshot
        index := st.index, hardState := st.hardState, confState := metadata.confState
        peerAddresses := metadata.peerAddresses, firstIndex := metadata.firstIndex
        snapshotIndex := metadata.snapshotIndex, snapshotTerm := metadata.snapshotTerm }

/-- `WAL::Open`. -/
def openLog (config : WalConfig) (dir : WalDirectory) : Result Wal := do
  let w ← replayLog config dir
  if w.lastIndex < w.hardState.commit then
    .error (.fatal ("WAL inconsistent: last_index " ++ toString w.lastIndex ++
      " < committed " ++ toString w.hardState.commit))
  else .ok w

end Wal

end Raftpp
