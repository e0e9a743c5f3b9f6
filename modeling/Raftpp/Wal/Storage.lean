import Raftpp.Core.Storage
import Raftpp.Wal.Recover

/-!
# The storage on a write-ahead log

`WALStorage`: a log, and the snapshot that it keeps in memory.  The calls of this
storage are those on a file system that does not fail.
-/

namespace Raftpp

/-- `WALStorage`. -/
structure WalStorage where
  wal : Wal
  snapshot : Snapshot := {}

namespace WalStorage

/-- A call of the log that the storage passes on. -/
def call (s : WalStorage) (m : WalM Unit) : WalStorage × Result Unit :=
  match m s.wal with
  | .ok _ wal => ({ s with wal }, .ok ())
  | .error e wal => ({ s with wal }, .error e)

/-- A call that installs a snapshot: the snapshot in memory follows only if it succeeds. -/
def install (s : WalStorage) (snapshot : Snapshot) (m : WalM Unit) : WalStorage × Result Unit :=
  match m s.wal with
  | .ok _ wal => ({ wal, snapshot }, .ok ())
  | .error e wal => ({ s with wal }, .error e)

/-- `Term`. -/
def term (s : WalStorage) (idx : ℕ) : Result ℕ :=
  if idx = s.snapshot.metadata.index ∧ s.snapshot.metadata.index > 0 then
    .ok s.snapshot.metadata.term
  else if idx = 0 ∧ s.snapshot.metadata.index = 0 then .ok 0
  else s.wal.term idx

/-- `GetSnapshot`. -/
def getSnapshot (s : WalStorage) (requestIndex : ℕ) : Result Snapshot :=
  if s.snapshot.metadata.index = 0 ∨ s.snapshot.metadata.index < requestIndex then
    .error (.storage .snapshotTemporarilyUnavailable)
  else .ok s.snapshot

instance [WalCodec] : WritableStorage WalStorage where
  initialState s := .ok ⟨s.wal.hardState, s.wal.confState⟩
  entries s low high maxSize _ := some (s.wal.readEntries low high maxSize)
  term := term
  firstIndex s := .ok s.wal.firstIndex
  lastIndex s := .ok s.wal.lastIndex
  getSnapshot s requestIndex _ := some (s.getSnapshot requestIndex)
  append s entries := s.call (Wal.append Faults.none entries)
  setHardState s hs := s.call (Wal.saveHardState Faults.none hs)
  setConfState s cs := s.call (Wal.saveConfState Faults.none cs)
  applySnapshot s snapshot := s.install snapshot (Wal.applySnapshot Faults.none snapshot)
  applyLocalSnapshot s snapshot := s.install snapshot (Wal.applyLocalSnapshot Faults.none snapshot)
  sync s := s.call (Wal.sync Faults.none)

/-- `WALStorage::Open`. -/
def openStorage [WalCodec] (config : WalConfig) (dir : WalDirectory) : Result WalStorage := do
  let wal ← Wal.openLog config dir
  if wal.snapshotIndex > 0 then do
    let snapshot ← wal.loadSnapshot
    .ok { wal, snapshot }
  else .ok { wal }

end WalStorage

end Raftpp
