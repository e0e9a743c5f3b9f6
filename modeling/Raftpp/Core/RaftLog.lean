import Raftpp.Core.Unstable

/-!
# The Raft log

`RaftLog` of `raft_log.cc`: the stored log, the unstable entries over it, and
the cursors `committed`, `persisted` and `applied`.  The storage is part of the
state, as the source holds a shared pointer to it.

Functions that can abort return an `Option`; a function that also returns a
`Result` keeps it inside.
-/

namespace Raftpp

/-- `RaftLog`. -/
structure RaftLog (σ : Type) where
  store : σ
  unstable : Unstable
  committed : ℕ
  persisted : ℕ
  applied : ℕ
  maxApplyUnpersistedLogLimit : ℕ

/-- `RaftLog::MaybeAppendResult`. -/
structure MaybeAppendResult where
  termMatched : Bool := false
  conflictIndex : ℕ := 0
  lastIndex : ℕ := 0
  deriving DecidableEq

/-- The comparison of a `Result<uint64_t>` with a value. -/
def resultIs (r : Result ℕ) (value : ℕ) : Bool :=
  match r with
  | .ok a => a = value
  | .error _ => false

@[simp] theorem resultIs_ok (a value : ℕ) : resultIs (.ok a) value = decide (a = value) := rfl

theorem resultIs_iff {r : Result ℕ} {value : ℕ} : resultIs r value = true ↔ r = .ok value := by
  cases r with
  | error e => simp [resultIs]
  | ok a => simp

/-- The difference of two `uint64_t`, which wraps below zero. -/
def wrappingSub (a b : ℕ) : ℕ := if b ≤ a then a - b else 2 ^ 64 - (b - a)

/-- Addition in `uint64_t`. -/
def wrappingAdd (a b : ℕ) : ℕ := (a + b) % 2 ^ 64

theorem wrappingAdd_le (a b : ℕ) : wrappingAdd a b ≤ a + b := Nat.mod_le _ _

theorem wrappingSub_of_le {a b : ℕ} (h : b ≤ a) : wrappingSub a b = a - b := if_pos h

namespace RaftLog

variable {σ : Type} [Storage σ] (l : RaftLog σ)

/-- The constructor. -/
def new (maxApplyUnpersistedLogLimit : ℕ) (store : σ) : Option (RaftLog σ) := do
  let firstIndex ← unwrap (Storage.firstIndex store)
  let lastIndex ← unwrap (Storage.lastIndex store)
  some
    { store
      unstable := { offset := lastIndex + 1 }
      committed := firstIndex - 1
      persisted := lastIndex
      applied := firstIndex - 1
      maxApplyUnpersistedLogLimit }

def lastIndex (l : RaftLog σ) : Option ℕ :=
  match l.unstable.maybeLastIndex with
  | some index => some index
  | none => unwrap (Storage.lastIndex l.store)

def firstIndex (l : RaftLog σ) : Option ℕ :=
  match l.unstable.maybeFirstIndex with
  | some index => some index
  | none => unwrap (Storage.firstIndex l.store)

/-- `Term`: zero outside of `[FirstIndex - 1, LastIndex]`. -/
def term (l : RaftLog σ) (idx : ℕ) : Option (Result ℕ) := do
  let firstIndex ← l.firstIndex
  if idx < firstIndex - 1 then some (.ok 0)
  else
    let lastIndex ← l.lastIndex
    if idx > lastIndex then some (.ok 0)
    else
      match l.unstable.maybeTerm idx with
      | some term => some (.ok term)
      | none =>
          match Storage.term l.store idx with
          | .ok term => some (.ok term)
          | .error (.storage .compacted) => some (.error (.storage .compacted))
          | .error (.storage .unavailable) => some (.error (.storage .unavailable))
          | .error _ => none

def lastTerm : Option ℕ := do
  let lastIndex ← l.lastIndex
  match ← l.term lastIndex with
  | .ok term => some term
  | .error (.storage .compacted) => some 0
  | .error _ => none

def matchTerm (idx term : ℕ) : Option Bool := do
  some (resultIs (← l.term idx) term)

/-- `FindConflict`: the index of the first entry that the log does not match, or zero. -/
def findConflict (l : RaftLog σ) : List Entry → Option ℕ
  | [] => some 0
  | e :: es => do
      if ← l.matchTerm e.index e.term then l.findConflict es else some e.index

/-- The limit below which `MaybePersist` accepts an index. -/
def firstUpdateIndex : ℕ :=
  match l.unstable.snapshot with
  | some snapshot => snapshot.metadata.index
  | none => l.unstable.offset

def maybePersist (index term : ℕ) : RaftLog σ × Bool :=
  if index > l.persisted ∧ index < l.firstUpdateIndex ∧
      resultIs (Storage.term l.store index) term then
    ({ l with persisted := index }, true)
  else (l, false)

def maybePersistSnapshot (index : ℕ) : Option (RaftLog σ × Bool) :=
  if index ≤ l.persisted then some (l, false)
  else if index > l.committed then none
  else if index ≥ l.unstable.offset then none
  else some ({ l with persisted := index }, true)

def commitTo (toCommit : ℕ) : Option (RaftLog σ × Result Unit) :=
  if l.committed ≥ toCommit then some (l, .ok ())
  else do
    let lastIndex ← l.lastIndex
    if lastIndex < toCommit then
      some (l, .error (.fatal
        s!"to_commit {toCommit} is out of range [last_index {lastIndex}]"))
    else some ({ l with committed := toCommit }, .ok ())

def maybeCommit (maxIndex term : ℕ) : Option (RaftLog σ × Bool) := do
  if maxIndex > l.committed then
    if resultIs (← l.term maxIndex) term then
      let (l, _) ← l.commitTo maxIndex
      some (l, true)
    else some (l, false)
  else some (l, false)

/-- `Append`.  Entries below `committed` move `committed` back, as the source does. -/
def append (entries : List Entry) : Option (RaftLog σ × ℕ) := do
  match entries with
  | [] => some (l, ← l.lastIndex)
  | first :: _ =>
      let after := wrappingSub first.index 1
      let l := if after < l.committed then { l with committed := after } else l
      let unstable ← l.unstable.truncateAndAppend entries
      let l := { l with unstable }
      some (l, ← l.lastIndex)

/-- `max_size()` of a vector of entries, whose elements are pointers. -/
def maxEntries : ℕ := 2 ^ 60 - 1

/-- The entries from `start` on, as `MaybeAppend` clones them.  It reserves
`entries.size() - start` places first; with `start` past the end the difference wraps, and a
vector that cannot have so many places throws. -/
def cloneFrom (entries : List Entry) (start : ℕ) : Option (List Entry) :=
  if start ≤ entries.length ∨ wrappingSub entries.length start ≤ maxEntries then
    some (entries.drop start)
  else none

def maybeAppend (idx term committed : ℕ) (entries : List Entry) :
    Option (RaftLog σ × Result MaybeAppendResult) := do
  if ← l.matchTerm idx term then
    let conflictIdx ← l.findConflict entries
    let lastNewIdx := wrappingAdd idx entries.length
    if conflictIdx = 0 then
      let (l, _) ← l.commitTo (min committed lastNewIdx)
      some (l, .ok ⟨true, conflictIdx, lastNewIdx⟩)
    else if conflictIdx ≤ l.committed then
      some (l, .error (.fatal
        s!"entry {conflictIdx} conflict with committed entry {l.committed}"))
    else
      let toAppend ← cloneFrom entries (wrappingSub conflictIdx (idx + 1))
      let (l, _) ← l.append toAppend
      let l := { l with persisted := min l.persisted (conflictIdx - 1) }
      let (l, _) ← l.commitTo (min committed lastNewIdx)
      some (l, .ok ⟨true, conflictIdx, lastNewIdx⟩)
  else some (l, .ok ⟨false, 0, 0⟩)

def mustCheckOutOfBounds (low high : ℕ) : Option (Result Unit) :=
  if low > high then some (.error (.fatal s!"invalid slice {low} > {high}"))
  else do
    let firstIndex ← l.firstIndex
    if low < firstIndex then some (.error (.storage .compacted))
    else
      let lastIndex ← l.lastIndex
      let length := lastIndex + 1 - firstIndex
      if high > firstIndex + length then
        some (.error (.fatal
          s!"slice[{low},{high}] out of bound[{firstIndex},{lastIndex}]"))
      else some (.ok ())

section Reads

variable [Codec]

/-- The unstable tail that `Slice` adds to the stored entries. -/
def sliceUnstable (low high : ℕ) (maxSize : Option ℕ) (entries : List Entry) :
    Option (Result (List Entry)) :=
  if high > l.unstable.offset then do
    let unstable ← l.unstable.slice (max low l.unstable.offset) high
    some (.ok (limitSize (entries ++ unstable) maxSize))
  else some (.ok (limitSize entries maxSize))

def slice (low high : ℕ) (maxSize : Option ℕ) (context : GetEntriesContext) :
    Option (Result (List Entry)) := do
  match ← l.mustCheckOutOfBounds low high with
  | .error e => some (.error e)
  | .ok () =>
      if low = high then some (.ok [])
      else if low < l.unstable.offset then
        let unstableHigh := min high l.unstable.offset
        match ← Storage.entries l.store low unstableHigh maxSize context with
        | .ok entries =>
            if entries.length < unstableHigh - low then some (.ok entries)
            else l.sliceUnstable low high maxSize entries
        | .error (.storage .compacted) => some (.error (.storage .compacted))
        | .error (.storage .logTemporarilyUnavailable) =>
            some (.error (.storage .logTemporarilyUnavailable))
        | .error _ => none
      else l.sliceUnstable low high maxSize []

def getEntries (idx : ℕ) (maxSize : Option ℕ) (context : GetEntriesContext) :
    Option (Result (List Entry)) := do
  let last ← l.lastIndex
  if idx > last then some (.ok []) else l.slice idx (last + 1) maxSize context

/-- `Scan`, for a callback that only decides whether some page satisfies `found`.  The
callback stops the scan at the first page that does; `fuel` bounds the number of pages. -/
def scan (l : RaftLog σ) (pageSize : ℕ) (context : GetEntriesContext)
    (found : List Entry → Bool) (high : ℕ) : ℕ → ℕ → Option (Result Bool)
  | 0, _ => some (.ok false)
  | fuel + 1, low =>
      if low < high then do
        match ← l.slice low high (some pageSize) context with
        | .error e => some (.error e)
        | .ok ents =>
            if ents = [] then
              some (.error (.storageOther s!"got 0 entries in [{low}, {high})"))
            else if found ents then some (.ok true)
            else l.scan pageSize context found high fuel (low + ents.length)
      else some (.ok false)

/-- `Scan`, for any callback: `scanFn` takes the state the callback has captured and returns
it as the call leaves it, with whether to go on.  Without fuel the loop has not returned. -/
def scanWith {β : Type} (l : RaftLog σ) (pageSize : ℕ) (context : GetEntriesContext)
    (scanFn : β → List Entry → β × Bool) (high : ℕ) : ℕ → ℕ → β → Option (Result Unit × β)
  | 0, _, _ => none
  | fuel + 1, low, state =>
      if low < high then do
        match ← l.slice low high (some pageSize) context with
        | .error e => some (.error e, state)
        | .ok ents =>
            if ents = [] then
              some (.error (.storageOther s!"got 0 entries in [{low}, {high})"), state)
            else
              let next := scanFn state ents
              if next.2 then
                l.scanWith pageSize context scanFn high fuel (low + ents.length) next.1
              else some (.ok (), next.1)
      else some (.ok (), state)

end Reads

def appliedTo (idx : ℕ) : Option (RaftLog σ) :=
  if idx = 0 then some l
  else if idx > l.committed ∨ idx < l.applied then none
  else some { l with applied := idx }

/-- The loop of `FindConflictByTerm`.  The index is a `uint64_t`: decremented below zero it
wraps to a value above the last index, where `Term` is zero and the loop stops. -/
def findConflictByTermLoop (l : RaftLog σ) (term : ℕ) : ℕ → Option (ℕ × Option ℕ)
  | 0 => do
      match ← l.term 0 with
      | .ok t => if t > term then some (2 ^ 64 - 1, some 0) else some (0, some t)
      | .error _ => some (0, none)
  | conflictIndex + 1 => do
      match ← l.term (conflictIndex + 1) with
      | .ok t =>
          if t > term then l.findConflictByTermLoop term conflictIndex
          else some (conflictIndex + 1, some t)
      | .error _ => some (conflictIndex + 1, none)

def findConflictByTerm (index term : ℕ) : Option (ℕ × Option ℕ) := do
  let lastIndex ← l.lastIndex
  if index > lastIndex then some (index, none) else l.findConflictByTermLoop term index

def getSnapshot (l : RaftLog σ) (requestIndex peer : ℕ) : Option (Result Snapshot) :=
  match l.unstable.snapshot with
  | some snapshot =>
      if snapshot.metadata.index ≥ requestIndex then some (.ok snapshot)
      else Storage.getSnapshot l.store requestIndex peer
  | none => Storage.getSnapshot l.store requestIndex peer

def commitInfo : Option (ℕ × ℕ) := do
  match ← l.term l.committed with
  | .ok term => some (l.committed, term)
  | .error _ => none

def isUpToDate (lastIndex term : ℕ) : Option Bool := do
  let ownTerm ← l.lastTerm
  if term > ownTerm then some true
  else if term = ownTerm then some (decide (lastIndex ≥ (← l.lastIndex)))
  else some false

def restore (l : RaftLog σ) (snapshot : Snapshot) : RaftLog σ × Result Unit :=
  let index := snapshot.metadata.index
  if index < l.committed then
    (l, .error (.fatal s!"index {index} < committed_ {l.committed}"))
  else
    ({ l with
        persisted := if l.persisted > l.committed then l.committed else l.persisted
        committed := index
        unstable := l.unstable.restore snapshot }, .ok ())

def appliedIndexUpperBound : ℕ :=
  min l.committed (l.persisted + l.maxApplyUnpersistedLogLimit)

def hasNextEntriesSince (sinceIdx : ℕ) : Option Bool := do
  let offset := max (sinceIdx + 1) (← l.firstIndex)
  some (decide (l.appliedIndexUpperBound + 1 > offset))

/-- `NextEntriesSince`: the committed entries after `sinceIdx` that may be applied. -/
def nextEntriesSince [Codec] (l : RaftLog σ) (sinceIdx : ℕ) (maxSize : Option ℕ) :
    Option (Option (List Entry)) := do
  let offset := max (sinceIdx + 1) (← l.firstIndex)
  let high := l.appliedIndexUpperBound + 1
  if high > offset then
    match ← l.slice offset high maxSize .genReady with
    | .ok entries => some (some entries)
    | .error _ => none
  else some none

def stableSnapshot (l : RaftLog σ) (index : ℕ) : Option (RaftLog σ) := do
  some { l with unstable := ← l.unstable.stableSnapshot index }

def stableEntries (l : RaftLog σ) (index term : ℕ) : Option (RaftLog σ) := do
  some { l with unstable := ← l.unstable.stableEntries index term }

end RaftLog

end Raftpp
