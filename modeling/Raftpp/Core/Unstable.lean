import Raftpp.Core.Storage

/-!
# The unstable part of the log

`Unstable` of `unstable_log.cc`: the entries, and possibly a snapshot, that the
application has not yet written to storage.  `entries[i]` has index
`i + offset`.
-/

namespace Raftpp

/-- `EntryApproximateSize`. -/
def entryApproximateSize (e : Entry) : ℕ :=
  e.data.length + e.context.length + 12

/-- `Unstable`. -/
structure Unstable where
  snapshot : Option Snapshot := none
  entries : List Entry := []
  entriesSize : ℕ := 0
  offset : ℕ
  deriving DecidableEq

namespace Unstable

variable (u : Unstable)

def maybeFirstIndex : Option ℕ :=
  u.snapshot.map fun snapshot => snapshot.metadata.index + 1

def maybeLastIndex : Option ℕ :=
  if u.entries = [] then
    u.snapshot.map fun snapshot => snapshot.metadata.index
  else
    some (u.offset + u.entries.length - 1)

def maybeTerm (idx : ℕ) : Option ℕ :=
  if idx < u.offset then
    match u.snapshot with
    | none => none
    | some snapshot =>
        if idx = snapshot.metadata.index then some snapshot.metadata.term else none
  else
    match u.maybeLastIndex with
    | none => none
    | some last =>
        if idx > last then none
        else u.entries[idx - u.offset]?.map Entry.term

/-- `StableEntries`.  The source declares `term` as a `uint32_t`, so the caller's
term is truncated before the comparison. -/
def stableEntries (index term : ℕ) : Option Unstable :=
  if u.snapshot.isSome then none
  else
    match u.entries.getLast? with
    | none => none
    | some entry =>
        if entry.index ≠ index ∨ entry.term ≠ term % 2 ^ 32 then none
        else some { u with offset := entry.index + 1, entries := [], entriesSize := 0 }

def restore (u : Unstable) (snapshot : Snapshot) : Unstable :=
  { u with
    entries := [], entriesSize := 0,
    offset := snapshot.metadata.index + 1, snapshot := some snapshot }

def mustCheckOutOfBounds (lo hi : ℕ) : Option Unit :=
  if lo ≤ hi ∧ u.offset ≤ lo ∧ hi ≤ u.offset + u.entries.length then some () else none

/-- The entries and offset kept by `TruncateAndAppend` before the new entries are added. -/
def truncate (after : ℕ) : Option Unstable :=
  if after = u.offset + u.entries.length then some u
  else if after ≤ u.offset then
    some { u with offset := after, entries := [], entriesSize := 0 }
  else do
    u.mustCheckOutOfBounds u.offset after
    let keepCount := after - u.offset
    let dropped := ((u.entries.drop keepCount).map entryApproximateSize).sum
    some { u with entries := u.entries.take keepCount, entriesSize := u.entriesSize - dropped }

/-- `TruncateAndAppend`.  Reading the front of an empty vector is undefined
behaviour in the source; every caller passes a nonempty one. -/
def truncateAndAppend (ents : List Entry) : Option Unstable :=
  match ents with
  | [] => none
  | first :: _ => do
      let u ← u.truncate first.index
      some
        { u with
          entries := u.entries ++ ents,
          entriesSize := u.entriesSize + (ents.map entryApproximateSize).sum }

def stableSnapshot (index : ℕ) : Option Unstable :=
  match u.snapshot with
  | none => none
  | some snapshot =>
      if snapshot.metadata.index ≠ index then none else some { u with snapshot := none }

def slice (lo hi : ℕ) : Option (List Entry) := do
  u.mustCheckOutOfBounds lo hi
  some ((u.entries.drop (lo - u.offset)).take (hi - lo))

end Unstable

end Raftpp
