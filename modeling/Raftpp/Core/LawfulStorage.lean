import Raftpp.Core.Storage

/-!
# Storages that keep what they accepted

A storage is seen through the data it holds (`Stable`): a hard state, a
configuration, the point up to which the log is compacted, and the entries after
it.  `LawfulStorage` says that the reads of a storage are about that data and
that a successful write changes it as the interface promises.  The laws about
the log are stated for a storage whose entries are numbered without a gap; those
about the hard state and the configuration always hold.

What only some storages promise stands apart: pages cut by `LimitSize`, answers to
every read, and snapshots that carry the stored configuration.
-/

namespace Raftpp

open WritableStorage

/-- The data a storage holds. -/
structure Stable where
  hardState : HardState := {}
  confState : ConfState := {}
  index : ℕ := 0
  term : ℕ := 0
  entries : List Entry := []
  deriving DecidableEq

namespace Stable

variable (s : Stable)

def lastIndex : ℕ := s.index + s.entries.length

/-- The term at an index, from the compaction point on. -/
def termAt (i : ℕ) : Option ℕ :=
  if i = s.index then some s.term
  else if s.index < i then s.entries[i - (s.index + 1)]?.map Entry.term
  else none

@[simp] theorem termAt_index (s : Stable) : s.termAt s.index = some s.term := by simp [termAt]

theorem termAt_of_gt {s : Stable} {i : ℕ} (h : s.index < i) :
    s.termAt i = s.entries[i - (s.index + 1)]?.map Entry.term := by
  simp [termAt, h, Nat.ne_of_gt h]

theorem termAt_of_lt {s : Stable} {i : ℕ} (h : i < s.index) : s.termAt i = none := by
  simp [termAt, Nat.ne_of_lt h, Nat.lt_asymm h]

/-- The entries in `[low, high)`. -/
def slice (low high : ℕ) : List Entry :=
  (s.entries.drop (low - (s.index + 1))).take (high - low)

/-- The entries are numbered from the compaction point on. -/
def Contiguous : Prop :=
  ∀ k e, s.entries[k]? = some e → e.index = s.index + 1 + k

/-- New entries replace those from their first index on. -/
def append : List Entry → Stable
  | [] => s
  | first :: rest =>
      { s with entries := s.entries.take (first.index - (s.index + 1)) ++ first :: rest }

end Stable

/-- The result of a write is a success. -/
abbrev Accepts {σ : Type} (write : σ × Result Unit) : Prop := write.2 = .ok ()

class LawfulStorage (σ : Type) [WritableStorage σ] [Codec] where
  view : σ → Stable
  initialState_eq : ∀ s, Storage.initialState s = .ok ⟨(view s).hardState, (view s).confState⟩
  firstIndex_eq : ∀ s, (view s).Contiguous → Storage.firstIndex s = .ok ((view s).index + 1)
  lastIndex_eq : ∀ s, (view s).Contiguous → Storage.lastIndex s = .ok (view s).lastIndex
  term_eq_ok : ∀ s i t, (view s).Contiguous →
    (Storage.term s i = .ok t ↔ (view s).termAt i = some t)
  append_state : ∀ s es, Accepts (append s es) →
    (view (append s es).1).hardState = (view s).hardState ∧
      (view (append s es).1).confState = (view s).confState
  append_log : ∀ s es, (view s).Contiguous → Accepts (append s es) →
    view (append s es).1 = (view s).append es ∧
      ∀ e, es.head? = some e → (view s).index < e.index ∧ e.index ≤ (view s).lastIndex + 1
  setHardState_eq : ∀ s hs, Accepts (setHardState s hs) →
    view (setHardState s hs).1 = { view s with hardState := hs }
  applySnapshot_eq : ∀ s snap, Accepts (applySnapshot s snap) →
    ∃ commit, snap.metadata.index ≤ commit ∧
      commit ≤ max (view s).hardState.commit snap.metadata.index ∧
      view (applySnapshot s snap).1 =
        { hardState :=
            { (view s).hardState with
              term := max (view s).hardState.term snap.metadata.term, commit }
          confState := snap.metadata.confState
          index := snap.metadata.index, term := snap.metadata.term, entries := [] }
  applyLocalSnapshot_state : ∀ s snap, Accepts (applyLocalSnapshot s snap) →
    (view (applyLocalSnapshot s snap).1).hardState =
      { (view s).hardState with
        term := max (view s).hardState.term snap.metadata.term
        commit := max (view s).hardState.commit snap.metadata.index } ∧
      (view (applyLocalSnapshot s snap).1).confState = snap.metadata.confState
  applyLocalSnapshot_log : ∀ s snap, (view s).Contiguous →
    snap.metadata.index ≤ (view s).lastIndex →
    Accepts (applyLocalSnapshot s snap) →
    (view s).index < snap.metadata.index ∧
      (view (applyLocalSnapshot s snap).1).index = snap.metadata.index ∧
      (view (applyLocalSnapshot s snap).1).term = snap.metadata.term ∧
      (view (applyLocalSnapshot s snap).1).entries =
        (view s).entries.drop (snap.metadata.index - (view s).index)

section

variable {σ : Type} [WritableStorage σ] [Codec] [LawfulStorage σ]

open LawfulStorage (view)

/-- In a context, `Entries` returns what `LimitSize` leaves of the entries asked for. -/
def ObeysLimitSize (s : σ) (ctx : GetEntriesContext) : Prop :=
  ∀ (low high : ℕ) (max : Option ℕ), (view s).index < low → low < high →
    high ≤ (view s).lastIndex + 1 →
    Storage.entries s low high max ctx = some (.ok (limitSize ((view s).slice low high) max))

/-- Reads inside the log are answered: with entries, or by asking to try again later. -/
def AnswersEntries (s : σ) : Prop :=
  ∀ (low high : ℕ) (max : Option ℕ) (ctx : GetEntriesContext),
    (view s).Contiguous → (view s).index < low → low < high → high ≤ (view s).lastIndex + 1 →
    (∃ es, Storage.entries s low high max ctx = some (.ok es)) ∨
      Storage.entries s low high max ctx = some (.error (.storage .logTemporarilyUnavailable))

variable (σ)

/-- A storage whose answers are pages by `LimitSize`. -/
class PagingStorage : Prop where
  entries_eq : ∀ (s : σ) low high max ctx es, (view s).Contiguous → (view s).index < low →
    low < high → high ≤ (view s).lastIndex + 1 →
    Storage.entries s low high max ctx = some (.ok es) →
    es = limitSize ((view s).slice low high) max

/-- A storage that answers every read inside its log, unless the read may be retried. -/
class ReliableStorage : Prop extends PagingStorage σ where
  entries_ok : ∀ (s : σ) (low high : ℕ) (max : Option ℕ) (ctx : GetEntriesContext),
    (view s).Contiguous → (view s).index < low → low < high → high ≤ (view s).lastIndex + 1 →
    ctx.canAsync = false → ∃ es, Storage.entries s low high max ctx = some (.ok es)

/-- A storage that also answers a leader who reads for a peer. -/
class AnsweringStorage : Prop extends ReliableStorage σ where
  entries_answer : ∀ s : σ, AnswersEntries s

/-- A storage whose snapshots carry the configuration that it holds. -/
class ConfStorage : Prop where
  getSnapshot_confState : ∀ (s : σ) request peer snap,
    Storage.getSnapshot s request peer = some (.ok snap) →
    snap.metadata.confState = (view s).confState

end

end Raftpp
