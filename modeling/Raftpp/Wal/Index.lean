import Raftpp.Core.Types

/-!
# The index of a write-ahead log

`WALIndex`: where the record of each entry lies.  The entries are kept in a list
whose first element belongs to `firstIndex`; nothing in the list itself says which
index an element was inserted for.
-/

namespace Raftpp

/-- `IndexEntry`. -/
structure IndexEntry where
  segmentId : ℕ
  offset : ℕ
  length : ℕ
  term : ℕ
  deriving DecidableEq

/-- `WALIndex`. -/
structure WalIndex where
  firstIndex : ℕ := 1
  entries : List IndexEntry := []
  deriving DecidableEq

namespace WalIndex

/-- `last_index`. -/
def lastIndex (x : WalIndex) : ℕ :=
  if x.entries = [] then x.firstIndex - 1 else x.firstIndex + x.entries.length - 1

/-- `Insert`: an index that is already there is added once more. -/
def insert (x : WalIndex) (index : ℕ) (entry : IndexEntry) : WalIndex :=
  let firstIndex := if x.entries = [] then index else x.firstIndex
  let expectedIndex := firstIndex + x.entries.length
  if index ≠ expectedIndex ∧ (index < firstIndex ∨ index > expectedIndex) then
    { x with firstIndex }
  else { firstIndex, entries := x.entries ++ [entry] }

/-- `Lookup`. -/
def lookup (x : WalIndex) (index : ℕ) : Option IndexEntry :=
  if x.entries = [] ∨ index < x.firstIndex ∨ index > x.lastIndex then none
  else x.entries[index - x.firstIndex]?

/-- `Term`. -/
def term (x : WalIndex) (index : ℕ) : Option ℕ := (x.lookup index).map IndexEntry.term

/-- `TruncateFrom`. -/
def truncateFrom (x : WalIndex) (index : ℕ) : WalIndex :=
  if x.entries = [] ∨ index > x.lastIndex then x
  else if index ≤ x.firstIndex then { x with entries := [] }
  else { x with entries := x.entries.take (index - x.firstIndex) }

/-- `TruncateBefore`. -/
def truncateBefore (x : WalIndex) (index : ℕ) : WalIndex :=
  if x.entries = [] ∨ index ≤ x.firstIndex then x
  else if index > x.lastIndex + 1 then { firstIndex := index, entries := [] }
  else { firstIndex := index, entries := x.entries.drop (index - x.firstIndex) }

/-- `Clear`. -/
def clear (_ : WalIndex) : WalIndex := { firstIndex := 1, entries := [] }

/-- `SetFirstIndex`. -/
def setFirstIndex (x : WalIndex) (firstIndex : ℕ) : WalIndex := { x with firstIndex }

/-! ## An index that starts at a given entry -/

/-- The index holds these entries from `first` on; while it is empty it may have any first
index. -/
def Holds (x : WalIndex) (first : ℕ) (entries : List IndexEntry) : Prop :=
  x.entries = entries ∧ (entries ≠ [] → x.firstIndex = first)

variable {x : WalIndex} {first : ℕ} {entries : List IndexEntry}

theorem Holds.lastIndex (h : x.Holds first entries) (hne : entries ≠ []) :
    x.lastIndex + 1 = first + entries.length := by
  obtain ⟨rfl, hfirst⟩ := h
  have hpos := List.length_pos_iff.mpr hne
  rw [WalIndex.lastIndex, if_neg hne, hfirst hne]
  omega

theorem Holds.lookup (h : x.Holds first entries) {i : ℕ} (hi : first ≤ i) :
    x.lookup i = entries[i - first]? := by
  by_cases hne : entries = []
  · rw [WalIndex.lookup, h.1, if_pos (Or.inl hne), hne]
    rfl
  · have hlast := h.lastIndex hne
    obtain ⟨rfl, hfirst⟩ := h
    have hpos := List.length_pos_iff.mpr hne
    rw [WalIndex.lookup, hfirst hne]
    by_cases hbeyond : x.lastIndex < i
    · rw [if_pos (Or.inr (Or.inr hbeyond)), List.getElem?_eq_none (by omega)]
    · rw [if_neg (by simp only [hne, false_or]; omega)]

/-- The entry that follows is added. -/
theorem Holds.insert_next (h : x.Holds first entries) {entry : IndexEntry} :
    (x.insert (first + entries.length) entry).Holds first (entries ++ [entry]) := by
  obtain ⟨rfl, hfirst⟩ := h
  by_cases hne : x.entries = []
  · simp [Holds, WalIndex.insert, hne]
  · simp [Holds, WalIndex.insert, hne, hfirst hne]

/-- The same for an index that is known to start at `first` even while it is empty. -/
theorem insert_last {i : ℕ} {xs : List IndexEntry} (hi : i = first + xs.length)
    (entry : IndexEntry) :
    insert { firstIndex := first, entries := xs } i entry =
      { firstIndex := first, entries := xs ++ [entry] } := by
  subst hi
  cases xs with
  | nil => simp [WalIndex.insert]
  | cons x xs => simp [WalIndex.insert]

/-- An entry that is not new makes the index longer too. -/
theorem Holds.insert_again (h : x.Holds first entries) (entry : IndexEntry) {i : ℕ}
    (hfirst : first ≤ i) (hi : i ≤ first + entries.length) :
    (x.insert i entry).Holds first (entries ++ [entry]) := by
  by_cases hne : entries = []
  · subst hne
    obtain rfl : i = first := le_antisymm hi hfirst
    exact h.insert_next
  obtain ⟨rfl, hstart⟩ := h
  have hkeep : ¬(i ≠ first + x.entries.length ∧ (i < first ∨ i > first + x.entries.length)) := by
    omega
  simp only [Holds, WalIndex.insert, hne, if_false, hstart hne, hkeep, implies_true, and_self]

end WalIndex

end Raftpp
