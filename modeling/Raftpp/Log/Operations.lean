import Raftpp.Core.RaftLog

/-!
# What the operations of the log do

What an operation of `RaftLog` leaves when it returns, one lemma for each of those
that change the log.  Nothing is assumed of the storage or of the numbers of the
entries.
-/

namespace Raftpp

open Option

/-! ## The unstable part -/

namespace Unstable

variable {u u' : Unstable} {es : List Entry}

/-- The entries below `after` are kept; it must not lie beyond the end. -/
theorem truncate_eq (u : Unstable) (after : ℕ) : ∃ size, u.truncate after =
    if after ≤ u.offset + u.entries.length then
      some { u with
        offset := min after u.offset, entries := u.entries.take (after - u.offset)
        entriesSize := size }
    else none := by
  unfold truncate
  split
  next hend =>
    refine ⟨u.entriesSize, ?_⟩
    rw [if_pos hend.le, Nat.min_eq_right (by omega), List.take_of_length_le (by omega)]
  split
  next hbelow =>
    refine ⟨0, ?_⟩
    rw [if_pos (by omega), Nat.min_eq_left hbelow, Nat.sub_eq_zero_of_le hbelow, List.take_zero]
  next habove =>
    refine ⟨u.entriesSize -
      ((u.entries.drop (after - u.offset)).map entryApproximateSize).sum, ?_⟩
    rw [Nat.min_eq_right (by omega), mustCheckOutOfBounds]
    by_cases hend : after ≤ u.offset + u.entries.length
    · rw [if_pos ⟨by omega, le_rfl, hend⟩, if_pos hend]
      rfl
    · rw [if_neg fun h => hend h.2.2, if_neg hend]
      rfl

theorem truncateAndAppend_eq (u : Unstable) (first : Entry) (rest : List Entry) :
    ∃ size, u.truncateAndAppend (first :: rest) =
      if first.index ≤ u.offset + u.entries.length then
        some { u with
          offset := min first.index u.offset
          entries := u.entries.take (first.index - u.offset) ++ first :: rest
          entriesSize := size }
      else none := by
  obtain ⟨size, htruncate⟩ := u.truncate_eq first.index
  refine ⟨size + ((first :: rest).map entryApproximateSize).sum, ?_⟩
  rw [truncateAndAppend, htruncate]
  split <;> rfl

/-- The entries that `TruncateAndAppend` leaves. -/
theorem truncateAndAppend_some (h : u.truncateAndAppend es = some u') :
    ∃ first rest size, es = first :: rest ∧ first.index ≤ u.offset + u.entries.length ∧
      u' = { u with
        offset := min first.index u.offset
        entries := u.entries.take (first.index - u.offset) ++ es, entriesSize := size } := by
  cases es with
  | nil => cases h
  | cons first rest =>
      obtain ⟨size, heq⟩ := u.truncateAndAppend_eq first rest
      rw [heq] at h
      split at h
      next hle => exact ⟨first, rest, size, rfl, hle, (some.inj h).symm⟩
      · cases h

end Unstable

/-! ## The log -/

namespace RaftLog

variable {σ : Type} {es : List Entry} {term index : ℕ}

/-- Two logs over one store with one pending snapshot. -/
structure SameBase (l l' : RaftLog σ) : Prop where
  store : l'.store = l.store
  snapshot : l'.unstable.snapshot = l.unstable.snapshot

/-- What entries and commits leave alone, and the persisted index, which they may lower. -/
structure Keeps (l l' : RaftLog σ) : Prop extends SameBase l l' where
  applied : l'.applied = l.applied
  limit : l'.maxApplyUnpersistedLogLimit = l.maxApplyUnpersistedLogLimit
  persisted : l'.persisted ≤ l.persisted

variable {l l' l'' : RaftLog σ}

theorem SameBase.refl (l : RaftLog σ) : SameBase l l := ⟨rfl, rfl⟩

theorem Keeps.refl (l : RaftLog σ) : Keeps l l := ⟨.refl l, rfl, rfl, le_rfl⟩

theorem Keeps.trans (h : Keeps l l') (h' : Keeps l' l'') : Keeps l l'' where
  store := h'.store.trans h.store
  snapshot := h'.snapshot.trans h.snapshot
  applied := h'.applied.trans h.applied
  limit := h'.limit.trans h.limit
  persisted := h'.persisted.trans h.persisted

theorem maybePersistSnapshot_eq {updated : Bool}
    (h : l.maybePersistSnapshot index = some (l', updated)) :
    l' = l ∨ (l.persisted < index ∧ index < l.unstable.offset ∧
      l' = { l with persisted := index }) := by
  unfold maybePersistSnapshot at h
  split at h
  · cases h
    exact Or.inl rfl
  split at h
  · cases h
  split at h
  · cases h
  · cases h
    exact Or.inr ⟨by omega, by omega, rfl⟩

theorem restore_eq {snapshot : Snapshot} (h : l.restore snapshot = (l', .ok ())) :
    l.committed ≤ snapshot.metadata.index ∧
      l' = { l with
        persisted := if l.persisted > l.committed then l.committed else l.persisted
        committed := snapshot.metadata.index
        unstable := l.unstable.restore snapshot } := by
  unfold restore at h
  simp only at h
  split at h
  · cases h
  next hle =>
    cases h
    exact ⟨not_lt.mp hle, rfl⟩

theorem stableSnapshot_eq (h : l.stableSnapshot index = some l') :
    (∃ snapshot, l.unstable.snapshot = some snapshot) ∧
      l' = { l with unstable := { l.unstable with snapshot := none } } := by
  simp only [stableSnapshot, Unstable.stableSnapshot] at h
  obtain ⟨u, hu, h⟩ := of_bind h
  cases h
  split at hu
  · cases hu
  next snapshot hsnapshot =>
    split at hu <;> cases hu
    exact ⟨⟨snapshot, hsnapshot⟩, rfl⟩

/-- The last entry must be the one that has become stable, whose term is compared as a
`uint32_t`. -/
theorem stableEntries_eq (h : l.stableEntries index term = some l') :
    l.unstable.snapshot = none ∧ ∃ last, l.unstable.entries.getLast? = some last ∧
      last.index = index ∧ last.term = term % 2 ^ 32 ∧
      l' = { l with
        unstable := { l.unstable with offset := index + 1, entries := [], entriesSize := 0 } } := by
  simp only [stableEntries, Unstable.stableEntries] at h
  obtain ⟨u, hu, h⟩ := of_bind h
  cases h
  split at hu
  · cases hu
  next hnone =>
    split at hu
    · cases hu
    next last hlast =>
      split at hu <;> cases hu
      next hsame =>
        obtain ⟨hindex, hterm⟩ := not_or.mp hsame
        obtain rfl := not_not.mp hindex
        exact ⟨by simpa using hnone, last, hlast, rfl, not_not.mp hterm, rfl⟩

variable [Storage σ]

theorem maybePersist_eq (l : RaftLog σ) (index term : ℕ) :
    l.maybePersist index term = (l, false) ∨
      (l.persisted < index ∧ index < l.firstUpdateIndex ∧ Storage.term l.store index = .ok term ∧
        l.maybePersist index term = ({ l with persisted := index }, true)) := by
  unfold maybePersist
  split
  next h => exact Or.inr ⟨h.1, h.2.1, resultIs_iff.mp h.2.2, rfl⟩
  · exact Or.inl rfl

theorem commitTo_eq {i : ℕ} {result : Result Unit} (h : l.commitTo i = some (l', result)) :
    l' = l ∨ (l.committed < i ∧ (∃ last, l.lastIndex = some last ∧ i ≤ last) ∧
      l' = { l with committed := i }) := by
  unfold commitTo at h
  split at h
  · cases h
    exact Or.inl rfl
  next hlt =>
    obtain ⟨last, hlast, h⟩ := of_bind h
    split at h
    · cases h
      exact Or.inl rfl
    next hle =>
      cases h
      exact Or.inr ⟨not_le.mp hlt, ⟨last, hlast, not_lt.mp hle⟩, rfl⟩

theorem maybeCommit_eq {i term : ℕ} {committed : Bool}
    (h : l.maybeCommit i term = some (l', committed)) :
    l' = l ∨ (l.committed < i ∧ l.matchTerm i term = some true ∧
      (∃ last, l.lastIndex = some last ∧ i ≤ last) ∧ l' = { l with committed := i }) := by
  unfold maybeCommit at h
  split at h
  next hlt =>
    obtain ⟨t, hterm, h⟩ := of_bind h
    split at h
    next hmatch =>
      obtain ⟨⟨l₁, result⟩, hcommit, h⟩ := of_bind h
      cases h
      refine (commitTo_eq hcommit).imp_right fun hmoved => ⟨hmoved.1, ?_, hmoved.2⟩
      simp [matchTerm, hterm, hmatch]
    · cases h
      exact Or.inl rfl
  · cases h
    exact Or.inl rfl

/-- `Append` replaces the log from the first new entry on. -/
theorem append_cons (l : RaftLog σ) (first : Entry) (rest : List Entry) :
    l.append (first :: rest) = (l.unstable.truncateAndAppend (first :: rest)).map fun u =>
      ({ l with unstable := u, committed := min l.committed (wrappingSub first.index 1) },
        first.index + rest.length) := by
  have hreset : (if wrappingSub first.index 1 < l.committed
      then { l with committed := wrappingSub first.index 1 } else l) =
        { l with committed := min l.committed (wrappingSub first.index 1) } := by
    split
    next hlt => rw [Nat.min_eq_right hlt.le]
    next hle => rw [Nat.min_eq_left (not_lt.mp hle)]
  simp only [append, hreset]
  cases hu : l.unstable.truncateAndAppend (first :: rest) with
  | none => rfl
  | some u =>
      obtain ⟨e, es, size, hcons, hle, rfl⟩ := Unstable.truncateAndAppend_some hu
      cases hcons
      simp [lastIndex, Unstable.maybeLastIndex]
      omega

theorem append_eq (h : l.append es = some (l', index)) :
    es = [] ∧ l' = l ∨ ∃ first rest u, es = first :: rest ∧ index = first.index + rest.length ∧
      l.unstable.truncateAndAppend es = some u ∧
      l' = { l with unstable := u, committed := min l.committed (wrappingSub first.index 1) } := by
  cases es with
  | nil =>
      obtain ⟨last, -, h⟩ := of_bind h
      cases h
      exact Or.inl ⟨rfl, rfl⟩
  | cons first rest =>
      rw [append_cons] at h
      obtain ⟨u, hu, h⟩ := map_eq_some_iff.mp h
      cases h
      exact Or.inr ⟨first, rest, u, rfl, rfl, hu, rfl⟩

theorem append_lastIndex (h : l.append es = some (l', index)) : l'.lastIndex = some index := by
  cases es with
  | nil =>
      obtain ⟨last, hlast, h⟩ := of_bind h
      cases h
      exact hlast
  | cons first rest =>
      obtain ⟨u, -, h⟩ := of_bind h
      obtain ⟨last, hlast, h⟩ := of_bind h
      cases h
      exact hlast

theorem append_keeps (h : l.append es = some (l', index)) : Keeps l l' := by
  obtain ⟨-, rfl⟩ | ⟨first, rest, u, -, -, hu, rfl⟩ := append_eq h
  · exact .refl l'
  · obtain ⟨-, -, size, -, -, rfl⟩ := Unstable.truncateAndAppend_some hu
    exact ⟨⟨rfl, rfl⟩, rfl, rfl, le_rfl⟩

theorem append_persisted (h : l.append es = some (l', index)) : l'.persisted = l.persisted := by
  obtain ⟨-, rfl⟩ | ⟨first, rest, u, -, -, -, rfl⟩ := append_eq h <;> rfl

theorem commitTo_keeps {i : ℕ} {result : Result Unit} (h : l.commitTo i = some (l', result)) :
    Keeps l l' := by
  rcases commitTo_eq h with rfl | ⟨-, -, rfl⟩
  · exact .refl l'
  · exact ⟨⟨rfl, rfl⟩, rfl, rfl, le_rfl⟩

/-- `MaybeAppend` commits only, or puts the entries from a conflict on into the log and
commits. -/
theorem maybeAppend_eq {idx committed : ℕ} {result : Result MaybeAppendResult}
    (h : l.maybeAppend idx term committed es = some (l', result)) :
    l' = l ∨ (∃ i r, l.commitTo i = some (l', r)) ∨
      ∃ conflict toAppend l₁ last i r, l.committed < conflict ∧
        cloneFrom es (wrappingSub conflict (idx + 1)) = some toAppend ∧
        l.append toAppend = some (l₁, last) ∧
        ({ l₁ with persisted := min l₁.persisted (conflict - 1) } : RaftLog σ).commitTo i =
          some (l', r) := by
  unfold maybeAppend at h
  obtain ⟨matched, -, h⟩ := of_bind h
  split at h
  · obtain ⟨conflict, -, h⟩ := of_bind h
    split at h
    · obtain ⟨⟨l₁, r⟩, hcommit, h⟩ := of_bind h
      cases h
      exact Or.inr (Or.inl ⟨_, r, hcommit⟩)
    split at h
    · cases h
      exact Or.inl rfl
    next hlt =>
      obtain ⟨toAppend, hclone, h⟩ := of_bind h
      obtain ⟨⟨l₁, last⟩, happend, h⟩ := of_bind h
      obtain ⟨⟨l₂, r⟩, hcommit, h⟩ := of_bind h
      cases h
      exact Or.inr (Or.inr
        ⟨conflict, toAppend, l₁, last, _, r, not_le.mp hlt, hclone, happend, hcommit⟩)
  · cases h
    exact Or.inl rfl

theorem maybeAppend_keeps {idx committed : ℕ} {result : Result MaybeAppendResult}
    (h : l.maybeAppend idx term committed es = some (l', result)) : Keeps l l' := by
  rcases maybeAppend_eq h with
    rfl | ⟨i, r, hcommit⟩ | ⟨conflict, toAppend, l₁, last, i, r, -, -, happend, hcommit⟩
  · exact .refl l'
  · exact commitTo_keeps hcommit
  · have hlowered : Keeps l₁ { l₁ with persisted := min l₁.persisted (conflict - 1) } :=
      ⟨⟨rfl, rfl⟩, rfl, rfl, min_le_left _ _⟩
    exact ((append_keeps happend).trans hlowered).trans (commitTo_keeps hcommit)

end RaftLog

end Raftpp
