import Raftpp.Core.MemoryStorage
import Raftpp.Log.Operations
import Raftpp.Log.Represents

/-!
# The split of the log is invisible

The operations of `RaftLog` and the steps of a Ready cycle, run in any order on a
log over any storage that keeps what it accepted.  A Ready cycle writes the pending
snapshot and the unstable entries to the storage, marks them stable and reports
them as persisted; it changes what is stored where, and never the log.
-/

namespace Raftpp

open List Option
open LawfulStorage (view)

variable {s : LogSpec}

namespace RaftLog

variable {σ : Type} [WritableStorage σ] [Codec] [LawfulStorage σ]

variable {es : List Entry} {i : ℕ} {l l' : RaftLog σ} {result : Result Unit} {snapshot : Snapshot}

namespace Represents

variable {l : RaftLog σ} {a : AbstractLog}

/-! ## Replacing a suffix -/

/-- `TruncateAndAppend` replaces the log from the first new entry on.  It aborts when that would
leave a gap. -/
theorem truncateAndAppend (h : Represents l a) {c : ℕ} {u : Unstable} (hne : es ≠ [])
    (hes : NumberedFrom c es) (hc : a.index < c) (hrun : l.unstable.truncateAndAppend es = some u) :
    c ≤ a.lastIndex + 1 ∧ u.offset = min c l.unstable.offset ∧
      Represents { l with unstable := u } (a.replaceFrom c es) := by
  obtain ⟨first, rest, size, rfl, hfirst, rfl⟩ := Unstable.truncateAndAppend_some hrun
  obtain rfl : first.index = c := hes.head
  have hlt := h.lt_offset
  have hend := h.offset_add
  have hgap : first.index ≤ a.lastIndex + 1 := by omega
  have hlast := hgap
  unfold AbstractLog.lastIndex at hlast
  -- the kept part reaches exactly up to the first new entry
  have hkept : l.unstable.entries.take (first.index - l.unstable.offset) =
      (a.entries.drop (min first.index l.unstable.offset - (a.index + 1))).take
        (first.index - min first.index l.unstable.offset) := by
    rcases le_total first.index l.unstable.offset with hle | hle
    · simp [Nat.sub_eq_zero_of_le hle, min_eq_left hle]
    · rw [min_eq_right hle, h.entries]
  have htake : (a.entries.take (first.index - (a.index + 1))).length =
      first.index - (a.index + 1) := by
    rw [length_take]
    omega
  refine ⟨hgap, rfl, ?_⟩
  constructor
  case stored_contiguous => exact h.stored_contiguous
  case contiguous => exact h.contiguous.replaceFrom hc hgap hes
  case lt_offset =>
    simp only [AbstractLog.replaceFrom]
    omega
  case offset_add =>
    rw [AbstractLog.lastIndex_replaceFrom hc hgap]
    simp only [length_append, length_take]
    omega
  case entries =>
    simp only [AbstractLog.replaceFrom]
    rw [drop_append_of_le_length (by omega), drop_take, hkept]
    congr 2
    omega
  case pending =>
    intro snapshot hpending
    obtain ⟨hindex, hterm, hat⟩ := h.pending snapshot hpending
    exact ⟨hindex, hterm, by simp only; omega⟩
  case plain =>
    intro hnone
    obtain ⟨hindex, hterm, hsame⟩ := h.plain hnone
    refine ⟨hindex, hterm, ?_⟩
    have hshort := congrArg
      (fun es : List Entry => es.take (min first.index l.unstable.offset - (a.index + 1))) hsame
    simp only [take_take] at hshort
    rw [min_eq_left (by omega)] at hshort
    simp only [AbstractLog.replaceFrom]
    rw [take_append_of_le_length (by omega), take_take,
      show min (min first.index l.unstable.offset - (a.index + 1)) (first.index - (a.index + 1)) =
        min first.index l.unstable.offset - (a.index + 1) by omega]
    exact hshort
  case settled =>
    intro _ hempty
    exact absurd hempty (by simp)

/-- Only the storage and the unstable part matter for what a log represents. -/
theorem congr (h : Represents l a) (hstore : l'.store = l.store)
    (hunstable : l'.unstable = l.unstable) : Represents l' a := by
  obtain ⟨store, unstable, committed, persisted, applied, limit⟩ := l'
  obtain rfl : store = l.store := hstore
  obtain rfl : unstable = l.unstable := hunstable
  exact ⟨h.stored_contiguous, h.contiguous, h.lt_offset, h.offset_add, h.entries, h.pending,
    h.plain, h.settled⟩

end Represents

/-! ## The operations -/

/-- The log represents a specification state, and its own cursors are in order. -/
structure Follows (l : RaftLog σ) (s : LogSpec) : Prop extends
    Represents l s.toAbstractLog where
  committed_eq : l.committed = s.committed
  index_le : s.index ≤ s.committed
  committed_le : s.committed ≤ s.lastIndex
  persisted_lt : l.persisted < l.unstable.offset

/-- The application's cursor is in order too. -/
structure Refines (l : RaftLog σ) (s : LogSpec) : Prop extends Follows l s where
  applied_eq : l.applied = s.applied
  applied_le : s.applied ≤ s.committed

namespace Follows

variable {l l' : RaftLog σ} {s : LogSpec} {c idx last : ℕ} {es : List Entry}

/-- Changing the cursors only. -/
theorem of_cursors {s' : LogSpec} (h : Follows l s) (hstore : l'.store = l.store)
    (hunstable : l'.unstable = l.unstable) (hlog : s'.toAbstractLog = s.toAbstractLog)
    (hcommitted : l'.committed = s'.committed) (hindex : s.committed ≤ s'.committed)
    (hlast : s'.committed ≤ s.lastIndex) (hpersisted : l'.persisted < l.unstable.offset) :
    Follows l' s' := by
  have hbelow := h.index_le
  refine ⟨hlog ▸ h.toRepresents.congr hstore hunstable, hcommitted, ?_, ?_, ?_⟩
  · rw [hlog]
    omega
  · rw [hlog]
    exact hlast
  · rw [hunstable]
    exact hpersisted

theorem commitTo (h : Follows l s) (hrun : l.commitTo i = some (l', result)) :
    Follows l' (s.commitTo i) := by
  have hcommitted := h.committed_eq
  have hle := h.committed_le
  simp only [RaftLog.commitTo, bind_eq_bind, h.lastIndex, bind_some] at hrun
  unfold LogSpec.commitTo
  split at hrun
  · cases hrun
    rw [if_pos (by omega)]
    exact h
  split at hrun
  · cases hrun
    rw [if_pos (by omega)]
    exact h
  · cases hrun
    rw [if_neg (by omega)]
    exact h.of_cursors rfl rfl rfl rfl (by simp only; omega) (by simp only; omega) h.persisted_lt

/-- Replacing the log from an index above the committed one. -/
theorem replaceFrom (h : Follows l s) {persisted : ℕ} {u : Unstable} (hne : es ≠ [])
    (hes : NumberedFrom c es) (hc : s.committed < c)
    (hrun : l.unstable.truncateAndAppend es = some u) (hpersisted : persisted ≤ l.persisted)
    (hbelow : persisted < c) :
    Follows { l with unstable := u, persisted }
      { s with toAbstractLog := s.replaceFrom c es } := by
  have hindex := h.index_le
  have hlt := h.persisted_lt
  have hpos := length_pos_of_ne_nil hne
  obtain ⟨hgap, hoffset, hrep⟩ := h.toRepresents.truncateAndAppend hne hes (by omega) hrun
  have hlast : (s.replaceFrom c es).lastIndex + 1 = c + es.length :=
    AbstractLog.lastIndex_replaceFrom (by omega) hgap
  exact ⟨hrep.congr rfl rfl, h.committed_eq, hindex, by simp only; omega, by simp only; omega⟩

/-- `Append` above the committed index; the persisted index may be lowered with it. -/
theorem append_above (h : Follows l s) {persisted : ℕ} (hne : es ≠ []) (hes : NumberedFrom c es)
    (hc : s.committed < c) (hrun : l.append es = some (l', last))
    (hpersisted : persisted ≤ l'.persisted) (hbelow : persisted < c) :
    Follows { l' with persisted } { s with toAbstractLog := s.replaceFrom c es } := by
  obtain ⟨hnil, -⟩ | ⟨first, rest, u, rfl, -, hu, rfl⟩ := append_eq hrun
  · exact absurd hnil hne
  · have hfirst : first.index = c := hes.head
    have hcommitted := h.committed_eq
    rw [wrappingSub_of_le (by omega), min_eq_left (by omega)]
    exact h.replaceFrom hne hes hc hu hpersisted hbelow

/-- `Append` at the end of the log. -/
theorem append (h : Follows l s) (hes : NumberedFrom (s.lastIndex + 1) es)
    (hrun : l.append es = some (l', last)) : Follows l' (s.append es) := by
  have hle := h.committed_le
  have hlt := h.persisted_lt
  have hoffset := h.offset_add
  have hkeeps := append_keeps hrun
  cases es with
  | nil =>
      obtain ⟨-, rfl⟩ | ⟨first, rest, u, hcons, -⟩ := append_eq hrun
      · simpa [LogSpec.append] using h
      · cases hcons
  | cons first rest =>
      have hall : s.append (first :: rest) =
          { s with toAbstractLog := s.replaceFrom (s.lastIndex + 1) (first :: rest) } := by
        simp [LogSpec.append, AbstractLog.replaceFrom, AbstractLog.lastIndex, take_of_length_le]
      have hpersisted := hkeeps.persisted
      rw [hall]
      exact h.append_above (by simp) hes (by omega) hrun le_rfl (by omega)

omit [WritableStorage σ] [Codec] [LawfulStorage σ] in
/-- With numbered entries the clones start at the conflict. -/
theorem cloneFrom_conflict {a : AbstractLog} (hes : NumberedFrom (idx + 1) es)
    (hconflict : a.conflict es = some c) :
    cloneFrom es (wrappingSub c (idx + 1)) = some (es.drop (c - (idx + 1))) := by
  obtain ⟨hlow, hhigh⟩ := AbstractLog.conflict_eq_some hes hconflict
  rw [wrappingSub_of_le hlow, cloneFrom, if_pos (Or.inl (by omega))]

/-- The part of `MaybeAppend` for a conflict above the committed index. -/
theorem append_conflict (h : Follows l s) {l₁ : RaftLog σ} (hes : NumberedFrom (idx + 1) es)
    (hconflict : s.conflict es = some c) (hc : s.committed < c)
    (hrun : l.append (es.drop (c - (idx + 1))) = some (l₁, last)) :
    Follows { l₁ with persisted := min l₁.persisted (c - 1) }
      { s with toAbstractLog := s.replaceFrom c (es.drop (c - (idx + 1))) } := by
  obtain ⟨hlow, hhigh⟩ := AbstractLog.conflict_eq_some hes hconflict
  have hnumbered : NumberedFrom c (es.drop (c - (idx + 1))) := by
    have hdrop := hes.drop (c - (idx + 1))
    rwa [show idx + 1 + (c - (idx + 1)) = c by omega] at hdrop
  have hne : es.drop (c - (idx + 1)) ≠ [] := by
    rw [ne_eq, drop_eq_nil_iff]
    omega
  exact h.append_above hne hnumbered hc hrun (min_le_left _ _) (by omega)

theorem maybeAppend (h : Follows l s) {term committed : ℕ} {result : Result MaybeAppendResult}
    (hes : NumberedFrom (idx + 1) es)
    (hrun : l.maybeAppend idx term committed es = some (l', result)) :
    Follows l' (s.maybeAppend idx term committed es) := by
  simp only [RaftLog.maybeAppend, bind_eq_bind, h.matchTerm, bind_some,
    h.findConflict es, decide_eq_true_eq] at hrun
  unfold LogSpec.maybeAppend
  split at hrun
  next hterm =>
    rw [if_pos hterm]
    cases hconflict : s.conflict es with
    | none =>
        simp only [hconflict, getD_none, if_true] at hrun
        obtain ⟨⟨l₁, r₁⟩, hcommit, hrun⟩ := of_bind hrun
        cases hrun
        exact h.commitTo hcommit
    | some c =>
        have hpos : c ≠ 0 := by
          have hlow := (AbstractLog.conflict_eq_some hes hconflict).1
          omega
        simp only [hconflict, getD_some, hpos, if_false, h.committed_eq] at hrun
        split at hrun
        next hle =>
          cases hrun
          simp only [if_pos hle]
          exact h
        next hle =>
          obtain ⟨toAppend, hclone, hrun⟩ := of_bind hrun
          obtain ⟨⟨l₁, last⟩, happend, hrun⟩ := of_bind hrun
          obtain ⟨⟨l₂, r₂⟩, hcommit, hrun⟩ := of_bind hrun
          cases hrun
          simp only [if_neg hle]
          rw [cloneFrom_conflict hes hconflict, some.injEq] at hclone
          rw [← hclone] at happend
          exact (h.append_conflict hes hconflict (by omega) happend).commitTo hcommit
  next hterm =>
    cases hrun
    rw [if_neg hterm]
    exact h

theorem restore (h : Follows l s) (hrun : l.restore snapshot = (l', result)) :
    Follows l' (s.restore snapshot) := by
  have hlt := h.persisted_lt
  unfold RaftLog.restore at hrun
  unfold LogSpec.restore
  rw [h.committed_eq] at hrun
  simp only at hrun
  split at hrun
  next hold =>
    cases hrun
    rw [if_pos hold]
    exact h
  next hnew =>
    cases hrun
    rw [if_neg hnew]
    refine ⟨⟨h.stored_contiguous, NumberedFrom.nil _, ?_, ?_, ?_, ?_, ?_, ?_⟩, rfl, le_rfl, ?_, ?_⟩
    · simp only [Unstable.restore]
      omega
    · simp [Unstable.restore, AbstractLog.lastIndex]
    · simp [Unstable.restore]
    · intro pending hpending
      simp only [Unstable.restore, some.injEq] at hpending
      subst hpending
      exact ⟨rfl, rfl, rfl⟩
    · intro hnone
      simp [Unstable.restore] at hnone
    · intro hnone
      simp [Unstable.restore] at hnone
    · simp [AbstractLog.lastIndex]
    · simp only [Unstable.restore]
      split <;> omega

end Follows

omit [WritableStorage σ] [Codec] [LawfulStorage σ] in
theorem restore_applied (hrun : l.restore snapshot = (l', result)) : l'.applied = l.applied := by
  unfold RaftLog.restore at hrun
  simp only at hrun
  split at hrun <;> cases hrun <;> rfl

namespace Refines

variable {l l' : RaftLog σ} {s : LogSpec}

theorem new {limit : ℕ} {store : σ} (hstore : (view store).Contiguous)
    (hnew : RaftLog.new limit store = some l) :
    Refines l (.ofStable (view store)) := by
  simp only [RaftLog.new, bind_eq_bind, LawfulStorage.firstIndex_eq store hstore,
    LawfulStorage.lastIndex_eq store hstore, unwrap_ok, bind_some, some.injEq] at hnew
  subst hnew
  refine ⟨⟨⟨hstore, hstore, ?_, rfl, ?_, ?_, ?_, ?_⟩, rfl, le_rfl, ?_, ?_⟩, rfl, le_rfl⟩
  · simp only [LogSpec.ofStable, Stable.lastIndex]
    omega
  · simp only [LogSpec.ofStable, Stable.lastIndex]
    rw [drop_eq_nil_of_le]
    omega
  · intro snapshot hsnapshot
    cases hsnapshot
  · exact fun _ => ⟨rfl, rfl, rfl⟩
  · exact fun _ _ => rfl
  · simp only [LogSpec.ofStable, AbstractLog.lastIndex]
    omega
  · exact Nat.lt_succ_self _

/-- An operation that leaves the application's cursor alone. -/
theorem of_follows {s' : LogSpec} (h : Refines l s) (hfollows : Follows l' s')
    (happlied : l'.applied = l.applied) (hspec : s'.applied = s.applied)
    (hle : s.committed ≤ s'.committed) : Refines l' s' :=
  ⟨hfollows, happlied.trans (h.applied_eq.trans hspec.symm), hspec ▸ Nat.le_trans h.applied_le hle⟩

theorem commitTo (h : Refines l s) (hrun : l.commitTo i = some (l', result)) :
    Refines l' (s.commitTo i) :=
  h.of_follows (h.toFollows.commitTo hrun) (commitTo_keeps hrun).applied (s.applied_commitTo i)
    (s.committed_le_commitTo i)

theorem append (h : Refines l s) {last : ℕ} (hes : NumberedFrom (s.lastIndex + 1) es)
    (hrun : l.append es = some (l', last)) : Refines l' (s.append es) :=
  h.of_follows (h.toFollows.append hes hrun) (append_keeps hrun).applied rfl le_rfl

theorem maybeAppend (h : Refines l s) {idx term committed : ℕ} {result : Result MaybeAppendResult}
    (hes : NumberedFrom (idx + 1) es)
    (hrun : l.maybeAppend idx term committed es = some (l', result)) :
    Refines l' (s.maybeAppend idx term committed es) :=
  h.of_follows (h.toFollows.maybeAppend hes hrun) (maybeAppend_keeps hrun).applied
    (s.applied_maybeAppend idx term committed es) (s.committed_le_maybeAppend idx term committed es)

theorem restore (h : Refines l s) (hrun : l.restore snapshot = (l', result)) :
    Refines l' (s.restore snapshot) :=
  h.of_follows (h.toFollows.restore hrun) (restore_applied hrun) (s.applied_restore snapshot)
    (s.committed_le_restore snapshot)

theorem appliedTo (h : Refines l s) (hrun : l.appliedTo i = some l') :
    Refines l' (s.appliedTo i) := by
  unfold RaftLog.appliedTo at hrun
  unfold LogSpec.appliedTo
  split at hrun
  next hzero =>
    cases hrun
    rw [if_pos hzero]
    exact h
  next hzero =>
    rw [if_neg hzero]
    split at hrun
    · cases hrun
    next hrange =>
      cases hrun
      have hcommitted := h.committed_eq
      have hle := h.committed_le
      exact ⟨h.toFollows.of_cursors rfl rfl rfl h.committed_eq le_rfl hle h.persisted_lt, rfl,
        by simp only; omega⟩

end Refines

/-! ## A Ready cycle -/

/-- The log after a write that its storage accepted. -/
def wrote (l : RaftLog σ) (write : σ × Result Unit) : Option (RaftLog σ) :=
  match write.2 with
  | .ok () => some { l with store := write.1 }
  | .error _ => none

def writeSnapshot (l : RaftLog σ) : Option Snapshot → Option (RaftLog σ)
  | none => some l
  | some snapshot => l.wrote (WritableStorage.applySnapshot l.store snapshot)

def writeEntries (l : RaftLog σ) (entries : List Entry) : Option (RaftLog σ) :=
  if entries = [] then some l else l.wrote (WritableStorage.append l.store entries)

def markSnapshot (l : RaftLog σ) : Option Snapshot → Option (RaftLog σ)
  | none => some l
  | some snapshot => l.stableSnapshot snapshot.metadata.index

def markEntries (l : RaftLog σ) (entries : List Entry) : Option (RaftLog σ) :=
  match entries.getLast? with
  | none => some l
  | some last => l.stableEntries last.index last.term

def reportSnapshot (l : RaftLog σ) : Option Snapshot → Option (RaftLog σ)
  | none => some l
  | some snapshot => (l.maybePersistSnapshot snapshot.metadata.index).map Prod.fst

def reportEntries (l : RaftLog σ) (entries : List Entry) : RaftLog σ :=
  match entries.getLast? with
  | none => l
  | some last => (l.maybePersist last.index last.term).1

/-- The storage holds the whole log. -/
def Stored (l : RaftLog σ) (a : AbstractLog) : Prop :=
  l.stored.index = a.index ∧ l.stored.term = a.term ∧ l.stored.entries = a.entries

omit [WritableStorage σ] [Codec] [LawfulStorage σ] in
theorem wrote_eq {write : σ × Result Unit} (h : l.wrote write = some l') :
    Accepts write ∧ l' = { l with store := write.1 } := by
  unfold wrote at h
  split at h
  next hok =>
    cases h
    exact ⟨hok, rfl⟩
  · cases h

namespace Represents

variable {l l' : RaftLog σ} {a : AbstractLog}

/-- Writing the pending snapshot empties the storage down to the point of the log. -/
theorem writeSnapshot (h : Represents l a) (hrun : l.writeSnapshot l.unstable.snapshot = some l') :
    Represents l' a ∧ l' = { l with store := l'.store } ∧
      (l.unstable.snapshot ≠ none →
        l'.stored.index = a.index ∧ l'.stored.term = a.term ∧ l'.stored.entries = []) := by
  revert hrun
  cases hsnapshot : l.unstable.snapshot with
  | none =>
      intro hrun
      cases hrun
      exact ⟨h, rfl, fun hne => absurd rfl hne⟩
  | some snapshot =>
      intro hrun
      obtain ⟨hok, rfl⟩ := wrote_eq hrun
      obtain ⟨commit, -, -, hview⟩ := LawfulStorage.applySnapshot_eq l.store snapshot hok
      obtain ⟨hindex, hterm, -⟩ := h.pending snapshot hsnapshot
      refine ⟨⟨?_, h.contiguous, h.lt_offset, h.offset_add, h.entries, h.pending, ?_, ?_⟩, rfl, ?_⟩
      · intro k e hget
        simp only [stored, hview] at hget
        simp at hget
      · intro hnone
        simp only [hsnapshot] at hnone
        cases hnone
      · intro hnone
        simp only [hsnapshot] at hnone
        cases hnone
      · intro _
        simp only [stored, hview]
        exact ⟨hindex.symm, hterm.symm, trivial⟩

/-- The storage holds what comes below the unstable entries, and the entries come after it. -/
theorem entries_append (h : Represents l a) :
    a.entries.take (l.unstable.offset - (a.index + 1)) ++ l.unstable.entries = a.entries := by
  rw [h.entries, take_append_drop]

/-- Writing the unstable entries completes the storage. -/
theorem writeEntries (h : Represents l a) (hpoint : l.unstable.snapshot ≠ none →
      l.stored.index = a.index ∧ l.stored.term = a.term ∧ l.stored.entries = [])
    (hrun : l.writeEntries l.unstable.entries = some l') :
    Represents l' a ∧ l' = { l with store := l'.store } ∧ Stored l' a := by
  -- in both cases the storage holds the log up to the offset
  have hbelow : l.stored.index = a.index ∧ l.stored.term = a.term ∧
      l.stored.entries.take (l.unstable.offset - (a.index + 1)) =
        a.entries.take (l.unstable.offset - (a.index + 1)) := by
    cases hsnapshot : l.unstable.snapshot with
    | none => exact h.plain hsnapshot
    | some snapshot =>
        obtain ⟨hindex, hterm, hempty⟩ := hpoint (by simp [hsnapshot])
        obtain ⟨hat, -, hoffset⟩ := h.pending snapshot hsnapshot
        refine ⟨hindex, hterm, ?_⟩
        rw [hempty, show l.unstable.offset - (a.index + 1) = 0 by omega]
        rfl
  unfold RaftLog.writeEntries at hrun
  split at hrun
  next hempty =>
    cases hrun
    refine ⟨h, rfl, hbelow.1, hbelow.2.1, ?_⟩
    cases hsnapshot : l.unstable.snapshot with
    | none => exact h.settled hsnapshot hempty
    | some snapshot =>
        have hnil : a.entries = [] := by
          have hall := h.entries_append
          obtain ⟨hat, -, hoffset⟩ := h.pending snapshot hsnapshot
          rw [hempty, show l.unstable.offset - (a.index + 1) = 0 by omega] at hall
          simpa using hall.symm
        rw [hnil]
        exact (hpoint (by simp [hsnapshot])).2.2
  next hne =>
    obtain ⟨hok, rfl⟩ := wrote_eq hrun
    obtain ⟨hview, -⟩ :=
      LawfulStorage.append_log l.store l.unstable.entries h.stored_contiguous hok
    obtain ⟨first, rest, hcons⟩ := exists_cons_of_ne_nil hne
    have hlt := h.lt_offset
    have hfirst : first.index = l.unstable.offset := by
      have hnumbered := h.contiguous.drop (l.unstable.offset - (a.index + 1))
      rw [← h.entries, hcons] at hnumbered
      rw [hnumbered.head]
      omega
    have hstored : Stored { l with store := (WritableStorage.append l.store l.unstable.entries).1 }
        a := by
      have hreplaced : (view l.store).append l.unstable.entries =
          { l.stored with
            entries := l.stored.entries.take (first.index - (l.stored.index + 1)) ++
              l.unstable.entries } := by
        rw [hcons]
        rfl
      simp only [Stored, stored, hview, hreplaced]
      refine ⟨hbelow.1, hbelow.2.1, ?_⟩
      rw [hfirst, hbelow.1, hbelow.2.2]
      exact h.entries_append
    refine ⟨⟨?_, h.contiguous, h.lt_offset, h.offset_add, h.entries, h.pending, ?_, ?_⟩, rfl,
      hstored⟩
    · intro k e hget
      obtain ⟨hindex, -, hentries⟩ := hstored
      rw [hentries] at hget
      rw [hindex]
      exact h.contiguous k e hget
    · intro _
      exact ⟨hstored.1, hstored.2.1, by rw [hstored.2.2]⟩
    · exact fun _ _ => hstored.2.2

/-- What can be reported as persisted is below the unstable entries, and below a pending
snapshot. -/
theorem firstUpdateIndex_le (h : Represents l a) : l.firstUpdateIndex ≤ l.unstable.offset := by
  unfold RaftLog.firstUpdateIndex
  split
  next snapshot hsnapshot =>
    have hat := (h.pending snapshot hsnapshot).2.2
    omega
  · exact le_rfl

/-- With the whole log stored, the pending snapshot can go. -/
theorem stableSnapshot (h : Represents l a) (hstored : Stored l a)
    (hrun : l.stableSnapshot i = some l') :
    Represents l' a ∧ l' = { l with unstable := { l.unstable with snapshot := none } } := by
  obtain ⟨-, rfl⟩ := stableSnapshot_eq hrun
  refine ⟨⟨h.stored_contiguous, h.contiguous, h.lt_offset, h.offset_add, h.entries, ?_, ?_,
    ?_⟩, rfl⟩
  · intro snapshot hsnapshot
    cases hsnapshot
  · intro _
    exact ⟨hstored.1, hstored.2.1, by rw [show l.stored.entries = a.entries from hstored.2.2]⟩
  · exact fun _ _ => hstored.2.2

/-- With the whole log stored, so can the unstable entries. -/
theorem stableEntries (h : Represents l a) (hstored : Stored l a) {t : ℕ}
    (hrun : l.stableEntries i t = some l') :
    Represents l' a ∧ l.unstable.offset ≤ l'.unstable.offset ∧
      l' = { l with unstable := l'.unstable } := by
  obtain ⟨hsnapshot, last, hlast, rfl, -, rfl⟩ := stableEntries_eq hrun
  have hoffset := h.offset_add
  have hlt := h.lt_offset
  -- the last unstable entry is the last entry of the log
  have hindex : last.index = a.lastIndex := by
    rw [getLast?_eq_getElem?] at hlast
    have hpos : 0 < l.unstable.entries.length := by
      by_contra hzero
      rw [getElem?_eq_none (by omega)] at hlast
      cases hlast
    rw [h.entries, getElem?_drop, ← h.entries] at hlast
    have hat := h.contiguous _ last hlast
    omega
  refine ⟨⟨h.stored_contiguous, h.contiguous, ?_, ?_, ?_, ?_, ?_, ?_⟩, ?_, rfl⟩
  · simp only
    omega
  · simp only [hindex, length_nil, Nat.add_zero]
  · simp only [hindex, AbstractLog.lastIndex]
    rw [drop_eq_nil_of_le]
    omega
  · intro snapshot hpending
    simp only [hsnapshot] at hpending
    cases hpending
  · intro _
    exact ⟨hstored.1, hstored.2.1, by rw [show l.stored.entries = a.entries from hstored.2.2]⟩
  · exact fun _ _ => hstored.2.2
  · simp only
    omega

end Represents

namespace Follows

variable {l l' : RaftLog σ} {s : LogSpec}

/-- A step of the cycle that moves neither the cursors nor the offset down. -/
theorem of_represents (h : Follows l s) (hrep : Represents l' s.toAbstractLog)
    (hcommitted : l'.committed = l.committed)
    (hpersisted : l'.persisted = l.persisted)
    (hoffset : l.unstable.offset ≤ l'.unstable.offset) : Follows l' s := by
  have hlt := h.persisted_lt
  exact ⟨hrep, hcommitted.trans h.committed_eq, h.index_le, h.committed_le, by omega⟩

/-- A write to the storage moves no cursor. -/
theorem of_wrote (h : Follows l s) (hrep : Represents l' s.toAbstractLog)
    (hsame : l' = { l with store := l'.store }) : Follows l' s := by
  refine h.of_represents hrep ?_ ?_ ?_
  · rw [hsame]
  · rw [hsame]
  · rw [hsame]

theorem of_marked (h : Follows l s) (hrep : Represents l' s.toAbstractLog)
    (hoffset : l.unstable.offset ≤ l'.unstable.offset)
    (hsame : l' = { l with unstable := l'.unstable }) : Follows l' s := by
  refine h.of_represents hrep ?_ ?_ hoffset
  · rw [hsame]
  · rw [hsame]

theorem persisted (h : Follows l s) {persisted : ℕ} (hlt : persisted < l.unstable.offset) :
    Follows { l with persisted } s :=
  ⟨h.toRepresents.congr rfl rfl, h.committed_eq, h.index_le, h.committed_le, hlt⟩

theorem maybePersist (h : Follows l s) (index term : ℕ) :
    Follows (l.maybePersist index term).1 s := by
  rcases maybePersist_eq l index term with hsame | ⟨-, hlimit, -, hmoved⟩
  · rw [hsame]
    exact h
  · rw [hmoved]
    exact h.persisted (hlimit.trans_le h.firstUpdateIndex_le)

end Follows

/-- What is reported as persisted is below the offset, and only the persisted index moves. -/
theorem Refines.reportSnapshot (h : Refines l s) {snapshot : Option Snapshot}
    (hrun : l.reportSnapshot snapshot = some l') : Refines l' s := by
  cases snapshot with
  | none =>
      cases hrun
      exact h
  | some snapshot =>
      obtain ⟨⟨log, updated⟩, hpersist, rfl⟩ := map_eq_some_iff.mp hrun
      obtain rfl | ⟨-, hbelow, rfl⟩ := maybePersistSnapshot_eq hpersist
      · exact h
      · exact h.of_follows (h.persisted hbelow) rfl rfl le_rfl

theorem Refines.reportEntries (h : Refines l s) (entries : List Entry) :
    Refines (l.reportEntries entries) s := by
  unfold RaftLog.reportEntries
  split
  · exact h
  next last _ =>
    refine h.of_follows (h.maybePersist last.index last.term) ?_ rfl le_rfl
    rcases maybePersist_eq l last.index last.term with hsame | ⟨-, -, -, hmoved⟩
    · rw [hsame]
    · rw [hmoved]

end RaftLog

/-! ## Runs -/

/-- How far a Ready cycle has come. -/
inductive Phase
  | idle
  | taken
  | snapshotWritten
  | written
  | snapshotStable
  | stable
  | snapshotPersisted
  deriving DecidableEq

/-- A log with the Ready cycle that is running on it. -/
structure LogState (σ : Type) where
  log : RaftLog σ
  phase : Phase := .idle
  snapshot : Option Snapshot := none
  entries : List Entry := []

/-- The operations on a log.  `ready` starts a Ready cycle or makes its next step. -/
inductive LogOp
  | append (entries : List Entry)
  | maybeAppend (idx term committed : ℕ) (entries : List Entry)
  | restore (snapshot : Snapshot)
  | commitTo (index : ℕ)
  | appliedTo (index : ℕ)
  | ready
  deriving DecidableEq

namespace LogSpec

/-- What an operation does to the specification: a Ready cycle does nothing. -/
def step (s : LogSpec) : LogOp → LogSpec
  | .append entries => s.append entries
  | .maybeAppend idx term committed entries => s.maybeAppend idx term committed entries
  | .restore snapshot => s.restore snapshot
  | .commitTo index => s.commitTo index
  | .appliedTo index => s.appliedTo index
  | .ready => s

end LogSpec

section Runs

variable {σ : Type} [WritableStorage σ]

namespace LogState

variable {st st' : LogState σ}

def nextPhase (st : LogState σ) (phase : Phase) (log : RaftLog σ) : LogState σ :=
  { st with phase, log }

/-- The next step of a Ready cycle. -/
def ready (st : LogState σ) : Option (LogState σ) :=
  match st.phase with
  | .idle =>
      some { st with
        phase := .taken
        snapshot := st.log.unstable.snapshot, entries := st.log.unstable.entries }
  | .taken => (st.log.writeSnapshot st.snapshot).map (st.nextPhase .snapshotWritten)
  | .snapshotWritten => (st.log.writeEntries st.entries).map (st.nextPhase .written)
  | .written => (st.log.markSnapshot st.snapshot).map (st.nextPhase .snapshotStable)
  | .snapshotStable => (st.log.markEntries st.entries).map (st.nextPhase .stable)
  | .stable => (st.log.reportSnapshot st.snapshot).map (st.nextPhase .snapshotPersisted)
  | .snapshotPersisted => some (st.nextPhase .idle (st.log.reportEntries st.entries))

/-- Call the log, unless a Ready cycle is running. -/
def whenIdle (st : LogState σ) (call : Option (RaftLog σ)) : Option (LogState σ) :=
  if st.phase = .idle then call.map fun log => { st with log } else none

/-- An operation of the log; none interrupts a Ready cycle. -/
def run (st : LogState σ) : LogOp → Option (LogState σ)
  | .append entries => st.whenIdle ((st.log.append entries).map Prod.fst)
  | .maybeAppend idx term committed entries =>
      st.whenIdle ((st.log.maybeAppend idx term committed entries).map Prod.fst)
  | .restore snapshot => st.whenIdle (some (st.log.restore snapshot).1)
  | .commitTo index => st.whenIdle ((st.log.commitTo index).map Prod.fst)
  | .appliedTo index => st.whenIdle (st.log.appliedTo index)
  | .ready => st.ready

/-- A leader appends at the end of its log, and entries received follow their index. -/
def Legal (st : LogState σ) : LogOp → Prop
  | .append entries => ∀ last, st.log.lastIndex = some last → NumberedFrom (last + 1) entries
  | .maybeAppend idx _ _ entries => NumberedFrom (idx + 1) entries
  | _ => True

instance (st : LogState σ) (op : LogOp) : Decidable (st.Legal op) :=
  match op with
  | .append entries =>
      inferInstanceAs (Decidable (∀ last ∈ st.log.lastIndex, NumberedFrom (last + 1) entries))
  | .maybeAppend idx _ _ entries => inferInstanceAs (Decidable (NumberedFrom (idx + 1) entries))
  | .restore _ | .commitTo _ | .appliedTo _ | .ready => isTrue trivial

/-- A sequence of legal operations, none of which aborts. -/
inductive Run : LogState σ → List LogOp → LogState σ → Prop
  | nil (st : LogState σ) : Run st [] st
  | cons {st st₁ st₂ : LogState σ} {op : LogOp} {ops : List LogOp} (hlegal : st.Legal op)
      (hstep : st.run op = some st₁) (hrun : Run st₁ ops st₂) : Run st (op :: ops) st₂

/-- Run a sequence of operations as long as they are legal. -/
def runAll (st : LogState σ) : List LogOp → Option (LogState σ)
  | [] => some st
  | op :: ops => if st.Legal op then (st.run op).bind fun next => next.runAll ops else none

theorem Run.of_runAll {ops : List LogOp} (h : st.runAll ops = some st') : Run st ops st' := by
  induction ops generalizing st with
  | nil =>
      cases h
      exact .nil _
  | cons op ops ih =>
      simp only [runAll] at h
      split at h
      next hlegal =>
        obtain ⟨st₁, hstep, hrest⟩ := of_bind h
        exact .cons hlegal hstep (ih hrest)
      · cases h

variable [Codec] [LawfulStorage σ]

/-- What a running Ready cycle knows about the log it works on. -/
def Cycle (st : LogState σ) (a : AbstractLog) : Prop :=
  match st.phase with
  | .idle => True
  | .taken => st.snapshot = st.log.unstable.snapshot ∧ st.entries = st.log.unstable.entries
  | .snapshotWritten =>
      st.snapshot = st.log.unstable.snapshot ∧ st.entries = st.log.unstable.entries ∧
        (st.log.unstable.snapshot ≠ none → st.log.stored.index = a.index ∧
          st.log.stored.term = a.term ∧ st.log.stored.entries = [])
  | .written =>
      st.snapshot = st.log.unstable.snapshot ∧ st.entries = st.log.unstable.entries ∧
        st.log.Stored a
  | .snapshotStable => st.log.Stored a
  | .stable => True
  | .snapshotPersisted => True

open RaftLog

theorem ready_refines (h : Refines st.log s) (hcycle : st.Cycle s.toAbstractLog)
    (hrun : st.ready = some st') : Refines st'.log s ∧ st'.Cycle s.toAbstractLog := by
  unfold ready at hrun
  unfold Cycle at hcycle
  cases hphase : st.phase <;> rw [hphase] at hrun hcycle
  case idle =>
    cases hrun
    exact ⟨h, rfl, rfl⟩
  case taken =>
    obtain ⟨l, hl, rfl⟩ := map_eq_some_iff.mp hrun
    rw [hcycle.1] at hl
    obtain ⟨hrep, hsame, hpoint⟩ := h.toRepresents.writeSnapshot hl
    have hunstable : l.unstable = st.log.unstable := by rw [hsame]
    refine ⟨h.of_follows (h.toFollows.of_wrote hrep hsame) (by rw [hsame]; rfl) rfl le_rfl, ?_⟩
    simp only [Cycle, nextPhase, hunstable]
    exact ⟨hcycle.1, hcycle.2, hpoint⟩
  case snapshotWritten =>
    obtain ⟨l, hl, rfl⟩ := map_eq_some_iff.mp hrun
    obtain ⟨hsnapshot, hentries, hpoint⟩ := hcycle
    rw [hentries] at hl
    obtain ⟨hrep, hsame, hstored⟩ := h.toRepresents.writeEntries hpoint hl
    have hunstable : l.unstable = st.log.unstable := by rw [hsame]
    refine ⟨h.of_follows (h.toFollows.of_wrote hrep hsame) (by rw [hsame]; rfl) rfl le_rfl, ?_⟩
    simp only [Cycle, nextPhase, hunstable]
    exact ⟨hsnapshot, hentries, hstored⟩
  case written =>
    obtain ⟨l, hl, rfl⟩ := map_eq_some_iff.mp hrun
    obtain ⟨-, -, hstored⟩ := hcycle
    unfold markSnapshot at hl
    split at hl
    · cases hl
      exact ⟨h, hstored⟩
    · obtain ⟨hrep, hsame⟩ := h.toRepresents.stableSnapshot hstored hl
      subst hsame
      exact ⟨h.of_follows (h.toFollows.of_represents hrep rfl rfl le_rfl) rfl rfl le_rfl, hstored⟩
  case snapshotStable =>
    obtain ⟨l, hl, rfl⟩ := map_eq_some_iff.mp hrun
    unfold markEntries at hl
    split at hl
    · cases hl
      exact ⟨h, trivial⟩
    · obtain ⟨hrep, hoffset, hsame⟩ := h.toRepresents.stableEntries hcycle hl
      refine ⟨h.of_follows (h.toFollows.of_marked hrep hoffset hsame) ?_ rfl le_rfl, trivial⟩
      show l.applied = st.log.applied
      rw [hsame]
  case stable =>
    obtain ⟨l, hl, rfl⟩ := map_eq_some_iff.mp hrun
    exact ⟨h.reportSnapshot hl, trivial⟩
  case snapshotPersisted =>
    cases hrun
    exact ⟨h.reportEntries st.entries, trivial⟩

omit [Codec] [LawfulStorage σ] [WritableStorage σ] in
theorem whenIdle_eq {call : Option (RaftLog σ)} (h : st.whenIdle call = some st') :
    ∃ log, call = some log ∧ st' = { st with log } ∧
      st'.phase = .idle := by
  unfold whenIdle at h
  split at h
  next hidle =>
    obtain ⟨log, hlog, rfl⟩ := map_eq_some_iff.mp h
    exact ⟨log, hlog, rfl, hidle⟩
  · cases h

theorem Cycle.of_idle {a : AbstractLog} (h : st.phase = .idle) : st.Cycle a := by
  simp only [Cycle, h]

/-- One operation: the log follows the specification, and committed entries stay committed. -/
theorem run_refines {op : LogOp} (h : Refines st.log s) (hcycle : st.Cycle s.toAbstractLog)
    (hlegal : st.Legal op) (hrun : st.run op = some st') :
    Refines st'.log (s.step op) ∧ st'.Cycle (s.step op).toAbstractLog ∧
      s.committed ≤ (s.step op).committed := by
  cases op with
  | ready =>
      obtain ⟨hrefines, hnext⟩ := ready_refines h hcycle hrun
      exact ⟨hrefines, hnext, le_rfl⟩
  | append entries =>
      obtain ⟨log, hcall, rfl, hidle⟩ := whenIdle_eq hrun
      obtain ⟨⟨l, last⟩, hl, rfl⟩ := map_eq_some_iff.mp hcall
      exact ⟨h.append (hlegal _ h.lastIndex) hl, .of_idle hidle, le_rfl⟩
  | maybeAppend idx term committed entries =>
      obtain ⟨log, hcall, rfl, hidle⟩ := whenIdle_eq hrun
      obtain ⟨⟨l, result⟩, hl, rfl⟩ := map_eq_some_iff.mp hcall
      exact ⟨h.maybeAppend hlegal hl, .of_idle hidle, s.committed_le_maybeAppend _ _ _ _⟩
  | restore snapshot =>
      obtain ⟨log, hcall, rfl, hidle⟩ := whenIdle_eq hrun
      cases hcall
      exact ⟨h.restore rfl, .of_idle hidle, s.committed_le_restore snapshot⟩
  | commitTo index =>
      obtain ⟨log, hcall, rfl, hidle⟩ := whenIdle_eq hrun
      obtain ⟨⟨l, result⟩, hl, rfl⟩ := map_eq_some_iff.mp hcall
      exact ⟨h.commitTo hl, .of_idle hidle, s.committed_le_commitTo index⟩
  | appliedTo index =>
      obtain ⟨log, hcall, rfl, hidle⟩ := whenIdle_eq hrun
      refine ⟨h.appliedTo hcall, .of_idle hidle, ?_⟩
      simp only [LogSpec.step, LogSpec.appliedTo]
      split <;> exact le_rfl

/-- A run: the log follows the specification from any state that does. -/
theorem Run.refines {ops : List LogOp} (hrun : Run st ops st') (h : Refines st.log s)
    (hcycle : st.Cycle s.toAbstractLog) :
    Refines st'.log (ops.foldl LogSpec.step s) ∧
      st'.Cycle (ops.foldl LogSpec.step s).toAbstractLog ∧
      s.committed ≤ (ops.foldl LogSpec.step s).committed := by
  induction hrun generalizing s with
  | nil st => exact ⟨h, hcycle, le_rfl⟩
  | cons hlegal hstep hrun ih =>
      obtain ⟨hrefines, hnext, hle⟩ := run_refines h hcycle hlegal hstep
      obtain ⟨hrefines', hnext', hle'⟩ := ih hrefines hnext
      exact ⟨hrefines', hnext', le_trans hle hle'⟩

/-- The branch of `Append` that moves the committed index back. -/
def resetsCommitted (l : RaftLog σ) : List Entry → Bool
  | [] => false
  | first :: _ => decide (first.index - 1 < l.committed)

omit [Codec] [LawfulStorage σ] [WritableStorage σ] in
theorem not_resetsCommitted {l : RaftLog σ} {c : ℕ} {es : List Entry} (hes : NumberedFrom c es)
    (hc : l.committed < c) : resetsCommitted l es = false := by
  cases es with
  | nil => rfl
  | cons first rest =>
      have hfirst := hes.head
      simp only [resetsCommitted, decide_eq_false_iff_not]
      omega

/-- Whatever is done to a log, and wherever a Ready cycle stands, its reads are those of one
log that the Ready cycles leave alone; its cursors are in order, and the committed index never
moves back, in particular not in `Append`. -/
theorem split_invisible [ReliableStorage σ] {limit : ℕ} {store : σ} {l : RaftLog σ}
    {ops ops' : List LogOp} {st st' : LogState σ}
    (hstore : (view store).Contiguous) (hnew : RaftLog.new limit store = some l)
    (hrun : Run { log := l } ops st) (hrun' : Run st ops' st') :
    let s := (ops ++ ops').foldl LogSpec.step (.ofStable (view store))
    st'.log.firstIndex = some s.firstIndex ∧ st'.log.lastIndex = some s.lastIndex ∧
      (∀ i, st'.log.term i = some (.ok (s.termOf i))) ∧
      (∀ low high maxSize ctx, ctx.canAsync = false →
        st'.log.slice low high maxSize ctx = some (s.slice low high maxSize)) ∧
      (∀ low high maxSize ctx es, st'.log.slice low high maxSize ctx = some (.ok es) →
        s.slice low high maxSize = .ok es) ∧
      st'.log.applied ≤ st'.log.committed ∧ st'.log.committed ≤ s.lastIndex ∧
      st'.log.persisted < st'.log.unstable.offset ∧ st.log.committed ≤ st'.log.committed ∧
      (∀ es, st'.Legal (.append es) → resetsCommitted st'.log es = false) ∧
      (∀ idx es c, NumberedFrom (idx + 1) es → st'.log.findConflict es = some c → c ≠ 0 →
        st'.log.committed < c → resetsCommitted st'.log (es.drop (c - (idx + 1))) = false) := by
  obtain ⟨hmid, hcycle, -⟩ := hrun.refines (Refines.new hstore hnew) trivial
  obtain ⟨h, -, hle⟩ := hrun'.refines hmid hcycle
  rw [← foldl_append] at h hle
  have hlast := h.committed_le
  refine ⟨h.firstIndex, h.lastIndex, h.term,
    fun low high maxSize ctx hctx => h.slice low high maxSize hctx,
    fun low high maxSize ctx es hslice => h.slice_eq_ok hslice, ?_, ?_, h.persisted_lt, ?_, ?_, ?_⟩
  · rw [h.applied_eq, h.committed_eq]
    exact h.applied_le
  · rw [h.committed_eq]
    exact hlast
  · rw [hmid.committed_eq, h.committed_eq]
    exact hle
  · intro es hlegal
    refine not_resetsCommitted (hlegal _ h.lastIndex) ?_
    rw [h.committed_eq]
    omega
  · intro idx es c hes hfind hpos hc
    rw [h.findConflict es, some.injEq] at hfind
    -- the conflict is the index of one of the entries, so those from it on start with it
    have hlow : idx + 1 ≤ c := by
      cases hconflict : AbstractLog.conflict _ es with
      | none =>
          rw [hconflict] at hfind
          exact absurd hfind.symm hpos
      | some d =>
          rw [hconflict, getD_some] at hfind
          have hd := (AbstractLog.conflict_eq_some hes hconflict).1
          omega
    have hdrop := hes.drop (c - (idx + 1))
    rw [show idx + 1 + (c - (idx + 1)) = c by omega] at hdrop
    exact not_resetsCommitted hdrop hc

end LogState

end Runs

namespace LogState

/-- A storage with two entries. -/
def twoStored : MemoryStorage :=
  { entries := [{ term := 1, index := 1 }, { term := 1, index := 2 }] }

/-- A leader's entry is replaced below the stored boundary while it is unstable, and the
replacement is stored. -/
def replaceStored : List LogOp :=
  [.append [{ term := 1, index := 3 }], .maybeAppend 1 1 1 [{ term := 2, index := 2 }],
    .ready, .ready, .ready, .ready, .ready, .ready, .ready]

/-- A snapshot arrives over the stored log, with an entry after it. -/
def restoreStored : List LogOp :=
  [.restore { metadata := { index := 5, term := 3 } }, .append [{ term := 4, index := 6 }],
    .ready, .ready, .ready]

theorem split_invisible_replaced :
    letI := Codec.plain
    ∃ l st st', RaftLog.new 0 twoStored = some l ∧ Run { log := l } replaceStored st ∧
      Run st restoreStored st' ∧ st'.log.firstIndex = some 6 ∧ st'.log.lastIndex = some 6 ∧
      st'.log.term 6 = some (.ok 4) ∧ st.log.committed ≤ st'.log.committed := by
  let _ := Codec.plain
  have heval : (RaftLog.new 0 twoStored).any (fun l =>
      (LogState.runAll { log := l } replaceStored).any fun st =>
        (st.runAll restoreStored).isSome) = true := by
    decide +kernel
  simp only [Option.any_eq_true, Option.isSome_iff_exists] at heval
  obtain ⟨l, hnew, st, hrun, st', hrun'⟩ := heval
  have hstore : (view twoStored).Contiguous :=
    show NumberedFrom 1 twoStored.entries by decide
  obtain ⟨hfirst, hlast, hterm, -, -, -, -, -, hle, -⟩ :=
    split_invisible hstore hnew (.of_runAll hrun) (.of_runAll hrun')
  exact ⟨l, st, st', hnew, .of_runAll hrun, .of_runAll hrun', hfirst.trans (by decide),
    hlast.trans (by decide), (hterm 6).trans (by decide), hle⟩

end LogState

end Raftpp
