import Raftpp.Core.LawfulStorage
import Raftpp.Core.RaftLog

/-!
# The log as one object

What `RaftLog` stands for: a point the log starts after and the entries from
there on.  `LogSpec` adds the two cursors a user of the log moves, and says what
each operation of `RaftLog` does to it.  Nothing here knows that some entries are
stored and others are not.
-/

namespace Raftpp

open List

/-- The entries of a list have the indexes `i`, `i + 1`, and so on. -/
def NumberedFrom (i : ℕ) (es : List Entry) : Prop := ∀ k e, es[k]? = some e → e.index = i + k

section NumberedFrom

variable {i : ℕ} {es fs : List Entry} {e : Entry}

theorem NumberedFrom.nil (i : ℕ) : NumberedFrom i [] := by
  intro k e hget
  simp at hget

theorem NumberedFrom.head (h : NumberedFrom i (e :: es)) : e.index = i :=
  h 0 e rfl

theorem NumberedFrom.tail (h : NumberedFrom i (e :: es)) : NumberedFrom (i + 1) es := by
  intro k f hget
  have hindex := h (k + 1) f (by simpa using hget)
  omega

theorem NumberedFrom.take (h : NumberedFrom i es) (k : ℕ) : NumberedFrom i (es.take k) := by
  intro j e hget
  rw [getElem?_take] at hget
  split at hget
  · exact h j e hget
  · cases hget

theorem NumberedFrom.drop (h : NumberedFrom i es) (k : ℕ) : NumberedFrom (i + k) (es.drop k) := by
  intro j e hget
  rw [getElem?_drop] at hget
  have hindex := h (k + j) e hget
  omega

theorem NumberedFrom.append (h : NumberedFrom i es) (hfs : NumberedFrom (i + es.length) fs) :
    NumberedFrom i (es ++ fs) := by
  intro k e hget
  by_cases hk : k < es.length
  · rw [getElem?_append_left hk] at hget
    exact h k e hget
  · rw [getElem?_append_right (by omega)] at hget
    have hindex := hfs _ e hget
    omega

/-- No index twice. -/
theorem NumberedFrom.nodup_index (h : NumberedFrom i es) : (es.map Entry.index).Nodup := by
  induction es generalizing i with
  | nil => exact nodup_nil
  | cons e es ih =>
      rw [map_cons, nodup_cons]
      refine ⟨fun hmem => ?_, ih h.tail⟩
      obtain ⟨e', he', heq⟩ := mem_map.mp hmem
      obtain ⟨k, hk⟩ := mem_iff_getElem?.mp he'
      have hindex := h.tail k e' hk
      have hhead := h.head
      omega

theorem numberedFrom_cons : NumberedFrom i (e :: es) ↔ e.index = i ∧ NumberedFrom (i + 1) es := by
  refine ⟨fun h => ⟨h.head, h.tail⟩, ?_⟩
  rintro ⟨hhead, htail⟩ k f hget
  cases k with
  | zero =>
      obtain rfl : e = f := by simpa using hget
      exact hhead
  | succ k =>
      have hindex := htail k f (by simpa using hget)
      omega

instance instDecidableNumberedFrom : ∀ (i : ℕ) (es : List Entry), Decidable (NumberedFrom i es)
  | i, [] => isTrue (.nil i)
  | i, _ :: es =>
      letI := instDecidableNumberedFrom (i + 1) es
      decidable_of_iff _ numberedFrom_cons.symm

end NumberedFrom

/-- A log: the point it starts after and the entries from there on. -/
structure AbstractLog where
  index : ℕ
  term : ℕ
  entries : List Entry
  deriving DecidableEq

namespace AbstractLog

variable {e : Entry} {es : List Entry} {i low high : ℕ}

def firstIndex (a : AbstractLog) : ℕ := a.index + 1

def lastIndex (a : AbstractLog) : ℕ := a.index + a.entries.length

/-- The term at an index; zero outside of the log. -/
def termOf (a : AbstractLog) (i : ℕ) : ℕ :=
  if i = a.index then a.term
  else if a.index < i then (a.entries[i - (a.index + 1)]?.map Entry.term).getD 0
  else 0

/-- The entries in `[low, high)`. -/
def between (a : AbstractLog) (low high : ℕ) : List Entry :=
  (a.entries.drop (low - (a.index + 1))).take (high - low)

/-- What a slice returns: the entries in `[low, high)` up to a size. -/
def slice [Codec] (a : AbstractLog) (low high : ℕ) (maxSize : Option ℕ) : Result (List Entry) :=
  if low > high then .error (.fatal s!"invalid slice {low} > {high}")
  else if low < a.firstIndex then .error (.storage .compacted)
  else if high > a.lastIndex + 1 then
    .error (.fatal s!"slice[{low},{high}] out of bound[{a.firstIndex},{a.lastIndex}]")
  else .ok (limitSize (a.between low high) maxSize)

/-- The entries are numbered from the first index on. -/
def Contiguous (a : AbstractLog) : Prop := NumberedFrom (a.index + 1) a.entries

/-- The index of the first of some entries that the log does not hold. -/
def conflict (a : AbstractLog) : List Entry → Option ℕ
  | [] => none
  | e :: es => if a.termOf e.index = e.term then a.conflict es else some e.index

/-- Replace what the log holds from an index on. -/
def replaceFrom (a : AbstractLog) (i : ℕ) (es : List Entry) : AbstractLog :=
  { a with entries := a.entries.take (i - (a.index + 1)) ++ es }

variable {a : AbstractLog}

@[simp] theorem termOf_index (a : AbstractLog) : a.termOf a.index = a.term := by simp [termOf]

theorem termOf_of_lt (h : i < a.index) : a.termOf i = 0 := by
  simp [termOf, Nat.ne_of_lt h, Nat.lt_asymm h]

theorem termOf_of_gt (h : a.index < i) :
    a.termOf i = (a.entries[i - (a.index + 1)]?.map Entry.term).getD 0 := by
  simp [termOf, h, Nat.ne_of_gt h]

theorem termOf_of_last_lt (h : a.lastIndex < i) : a.termOf i = 0 := by
  unfold lastIndex at h
  rw [termOf_of_gt (by omega), getElem?_eq_none (by omega)]
  rfl

theorem lastIndex_replaceFrom (hlow : a.index < i) (hhigh : i ≤ a.lastIndex + 1) :
    (a.replaceFrom i es).lastIndex + 1 = i + es.length := by
  unfold lastIndex at hhigh
  simp only [replaceFrom, lastIndex, length_append, length_take]
  omega

theorem Contiguous.replaceFrom (h : a.Contiguous) (hlow : a.index < i) (hhigh : i ≤ a.lastIndex + 1)
    (hes : NumberedFrom i es) : (a.replaceFrom i es).Contiguous := by
  unfold lastIndex at hhigh
  refine NumberedFrom.append (h.take _) ?_
  rw [length_take]
  have hstart : (a.replaceFrom i es).index + 1 + min (i - (a.index + 1)) a.entries.length = i := by
    simp only [AbstractLog.replaceFrom]
    omega
  rw [hstart]
  exact hes

theorem between_append {mid : ℕ} (hlow : a.index < low) (hmid : low ≤ mid) (hhigh : mid ≤ high) :
    a.between low high = a.between low mid ++ a.between mid high := by
  unfold between
  rw [show high - low = (mid - low) + (high - mid) by omega, take_add, drop_drop,
    show low - (a.index + 1) + (mid - low) = mid - (a.index + 1) by omega]

theorem length_between (hlow : a.index < low) (hhigh : high ≤ a.lastIndex + 1) :
    (a.between low high).length = high - low := by
  unfold lastIndex at hhigh
  rw [between, length_take, length_drop]
  omega

/-- An entry stands where its index says. -/
theorem Contiguous.getElem?_of_mem (h : a.Contiguous) (he : e ∈ a.entries) :
    a.index < e.index ∧ a.entries[e.index - (a.index + 1)]? = some e := by
  obtain ⟨k, hk⟩ := mem_iff_getElem?.mp he
  have hindex := h k e hk
  refine ⟨by omega, ?_⟩
  rw [← hk]
  congr 1
  omega

theorem Contiguous.eq_of_index (h : a.Contiguous) {f : Entry} (he : e ∈ a.entries)
    (hf : f ∈ a.entries) (hindex : e.index = f.index) : e = f := by
  have hget := (h.getElem?_of_mem he).2
  rw [hindex, (h.getElem?_of_mem hf).2] at hget
  exact (Option.some.inj hget).symm

theorem Contiguous.index_le_lastIndex (h : a.Contiguous) (he : e ∈ a.entries) :
    e.index ≤ a.lastIndex := by
  obtain ⟨hlow, hget⟩ := h.getElem?_of_mem he
  have hlt := (List.getElem?_eq_some_iff.mp hget).1
  unfold lastIndex
  omega

theorem Contiguous.mem_between (h : a.Contiguous) (hlow : a.index < low) (he : e ∈ a.entries)
    (hle : low ≤ e.index) (hlt : e.index < high) :
    (a.between low high)[e.index - low]? = some e := by
  rw [between, getElem?_take, if_pos (by omega), getElem?_drop, ← (h.getElem?_of_mem he).2]
  congr 1
  omega

/-- A conflict is the index of one of the entries, and those before it are held. -/
theorem getElem?_of_numbered (hes : NumberedFrom i es) (he : e ∈ es) :
    i ≤ e.index ∧ es[e.index - i]? = some e := by
  obtain ⟨k, hk⟩ := mem_iff_getElem?.mp he
  have hindex := hes k e hk
  refine ⟨by omega, ?_⟩
  rw [← hk]
  congr 1
  omega

/-- The log holds the entries before the first conflict, and has another term there. -/
theorem conflict_split {c : ℕ} (h : a.conflict es = some c) :
    ∃ pre e post, es = pre ++ e :: post ∧ e.index = c ∧ a.termOf e.index ≠ e.term ∧
      ∀ f ∈ pre, a.termOf f.index = f.term := by
  induction es with
  | nil => exact absurd h (by simp [conflict])
  | cons e es ih =>
      simp only [conflict] at h
      split at h
      next hterm =>
        obtain ⟨pre, f, post, rfl, hindex, hother, hpre⟩ := ih h
        exact ⟨e :: pre, f, post, rfl, hindex, hother, forall_mem_cons.mpr ⟨hterm, hpre⟩⟩
      next hterm => exact ⟨[], e, es, rfl, Option.some.inj h, hterm, by simp⟩

theorem conflict_eq_some {c : ℕ} (hes : NumberedFrom i es) (h : a.conflict es = some c) :
    i ≤ c ∧ c < i + es.length := by
  obtain ⟨pre, e, post, rfl, rfl, -, -⟩ := conflict_split h
  have hindex := hes pre.length e (by simp)
  rw [length_append, length_cons]
  omega

end AbstractLog

/-- The log with the cursors that its users move. -/
structure LogSpec extends AbstractLog where
  committed : ℕ
  applied : ℕ
  deriving DecidableEq

namespace LogSpec

variable (s : LogSpec)

/-- The log of a storage that nothing has been done to. -/
def ofStable (d : Stable) : LogSpec where
  index := d.index
  term := d.term
  entries := d.entries
  committed := d.index
  applied := d.index

def append (es : List Entry) : LogSpec :=
  { s with entries := s.entries ++ es }

def commitTo (i : ℕ) : LogSpec :=
  if i ≤ s.committed ∨ s.lastIndex < i then s else { s with committed := i }

/-- Accept entries after `idx`, where the log must hold `term`.  Entries that are held already
stay; a conflict with a committed entry is refused. -/
def maybeAppend (idx term committed : ℕ) (es : List Entry) : LogSpec :=
  if s.termOf idx = term then
    match s.conflict es with
    | none => s.commitTo (min committed (wrappingAdd idx es.length))
    | some c =>
        if c ≤ s.committed then s
        else
          { s with toAbstractLog := s.replaceFrom c (es.drop (c - (idx + 1))) }.commitTo
            (min committed (wrappingAdd idx es.length))
  else s

def restore (snapshot : Snapshot) : LogSpec :=
  if snapshot.metadata.index < s.committed then s
  else
    { s with
      index := snapshot.metadata.index, term := snapshot.metadata.term, entries := []
      committed := snapshot.metadata.index }

def appliedTo (i : ℕ) : LogSpec := if i = 0 then s else { s with applied := i }

theorem committed_le_commitTo (s : LogSpec) (i : ℕ) : s.committed ≤ (s.commitTo i).committed := by
  unfold commitTo
  split
  · exact le_rfl
  · simp only
    omega

theorem committed_le_maybeAppend (s : LogSpec) (idx term committed : ℕ) (es : List Entry) :
    s.committed ≤ (s.maybeAppend idx term committed es).committed := by
  unfold maybeAppend
  split
  · split
    · exact s.committed_le_commitTo _
    next c _ =>
      split
      · exact le_rfl
      · exact committed_le_commitTo
          ⟨s.replaceFrom c (es.drop (c - (idx + 1))), s.committed, s.applied⟩ _
  · exact le_rfl

theorem committed_le_restore (s : LogSpec) (snapshot : Snapshot) :
    s.committed ≤ (s.restore snapshot).committed := by
  unfold restore
  split
  · exact le_rfl
  · simp only
    omega

theorem applied_commitTo (s : LogSpec) (i : ℕ) : (s.commitTo i).applied = s.applied := by
  unfold commitTo
  split <;> rfl

theorem applied_maybeAppend (s : LogSpec) (idx term committed : ℕ) (es : List Entry) :
    (s.maybeAppend idx term committed es).applied = s.applied := by
  unfold maybeAppend
  split
  · split
    · exact s.applied_commitTo _
    · split
      · rfl
      · rw [applied_commitTo]
  · rfl

theorem index_commitTo (s : LogSpec) (i : ℕ) : (s.commitTo i).index = s.index := by
  unfold commitTo
  split <;> rfl

theorem index_maybeAppend (s : LogSpec) (idx term committed : ℕ) (es : List Entry) :
    (s.maybeAppend idx term committed es).index = s.index := by
  unfold maybeAppend
  split
  · split
    · exact s.index_commitTo _
    · split
      · rfl
      · rw [index_commitTo]
        rfl
  · rfl

theorem applied_restore (s : LogSpec) (snapshot : Snapshot) :
    (s.restore snapshot).applied = s.applied := by
  unfold restore
  split <;> rfl

end LogSpec

end Raftpp
