import Raftpp.Log.Split

/-!
# `MaybeAppend` computes the append of Raft

On a log in order, `MaybeAppend` keeps the log up to the first entry of the message
that it does not hold and puts the rest of the message after it.  A repeated
message then finds every entry in place.  The same holds for an older message cut
from the same leader's log, as long as the log and the leader's log agree below any
index at which their terms agree; without that, an older message can still find a
conflict below the newer entries and remove them.
-/

namespace Raftpp

open List Option AbstractLog

namespace AbstractLog

variable {a b : AbstractLog} {es : List Entry} {i c idx : ℕ} {e : Entry} {term : ℕ}

/-- The indexes at which a log knows the term. -/
def Holds (a : AbstractLog) (i : ℕ) : Prop := a.index ≤ i ∧ i ≤ a.lastIndex

instance : Decidable (a.Holds i) := inferInstanceAs (Decidable (_ ∧ _))

theorem holds_of_termOf_pos (h : 0 < a.termOf i) : a.Holds i := by
  refine ⟨?_, ?_⟩
  · by_contra hlt
    rw [termOf_of_lt (by omega)] at h
    exact absurd h (lt_irrefl 0)
  · by_contra hlt
    rw [termOf_of_last_lt (by omega)] at h
    exact absurd h (lt_irrefl 0)

/-- Entries that follow `idx`, put into the log: it keeps what it holds up to the first of them
that it does not hold. -/
def merge (a : AbstractLog) (idx : ℕ) (es : List Entry) : AbstractLog :=
  match a.conflict es with
  | none => a
  | some c => a.replaceFrom c (es.drop (c - (idx + 1)))

/-- The index below which a merge leaves the log alone, for a cursor that must not pass it. -/
def cutBelow (a : AbstractLog) (es : List Entry) (i : ℕ) : ℕ :=
  match a.conflict es with
  | none => i
  | some c => min i (c - 1)

/-- Logs that agree at an index agree below it. -/
def Matching (a b : AbstractLog) : Prop :=
  ∀ i, a.Holds i → b.Holds i → a.termOf i = b.termOf i →
    ∀ j, j ≤ i → a.Holds j → b.Holds j → a.termOf j = b.termOf j

/-- What a leader with this log sends after `idx`: its term there and the entries that follow. -/
structure Sends (a : AbstractLog) (idx term : ℕ) (es : List Entry) : Prop where
  index_le : a.index ≤ idx
  le_lastIndex : idx + es.length ≤ a.lastIndex
  term_eq : term = a.termOf idx
  entries_eq : es = a.between (idx + 1) (idx + 1 + es.length)

instance {term : ℕ} : Decidable (a.Sends idx term es) :=
  decidable_of_iff (a.index ≤ idx ∧ idx + es.length ≤ a.lastIndex ∧ term = a.termOf idx ∧
      es = a.between (idx + 1) (idx + 1 + es.length))
    ⟨fun ⟨h₁, h₂, h₃, h₄⟩ => ⟨h₁, h₂, h₃, h₄⟩, fun ⟨h₁, h₂, h₃, h₄⟩ => ⟨h₁, h₂, h₃, h₄⟩⟩

/-! ## The first conflict -/

theorem conflict_eq_none_iff :
    a.conflict es = none ↔ ∀ e ∈ es, a.termOf e.index = e.term := by
  induction es with
  | nil => simp [conflict]
  | cons e es ih =>
      simp only [conflict, forall_mem_cons]
      split
      next hterm => rw [ih]; exact ⟨fun h => ⟨hterm, h⟩, fun h => h.2⟩
      next hterm => exact ⟨fun h => absurd h (by simp), fun h => absurd h.1 hterm⟩

/-- Before the first conflict the log holds the entries. -/
theorem termOf_of_conflict (hes : NumberedFrom i es) (h : a.conflict es = some c) (he : e ∈ es)
    (hlt : e.index < c) : a.termOf e.index = e.term := by
  obtain ⟨hlow, hget⟩ := getElem?_of_numbered hes he
  obtain ⟨pre, f, post, rfl, rfl, -, hpre⟩ := conflict_split h
  have hindex := hes pre.length f (by simp)
  rw [getElem?_append_left (by omega)] at hget
  exact hpre e (mem_of_getElem? hget)

/-- At the first conflict the log has another term. -/
theorem conflict_ne (hes : NumberedFrom i es) (h : a.conflict es = some c) (he : e ∈ es)
    (hindex : e.index = c) : a.termOf e.index ≠ e.term := by
  obtain ⟨hlow, hget⟩ := getElem?_of_numbered hes he
  obtain ⟨pre, f, post, rfl, rfl, hother, -⟩ := conflict_split h
  have hplace := hes pre.length f (by simp)
  rw [show e.index - i = pre.length by omega] at hget
  obtain rfl : f = e := by simpa using hget
  exact hother

/-- The log reaches as far as entries that it holds, when terms are positive. -/
theorem add_length_le_of_held (hidx : idx ≤ a.lastIndex) (hes : NumberedFrom (idx + 1) es)
    (hpos : ∀ e ∈ es, 0 < e.term) (h : ∀ e ∈ es, a.termOf e.index = e.term) :
    idx + es.length ≤ a.lastIndex := by
  rcases eq_nil_or_concat es with rfl | ⟨init, e, rfl⟩
  · exact hidx
  · rw [concat_eq_append] at *
    have hmem : e ∈ init ++ [e] := by simp
    have hindex := hes init.length e (by simp)
    have hlast := (holds_of_termOf_pos (h e hmem ▸ hpos e hmem)).2
    rw [length_append, length_singleton]
    omega

/-! ## The merged log -/

theorem termOf_replaceFrom_of_lt (hlow : a.index < c) (hhigh : c ≤ a.lastIndex + 1) (hi : i < c) :
    (a.replaceFrom c es).termOf i = a.termOf i := by
  unfold lastIndex at hhigh
  rcases Nat.lt_trichotomy i a.index with hlt | rfl | hgt
  · rw [termOf_of_lt hlt, termOf_of_lt (by simpa only [replaceFrom] using hlt)]
  · rw [termOf_index]
    exact termOf_index (a.replaceFrom c es)
  · rw [termOf_of_gt hgt, termOf_of_gt (by simpa only [replaceFrom] using hgt)]
    simp only [replaceFrom]
    rw [getElem?_append_left (by rw [length_take]; omega), getElem?_take, if_pos (by omega)]

theorem termOf_replaceFrom_of_ge (hlow : a.index < c) (hhigh : c ≤ a.lastIndex + 1) (hi : c ≤ i) :
    (a.replaceFrom c es).termOf i = (es[i - c]?.map Entry.term).getD 0 := by
  unfold lastIndex at hhigh
  rw [termOf_of_gt (by simp only [replaceFrom]; omega)]
  simp only [replaceFrom]
  rw [getElem?_append_right (by rw [length_take]; omega), length_take]
  congr 3
  omega

@[simp] theorem index_merge : (a.merge idx es).index = a.index := by
  unfold merge
  cases a.conflict es <;> rfl

section Merge

variable (hidx : a.Holds idx) (hes : NumberedFrom (idx + 1) es) (hpos : ∀ e ∈ es, 0 < e.term)

include hidx hes hpos

/-- A conflict leaves no gap after the log. -/
theorem conflict_le (h : a.conflict es = some c) : c ≤ a.lastIndex + 1 := by
  obtain ⟨pre, f, post, rfl, rfl, -, hpre⟩ := conflict_split h
  have hindex := hes pre.length f (by simp)
  have hbefore := hes.take pre.length
  rw [take_left] at hbefore
  have hreach := add_length_le_of_held hidx.2 hbefore
    (fun e he => hpos e (mem_append_left _ he)) hpre
  omega

/-- The merged log holds every entry of the message. -/
theorem termOf_merge (he : e ∈ es) : (a.merge idx es).termOf e.index = e.term := by
  unfold merge
  cases hconflict : a.conflict es with
  | none => exact conflict_eq_none_iff.mp hconflict e he
  | some c =>
      obtain ⟨hlow, hhigh⟩ := conflict_eq_some hes hconflict
      have hgap := conflict_le hidx hes hpos hconflict
      have hbase := hidx.1
      simp only
      by_cases hlt : e.index < c
      · rw [termOf_replaceFrom_of_lt (by omega) hgap hlt]
        exact termOf_of_conflict hes hconflict he hlt
      · obtain ⟨hstart, hget⟩ := getElem?_of_numbered hes he
        rw [termOf_replaceFrom_of_ge (by omega) hgap (by omega), getElem?_drop,
          show c - (idx + 1) + (e.index - c) = e.index - (idx + 1) by omega, hget]
        rfl

/-- Up to `idx` nothing changes. -/
theorem termOf_merge_of_le (hi : i ≤ idx) : (a.merge idx es).termOf i = a.termOf i := by
  unfold merge
  cases hconflict : a.conflict es with
  | none => rfl
  | some c =>
      have hlow := (conflict_eq_some hes hconflict).1
      have hbase := hidx.1
      exact termOf_replaceFrom_of_lt (by omega) (conflict_le hidx hes hpos hconflict) (by omega)

theorem conflict_merge : (a.merge idx es).conflict es = none :=
  conflict_eq_none_iff.mpr fun _ he => termOf_merge hidx hes hpos he

/-- The merged log reaches as far as the entries do. -/
theorem add_length_le_merge : idx + es.length ≤ (a.merge idx es).lastIndex := by
  unfold merge
  cases hconflict : a.conflict es with
  | none => exact add_length_le_of_held hidx.2 hes hpos (conflict_eq_none_iff.mp hconflict)
  | some c =>
      obtain ⟨hlow, hhigh⟩ := conflict_eq_some hes hconflict
      have hbase := hidx.1
      have hlast : (a.replaceFrom c (es.drop (c - (idx + 1)))).lastIndex + 1 =
          c + (es.drop (c - (idx + 1))).length :=
        lastIndex_replaceFrom (by omega) (conflict_le hidx hes hpos hconflict)
      rw [length_drop] at hlast
      simp only
      omega

end Merge

/-! ## What a leader sends -/

theorem Sends.numbered (h : b.Sends idx term es) (hb : b.Contiguous) :
    NumberedFrom (idx + 1) es := by
  have hdrop := (NumberedFrom.drop hb (idx + 1 - (b.index + 1))).take
    (idx + 1 + es.length - (idx + 1))
  have hindex := h.index_le
  rw [show b.index + 1 + (idx + 1 - (b.index + 1)) = idx + 1 by omega] at hdrop
  rw [h.entries_eq]
  exact hdrop

theorem Sends.termOf (h : b.Sends idx term es) (hb : b.Contiguous) (he : e ∈ es) :
    b.termOf e.index = e.term := by
  have hindex := (getElem?_of_numbered (h.numbered hb) he).1
  have hmem : e ∈ b.entries := by
    rw [h.entries_eq] at he
    exact mem_of_mem_drop (mem_of_mem_take he)
  obtain ⟨hlt, hget⟩ := hb.getElem?_of_mem hmem
  rw [termOf_of_gt hlt, hget]
  rfl

theorem Sends.exists_entry (h : b.Sends idx term es) (hb : b.Contiguous) (hlow : idx < i)
    (hhigh : i ≤ idx + es.length) : ∃ e ∈ es, e.index = i := by
  obtain ⟨e, hget⟩ : ∃ e, es[i - (idx + 1)]? = some e :=
    ⟨_, getElem?_eq_getElem (by omega)⟩
  have hindex := h.numbered hb _ e hget
  exact ⟨e, mem_of_getElem? hget, by omega⟩

/-- After a leader's message the log and the leader's log agree up to the end of the message. -/
theorem Sends.termOf_merge (h : b.Sends idx term es) (hb : b.Contiguous) (hmatching : a.Matching b)
    (hpos : ∀ e ∈ es, 0 < e.term) (hidx : a.Holds idx) (hterm : a.termOf idx = term)
    (hi : i ≤ idx + es.length) (ha : a.Holds i ∨ idx < i) (hbi : b.index ≤ i) :
    (a.merge idx es).termOf i = b.termOf i := by
  have hlast := h.le_lastIndex
  by_cases hbelow : i ≤ idx
  · rw [termOf_merge_of_le hidx (h.numbered hb) hpos hbelow]
    exact hmatching idx hidx ⟨h.index_le, by omega⟩ (hterm.trans h.term_eq) i hbelow
      (ha.resolve_right (by omega)) ⟨hbi, by omega⟩
  · obtain ⟨e, he, rfl⟩ := h.exists_entry hb (by omega) hi
    rw [termOf_merge hidx (h.numbered hb) hpos he, h.termOf hb he]

/-- A replacement above an entry keeps it. -/
theorem Contiguous.mem_replaceFrom (h : a.Contiguous) (he : e ∈ a.entries) (hlt : e.index < c) :
    e ∈ (a.replaceFrom c es).entries := by
  obtain ⟨hlow, hget⟩ := h.getElem?_of_mem he
  refine mem_append_left _ (mem_of_getElem? (i := e.index - (a.index + 1)) ?_)
  rw [getElem?_take, if_pos (by omega), hget]

end AbstractLog

namespace LogSpec

variable {s : LogSpec} {es : List Entry} {idx term committed : ℕ}

theorem commitTo_eq {i : ℕ} (hi : i ≤ s.lastIndex) :
    s.commitTo i = { s with committed := max s.committed i } := by
  unfold commitTo
  split
  next hle => rw [Nat.max_eq_left (by omega)]
  next hle => rw [Nat.max_eq_right (by omega)]

/-- The accepted append, as one state. -/
theorem maybeAppend_eq (hidx : s.Holds idx) (hterm : s.termOf idx = term)
    (hes : NumberedFrom (idx + 1) es) (hpos : ∀ e ∈ es, 0 < e.term)
    (hkeep : ∀ c, s.conflict es = some c → s.committed < c) :
    s.maybeAppend idx term committed es =
      { s with
        toAbstractLog := s.merge idx es
        committed := max s.committed (min committed (wrappingAdd idx es.length)) } := by
  have hreach := ((min_le_right committed _).trans (wrappingAdd_le idx es.length)).trans
    (add_length_le_merge hidx hes hpos)
  unfold maybeAppend
  unfold AbstractLog.merge at hreach ⊢
  rw [if_pos hterm]
  cases hconflict : s.conflict es with
  | none =>
      rw [hconflict] at hreach
      exact commitTo_eq hreach
  | some c =>
      rw [hconflict] at hreach
      simp only [if_neg (not_le.mpr (hkeep c hconflict))]
      exact commitTo_eq hreach

end LogSpec

namespace RaftLog

variable {a : AbstractLog}

/-! ## The code -/

/-- An index that the message may follow is in the log once the terms agree. -/
theorem holds_of_match {idx term : ℕ} (hdomain : a.Holds idx ∨ 0 < term)
    (hterm : a.termOf idx = term) : a.Holds idx :=
  hdomain.elim id fun hpos => holds_of_termOf_pos (hterm ▸ hpos)

section Code

variable {σ : Type} [WritableStorage σ] [Codec] [LawfulStorage σ] {l : RaftLog σ} {s : LogSpec}
  {idx term committed : ℕ} {es : List Entry}

/-- `TruncateAndAppend` aborts when the first entry would leave a gap, and otherwise puts the
entries where the first one says. -/
theorem Represents.truncateAndAppend_any (h : Represents l a) (first : Entry) (rest : List Entry) :
    (a.lastIndex + 1 < first.index ∧ l.unstable.truncateAndAppend (first :: rest) = none) ∨
    (first.index ≤ a.lastIndex + 1 ∧ ∃ u kept,
      l.unstable.truncateAndAppend (first :: rest) = some u ∧
      u.entries = kept ++ first :: rest ∧ u.offset + kept.length = first.index) := by
  have hoffset := h.offset_add
  obtain ⟨size, heq⟩ := l.unstable.truncateAndAppend_eq first rest
  by_cases hle : first.index ≤ l.unstable.offset + l.unstable.entries.length
  · refine Or.inr ⟨by omega, _, _, heq.trans (if_pos hle), rfl, ?_⟩
    simp only [length_take]
    omega
  · exact Or.inl ⟨by omega, heq.trans (if_neg hle)⟩

/-- `Append` does not abort above the committed index where it leaves no gap. -/
theorem Follows.append_ok {c : ℕ} (h : Follows l s) (hne : es ≠ []) (hes : NumberedFrom c es)
    (hc : s.committed < c) (hgap : c ≤ s.lastIndex + 1) :
    ∃ u last, l.append es = some ({ l with unstable := u }, last) := by
  obtain ⟨first, rest, rfl⟩ := exists_cons_of_ne_nil hne
  have hfirst : first.index = c := hes.head
  obtain ⟨-, u, -, hu, -, -⟩ := (h.toRepresents.truncateAndAppend_any first rest).resolve_left
    fun hbeyond => absurd hbeyond.1 (by omega)
  refine ⟨u, first.index + rest.length, ?_⟩
  rw [append_cons, hu, map_some, Nat.min_eq_left]
  rw [h.committed_eq, wrappingSub_of_le (by omega)]
  omega

theorem Follows.commitTo_ok (h : Follows l s) (i : ℕ) (hi : i ≤ s.lastIndex) :
    l.commitTo i = some ({ l with committed := max l.committed i }, .ok ()) := by
  simp only [RaftLog.commitTo, bind_eq_bind, h.lastIndex, bind_some]
  split
  next hle => rw [Nat.max_eq_left hle]
  next hle => rw [if_neg (by omega), Nat.max_eq_right (by omega)]

/-- `MaybeAppend` accepts entries after an index where the terms agree. -/
theorem Follows.maybeAppend_ok (committed : ℕ) (h : Follows l s) (hidx : s.Holds idx)
    (hterm : s.termOf idx = term) (hes : NumberedFrom (idx + 1) es)
    (hpos : ∀ e ∈ es, 0 < e.term) (hkeep : ∀ c, s.conflict es = some c → s.committed < c) :
    ∃ u, l.maybeAppend idx term committed es = some
      ({ l with
          unstable := u
          persisted := s.cutBelow es l.persisted
          committed := max l.committed (min committed (wrappingAdd idx es.length)) },
        .ok ⟨true, (s.conflict es).getD 0, wrappingAdd idx es.length⟩) ∧
      (s.conflict es = none → u = l.unstable) := by
  have hreach := (wrappingAdd_le idx es.length).trans (add_length_le_merge hidx hes hpos)
  simp only [RaftLog.maybeAppend, bind_eq_bind, h.matchTerm, bind_some,
    h.findConflict es, decide_eq_true_eq, if_pos hterm]
  unfold AbstractLog.merge at hreach
  unfold AbstractLog.cutBelow
  cases hconflict : s.conflict es with
  | none =>
      rw [hconflict] at hreach
      simp only [getD_none, if_true]
      rw [h.commitTo_ok _ (le_trans (min_le_right _ _) hreach)]
      exact ⟨l.unstable, rfl, fun _ => rfl⟩
  | some c =>
      rw [hconflict] at hreach
      obtain ⟨hlow, hhigh⟩ := conflict_eq_some hes hconflict
      have hc := hkeep c hconflict
      have hgap := conflict_le hidx hes hpos hconflict
      have hne : es.drop (c - (idx + 1)) ≠ [] := by
        rw [ne_eq, drop_eq_nil_iff]
        omega
      have hnumbered : NumberedFrom c (es.drop (c - (idx + 1))) := by
        have hdrop := hes.drop (c - (idx + 1))
        rwa [show idx + 1 + (c - (idx + 1)) = c by omega] at hdrop
      obtain ⟨u, last, happend⟩ := h.append_ok hne hnumbered hc hgap
      have hcommit := (h.append_conflict hes hconflict hc happend).commitTo_ok
        (min committed (wrappingAdd idx es.length)) (le_trans (min_le_right _ _) hreach)
      simp only [h.committed_eq] at hcommit
      simp only [getD_some, show ¬c = 0 by omega, if_false, h.committed_eq,
        show ¬c ≤ s.committed by omega, Follows.cloneFrom_conflict hes hconflict,
        bind_some, happend, hcommit]
      exact ⟨u, rfl, fun hnone => absurd hnone (by simp)⟩

/-- `MaybeAppend` leaves a log alone that has another term. -/
theorem Represents.maybeAppend_mismatch (h : Represents l a) (hterm : a.termOf idx ≠ term) :
    l.maybeAppend idx term committed es = some (l, .ok ⟨false, 0, 0⟩) := by
  simp [RaftLog.maybeAppend, h.matchTerm, hterm]

/-- An older message of the same leader keeps what is in the log up to the end of a newer one. -/
theorem Follows.older_keeps {L : AbstractLog} {idx' term' committed' : ℕ} {es' : List Entry}
    {result : Result MaybeAppendResult} {t : LogSpec} {l₂ l₃ : RaftLog σ}
    (hL : L.Contiguous) (hnewer : L.Sends idx term es) (holder : L.Sends idx' term' es')
    (hmatching : s.Matching L) (hidx : s.Holds idx) (hterm : s.termOf idx = term)
    (hpos : ∀ e ∈ es, 0 < e.term) (h : Follows l₂ t) (ht : t.toAbstractLog = s.merge idx es)
    (hdomain : t.Holds idx' ∨ 0 < term')
    (hrun : l₂.maybeAppend idx' term' committed' es' = some (l₃, result)) :
    ∃ t', Follows l₃ t' ∧
      ∀ e ∈ t.entries, e.index ≤ idx + es.length → e ∈ t'.entries := by
  have hes' := holder.numbered hL
  refine ⟨t.maybeAppend idx' term' committed' es', h.maybeAppend hes' hrun, ?_⟩
  intro e he hle
  unfold LogSpec.maybeAppend
  split
  next hmatch =>
    have hholds := holds_of_match hdomain hmatch
    cases hconflict : t.conflict es' with
    | none =>
        simp only
        unfold LogSpec.commitTo
        split <;> exact he
    | some c =>
        simp only
        split
        · exact he
        · -- an entry of the older message that the log does not hold lies past the newer one
          have hpast : idx + es.length < c := by
            by_contra hnot
            obtain ⟨hlow, hhigh⟩ := conflict_eq_some hes' hconflict
            obtain ⟨f, hf, hfc⟩ := holder.exists_entry hL (show idx' < c by omega) (by omega)
            have hbase : s.index ≤ c := by
              have := hholds.1
              rw [ht, index_merge] at this
              omega
            have hbaseL := holder.index_le
            have hagree : t.termOf c = L.termOf c := by
              rw [ht]
              refine hnewer.termOf_merge hL hmatching hpos hidx hterm (by omega) ?_ (by omega)
              by_cases hc : c ≤ idx
              · exact Or.inl ⟨hbase, le_trans hc hidx.2⟩
              · exact Or.inr (by omega)
            exact conflict_ne hes' hconflict hf hfc
              (by rw [hfc, hagree, ← hfc, holder.termOf hL hf])
          unfold LogSpec.commitTo
          split <;> exact h.contiguous.mem_replaceFrom he (by omega)
  · exact he

/-- `MaybeAppend` on a log in order, for entries numbered after `idx` with positive terms and
no conflict with a committed entry.  With another term at `idx` nothing happens.  Otherwise the
log keeps what it holds up to the first conflict and takes the rest of the entries, the committed
index follows, the persisted index stays below the conflict, and the same message again changes
nothing.  When the log agrees with a leader's log below any index where their terms agree, another
message of that leader keeps every entry up to the end of this one. -/
theorem maybeAppend_computes_append (h : Follows l s) (hdomain : s.Holds idx ∨ 0 < term)
    (hes : NumberedFrom (idx + 1) es) (hpos : ∀ e ∈ es, 0 < e.term)
    (hkeep : ∀ c, s.conflict es = some c → s.committed < c) :
    (s.termOf idx ≠ term →
      l.maybeAppend idx term committed es = some (l, .ok ⟨false, 0, 0⟩)) ∧
    (s.termOf idx = term →
      ∃ l₂, l.maybeAppend idx term committed es =
          some (l₂, .ok ⟨true, (s.conflict es).getD 0, wrappingAdd idx es.length⟩) ∧
        Follows l₂
          { s with
            toAbstractLog := s.merge idx es
            committed := max s.committed (min committed (wrappingAdd idx es.length)) } ∧
        l₂.persisted = s.cutBelow es l.persisted ∧ l₂.applied = l.applied ∧
        (s.conflict es = none → l₂.unstable = l.unstable) ∧
        l₂.maybeAppend idx term committed es =
          some (l₂, .ok ⟨true, 0, wrappingAdd idx es.length⟩) ∧
        ∀ (L : AbstractLog) (idx' term' committed' : ℕ) (es' : List Entry),
          L.Contiguous → L.Sends idx term es → L.Sends idx' term' es' → s.Matching L →
          ((s.merge idx es).Holds idx' ∨ 0 < term') →
          ∀ l₃ result, l₂.maybeAppend idx' term' committed' es' = some (l₃, result) →
            ∃ t, Follows l₃ t ∧
              ∀ e ∈ (s.merge idx es).entries, e.index ≤ idx + es.length → e ∈ t.entries) := by
  refine ⟨fun hterm => h.toRepresents.maybeAppend_mismatch hterm, fun hterm => ?_⟩
  have hidx := holds_of_match hdomain hterm
  obtain ⟨u, hrun, hsame⟩ := h.maybeAppend_ok committed hidx hterm hes hpos hkeep
  have hfollows := h.maybeAppend hes hrun
  rw [LogSpec.maybeAppend_eq hidx hterm hes hpos hkeep] at hfollows
  refine ⟨_, hrun, hfollows, rfl, rfl, hsame, ?_, ?_⟩
  · -- the entries are all in place, and the committed index is there already
    have hnone := conflict_merge hidx hes hpos
    have hidx' : (s.merge idx es).Holds idx :=
      ⟨by rw [index_merge]; exact hidx.1,
        le_trans (Nat.le_add_right _ _) (add_length_le_merge hidx hes hpos)⟩
    obtain ⟨u', hrun', hsame'⟩ := hfollows.maybeAppend_ok committed hidx'
      ((termOf_merge_of_le hidx hes hpos le_rfl).trans hterm) hes hpos
      (fun c hc => absurd (hnone.symm.trans hc) (by simp))
    rw [hrun', hsame' hnone]
    simp only [AbstractLog.cutBelow, hnone, getD_none]
    rw [Nat.max_eq_left (le_max_right _ _)]
  · intro L idx' term' committed' es' hL hnewer holder hmatching hdomain' l₃ result hrun₃
    exact Follows.older_keeps hL hnewer holder hmatching hidx hterm hpos hfollows rfl hdomain' hrun₃

end Code

section Counterexample

/-- The log of a node with three entries, the second of another leader's term. -/
def mixedStore : MemoryStorage :=
  { entries := [{ term := 1, index := 1 }, { term := 1, index := 2 }, { term := 3, index := 3 }] }

/-- The log of the leader of term four. -/
def fourthLeader : AbstractLog :=
  ⟨0, 0, [{ term := 1, index := 1 }, { term := 2, index := 2 }, { term := 3, index := 3 },
    { term := 4, index := 4 }]⟩

theorem maybeAppend_computes_append_three :
    letI := Codec.plain
    ∃ l l₂, RaftLog.new 0 (σ := MemoryStorage) { entries := fourthLeader.entries.take 3 } = some l ∧
      l.maybeAppend 3 3 4 [{ term := 4, index := 4 }] = some (l₂, .ok ⟨true, 4, 4⟩) ∧
      l₂.lastIndex = some 4 ∧ l₂.committed = 4 ∧ l₂.persisted = 3 ∧
      l₂.maybeAppend 3 3 4 [{ term := 4, index := 4 }] = some (l₂, .ok ⟨true, 0, 4⟩) := by
  let _ := Codec.plain
  have hstore : (LawfulStorage.view
      ({ entries := fourthLeader.entries.take 3 } : MemoryStorage)).Contiguous :=
    show NumberedFrom 1 (fourthLeader.entries.take 3) by decide
  obtain ⟨l, hnew⟩ := isSome_iff_exists.mp
    (show (RaftLog.new 0 ({ entries := fourthLeader.entries.take 3 } : MemoryStorage)).isSome by
      decide +kernel)
  have hfollows := (Refines.new hstore hnew).toFollows
  obtain ⟨l₂, hrun, hfollows₂, hpersisted, -, -, hagain, -⟩ :=
    (@maybeAppend_computes_append MemoryStorage _ _ _ l _ 3 3 4 [{ term := 4, index := 4 }]
      hfollows (Or.inr (by decide)) (by decide) (by decide) (by decide +kernel)).2
      (by decide +kernel)
  refine ⟨l, l₂, hnew, hrun, hfollows₂.lastIndex.trans (by decide +kernel),
    hfollows₂.committed_eq.trans (by decide +kernel), hpersisted.trans ?_, hagain⟩
  have hl : RaftLog.new 0 ({ entries := fourthLeader.entries.take 3 } : MemoryStorage) =
      some { store := { entries := fourthLeader.entries.take 3 }, unstable := { offset := 4 }
             committed := 0, persisted := 3, applied := 0, maxApplyUnpersistedLogLimit := 0 } := rfl
  rw [hl] at hnew
  rw [← some.inj hnew]
  decide +kernel

/-- A log that agrees with the leader's log at an index but not below it: an older message of
the leader removes the entry that a newer one added. -/
theorem older_message_removes_entry :
    letI := Codec.plain
    ∃ (l l₂ l₃ : RaftLog MemoryStorage) (s t : LogSpec), Follows l s ∧
      fourthLeader.Contiguous ∧ fourthLeader.Sends 3 3 [{ term := 4, index := 4 }] ∧
      fourthLeader.Sends 1 1 [{ term := 2, index := 2 }] ∧ s.Holds 3 ∧
      (∀ c, s.conflict [{ term := 4, index := 4 }] = some c → s.committed < c) ∧
      l.maybeAppend 3 3 1 [{ term := 4, index := 4 }] = some (l₂, .ok ⟨true, 4, 4⟩) ∧
      l₂.slice 4 5 none (.empty false) = some (.ok [{ term := 4, index := 4 }]) ∧
      (s.merge 3 [{ term := 4, index := 4 }]).Holds 1 ∧
      (∀ c, (s.merge 3 [{ term := 4, index := 4 }]).conflict [{ term := 2, index := 2 }] = some c →
        l₂.committed < c) ∧
      l₂.maybeAppend 1 1 1 [{ term := 2, index := 2 }] = some (l₃, .ok ⟨true, 2, 2⟩) ∧
      Follows l₃ t ∧ l₃.lastIndex = some 2 := by
  obtain ⟨l, hnew, l₂, r₂, hrun₂, hr₂, hslice, hcommitted, l₃, r₃, hrun₃, hr₃, hlast⟩ :
      letI := Codec.plain
      ∃ l, RaftLog.new 0 mixedStore = some l ∧
        ∃ l₂ r₂, l.maybeAppend 3 3 1 [{ term := 4, index := 4 }] = some (l₂, r₂) ∧
          r₂ = .ok ⟨true, 4, 4⟩ ∧
          l₂.slice 4 5 none (.empty false) = some (.ok [{ term := 4, index := 4 }]) ∧
          l₂.committed = 1 ∧
          ∃ l₃ r₃, l₂.maybeAppend 1 1 1 [{ term := 2, index := 2 }] = some (l₃, r₃) ∧
            r₃ = .ok ⟨true, 2, 2⟩ ∧ l₃.lastIndex = some 2 := by
    set_option synthInstance.maxSize 256 in decide +kernel
  let _ := Codec.plain
  subst hr₂ hr₃
  have hstart : (LawfulStorage.view mixedStore).Contiguous :=
    show NumberedFrom 1 mixedStore.entries by decide
  have hfollows := (Refines.new hstart hnew).toFollows
  have hfollows₂ := hfollows.maybeAppend (by decide) hrun₂
  refine ⟨l, l₂, l₃, _, _, hfollows,
    show NumberedFrom 1 fourthLeader.entries by decide, by decide, by decide, by decide +kernel,
    by decide +kernel, hrun₂, hslice, by decide +kernel, ?_, hrun₃,
    hfollows₂.maybeAppend (by decide) hrun₃, hlast⟩
  rw [hcommitted]
  decide +kernel

end Counterexample

end RaftLog

end Raftpp
