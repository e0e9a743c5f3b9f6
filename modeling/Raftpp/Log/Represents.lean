import Raftpp.Log.Abstract

/-!
# The log of a node represents one abstract log

`Represents l a` says how a `RaftLog` splits the log `a`: a pending snapshot, if
there is one, is the point `a` starts after; the unstable entries are the tail of
`a` from the offset on; and without a pending snapshot the storage holds `a` up to
the offset.  Every read of the log is then a read of `a`, and every operation acts
on `a` as it should, whatever the storage holds above the offset.
-/

namespace Raftpp

open List Option AbstractLog

namespace RaftLog

variable {σ : Type} [WritableStorage σ] [Codec] [LawfulStorage σ]

/-- What the storage of a log holds. -/
abbrev stored (l : RaftLog σ) : Stable := LawfulStorage.view l.store

/-- The log splits `a` into a stored and an unstable part. -/
structure Represents (l : RaftLog σ) (a : AbstractLog) : Prop where
  stored_contiguous : l.stored.Contiguous
  contiguous : a.Contiguous
  lt_offset : a.index < l.unstable.offset
  offset_add : l.unstable.offset + l.unstable.entries.length = a.lastIndex + 1
  entries : l.unstable.entries = a.entries.drop (l.unstable.offset - (a.index + 1))
  pending : ∀ snapshot, l.unstable.snapshot = some snapshot →
    a.index = snapshot.metadata.index ∧ a.term = snapshot.metadata.term ∧
      l.unstable.offset = snapshot.metadata.index + 1
  plain : l.unstable.snapshot = none →
    l.stored.index = a.index ∧ l.stored.term = a.term ∧
      l.stored.entries.take (l.unstable.offset - (a.index + 1)) =
        a.entries.take (l.unstable.offset - (a.index + 1))
  settled : l.unstable.snapshot = none → l.unstable.entries = [] → l.stored.entries = a.entries

namespace Represents

variable {l : RaftLog σ} {a : AbstractLog}

variable {ctx : GetEntriesContext} {es : List Entry} {low high : ℕ} {maxSize : Option ℕ}

/-! ## Reads -/

theorem firstIndex (h : Represents l a) : l.firstIndex = some a.firstIndex := by
  unfold RaftLog.firstIndex Unstable.maybeFirstIndex AbstractLog.firstIndex
  cases hsnapshot : l.unstable.snapshot with
  | none =>
      simp only [map_none]
      rw [LawfulStorage.firstIndex_eq l.store h.stored_contiguous, (h.plain hsnapshot).1]
      rfl
  | some snapshot =>
      simp only [map_some]
      rw [(h.pending snapshot hsnapshot).1]

theorem lastIndex (h : Represents l a) : l.lastIndex = some a.lastIndex := by
  have hoffset := h.offset_add
  unfold RaftLog.lastIndex Unstable.maybeLastIndex
  by_cases hempty : l.unstable.entries = []
  · rw [if_pos hempty]
    rw [hempty, length_nil] at hoffset
    cases hsnapshot : l.unstable.snapshot with
    | none =>
        simp only [map_none]
        rw [LawfulStorage.lastIndex_eq l.store h.stored_contiguous]
        show some l.stored.lastIndex = _
        rw [Stable.lastIndex, AbstractLog.lastIndex, h.settled hsnapshot hempty,
          (h.plain hsnapshot).1]
    | some snapshot =>
        obtain ⟨-, -, hat⟩ := h.pending snapshot hsnapshot
        simp only [map_some, some.injEq]
        omega
  · rw [if_neg hempty]
    simp only [some.injEq]
    omega

/-- Below the offset the storage holds the entries of the log. -/
theorem stored_getElem? (h : Represents l a) (hsnapshot : l.unstable.snapshot = none) {k : ℕ}
    (hk : k < l.unstable.offset - (a.index + 1)) : l.stored.entries[k]? = a.entries[k]? := by
  have htake := congrArg (fun es : List Entry => es[k]?) (h.plain hsnapshot).2.2
  simpa [getElem?_take, hk] using htake

theorem stored_lastIndex_ge (h : Represents l a) (hsnapshot : l.unstable.snapshot = none) :
    l.unstable.offset ≤ l.stored.lastIndex + 1 := by
  obtain ⟨hindex, -, htake⟩ := h.plain hsnapshot
  have hoffset := h.offset_add
  have hlow := h.lt_offset
  have hlength := congrArg List.length htake
  simp only [length_take] at hlength
  unfold AbstractLog.lastIndex at hoffset
  unfold Stable.lastIndex
  omega

theorem maybeTerm (h : Represents l a) {i : ℕ} (hlow : l.unstable.offset ≤ i)
    (hhigh : i ≤ a.lastIndex) : l.unstable.maybeTerm i = some (a.termOf i) := by
  have hoffset := h.offset_add
  have hlt := h.lt_offset
  have hne : l.unstable.entries ≠ [] := by
    intro hempty
    rw [hempty, length_nil] at hoffset
    omega
  have hget : l.unstable.entries[i - l.unstable.offset]? = a.entries[i - (a.index + 1)]? := by
    rw [h.entries, getElem?_drop]
    congr 1
    omega
  have hin : i - (a.index + 1) < a.entries.length := by
    unfold AbstractLog.lastIndex at hhigh
    omega
  unfold Unstable.maybeTerm Unstable.maybeLastIndex
  rw [if_neg (by omega), if_neg hne]
  simp only
  rw [if_neg (by omega), hget, termOf_of_gt (by omega), getElem?_eq_getElem hin]
  rfl

/-- `Term` is the term of the abstract log. -/
theorem term (h : Represents l a) (i : ℕ) : l.term i = some (.ok (a.termOf i)) := by
  have hlt := h.lt_offset
  simp only [RaftLog.term, bind_eq_bind, h.firstIndex, h.lastIndex, bind_some]
  split
  next hbelow =>
    rw [termOf_of_lt (by unfold AbstractLog.firstIndex at hbelow; omega)]
  next hbelow =>
    unfold AbstractLog.firstIndex at hbelow
    split
    next habove => rw [termOf_of_last_lt habove]
    next habove =>
      by_cases hi : l.unstable.offset ≤ i
      · rw [h.maybeTerm hi (by omega)]
      cases hsnapshot : l.unstable.snapshot with
      | some snapshot =>
          -- the only index between the point of the log and the offset is the point itself
          obtain ⟨hindex, hterm, hat⟩ := h.pending snapshot hsnapshot
          have hpoint : i = snapshot.metadata.index := by omega
          have hmaybe : l.unstable.maybeTerm i = some (a.termOf i) := by
            unfold Unstable.maybeTerm
            rw [if_pos (by omega), hsnapshot]
            simp only [hpoint, if_true, some.injEq]
            rw [← hindex, termOf_index, hterm]
          rw [hmaybe]
      | none =>
          have hmaybe : l.unstable.maybeTerm i = none := by
            unfold Unstable.maybeTerm
            rw [if_pos (by omega), hsnapshot]
          obtain ⟨hindex, hterm, -⟩ := h.plain hsnapshot
          have hstored : Storage.term l.store i = .ok (a.termOf i) := by
            rw [LawfulStorage.term_eq_ok l.store i _ h.stored_contiguous]
            show l.stored.termAt i = _
            rcases Nat.lt_or_ge a.index i with hgt | hle
            · have hin : i - (a.index + 1) < a.entries.length := by
                unfold AbstractLog.lastIndex at habove
                omega
              rw [Stable.termAt_of_gt (by omega), termOf_of_gt hgt, hindex,
                h.stored_getElem? hsnapshot (by omega), getElem?_eq_getElem hin]
              rfl
            · have hpoint : i = a.index := by omega
              rw [hpoint, termOf_index, ← hindex, Stable.termAt_index, hterm]
          rw [hmaybe, hstored]

theorem matchTerm (h : Represents l a) (i t : ℕ) :
    l.matchTerm i t = some (decide (a.termOf i = t)) := by
  simp [RaftLog.matchTerm, h.term]

theorem findConflict (h : Represents l a) (es : List Entry) :
    l.findConflict es = some ((a.conflict es).getD 0) := by
  induction es with
  | nil => rfl
  | cons e es ih =>
      simp only [RaftLog.findConflict, bind_eq_bind, h.matchTerm, bind_some,
        AbstractLog.conflict, decide_eq_true_eq]
      split
      · exact ih
      · rfl

/-! ## Slices -/

/-- Below the offset a slice of the storage is a slice of the log. -/
theorem stored_slice (h : Represents l a) (hsnapshot : l.unstable.snapshot = none)
    (hlow : a.index < low) (hhigh : high ≤ l.unstable.offset) :
    l.stored.slice low high = a.between low high := by
  obtain ⟨hindex, -, htake⟩ := h.plain hsnapshot
  have hdrop := congrArg (fun es : List Entry => es.drop (low - (a.index + 1))) htake
  simp only [drop_take] at hdrop
  have hcut := congrArg (fun es : List Entry => es.take (high - low)) hdrop
  simp only [take_take] at hcut
  rw [show min (high - low) (l.unstable.offset - (a.index + 1) - (low - (a.index + 1))) =
    high - low by omega] at hcut
  rw [Stable.slice, between, hindex]
  exact hcut

theorem unstable_slice (h : Represents l a) (hlow : l.unstable.offset ≤ low) (hle : low ≤ high)
    (hhigh : high ≤ a.lastIndex + 1) : l.unstable.slice low high = some (a.between low high) := by
  have hoffset := h.offset_add
  have hlt := h.lt_offset
  simp only [Unstable.slice, Unstable.mustCheckOutOfBounds, bind_eq_bind]
  rw [if_pos ⟨hle, hlow, by omega⟩, bind_some, h.entries, drop_drop, between,
    show l.unstable.offset - (a.index + 1) + (low - l.unstable.offset) =
      low - (a.index + 1) by omega]

theorem mustCheckOutOfBounds (h : Represents l a) (low high : ℕ) :
    l.mustCheckOutOfBounds low high = some
      (if low > high then .error (.fatal s!"invalid slice {low} > {high}")
      else if low < a.firstIndex then .error (.storage .compacted)
      else if high > a.lastIndex + 1 then
        .error (.fatal s!"slice[{low},{high}] out of bound[{a.firstIndex},{a.lastIndex}]")
      else .ok ()) := by
  have hbound : a.firstIndex + (a.lastIndex + 1 - a.firstIndex) = a.lastIndex + 1 := by
    unfold AbstractLog.firstIndex AbstractLog.lastIndex
    omega
  simp only [RaftLog.mustCheckOutOfBounds, bind_eq_bind, h.firstIndex, h.lastIndex,
    bind_some, hbound]
  split
  · rfl
  split
  · rfl
  split <;> rfl

/-- The unstable tail completes the stored entries of a slice. -/
theorem sliceUnstable (h : Represents l a) (maxSize : Option ℕ) (hlow : a.index < low)
    (hlt : low < high) (hhigh : high ≤ a.lastIndex + 1) :
    l.sliceUnstable low high maxSize (a.between low (min high l.unstable.offset)) =
      some (.ok (limitSize (a.between low high) maxSize)) := by
  unfold RaftLog.sliceUnstable
  by_cases hout : high > l.unstable.offset
  · rw [if_pos hout, h.unstable_slice (le_max_right _ _) (by omega) hhigh]
    simp only [bind_eq_bind, bind_some]
    rcases Nat.lt_or_ge low l.unstable.offset with hbelow | habove
    · rw [Nat.min_eq_right (by omega), Nat.max_eq_right (by omega),
        ← between_append hlow (by omega) (by omega)]
    · have hempty : a.between low (min high l.unstable.offset) = [] := by
        rw [between, show min high l.unstable.offset - low = 0 by omega, take_zero]
      rw [hempty, Nat.max_eq_left habove, nil_append]
  · rw [if_neg hout, Nat.min_eq_left (by omega)]

/-- A pending snapshot leaves no entry of the log below the offset. -/
theorem snapshot_eq_none (h : Represents l a) {i : ℕ} (hlow : a.index < i)
    (hi : i < l.unstable.offset) : l.unstable.snapshot = none := by
  cases hsnapshot : l.unstable.snapshot with
  | none => rfl
  | some snapshot =>
      obtain ⟨hindex, -, hat⟩ := h.pending snapshot hsnapshot
      omega

/-- The stored part of a slice lies in the storage. -/
theorem stored_range (h : Represents l a) (hlow : a.index < low) (hbelow : low < l.unstable.offset)
    (hlt : low < high) : l.stored.index < low ∧ low < min high l.unstable.offset ∧
      min high l.unstable.offset ≤ l.stored.lastIndex + 1 := by
  have hsnapshot := h.snapshot_eq_none hlow hbelow
  have hindex := (h.plain hsnapshot).1
  have hlast := h.stored_lastIndex_ge hsnapshot
  omega

/-- The stored part of a slice, as far as the size limit lets it go. -/
theorem stored_entries [PagingStorage σ] (h : Represents l a) (hlow : a.index < low)
    (hbelow : low < l.unstable.offset) (hlt : low < high)
    (hread : Storage.entries l.store low (min high l.unstable.offset) maxSize ctx =
      some (.ok es)) :
    es = limitSize (a.between low (min high l.unstable.offset)) maxSize := by
  obtain ⟨hindex, hne, hlast⟩ := h.stored_range hlow hbelow hlt
  rw [← h.stored_slice (h.snapshot_eq_none hlow hbelow) hlow (min_le_right _ _)]
  exact PagingStorage.entries_eq l.store low _ maxSize ctx es h.stored_contiguous hindex hne hlast
    hread

/-- A slice inside the log, once the storage has answered. -/
theorem slice_of_stored (h : Represents l a) (hlow : a.index < low) (hle : low ≤ high)
    (hhigh : high ≤ a.lastIndex + 1) (hread : low < l.unstable.offset → low < high →
      Storage.entries l.store low (min high l.unstable.offset) maxSize ctx =
        some (.ok (limitSize (a.between low (min high l.unstable.offset)) maxSize))) :
    l.slice low high maxSize ctx = some (.ok (limitSize (a.between low high) maxSize)) := by
  simp only [RaftLog.slice, bind_eq_bind, h.mustCheckOutOfBounds, bind_some]
  rw [if_neg (by omega), if_neg (by unfold AbstractLog.firstIndex; omega), if_neg (by omega)]
  simp only
  by_cases hsame : low = high
  · subst hsame
    simp [between, limitSize]
  rw [if_neg hsame]
  have hfinish := h.sliceUnstable maxSize hlow (show low < high by omega) hhigh
  by_cases hbelow : low < l.unstable.offset
  · have hlength := length_between hlow
      (show min high l.unstable.offset ≤ a.lastIndex + 1 by omega)
    rw [if_pos hbelow, hread hbelow (by omega)]
    simp only [bind_some]
    split
    next hcut =>
      -- the size limit cuts the stored part already
      rw [between_append hlow (show low ≤ min high l.unstable.offset by omega)
        (min_le_left _ _), limitSize_append_of_lt _ (by omega)]
    next hcut =>
      rw [limitSize_eq_self (by omega)]
      exact hfinish
  · have hempty : a.between low (min high l.unstable.offset) = [] := by
      rw [between, show min high l.unstable.offset - low = 0 by omega, take_zero]
    rw [if_neg hbelow]
    rw [hempty] at hfinish
    exact hfinish

/-- Entries that a slice returns are those of the abstract log, also for a read that the
storage may refuse. -/
theorem slice_eq_ok [PagingStorage σ] (h : Represents l a)
    (hslice : l.slice low high maxSize ctx = some (.ok es)) :
    a.slice low high maxSize = .ok es := by
  unfold AbstractLog.slice
  by_cases hle : low > high
  · exact absurd hslice (by simp [RaftLog.slice, h.mustCheckOutOfBounds, hle])
  by_cases hlow : low < a.firstIndex
  · exact absurd hslice (by simp [RaftLog.slice, h.mustCheckOutOfBounds, hle, hlow])
  by_cases hhigh : high > a.lastIndex + 1
  · exact absurd hslice (by simp [RaftLog.slice, h.mustCheckOutOfBounds, hle, hlow, hhigh])
  rw [if_neg hle, if_neg hlow, if_neg hhigh]
  unfold AbstractLog.firstIndex at hlow
  have hvalue : l.slice low high maxSize ctx =
      some (.ok (limitSize (a.between low high) maxSize)) := by
    refine h.slice_of_stored (by omega) (by omega) (by omega) fun hbelow hlt => ?_
    -- the slice is an error unless the storage answers
    simp only [RaftLog.slice, bind_eq_bind, h.mustCheckOutOfBounds, bind_some]
      at hslice
    rw [if_neg hle, if_neg (by unfold AbstractLog.firstIndex; omega), if_neg hhigh] at hslice
    simp only [show ¬low = high by omega, if_false, hbelow, if_true] at hslice
    obtain ⟨result, hresult, hrest⟩ := of_bind hslice
    cases result with
    | ok fs =>
        rw [hresult, h.stored_entries (show a.index < low by omega) hbelow hlt hresult]
    | error e =>
        split at hrest
        next heq => cases heq
        · cases hrest
        · cases hrest
        · cases hrest
  rw [hvalue] at hslice
  exact some.inj hslice

/-- `Slice` is a slice of the abstract log. -/
theorem slice [ReliableStorage σ] (h : Represents l a) (low high : ℕ) (maxSize : Option ℕ)
    (hctx : ctx.canAsync = false) :
    l.slice low high maxSize ctx = some (a.slice low high maxSize) := by
  unfold AbstractLog.slice
  by_cases hle : low > high
  · simp [RaftLog.slice, h.mustCheckOutOfBounds, hle]
  by_cases hlow : low < a.firstIndex
  · simp [RaftLog.slice, h.mustCheckOutOfBounds, hle, hlow]
  by_cases hhigh : high > a.lastIndex + 1
  · simp [RaftLog.slice, h.mustCheckOutOfBounds, hle, hlow, hhigh]
  rw [if_neg hle, if_neg hlow, if_neg hhigh]
  unfold AbstractLog.firstIndex at hlow
  refine h.slice_of_stored (by omega) (by omega) (by omega) fun hbelow hlt => ?_
  obtain ⟨hindex, hne, hlast⟩ := h.stored_range (show a.index < low by omega) hbelow hlt
  obtain ⟨es, hes⟩ := ReliableStorage.entries_ok l.store low _ maxSize ctx h.stored_contiguous
    hindex hne hlast hctx
  rw [hes, h.stored_entries (by omega) hbelow hlt hes]

/-- An entry of the log is what the log returns for its index. -/
theorem slice_mem [ReliableStorage σ] (h : Represents l a) {e : Entry} (he : e ∈ a.entries) :
    l.slice e.index (e.index + 1) none (.empty false) = some (.ok [e]) := by
  obtain ⟨hlow, hget⟩ := h.contiguous.getElem?_of_mem he
  obtain ⟨hin, hat⟩ := List.getElem?_eq_some_iff.mp hget
  rw [h.slice _ _ _ rfl, AbstractLog.slice, AbstractLog.firstIndex, AbstractLog.lastIndex,
    if_neg (by omega), if_neg (by omega), if_neg (by omega), limitSize_none, between,
    List.drop_eq_getElem_cons hin, hat, Nat.add_sub_cancel_left]
  rfl

theorem mem_of_slice [PagingStorage σ] (h : Represents l a)
    (hslice : l.slice low high maxSize ctx = some (.ok es))
    {e : Entry} (he : e ∈ es) : e ∈ a.entries := by
  have hes := h.slice_eq_ok hslice
  unfold AbstractLog.slice at hes
  split at hes
  · cases hes
  split at hes
  · cases hes
  split at hes
  · cases hes
  · obtain ⟨k, hk⟩ := limitSize_eq_take (a.between low high) maxSize
    rw [hk, Except.ok.injEq] at hes
    rw [← hes] at he
    exact mem_of_mem_drop (mem_of_mem_take (mem_of_mem_take he))

/-- A scan that finds nothing has looked at every entry of its range. -/
theorem scan_clear [PagingStorage σ] (h : Represents l a) {pageSize : ℕ}
    {found : List Entry → Bool} :
    ∀ (fuel low : ℕ), high < low + fuel →
      l.scan pageSize ctx found high fuel low = some (.ok false) →
      ∀ e ∈ a.entries, low ≤ e.index → e.index < high → ∃ page, e ∈ page ∧ found page = false := by
  intro fuel
  induction fuel with
  | zero =>
      intro low hfuel _ e _ hle hlt
      omega
  | succ fuel ih =>
      intro low hfuel hscan e he hle hlt
      rw [RaftLog.scan, if_pos (by omega)] at hscan
      obtain ⟨result, hslice, hscan⟩ := of_bind hscan
      cases result with
      | error err => cases hscan
      | ok es =>
          simp only at hscan
          split at hscan
          · cases hscan
          next hne =>
            split at hscan
            · cases hscan
            next hfound =>
              have hes := h.slice_eq_ok hslice
              unfold AbstractLog.slice AbstractLog.firstIndex at hes
              split at hes
              · cases hes
              split at hes
              · cases hes
              next hlow =>
                split at hes
                · cases hes
                · rw [Except.ok.injEq] at hes
                  obtain ⟨k, hk⟩ := limitSize_eq_take (a.between low high) (some pageSize)
                  rw [hk] at hes
                  have hget := h.contiguous.mem_between (by omega) he hle hlt
                  by_cases hin : e.index - low < es.length
                  · refine ⟨es, ?_, by simpa using hfound⟩
                    rw [← hes, length_take] at hin
                    rw [← hes]
                    refine mem_of_getElem? (i := e.index - low) ?_
                    rw [getElem?_take, if_pos (by omega), hget]
                  · have hpos : 0 < es.length := length_pos_iff.mpr hne
                    exact ih (low + es.length) (by omega) hscan e he (by omega) hlt

/-- A log represents one abstract log. -/
theorem unique (h : Represents l a) {a' : AbstractLog} (h' : Represents l a') : a = a' := by
  have hfirst := h.firstIndex.symm.trans h'.firstIndex
  simp only [AbstractLog.firstIndex, some.injEq, Nat.add_right_cancel_iff] at hfirst
  have hterm : a.term = a'.term := by
    cases hsnapshot : l.unstable.snapshot with
    | none => rw [← (h.plain hsnapshot).2.1, (h'.plain hsnapshot).2.1]
    | some snapshot => rw [(h.pending snapshot hsnapshot).2.1, (h'.pending snapshot hsnapshot).2.1]
  have hentries : a.entries = a'.entries := by
    rw [← take_append_drop (l.unstable.offset - (a.index + 1)) a.entries,
      ← take_append_drop (l.unstable.offset - (a'.index + 1)) a'.entries, ← h.entries,
      ← h'.entries]
    congr 1
    cases hsnapshot : l.unstable.snapshot with
    | none => rw [← (h.plain hsnapshot).2.2, ← (h'.plain hsnapshot).2.2, hfirst]
    | some snapshot =>
        obtain ⟨hindex, -, hoffset⟩ := h.pending snapshot hsnapshot
        obtain ⟨hindex', -, -⟩ := h'.pending snapshot hsnapshot
        rw [show l.unstable.offset - (a.index + 1) = 0 by omega,
          show l.unstable.offset - (a'.index + 1) = 0 by omega]
        rfl
  cases a
  cases a'
  simp only at hfirst hterm hentries
  rw [hfirst, hterm, hentries]

end Represents

end RaftLog

end Raftpp
