import Raftpp.Log.Split

/-!
# Slices and scans of the log

`Slice` asks the storage for the part below the unstable entries, adds the unstable
ones and applies the size limit again; `Scan` slices page by page and hands each page
to a callback.  Where the storage pages by `LimitSize`, the first limit cuts only what
the second would cut, so a slice depends on the abstract log alone.  A page is then
never empty, and a scan visits the entries of its range in order, each of them once,
for as long as the callback asks for more.
-/

namespace Raftpp

open List

variable {low high : ℕ}

/-- A callback called on pages in order, until it asks to stop. -/
def feed {β : Type} (scanFn : β → List Entry → β × Bool) : β → List (List Entry) → β
  | state, [] => state
  | state, page :: pages =>
      let next := scanFn state page
      if next.2 then feed scanFn next.1 pages else next.1

/-- A callback that stops at the first page with some property learns whether there is one. -/
theorem feed_found (found : List Entry → Bool) (pages : List (List Entry)) :
    feed (fun _ page => (found page, !found page)) false pages = pages.any found := by
  induction pages with
  | nil => rfl
  | cons page pages ih =>
      rw [feed, any_cons]
      cases hfound : found page with
      | true => rfl
      | false => simpa using ih

theorem feed_collect (pages : List (List Entry)) :
    ∀ seen : List Entry,
      feed (fun seen page => (seen ++ page, true)) seen pages = seen ++ pages.flatten := by
  induction pages with
  | nil => exact fun seen => (append_nil seen).symm
  | cons page pages ih =>
      intro seen
      rw [feed, flatten_cons, ← append_assoc]
      exact ih (seen ++ page)

theorem limitSize_ne_nil [Codec] {es : List Entry} (max : Option ℕ) (hne : es ≠ []) :
    limitSize es max ≠ [] := by
  obtain ⟨k, hk⟩ := limitSize_eq_take es max
  rw [hk]
  intro hnil
  rcases take_eq_nil_iff.mp hnil with hzero | hes
  · exact absurd hzero (by omega)
  · exact hne hes

theorem NumberedFrom.map_index {i : ℕ} {es : List Entry} (h : NumberedFrom i es) :
    es.map Entry.index = List.range' i es.length := by
  induction es generalizing i with
  | nil => rfl
  | cons e es ih => rw [map_cons, length_cons, range'_succ, h.head, ih h.tail]

namespace AbstractLog

variable {a : AbstractLog}

theorem Contiguous.between (h : a.Contiguous) (hlow : a.index < low) (high : ℕ) :
    NumberedFrom low (a.between low high) := by
  have hdrop := (h.drop (low - (a.index + 1))).take (high - low)
  rwa [show a.index + 1 + (low - (a.index + 1)) = low by omega] at hdrop

/-- A page is a prefix of its range, and what comes after it is the range from there on. -/
theorem limitSize_append_between [Codec] (max : Option ℕ) (hlow : a.index < low) (hle : low ≤ high)
    (hhigh : high ≤ a.lastIndex + 1) :
    low + (limitSize (a.between low high) max).length ≤ high ∧
      limitSize (a.between low high) max ++
        a.between (low + (limitSize (a.between low high) max).length) high =
          a.between low high := by
  obtain ⟨k, hk⟩ := limitSize_eq_take (a.between low high) max
  have hlength := length_between hlow hhigh
  have hpage : (limitSize (a.between low high) max).length = min (k + 1) (high - low) := by
    rw [hk, length_take, hlength]
  refine ⟨by omega, ?_⟩
  rw [hpage, AbstractLog.between_append hlow (show low ≤ low + min (k + 1) (high - low) by omega)
    (show _ ≤ high by omega), append_left_inj, ← AbstractLog.between_append hlow (by omega)
      (by omega), hk]
  unfold AbstractLog.between
  rw [take_take]
  congr 1
  omega

end AbstractLog

namespace RaftLog

variable {σ : Type} [WritableStorage σ] [Codec] [LawfulStorage σ]

namespace Represents

variable {l : RaftLog σ} {a : AbstractLog} {ctx : GetEntriesContext}

omit l a in
theorem obeysLimitSize_of_reliable [ReliableStorage σ] {s : σ}
    (h : (LawfulStorage.view s).Contiguous) (hctx : ctx.canAsync = false) :
    ObeysLimitSize s ctx := by
  intro low high max hlow hlt hhigh
  obtain ⟨es, hes⟩ := ReliableStorage.entries_ok s low high max ctx h hlow hlt hhigh hctx
  rw [hes, PagingStorage.entries_eq s low high max ctx es h hlow hlt hhigh hes]

/-- Over a storage that pages by `LimitSize`, a slice is a page of the abstract log. -/
theorem slice_between (h : Represents l a) (hread : ObeysLimitSize l.store ctx) (maxSize : Option ℕ)
    (hlow : a.index < low) (hle : low ≤ high) (hhigh : high ≤ a.lastIndex + 1) :
    l.slice low high maxSize ctx = some (.ok (limitSize (a.between low high) maxSize)) := by
  refine h.slice_of_stored hlow hle hhigh fun hbelow hlt => ?_
  obtain ⟨hindex, hne, hlast⟩ := h.stored_range hlow hbelow hlt
  rw [← h.stored_slice (h.snapshot_eq_none hlow hbelow) hlow (min_le_right _ _)]
  exact hread low _ maxSize hindex hne hlast

/-- The pages of a range, which do not depend on the callback. -/
theorem scanWith_pages (h : Represents l a) (hread : ObeysLimitSize l.store ctx) (pageSize : ℕ)
    (hhigh : high ≤ a.lastIndex + 1) :
    ∀ (n low : ℕ), high < low + n → a.index < low → low ≤ high →
      ∃ pages : List (List Entry), (∀ page ∈ pages, page ≠ []) ∧
        pages.flatten = a.between low high ∧
        ∀ (β : Type) (scanFn : β → List Entry → β × Bool) (state : β) (fuel : ℕ),
          high < low + fuel →
          l.scanWith pageSize ctx scanFn high fuel low state =
            some (.ok (), feed scanFn state pages) := by
  -- on the number of entries left: a page has at least one of them
  intro n
  induction n with
  | zero =>
      intro low hn _ hle
      omega
  | succ n ih =>
      intro low hn hlow hle
      by_cases hdone : low = high
      · refine ⟨[], by simp, by simp [AbstractLog.between, hdone], ?_⟩
        intro β scanFn state fuel hfuel
        cases fuel with
        | zero => omega
        | succ fuel => rw [scanWith, if_neg (by omega), feed]
      have hslice := h.slice_between hread (some pageSize) hlow hle hhigh
      have hlength := AbstractLog.length_between hlow hhigh
      have hpage : limitSize (a.between low high) (some pageSize) ≠ [] := by
        refine limitSize_ne_nil _ fun hnil => ?_
        rw [hnil, length_nil] at hlength
        omega
      have hpos := length_pos_iff.mpr hpage
      obtain ⟨hbound, hrest⟩ :=
        AbstractLog.limitSize_append_between (some pageSize) hlow hle hhigh
      obtain ⟨pages, hpages, hflatten, hscan⟩ := ih _ (by omega) (by omega) hbound
      refine ⟨limitSize (a.between low high) (some pageSize) :: pages, ?_, ?_, ?_⟩
      · intro page hmem
        rcases mem_cons.mp hmem with rfl | hmem
        · exact hpage
        · exact hpages page hmem
      · rw [flatten_cons, hflatten, hrest]
      · intro β scanFn state fuel hfuel
        cases fuel with
        | zero => omega
        | succ fuel =>
            rw [scanWith, if_pos (by omega), hslice]
            simp only [Option.bind_eq_bind, Option.bind_some, if_neg hpage, feed]
            split
            · exact hscan β scanFn _ fuel (by omega)
            · rfl

end Represents

omit [LawfulStorage σ] in
/-- The scan for a page with some property is a scan whose callback remembers the answer. -/
theorem scan_eq_scanWith (l : RaftLog σ) (pageSize : ℕ) (ctx : GetEntriesContext)
    (found : List Entry → Bool) (high : ℕ) :
    ∀ (fuel low : ℕ), high - low < fuel →
      l.scan pageSize ctx found high fuel low =
        (l.scanWith pageSize ctx (fun _ page => (found page, !found page)) high fuel low
          false).map fun out => out.1.map fun _ => out.2 := by
  intro fuel
  induction fuel with
  | zero =>
      intro low hfuel
      omega
  | succ fuel ih =>
      intro low hfuel
      rw [scan, scanWith]
      split
      next hlt =>
        cases hslice : l.slice low high (some pageSize) ctx with
        | none => rfl
        | some result =>
            cases result with
            | error e => rfl
            | ok ents =>
                simp only [Option.bind_eq_bind, Option.bind_some]
                split
                · rfl
                next hne =>
                  have hpos := length_pos_iff.mpr hne
                  cases hfound : found ents with
                  | true => rfl
                  | false =>
                      simp only [Bool.false_eq_true, if_false, Bool.not_false, if_true]
                      exact ih (low + ents.length) (by omega)
      · rfl

/-- Inside the log, a scan for a page with an entry of some kind finds one if there is one. -/
theorem Represents.scan_any [ReliableStorage σ] {l : RaftLog σ} {a : AbstractLog}
    {ctx : GetEntriesContext} (h : Represents l a) (hctx : ctx.canAsync = false) (pageSize : ℕ)
    (kind : Entry → Bool) {fuel : ℕ} (hlow : a.index < low) (hle : low ≤ high)
    (hhigh : high ≤ a.lastIndex + 1) (hfuel : high - low < fuel) :
    l.scan pageSize ctx (fun page => page.any kind) high fuel low =
      some (.ok ((a.between low high).any kind)) := by
  obtain ⟨pages, -, hflatten, hscan⟩ := h.scanWith_pages
    (obeysLimitSize_of_reliable h.stored_contiguous hctx) pageSize hhigh fuel low (by omega) hlow
    hle
  rw [scan_eq_scanWith l pageSize ctx _ high fuel low hfuel, hscan _ _ _ _ (by omega), feed_found,
    ← hflatten, any_flatten]
  rfl

/-- A slice is what the size limit leaves of the entries asked for, and at least one of them;
a scan passes them to its callback, each once and in order, until the callback stops it. -/
theorem slice_and_scan {l : RaftLog σ} {a : AbstractLog} {ctx : GetEntriesContext}
    (h : Represents l a) (hread : ObeysLimitSize l.store ctx) {first last low high : ℕ}
    (hfirst : l.firstIndex = some first) (hlast : l.lastIndex = some last) (hlow : first ≤ low)
    (hle : low ≤ high) (hhigh : high ≤ last + 1) :
    (a.between low high).map Entry.index = List.range' low (high - low) ∧
      (∀ e ∈ a.entries, low ≤ e.index → e.index < high → e ∈ a.between low high) ∧
      (∀ maxSize : Option ℕ,
        l.slice low high maxSize ctx = some (.ok (limitSize (a.between low high) maxSize)) ∧
          limitSize (a.between low high) maxSize <+: a.between low high ∧
          (low < high → limitSize (a.between low high) maxSize ≠ [])) ∧
      ∀ pageSize : ℕ, ∃ pages : List (List Entry), (∀ page ∈ pages, page ≠ []) ∧
        pages.flatten = a.between low high ∧
        ∀ (β : Type) (scanFn : β → List Entry → β × Bool) (state : β) (fuel : ℕ),
          high - low < fuel →
          l.scanWith pageSize ctx scanFn high fuel low state =
            some (.ok (), feed scanFn state pages) := by
  have hpoint : a.index < low := by
    have heq := hfirst.symm.trans h.firstIndex
    rw [Option.some.injEq, AbstractLog.firstIndex] at heq
    omega
  have hend : high ≤ a.lastIndex + 1 := by
    have heq := hlast.symm.trans h.lastIndex
    rw [Option.some.injEq] at heq
    omega
  have hlength := AbstractLog.length_between hpoint hend
  refine ⟨?_, ?_, ?_, ?_⟩
  · have hindexes := (h.contiguous.between hpoint high).map_index
    rwa [hlength] at hindexes
  · intro e he hge hlt
    exact mem_of_getElem? (h.contiguous.mem_between hpoint he hge hlt)
  · intro maxSize
    refine ⟨h.slice_between hread maxSize hpoint hle hend, ?_, ?_⟩
    · obtain ⟨k, hk⟩ := limitSize_eq_take (a.between low high) maxSize
      rw [hk]
      exact take_prefix _ _
    · intro hlt
      refine limitSize_ne_nil _ fun hnil => ?_
      rw [hnil, length_nil] at hlength
      omega
  · intro pageSize
    obtain ⟨pages, hpages, hflatten, hscan⟩ :=
      h.scanWith_pages hread pageSize hend (high - low + 1) low (by omega) hpoint hle
    exact ⟨pages, hpages, hflatten, fun β scanFn state fuel hfuel =>
      hscan β scanFn state fuel (by omega)⟩

end RaftLog

namespace RaftLog

/-- Two entries of three are stored. -/
def twoOfThree : RaftLog MemoryStorage where
  store := LogState.twoStored
  unstable := { offset := 3, entries := [{ term := 2, index := 3 }] }
  committed := 0
  persisted := 2
  applied := 0
  maxApplyUnpersistedLogLimit := 0

theorem twoOfThree_represents [Codec] :
    Represents twoOfThree ⟨0, 0, LogState.twoStored.entries ++ [{ term := 2, index := 3 }]⟩ := by
  refine ⟨show NumberedFrom 1 LogState.twoStored.entries by decide,
    show NumberedFrom 1 _ by decide, by decide, by decide, by decide,
    ?_, fun _ => ⟨rfl, rfl, rfl⟩, ?_⟩
  · intro snapshot hsnapshot
    cases hsnapshot
  · intro _ hempty
    cases hempty

/-- With pages of no bytes, a slice across the boundary has one entry, and a scan that collects
what it is given collects all three. -/
theorem slice_and_scan_two_of_three :
    letI : Codec := { Codec.plain with entrySize := fun e => e.data.length + 8 }
    twoOfThree.slice 1 4 (some 0) (.empty false) = some (.ok [{ term := 1, index := 1 }]) ∧
      twoOfThree.scanWith 0 (.empty false) (fun seen page => (seen ++ page, true)) 4 4 1 [] =
        some (.ok (), LogState.twoStored.entries ++ [{ term := 2, index := 3 }]) := by
  let _ : Codec := { Codec.plain with entrySize := fun e => e.data.length + 8 }
  have hread : ObeysLimitSize LogState.twoStored (.empty false) :=
    MemoryStorage.obeysLimitSize (s := LogState.twoStored) (show NumberedFrom 1 _ by decide)
      (by decide)
  obtain ⟨-, -, hslice, hscan⟩ := slice_and_scan twoOfThree_represents hread
    (show _ = some 1 by decide) (show _ = some 3 by decide) (show 1 ≤ 1 by decide)
    (show 1 ≤ 4 by decide) (by decide)
  obtain ⟨pages, -, hflatten, hscan⟩ := hscan 0
  refine ⟨(hslice (some 0)).1.trans (by decide), ?_⟩
  rw [hscan _ _ _ 4 (by decide), feed_collect, hflatten]
  decide

end RaftLog

end Raftpp
