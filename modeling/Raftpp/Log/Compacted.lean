import Raftpp.Core.MemoryStorage
import Raftpp.Log.Abstract

/-!
# The in-memory storage as a compacted log

What a storage of entries is for: a log that has forgotten everything up to a point and
holds the entries behind it.  A call either changes that log or is refused.

`MemoryStorage` keeps no such point.  It takes it from its first entry, and from the
metadata of its snapshot when it has no entries.  Three kinds of call come between the
two: entries that are not consecutive are appended all the same; a compaction up to the
last entry empties the storage, which then falls back to an old snapshot; and a local
snapshot from beyond the last entry is refused after the metadata has been replaced.
Every other call does what the log does.
-/

namespace Raftpp

open List

/-- A log that has forgotten the entries up to a point. -/
structure CompactedLog where
  compacted : ℕ
  entries : List Entry
  numbered : NumberedFrom (compacted + 1) entries

/-- The calls that change the entries of a storage. -/
inductive MemoryCall
  | append (ents : List Entry)
  | compact (index : ℕ)
  | applySnapshot (snapshot : Snapshot)
  | applyLocalSnapshot (snapshot : Snapshot)
  deriving DecidableEq

/-! ## The log -/

namespace CompactedLog

def first (a : CompactedLog) : ℕ := a.compacted + 1

def last (a : CompactedLog) : ℕ := a.compacted + a.entries.length

/-- Entries replace those from their first index on; they follow the log and each other. -/
def append (a : CompactedLog) (ents : List Entry) : Option CompactedLog :=
  match ents with
  | [] => some a
  | e :: es =>
      if h : (a.first ≤ e.index ∧ e.index ≤ a.last + 1) ∧ NumberedFrom e.index (e :: es) then
        some
          { compacted := a.compacted
            entries := a.entries.take (e.index - a.first) ++ e :: es
            numbered := by
              refine (a.numbered.take _).append ?_
              have hlength : a.compacted + 1 + (a.entries.take (e.index - a.first)).length =
                  e.index := by
                have hbounds := h.1
                rw [length_take]
                simp only [first, last] at *
                omega
              rw [hlength]
              exact h.2 }
      else none

/-- The log without the first entries. -/
def drop (a : CompactedLog) (n : ℕ) : CompactedLog where
  compacted := a.compacted + n
  entries := a.entries.drop n
  numbered := by
    have hdrop := a.numbered.drop n
    rwa [Nat.add_right_comm] at hdrop

/-- An empty log behind a point. -/
def behind (index : ℕ) : CompactedLog where
  compacted := index
  entries := []
  numbered := .nil _

/-- What a call does to the log; `none` if it is refused. -/
def call (a : CompactedLog) : MemoryCall → Option CompactedLog
  | .append ents => a.append ents
  | .compact index =>
      if index ≤ a.first then some a
      else if index ≤ a.last + 1 then some (a.drop (index - a.first))
      else none
  | .applySnapshot snapshot =>
      if snapshot.metadata.index < a.first then none else some (behind snapshot.metadata.index)
  | .applyLocalSnapshot snapshot =>
      if snapshot.metadata.index < a.first then none
      else if snapshot.metadata.index ≤ a.last then
        some (a.drop (snapshot.metadata.index - a.compacted))
      else if a.entries = [] then some (behind snapshot.metadata.index)
      else none

/-- The log after a call. -/
def after (a : CompactedLog) (c : MemoryCall) : CompactedLog := (a.call c).getD a

/-- The log after some calls. -/
def run (a : CompactedLog) (calls : List MemoryCall) : CompactedLog := calls.foldl after a

end CompactedLog

/-! ## The storage -/

namespace MemoryStorage

/-- One call. -/
def call (s : MemoryStorage) : MemoryCall → MemoryStorage × Result Unit
  | .append ents => s.append ents
  | .compact index => s.compact index
  | .applySnapshot snapshot => s.applySnapshot snapshot
  | .applyLocalSnapshot snapshot => s.applyLocalSnapshot snapshot

/-- The storage after some calls. -/
def run (s : MemoryStorage) (calls : List MemoryCall) : MemoryStorage :=
  calls.foldl (fun s c => (s.call c).1) s

/-- The call does to the storage what it does to the log. -/
structure Keeps (a : CompactedLog) (s : MemoryStorage) (c : MemoryCall) : Prop where
  contiguous : ∃ i, NumberedFrom i (s.call c).1.entries
  compact : ∀ i, c = .compact i → (s.call c).1.lastIndex = s.lastIndex ∧
    ∀ e ∈ s.entries, i ≤ e.index → e ∈ (s.call c).1.entries
  entries : (s.call c).1.entries = (a.after c).entries
  firstIndex : (s.call c).1.firstIndex = (a.after c).first
  lastIndex : (s.call c).1.lastIndex = (a.after c).last
  refused : (∃ e, (s.call c).2 = .error e) → (s.call c).1 = s

/-- The calls that the storage does not handle as the log does: entries that are taken but are not
consecutive, a compaction of all entries, and a local snapshot from beyond the last entry. -/
def Breaks (s : MemoryStorage) : MemoryCall → Prop
  | .append ents => ∃ e es, ents = e :: es ∧ s.firstIndex ≤ e.index ∧ e.index ≤ s.lastIndex + 1 ∧
      ¬NumberedFrom e.index ents
  | .compact index => s.entries ≠ [] ∧ index = s.lastIndex + 1
  | .applySnapshot _ => False
  | .applyLocalSnapshot snapshot => s.entries ≠ [] ∧ s.lastIndex < snapshot.metadata.index

instance (s : MemoryStorage) : (c : MemoryCall) → Decidable (s.Breaks c)
  | .append [] => isFalse (by rintro ⟨e, es, hnil, -⟩; cases hnil)
  | .append (e :: es) =>
      decidable_of_iff
        (s.firstIndex ≤ e.index ∧ e.index ≤ s.lastIndex + 1 ∧ ¬NumberedFrom e.index (e :: es))
        ⟨fun h => ⟨e, es, rfl, h⟩, by rintro ⟨e', es', heq, h⟩; cases heq; exact h⟩
  | .compact index => inferInstanceAs (Decidable (s.entries ≠ [] ∧ index = s.lastIndex + 1))
  | .applySnapshot _ => isFalse id
  | .applyLocalSnapshot snapshot =>
      inferInstanceAs (Decidable (s.entries ≠ [] ∧ s.lastIndex < snapshot.metadata.index))

/-- None of the calls is one of those. -/
def Unbroken : MemoryStorage → List MemoryCall → Prop
  | _, [] => True
  | s, c :: calls => ¬s.Breaks c ∧ Unbroken (s.call c).1 calls

instance instDecidableUnbroken :
    (s : MemoryStorage) → (calls : List MemoryCall) → Decidable (s.Unbroken calls)
  | _, [] => isTrue trivial
  | s, c :: calls =>
      letI := instDecidableUnbroken (s.call c).1 calls
      inferInstanceAs (Decidable (¬s.Breaks c ∧ Unbroken (s.call c).1 calls))

/-- The storage holds the log. -/
structure Represents (s : MemoryStorage) (a : CompactedLog) : Prop where
  entries : s.entries = a.entries
  point : s.snapshotMetadata.index ≤ a.compacted
  empty : s.entries = [] → s.snapshotMetadata.index = a.compacted

section Represents

variable {s : MemoryStorage} {a : CompactedLog} {snapshot : Snapshot}

theorem Represents.first (h : Represents s a) : s.firstIndex = a.first := by
  unfold firstIndex
  cases hhead : s.entries.head? with
  | none => exact congrArg (· + 1) (h.empty (head?_eq_none_iff.mp hhead))
  | some e =>
      rw [head?_eq_getElem?, h.entries] at hhead
      exact a.numbered 0 e hhead

theorem Represents.last (h : Represents s a) : s.lastIndex = a.last := by
  unfold lastIndex CompactedLog.last
  cases hlast : s.entries.getLast? with
  | none =>
      have hnil := getLast?_eq_none_iff.mp hlast
      rw [← h.entries, hnil, h.empty hnil]
      rfl
  | some e =>
      have hpos : 0 < s.entries.length := by
        rw [length_pos_iff]
        rintro hnil
        simp [hnil] at hlast
      rw [getLast?_eq_getElem?, h.entries] at hlast
      rw [h.entries] at hpos
      have hindex := a.numbered _ e hlast
      dsimp only
      omega

theorem Represents.index_eq (h : Represents s a) {e : Entry} {es : List Entry}
    (hentries : s.entries = e :: es) : e.index = a.first :=
  a.numbered 0 e (by rw [← h.entries, hentries]; rfl)

/-- A storage that holds the log after a call has done what the log does. -/
theorem Represents.keeps {c : MemoryCall} (h : Represents (s.call c).1 (a.after c))
    (hcompact : ∀ i, c = .compact i → (s.call c).1.lastIndex = s.lastIndex ∧
      ∀ e ∈ s.entries, i ≤ e.index → e ∈ (s.call c).1.entries)
    (hrefused : (∃ e, (s.call c).2 = .error e) → (s.call c).1 = s) : Keeps a s c where
  contiguous := ⟨_, h.entries ▸ (a.after c).numbered⟩
  compact := hcompact
  entries := h.entries
  firstIndex := h.first
  lastIndex := h.last
  refused := hrefused

/-! ## Calls that are handled -/

/-- An accepted call is not refused. -/
theorem of_ok_eq_error {P : Prop} (h : ∃ e, (.ok () : Result Unit) = .error e) : P := by
  obtain ⟨e, he⟩ := h
  cases he

/-- Compaction of a storage that has entries. -/
theorem compact_cons {e : Entry} {es : List Entry} (hentries : s.entries = e :: es) {i : ℕ}
    (hlast : i ≤ s.lastIndex + 1) :
    s.compact i = ({ s with entries := s.entries.drop (i - e.index) }, .ok ()) := by
  have hfirst : s.firstIndex = e.index := by rw [firstIndex, hentries]; rfl
  unfold MemoryStorage.compact
  rw [hfirst]
  split
  next hle => rw [Nat.sub_eq_zero_of_le hle, drop_zero]
  · rw [if_neg (by omega), hentries]
    rfl

theorem Represents.append (h : Represents s a) {ents : List Entry} (hc : ¬s.Breaks (.append ents)) :
    Represents (s.append ents).1 (a.after (.append ents)) ∧
      ((∃ e, (s.append ents).2 = .error e) → (s.append ents).1 = s) := by
  cases ents with
  | nil => exact ⟨h, fun _ => rfl⟩
  | cons e es =>
      unfold MemoryStorage.append CompactedLog.after CompactedLog.call CompactedLog.append
      dsimp only
      rw [h.first, h.last]
      by_cases hbounds : a.first ≤ e.index ∧ e.index ≤ a.last + 1
      · have hnumbered : NumberedFrom e.index (e :: es) := by
          by_contra hnot
          exact hc ⟨e, es, rfl, h.first ▸ hbounds.1, h.last ▸ hbounds.2, hnot⟩
        rw [if_neg (by omega), if_neg (by omega), dif_pos ⟨hbounds, hnumbered⟩]
        refine ⟨⟨?_, h.point, fun hnil => absurd hnil (by simp)⟩, of_ok_eq_error⟩
        rw [h.entries]
        rfl
      · -- refused by either of the two checks
        rw [dif_neg fun hall => hbounds hall.1]
        split
        · exact ⟨h, fun _ => rfl⟩
        · rw [if_pos (by omega)]
          exact ⟨h, fun _ => rfl⟩

/-- Entries in front of a position are not those from an index on. -/
theorem Represents.mem_drop (h : Represents s a) {n : ℕ} {e : Entry} (he : e ∈ s.entries)
    (hindex : a.first + n ≤ e.index) : e ∈ s.entries.drop n := by
  obtain ⟨k, hk, rfl⟩ := mem_iff_getElem.mp he
  have hnumber := a.numbered k s.entries[k]
    (by rw [← h.entries]; exact getElem?_eq_getElem hk)
  rw [mem_iff_getElem]
  have hle : n ≤ k := by
    simp only [CompactedLog.first] at hindex
    omega
  refine ⟨k - n, by rw [length_drop]; omega, ?_⟩
  rw [getElem_drop]
  congr 1
  omega

theorem Represents.compact (h : Represents s a) {i : ℕ} (hc : ¬s.Breaks (.compact i)) :
    Represents (s.compact i).1 (a.after (.compact i)) ∧
      ((∃ e, (s.compact i).2 = .error e) → (s.compact i).1 = s) ∧
      (s.compact i).1.lastIndex = s.lastIndex ∧
      ∀ e ∈ s.entries, i ≤ e.index → e ∈ (s.compact i).1.entries := by
  unfold CompactedLog.after CompactedLog.call
  dsimp only
  by_cases hfirst : i ≤ a.first
  · have hsame : s.compact i = (s, .ok ()) := by
      rw [MemoryStorage.compact, h.first, if_pos hfirst]
    rw [hsame, if_pos hfirst]
    exact ⟨h, fun _ => rfl, rfl, fun _ he _ => he⟩
  by_cases hlast : i ≤ a.last + 1
  · rw [if_neg hfirst, if_pos hlast]
    cases hentries : s.entries with
    | nil =>
        -- an empty storage has nothing between its first index and the one behind its last
        have hlength : a.entries.length = 0 := by rw [← h.entries, hentries]; rfl
        simp only [CompactedLog.first, CompactedLog.last] at hfirst hlast
        omega
    | cons e es =>
        have hbehind : i ≤ a.last := by
          by_contra hnot
          refine hc ⟨by rw [hentries]; simp, ?_⟩
          rw [h.last]
          omega
        have hdropped : s.entries.drop (i - a.first) ≠ [] := by
          rw [Ne, drop_eq_nil_iff, h.entries, not_le]
          simp only [CompactedLog.first, CompactedLog.last] at *
          omega
        rw [compact_cons hentries (h.last ▸ hlast), h.index_eq hentries, ← hentries]
        have hrep : Represents { s with entries := s.entries.drop (i - a.first) }
            (a.drop (i - a.first)) :=
          ⟨congrArg (List.drop _) h.entries, h.point.trans (Nat.le_add_right _ _),
            fun hnil => absurd hnil hdropped⟩
        refine ⟨hrep, of_ok_eq_error, ?_, fun f hf hif => h.mem_drop hf (by omega)⟩
        rw [hrep.last, h.last]
        simp only [CompactedLog.last, CompactedLog.drop, length_drop, CompactedLog.first] at *
        omega
  · have hsame : (s.compact i).1 = s := by
      rw [MemoryStorage.compact, h.first, h.last, if_neg hfirst, if_pos (by omega)]
    rw [hsame, if_neg hfirst, if_neg hlast]
    exact ⟨h, fun _ => rfl, rfl, fun _ he _ => he⟩

theorem Represents.applySnapshot (h : Represents s a) (snapshot : Snapshot) :
    Represents (s.applySnapshot snapshot).1 (a.after (.applySnapshot snapshot)) ∧
      ((∃ e, (s.applySnapshot snapshot).2 = .error e) → (s.applySnapshot snapshot).1 = s) := by
  unfold MemoryStorage.applySnapshot CompactedLog.after CompactedLog.call
  dsimp only
  rw [h.first]
  split
  · exact ⟨h, fun _ => rfl⟩
  · exact ⟨⟨rfl, le_rfl, fun _ => rfl⟩, of_ok_eq_error⟩

/-- The storage in which `ApplyLocalSnapshot` compacts. -/
def renewed (s : MemoryStorage) (snapshot : Snapshot) : MemoryStorage :=
  { s with
    snapshotMetadata := snapshot.metadata
    hardState :=
      { s.hardState with
        term := max s.hardState.term snapshot.metadata.term
        commit := if s.hardState.commit < snapshot.metadata.index then snapshot.metadata.index
          else s.hardState.commit }
    confState := snapshot.metadata.confState }

theorem applyLocalSnapshot_renewed (h : ¬s.firstIndex > snapshot.metadata.index) :
    s.applyLocalSnapshot snapshot =
      (s.renewed snapshot).compact (snapshot.metadata.index + 1) := by
  rw [MemoryStorage.applyLocalSnapshot, if_neg h]
  rfl

theorem Represents.applyLocalSnapshot (h : Represents s a)
    (hc : ¬s.Breaks (.applyLocalSnapshot snapshot)) :
    Represents (s.applyLocalSnapshot snapshot).1 (a.after (.applyLocalSnapshot snapshot)) ∧
      ((∃ e, (s.applyLocalSnapshot snapshot).2 = .error e) →
        (s.applyLocalSnapshot snapshot).1 = s) := by
  unfold CompactedLog.after CompactedLog.call
  dsimp only
  by_cases hfirst : snapshot.metadata.index < a.first
  · have hsame : (s.applyLocalSnapshot snapshot).1 = s := by
      rw [MemoryStorage.applyLocalSnapshot, if_pos (by rw [h.first]; exact hfirst)]
    rw [hsame, if_pos hfirst]
    exact ⟨h, fun _ => rfl⟩
  rw [if_neg hfirst, applyLocalSnapshot_renewed (by rw [h.first]; exact hfirst)]
  cases hentries : s.entries with
  | nil =>
      have hnil : a.entries = [] := by rw [← h.entries, hentries]
      have hbeyond : ¬snapshot.metadata.index ≤ a.last := by
        simp only [CompactedLog.first, CompactedLog.last, hnil, length_nil] at *
        omega
      have hsame : (s.renewed snapshot).compact (snapshot.metadata.index + 1) =
          (s.renewed snapshot, .ok ()) := by
        have hindex : (s.renewed snapshot).firstIndex = snapshot.metadata.index + 1 := by
          rw [firstIndex, show (s.renewed snapshot).entries = [] from hentries]
          rfl
        rw [MemoryStorage.compact, hindex, if_pos le_rfl]
      rw [hsame, if_neg hbeyond, if_pos hnil]
      exact ⟨⟨hentries, le_rfl, fun _ => rfl⟩, of_ok_eq_error⟩
  | cons e es =>
      have hlast : snapshot.metadata.index ≤ a.last := by
        by_contra hnot
        exact hc ⟨by rw [hentries]; simp, by rw [h.last]; omega⟩
      have hlastIndex : (s.renewed snapshot).lastIndex = a.last := by
        have hsame : (s.renewed snapshot).lastIndex = s.lastIndex :=
          lastIndex_congr (by rw [hentries]; simp) rfl
        rw [hsame, h.last]
      have hdrop : snapshot.metadata.index + 1 - a.first =
          snapshot.metadata.index - a.compacted := by
        simp only [CompactedLog.first]
        omega
      have hsum : a.compacted + (snapshot.metadata.index - a.compacted) =
          snapshot.metadata.index := by
        simp only [CompactedLog.first] at hfirst
        omega
      rw [compact_cons (show (s.renewed snapshot).entries = e :: es from hentries)
        (by rw [hlastIndex]; omega), h.index_eq hentries, hdrop, if_pos hlast]
      refine ⟨⟨congrArg (List.drop _) h.entries, hsum.ge, fun _ => hsum.symm⟩, of_ok_eq_error⟩

/-! ## Calls that are not -/

theorem append_breaks {ents : List Entry} (hb : s.Breaks (.append ents)) :
    ¬Keeps a s (.append ents) := by
  obtain ⟨e, es, rfl, hfirst, hlast, hnot⟩ := hb
  intro hkeeps
  obtain ⟨i, hi⟩ := hkeeps.contiguous
  have hentries : (s.append (e :: es)).1.entries =
      s.entries.take (e.index - s.firstIndex) ++ e :: es := by
    rw [MemoryStorage.append, if_neg (by omega), if_neg (by omega)]
  -- what is behind the old entries would be numbered too
  have hbehind := hi.drop (s.entries.take (e.index - s.firstIndex)).length
  rw [show (s.call (.append (e :: es))).1 = (s.append (e :: es)).1 from rfl, hentries,
    drop_left] at hbehind
  exact hnot (hbehind.head ▸ hbehind)

theorem Represents.compact_breaks (h : Represents s a) {i : ℕ} (hb : s.Breaks (.compact i)) :
    ¬Keeps a s (.compact i) := by
  obtain ⟨hne, rfl⟩ := hb
  intro hkeeps
  obtain ⟨e, es, hentries⟩ := exists_cons_of_ne_nil hne
  have hsame := (hkeeps.compact _ rfl).1
  have hlength : a.last + 1 - a.first = s.entries.length := by
    simp only [CompactedLog.first, CompactedLog.last, ← h.entries]
    omega
  rw [show s.call (.compact (s.lastIndex + 1)) = s.compact (s.lastIndex + 1) from rfl,
    compact_cons hentries le_rfl, h.index_eq hentries, h.last, hlength, drop_length] at hsame
  have hpoint : s.snapshotMetadata.index = a.last := hsame
  have hpos : 0 < a.entries.length := by rw [← h.entries, hentries]; simp
  have hle := h.point
  simp only [CompactedLog.last] at hpoint
  omega

theorem Represents.applyLocalSnapshot_breaks (h : Represents s a)
    (hb : s.Breaks (.applyLocalSnapshot snapshot)) : ¬Keeps a s (.applyLocalSnapshot snapshot) := by
  obtain ⟨hne, hbeyond⟩ := hb
  intro hkeeps
  have hlast := h.last
  have hfirst : ¬s.firstIndex > snapshot.metadata.index := by
    have hpos : 0 < a.entries.length := by rw [← h.entries]; exact length_pos_iff.mpr hne
    rw [h.first]
    simp only [CompactedLog.first, CompactedLog.last] at *
    omega
  have hlastIndex : (s.renewed snapshot).lastIndex = s.lastIndex :=
    lastIndex_congr hne rfl
  have hrefused : s.applyLocalSnapshot snapshot =
      (s.renewed snapshot, .error (.fatal
        (s!"compact not received raft logs, compact_index={snapshot.metadata.index + 1}" ++
          s!" last_index={s.lastIndex}"))) := by
    have hindex : (s.renewed snapshot).firstIndex = s.firstIndex := by
      obtain ⟨e, es, hentries⟩ := exists_cons_of_ne_nil hne
      rw [firstIndex, firstIndex, show (s.renewed snapshot).entries = s.entries from rfl, hentries]
      rfl
    rw [applyLocalSnapshot_renewed hfirst, MemoryStorage.compact, hindex, hlastIndex,
      if_neg (by omega), if_pos (by omega)]
  have hsame := hkeeps.refused ⟨_, congrArg Prod.snd hrefused⟩
  rw [show s.call (.applyLocalSnapshot snapshot) = s.applyLocalSnapshot snapshot from rfl,
    hrefused] at hsame
  have hpoint : snapshot.metadata.index = s.snapshotMetadata.index :=
    congrArg (fun s => s.snapshotMetadata.index) hsame
  have hle := h.point
  simp only [CompactedLog.last] at hlast
  omega

/-! ## Runs -/

/-- A call that is not one of the three is handled, and the storage holds the log after it. -/
theorem Represents.call (h : Represents s a) {c : MemoryCall} (hc : ¬s.Breaks c) :
    Represents (s.call c).1 (a.after c) ∧ Keeps a s c := by
  cases c with
  | append ents =>
      obtain ⟨hrep, hrefused⟩ := h.append hc
      exact ⟨hrep, Represents.keeps hrep (by simp) hrefused⟩
  | compact i =>
      obtain ⟨hrep, hrefused, hlast, hkept⟩ := h.compact hc
      refine ⟨hrep, Represents.keeps hrep ?_ hrefused⟩
      rintro j hj
      cases hj
      exact ⟨hlast, hkept⟩
  | applySnapshot snapshot =>
      obtain ⟨hrep, hrefused⟩ := h.applySnapshot snapshot
      exact ⟨hrep, Represents.keeps hrep (by simp) hrefused⟩
  | applyLocalSnapshot snapshot =>
      obtain ⟨hrep, hrefused⟩ := h.applyLocalSnapshot hc
      exact ⟨hrep, Represents.keeps hrep (by simp) hrefused⟩

theorem Represents.keeps_iff (h : Represents s a) (c : MemoryCall) :
    Keeps a s c ↔ ¬s.Breaks c := by
  refine ⟨fun hkeeps hb => ?_, fun hc => (h.call hc).2⟩
  cases c with
  | append ents => exact append_breaks hb hkeeps
  | compact i => exact h.compact_breaks hb hkeeps
  | applySnapshot snapshot => exact hb
  | applyLocalSnapshot snapshot => exact h.applyLocalSnapshot_breaks hb hkeeps

theorem Represents.run (h : Represents s a) {calls : List MemoryCall} (hcalls : s.Unbroken calls) :
    Represents (s.run calls) (a.run calls) := by
  induction calls generalizing s a with
  | nil => exact h
  | cons c calls ih => exact ih (h.call hcalls.1).1 hcalls.2

/-- Along every sequence of calls from a new storage, without one of the three, the storage holds
the log, and the next call does what it does to the log unless it is one of the three. -/
theorem keeps_log_iff {calls : List MemoryCall} (hcalls : Unbroken {} calls) (c : MemoryCall) :
    Keeps ((CompactedLog.behind 0).run calls) (run {} calls) c ↔ ¬(run {} calls).Breaks c := by
  have hnew : Represents {} (CompactedLog.behind 0) := ⟨rfl, le_rfl, fun _ => rfl⟩
  exact (hnew.run hcalls).keeps_iff c

/-- Three entries, compacted and then replaced from the last one on. -/
theorem keeps_log_compact :
    Unbroken {} [.append [{ index := 1 }, { index := 2 }, { index := 3 }], .compact 2] ∧
      Keeps
        ((CompactedLog.behind 0).run
          [.append [{ index := 1 }, { index := 2 }, { index := 3 }], .compact 2])
        (run {} [.append [{ index := 1 }, { index := 2 }, { index := 3 }], .compact 2])
        (.append [{ index := 3, term := 1 }]) :=
  ⟨by decide +kernel, (keeps_log_iff (by decide +kernel) _).mpr (by decide +kernel)⟩

/-- A compaction of all entries moves the last index back to zero, and a local snapshot that is
refused stays as the metadata. -/
theorem keeps_log_fails :
    Unbroken {} [.append [{ index := 1 }, { index := 2 }]] ∧
      (run {} [.append [{ index := 1 }, { index := 2 }]]).lastIndex = 2 ∧
      ((run {} [.append [{ index := 1 }, { index := 2 }]]).call (.compact 3)).2 = .ok () ∧
      ((run {} [.append [{ index := 1 }, { index := 2 }]]).call (.compact 3)).1.lastIndex = 0 ∧
      (∃ e, ((run {} [.append [{ index := 1 }, { index := 2 }]]).call
        (.applyLocalSnapshot { metadata := { index := 3 } })).2 = .error e) ∧
      ((run {} [.append [{ index := 1 }, { index := 2 }]]).call
        (.applyLocalSnapshot { metadata := { index := 3 } })).1.snapshotMetadata.index = 3 :=
  ⟨by decide +kernel, by decide +kernel, by decide +kernel, by decide +kernel, ⟨_, rfl⟩,
    by decide +kernel⟩

end Represents

end MemoryStorage

end Raftpp
