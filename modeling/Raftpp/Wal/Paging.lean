import Raftpp.Core.MemoryStorage
import Raftpp.Wal.Holds
import Raftpp.Wal.Storage

/-!
# Pages of the two storages

`MemoryStorage::Entries` ends a page before the first entry that would exceed the
limit, `WAL::ReadEntries` behind the first entry that reaches it.  The pages are the
same unless the limit falls inside an entry that is not the first.
-/

namespace Raftpp

open Codec

variable {es : List Entry} {max total : ℕ}

open List

section Pages

variable [Codec]

/-- The encoded size of some entries. -/
def entriesSize (es : List Entry) : ℕ := (es.map entrySize).sum

@[simp]
theorem entriesSize_nil : entriesSize [] = 0 := rfl

@[simp]
theorem entriesSize_cons (e : Entry) (es : List Entry) :
    entriesSize (e :: es) = entrySize e + entriesSize es := by simp [entriesSize]

/-- With `total` bytes before them, the limit falls strictly inside one of some entries. -/
def FallsInside (max total : ℕ) (es : List Entry) : Prop :=
  ∃ k < es.length, total + entriesSize (es.take k) < max ∧
    max < total + entriesSize (es.take (k + 1))

theorem fallsInside_cons {e : Entry} :
    FallsInside max total (e :: es) ↔
      (total < max ∧ max < total + entrySize e) ∨
        FallsInside max (total + entrySize e) es := by
  constructor
  · rintro ⟨k, hk, hlow, hhigh⟩
    cases k with
    | zero => exact Or.inl (by simpa using And.intro hlow hhigh)
    | succ k =>
        simp only [take_succ_cons, entriesSize_cons, ← Nat.add_assoc] at hlow hhigh
        exact Or.inr ⟨k, by simpa using hk, hlow, hhigh⟩
  · rintro (⟨hlow, hhigh⟩ | ⟨k, hk, hlow, hhigh⟩)
    · exact ⟨0, by simp, by simpa using hlow, by simpa using hhigh⟩
    · refine ⟨k + 1, by simpa using hk, ?_, ?_⟩ <;>
        simpa only [take_succ_cons, entriesSize_cons, ← Nat.add_assoc]

/-- Where the two ways to end a page agree.  The largest limit is no limit for `LimitSize`. -/
def SamePage (maxSize : Option ℕ) (es : List Entry) : Prop :=
  match maxSize, es with
  | some max, e :: es =>
      if max = kNoLimit then entriesSize (e :: es).dropLast < max
      else ¬FallsInside max (entrySize e) es
  | _, _ => True

end Pages

section Compare

variable [WalCodec] [LawfulWalCodec]

theorem entrySize_pos (e : Entry) : 0 < entrySize e := by
  rw [LawfulWalCodec.entrySize_eq]
  exact LawfulWalCodec.entryBytes_pos e

namespace Wal

/-- Behind a first entry: the page goes on while the limit is not reached. -/
theorem page_eq_limitSizeLoop_iff :
    (if total ≥ max then [] else page (some max) total es) = limitSizeLoop max total es ↔
      ¬FallsInside max total es := by
  induction es generalizing total with
  | nil => simp [page, limitSizeLoop, FallsInside]
  | cons e es ih =>
      have hpos := entrySize_pos e
      rw [fallsInside_cons, not_or, limitSizeLoop, page]
      by_cases hreached : total ≥ max
      · -- nothing follows in either page, and the limit is behind
        have hpast : ¬FallsInside max (total + entrySize e) es := by
          rintro ⟨k, -, hlow, -⟩
          omega
        simp only [if_pos hreached, if_pos (show total + entrySize e > max by omega),
          hpast, not_false_eq_true, and_true, true_iff]
        omega
      by_cases hinside : total + entrySize e > max
      · have hends : (some max).any (fun max => decide (total + entrySize e ≥ max)) =
            true := by
          simp only [Option.any_some, decide_eq_true_eq]
          omega
        simp only [if_neg hreached, if_pos hinside, hends, if_true]
        exact iff_of_false (by simp) (by omega)
      · -- both pages take the entry
        have hstep : (if (some max).any (fun max => decide (total + entrySize e ≥ max)) then
            [e] else e :: page (some max) (total + entrySize e) es) =
            e :: (if total + entrySize e ≥ max then []
              else page (some max) (total + entrySize e) es) := by
          by_cases hends : total + entrySize e ≥ max <;> simp [hends]
        rw [if_neg hreached, if_neg hinside, hstep, cons_inj_right, ih]
        exact ⟨fun h => ⟨by omega, h⟩, And.right⟩

omit [LawfulWalCodec] in
theorem page_none (total : ℕ) (es : List Entry) : page none total es = es := by
  induction es generalizing total with
  | nil => rfl
  | cons e es ih =>
      rw [page]
      simp only [Option.any_none, Bool.false_eq_true, if_false, ih]

omit [LawfulWalCodec] in
/-- A page takes all entries if the limit is not reached before the last. -/
theorem page_eq_self_iff {e : Entry} :
    page (some max) total (e :: es) = e :: es ↔
      es = [] ∨ total + entriesSize (e :: es).dropLast < max := by
  induction es generalizing total e with
  | nil => simp [page]
  | cons f fs ih =>
      rw [page, dropLast_cons_cons, entriesSize_cons, ← Nat.add_assoc]
      simp only [Option.any_some, decide_eq_true_eq, reduceCtorEq, false_or]
      split
      next hends => exact iff_of_false (by simp) (by omega)
      next hgoes =>
        rw [cons_inj_right, ih]
        refine ⟨fun h => ?_, Or.inr⟩
        rcases h with rfl | hlt
        · simpa using hgoes
        · exact hlt

/-- Where the page of the log is the one that `LimitSize` leaves. -/
theorem page_eq_limitSize_iff {maxSize : Option ℕ} :
    page maxSize 0 es = limitSize es maxSize ↔ SamePage maxSize es := by
  cases maxSize with
  | none => cases es <;> simp [page_none, limitSize, SamePage]
  | some max =>
      cases es with
      | nil => simp [page, limitSize, SamePage]
      | cons e es =>
          simp only [limitSize, SamePage]
          by_cases hno : max = kNoLimit
          · rw [if_pos (Or.inr hno), if_pos hno, page_eq_self_iff, Nat.zero_add]
            refine ⟨fun h => ?_, Or.inr⟩
            rcases h with rfl | hlt
            · simp [hno, kNoLimit]
            · exact hlt
          by_cases hone : es = []
          · subst hone
            simp [if_neg hno, page, FallsInside]
          · have hstep : page (some max) 0 (e :: es) = e ::
                (if entrySize e ≥ max then []
                  else page (some max) (entrySize e) es) := by
              rw [page, Nat.zero_add]
              by_cases hends : entrySize e ≥ max <;> simp [hends]
            rw [if_neg (by simp [hone, hno]), if_neg hno, hstep, cons_inj_right]
            exact page_eq_limitSizeLoop_iff

end Wal

end Compare

/-- Two entries of 56 bytes each. -/
def twoEntries : List Entry :=
  [{ term := 1, index := 1, data := [7] }, { term := 1, index := 2, data := [8] }]

theorem fits_twoEntries : ∀ e ∈ twoEntries, e.Fits := by
  intro e he
  simp only [twoEntries, mem_cons, not_mem_nil, or_false] at he
  rcases he with rfl | rfl <;> exact ⟨by decide, by decide, by decide, by decide, by decide⟩

/-- A segment with two entries. -/
def twoEntriesImage : Image where
  id := 1
  firstIndex := 1
  records := twoEntries.map LogRecord.entry

theorem chain_twoEntriesImage : Chain [twoEntriesImage] where
  sound im him := by
    obtain rfl := mem_singleton.mp him
    refine ⟨by decide, fun r hr => ?_, fun e he => ?_⟩
    · obtain ⟨e, he, rfl⟩ := mem_map.mp hr
      exact fits_twoEntries e he
    · obtain ⟨e', he', heq⟩ := mem_map.mp (show LogRecord.entry e ∈ _ from he)
      cases heq
      simp only [twoEntries, mem_cons, not_mem_nil, or_false] at he'
      rcases he' with rfl | rfl <;> decide
  ordered := pairwise_singleton _ _

/-- A segment with room for all entries. -/
abbrev oneSegment : WalConfig :=
  { segmentSize := 4096, writeBufferSize := 1024, preallocate := false }

/-- A segment for every entry. -/
abbrev smallSegments : WalConfig := { oneSegment with segmentSize := 64 }

/-- The log after its first batch. -/
def firstBatch [WalCodec] (config : WalConfig) (es : List Entry) : Option Wal :=
  match Wal.openLog config {} with
  | .error _ => none
  | .ok w =>
      match Wal.append Faults.none es w with
      | .ok _ w => some w
      | .error _ _ => none

/-- A hard state that is saved behind a full segment goes to a new one that starts at the first
index, and the entry before it is not found any more. -/
example :
    letI := WalCodec.plain
    ((firstBatch smallSegments (twoEntries.take 1)).map fun w => Storage.entries
        (WritableStorage.setHardState ({ wal := w } : WalStorage) {}).1 1 2 none .genReady) =
      some (some (.error (.storageOther "short read: expected 72, got 40"))) := by
  decide +kernel

end Raftpp
