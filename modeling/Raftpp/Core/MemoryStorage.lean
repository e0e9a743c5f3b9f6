import Raftpp.Core.LawfulStorage

/-!
# The in-memory storage

`MemoryStorage` of `memory_storage.cc`.  Indexing past the end of a vector is
undefined behaviour in the source and `none` here, like an abort.
-/

namespace Raftpp

open List Option

/-- `MemoryStorageCore`. -/
structure MemoryStorage where
  hardState : HardState := {}
  confState : ConfState := {}
  entries : List Entry := []
  snapshotMetadata : SnapshotMetadata := {}
  triggerLogUnavailable : Bool := false
  deriving DecidableEq

namespace MemoryStorage

variable {ctx : GetEntriesContext}

def firstIndex (s : MemoryStorage) : ℕ :=
  match s.entries.head? with
  | none => s.snapshotMetadata.index + 1
  | some first => first.index

def lastIndex (s : MemoryStorage) : ℕ :=
  match s.entries.getLast? with
  | none => s.snapshotMetadata.index
  | some last => last.index

/-- `snapshot`: a snapshot of the committed state, without data. -/
def snapshot (s : MemoryStorage) : Option Snapshot :=
  let index := s.hardState.commit
  if index < s.snapshotMetadata.index then none
  else if index > s.snapshotMetadata.index then do
    let first ← s.entries.head?
    let entry ← s.entries[index - first.index]?
    some { metadata := { index, term := entry.term, confState := s.confState } }
  else
    some { metadata := { index, term := s.snapshotMetadata.term, confState := s.confState } }

/-- `GetSnapshot`: a snapshot older than the request is handed out under the index of the
request. -/
def getSnapshot (s : MemoryStorage) (requestIndex _peer : ℕ) : Option (Result Snapshot) := do
  let snapshot ← s.snapshot
  if snapshot.metadata.index < requestIndex then
    some (.ok { snapshot with metadata := { snapshot.metadata with index := requestIndex } })
  else some (.ok snapshot)

def term (s : MemoryStorage) (idx : ℕ) : Result ℕ :=
  if idx = s.snapshotMetadata.index then .ok s.snapshotMetadata.term
  else if idx < s.firstIndex then .error (.storage .compacted)
  else if idx > s.lastIndex then .error (.storage .unavailable)
  else
    match s.entries[idx - s.firstIndex]? with
    | some entry => .ok entry.term
    | none => .error (.storage .unavailable)

/-- `Entries`.  The test hook `trigger_log_unavailable_` refuses reads that may be retried. -/
def getEntries [Codec] (s : MemoryStorage) (low high : ℕ) (maxSize : Option ℕ)
    (context : GetEntriesContext) : Option (Result (List Entry)) :=
  if low < s.firstIndex then some (.error (.storage .compacted))
  else if high > s.lastIndex + 1 then none
  else if s.triggerLogUnavailable ∧ context.canAsync then
    some (.error (.storage .logTemporarilyUnavailable))
  else do
    let first ← s.entries.head?
    let entries := (s.entries.drop (low - first.index)).take (high - low)
    some (.ok (limitSize entries maxSize))

/-- `MayAppend`. -/
def append (s : MemoryStorage) (ents : List Entry) : MemoryStorage × Result Unit :=
  match ents with
  | [] => (s, .ok ())
  | first :: _ =>
      if s.firstIndex > first.index then
        (s, .error (.fatal (s!"overwrite compacted raft logs, compacted={s.firstIndex - 1}" ++
          s!" new_appended={first.index}")))
      else if s.lastIndex + 1 < first.index then
        (s, .error (.fatal (s!"raft logs should be continuous, last_index={s.lastIndex}" ++
          s!" new_appended={first.index}")))
      else ({ s with entries := s.entries.take (first.index - s.firstIndex) ++ ents }, .ok ())

def setHardState (s : MemoryStorage) (hs : HardState) : MemoryStorage × Result Unit :=
  ({ s with hardState := hs }, .ok ())

def setConfState (s : MemoryStorage) (confState : ConfState) : MemoryStorage × Result Unit :=
  ({ s with confState }, .ok ())

def applySnapshot (s : MemoryStorage) (snapshot : Snapshot) : MemoryStorage × Result Unit :=
  if s.firstIndex > snapshot.metadata.index then (s, .error (.storage .snapshotOutOfDate))
  else
    ({ s with
        snapshotMetadata := snapshot.metadata
        hardState :=
          { s.hardState with
            term := max s.hardState.term snapshot.metadata.term
            commit := snapshot.metadata.index }
        entries := []
        confState := snapshot.metadata.confState }, .ok ())

def compact (s : MemoryStorage) (compactIndex : ℕ) : MemoryStorage × Result Unit :=
  if compactIndex ≤ s.firstIndex then (s, .ok ())
  else if compactIndex > s.lastIndex + 1 then
    (s, .error (.fatal (s!"compact not received raft logs, compact_index={compactIndex}" ++
      s!" last_index={s.lastIndex}")))
  else
    match s.entries.head? with
    | none => (s, .ok ())
    | some first => ({ s with entries := s.entries.drop (compactIndex - first.index) }, .ok ())

/-- `ApplyLocalSnapshot`: the entries after the snapshot stay. -/
def applyLocalSnapshot (s : MemoryStorage) (snapshot : Snapshot) : MemoryStorage × Result Unit :=
  let index := snapshot.metadata.index
  if s.firstIndex > index then (s, .error (.storage .snapshotOutOfDate))
  else
    compact
      { s with
        snapshotMetadata := snapshot.metadata
        hardState :=
          { s.hardState with
            term := max s.hardState.term snapshot.metadata.term
            commit := if s.hardState.commit < index then index else s.hardState.commit }
        confState := snapshot.metadata.confState } (index + 1)

instance [Codec] : WritableStorage MemoryStorage where
  initialState s := .ok ⟨s.hardState, s.confState⟩
  entries := getEntries
  term := term
  firstIndex s := .ok s.firstIndex
  lastIndex s := .ok s.lastIndex
  getSnapshot := getSnapshot
  append := append
  setHardState := setHardState
  setConfState := setConfState
  applySnapshot := applySnapshot
  applyLocalSnapshot := applyLocalSnapshot
  sync s := (s, .ok ())

/-! ## The laws -/

/-- The data of the storage. -/
def view (s : MemoryStorage) : Stable where
  hardState := s.hardState
  confState := s.confState
  index := s.snapshotMetadata.index
  term := s.snapshotMetadata.term
  entries := s.entries

section Laws

variable {s : MemoryStorage} {snap : Snapshot}

theorem firstIndex_eq (h : s.view.Contiguous) : s.firstIndex = s.snapshotMetadata.index + 1 := by
  unfold firstIndex
  cases hhead : s.entries.head? with
  | none => rfl
  | some first =>
      rw [head?_eq_getElem?] at hhead
      exact h 0 first hhead

theorem lastIndex_eq (h : s.view.Contiguous) :
    s.lastIndex = s.snapshotMetadata.index + s.entries.length := by
  unfold lastIndex
  cases hlast : s.entries.getLast? with
  | none =>
      rw [getLast?_eq_none_iff] at hlast
      simp [hlast]
  | some last =>
      have hne : s.entries ≠ [] := by
        rintro hnil
        simp [hnil] at hlast
      rw [getLast?_eq_getElem?] at hlast
      have hindex := h _ last hlast
      have hpos := length_pos_iff.mpr hne
      simp only [view] at hindex
      simp only [hindex]
      omega

theorem head_index (h : s.view.Contiguous) {first : Entry} (hfirst : s.entries.head? = some first) :
    first.index = s.snapshotMetadata.index + 1 := by
  rw [head?_eq_getElem?] at hfirst
  exact h 0 first hfirst

theorem term_eq_ok (h : s.view.Contiguous) (i t : ℕ) :
    s.term i = .ok t ↔ s.view.termAt i = some t := by
  unfold term
  rw [firstIndex_eq h, lastIndex_eq h]
  rcases lt_trichotomy i s.snapshotMetadata.index with hlt | rfl | hgt
  · rw [if_neg (by omega), if_pos (by omega), Stable.termAt_of_lt hlt]
    simp
  · rw [if_pos rfl, show s.view.termAt s.snapshotMetadata.index = some s.snapshotMetadata.term from
      s.view.termAt_index]
    simp
  · rw [if_neg (by omega), if_neg (by omega), Stable.termAt_of_gt hgt]
    simp only [view]
    split
    next hout =>
      rw [getElem?_eq_none (by omega)]
      simp
    · cases s.entries[i - (s.snapshotMetadata.index + 1)]? with
      | none => simp
      | some e => simp

theorem snapshot_confState (hs : s.snapshot = some snap) :
    snap.metadata.confState = s.confState := by
  unfold snapshot at hs
  simp only at hs
  split at hs
  · cases hs
  split at hs
  · simp only [bind_eq_bind] at hs
    obtain ⟨first, -, hs⟩ := of_bind hs
    obtain ⟨entry, -, hs⟩ := of_bind hs
    cases hs
    rfl
  · cases hs
    rfl

theorem append_ok {ents : List Entry} (h : Accepts (s.append ents)) :
    (s.append ents).1.hardState = s.hardState ∧ (s.append ents).1.confState = s.confState ∧
      (s.append ents).1.snapshotMetadata = s.snapshotMetadata ∧
      ∀ first, ents.head? = some first → s.firstIndex ≤ first.index ∧
        first.index ≤ s.lastIndex + 1 ∧
        (s.append ents).1.entries = s.entries.take (first.index - s.firstIndex) ++ ents := by
  revert h
  unfold append
  cases ents with
  | nil => simp
  | cons first rest =>
      simp only
      split
      · simp [Accepts]
      split
      · simp [Accepts]
      · intro _
        refine ⟨rfl, rfl, rfl, ?_⟩
        simp only [head?_cons, some.injEq, forall_eq', and_true]
        exact ⟨by omega, by omega⟩

theorem compact_state (s : MemoryStorage) (i : ℕ) :
    (s.compact i).1.hardState = s.hardState ∧ (s.compact i).1.confState = s.confState ∧
      (s.compact i).1.snapshotMetadata = s.snapshotMetadata := by
  unfold compact
  split
  · exact ⟨rfl, rfl, rfl⟩
  split
  · exact ⟨rfl, rfl, rfl⟩
  · split <;> exact ⟨rfl, rfl, rfl⟩

theorem applyLocalSnapshot_ok (h : Accepts (s.applyLocalSnapshot snap)) :
    s.firstIndex ≤ snap.metadata.index ∧
      (s.applyLocalSnapshot snap).1.hardState =
        { s.hardState with
          term := max s.hardState.term snap.metadata.term
          commit := max s.hardState.commit snap.metadata.index } ∧
      (s.applyLocalSnapshot snap).1.confState = snap.metadata.confState ∧
      (s.applyLocalSnapshot snap).1.snapshotMetadata = snap.metadata := by
  revert h
  unfold applyLocalSnapshot
  simp only
  split
  · simp [Accepts]
  next hle =>
    intro _
    obtain ⟨hhard, hconf, hmeta⟩ := compact_state
      { s with
        snapshotMetadata := snap.metadata
        hardState :=
          { s.hardState with
            term := max s.hardState.term snap.metadata.term
            commit := if s.hardState.commit < snap.metadata.index then snap.metadata.index
              else s.hardState.commit }
        confState := snap.metadata.confState } (snap.metadata.index + 1)
    refine ⟨by omega, hhard.trans ?_, hconf, hmeta⟩
    simp only [HardState.mk.injEq, true_and]
    split <;> omega

theorem compact_entries {first : Entry} (hfirst : s.entries.head? = some first) {i : ℕ}
    (hlast : i ≤ s.lastIndex + 1) :
    (s.compact i).1.entries = s.entries.drop (i - first.index) := by
  have hfirstIndex : s.firstIndex = first.index := by simp [firstIndex, hfirst]
  unfold compact
  split
  next hle => simp [show i - first.index = 0 by omega]
  · rw [if_neg (by omega), hfirst]

/-- The last index of a nonempty storage depends on its entries only. -/
theorem lastIndex_congr {t : MemoryStorage} (hne : s.entries ≠ []) (h : t.entries = s.entries) :
    t.lastIndex = s.lastIndex := by
  unfold lastIndex
  rw [h, getLast?_eq_some_getLast hne]

theorem applyLocalSnapshot_entries (h : s.view.Contiguous)
    (hlast : snap.metadata.index ≤ s.snapshotMetadata.index + s.entries.length)
    (hok : Accepts (s.applyLocalSnapshot snap)) :
    (s.applyLocalSnapshot snap).1.entries =
      s.entries.drop (snap.metadata.index - s.snapshotMetadata.index) := by
  have hle := (applyLocalSnapshot_ok hok).1
  rw [firstIndex_eq h] at hle
  have hne : s.entries ≠ [] := by
    rintro hnil
    simp only [hnil, length_nil] at hlast
    omega
  obtain ⟨first, hfirst⟩ := isSome_iff_exists.mp (isSome_head?.mpr hne)
  unfold applyLocalSnapshot
  simp only
  rw [if_neg (by rw [firstIndex_eq h]; omega)]
  refine Eq.trans (compact_entries (by exact hfirst) ?_) ?_
  · refine le_of_le_of_eq ?_ (congrArg (· + 1) (lastIndex_congr hne (by rfl)).symm)
    rw [lastIndex_eq h]
    omega
  · rw [head_index h hfirst]
    congr 1
    omega

end Laws

instance [Codec] : LawfulStorage MemoryStorage where
  view := view
  initialState_eq _ := rfl
  firstIndex_eq s h := congrArg Except.ok (firstIndex_eq h)
  lastIndex_eq s h := congrArg Except.ok (lastIndex_eq h)
  term_eq_ok s i t h := term_eq_ok h i t
  append_state s es h := ⟨(append_ok h).1, (append_ok h).2.1⟩
  append_log s es h hok := by
    obtain ⟨hhard, hconf, hmeta, hfirst⟩ := append_ok hok
    cases es with
    | nil => exact ⟨rfl, by simp⟩
    | cons first rest =>
        obtain ⟨hle, hlast, hentries⟩ := hfirst first rfl
        rw [firstIndex_eq h] at hle hentries
        rw [lastIndex_eq h] at hlast
        refine ⟨?_, ?_⟩
        · simp only [WritableStorage.append, view, Stable.append]
          rw [hhard, hconf, hmeta, hentries]
        · simp only [head?_cons, some.injEq, forall_eq']
          exact ⟨hle, hlast⟩
  setHardState_eq _ _ _ := rfl
  applySnapshot_eq s snap h := by
    refine ⟨snap.metadata.index, le_rfl, le_max_right _ _, ?_⟩
    revert h
    simp only [WritableStorage.applySnapshot, applySnapshot, Accepts]
    split
    · simp
    · intro _
      rfl
  applyLocalSnapshot_state s snap h := by
    obtain ⟨-, hhard, hconf, -⟩ := applyLocalSnapshot_ok h
    exact ⟨hhard, hconf⟩
  applyLocalSnapshot_log s snap h hlast hok := by
    obtain ⟨hle, -, -, hmeta⟩ := applyLocalSnapshot_ok hok
    rw [firstIndex_eq h] at hle
    refine ⟨hle, ?_, ?_, applyLocalSnapshot_entries h hlast hok⟩
    · simp only [WritableStorage.applyLocalSnapshot, view, hmeta]
    · simp only [WritableStorage.applyLocalSnapshot, view, hmeta]

/-- A read inside the log, which no test makes the storage refuse. -/
theorem getEntries_eq [Codec] {s : MemoryStorage} {low high : ℕ} (max : Option ℕ)
    (h : s.view.Contiguous) (hlow : s.view.index < low) (hlt : low < high)
    (hhigh : high ≤ s.view.lastIndex + 1) (hctx : ¬(s.triggerLogUnavailable ∧ ctx.canAsync)) :
    s.getEntries low high max ctx = some (.ok (limitSize (s.view.slice low high) max)) := by
  have hfirst := firstIndex_eq h
  have hlast := lastIndex_eq h
  simp only [view, Stable.lastIndex] at hlow hhigh
  have hne : s.entries ≠ [] := by
    rintro hnil
    simp only [hnil, length_nil] at hhigh
    omega
  obtain ⟨first, rest, hcons⟩ := exists_cons_of_ne_nil hne
  have hhead : s.entries.head? = some first := by rw [hcons]; rfl
  rw [getEntries, if_neg (by omega), if_neg (by omega), if_neg hctx, hhead]
  simp only [bind_eq_bind, bind_some, head_index h hhead]
  rfl

/-- Unless a test has made it refuse the read, a `MemoryStorage` pages by `LimitSize`. -/
theorem obeysLimitSize [Codec] {s : MemoryStorage} (h : s.view.Contiguous)
    (hctx : ¬(s.triggerLogUnavailable ∧ ctx.canAsync)) : ObeysLimitSize s ctx :=
  fun _ _ max hlow hlt hhigh => getEntries_eq max h hlow hlt hhigh hctx

instance [Codec] : AnsweringStorage MemoryStorage where
  entries_eq s low high max ctx es h hlow hlt hhigh hread := by
    by_cases hctx : s.triggerLogUnavailable ∧ ctx.canAsync
    · -- a read that is refused has no entries
      simp only [Storage.entries, getEntries, if_pos hctx] at hread
      repeat' split at hread
      all_goals cases hread
    · cases (getEntries_eq max h hlow hlt hhigh hctx).symm.trans hread
      rfl
  entries_ok s low high max ctx h hlow hlt hhigh hctx :=
    ⟨_, getEntries_eq max h hlow hlt hhigh (by simp [hctx])⟩
  entries_answer s low high max ctx h hlow hlt hhigh := by
    by_cases hctx : s.triggerLogUnavailable ∧ ctx.canAsync
    · have hfirst := firstIndex_eq h
      have hlast := lastIndex_eq h
      simp only [LawfulStorage.view, view, Stable.lastIndex] at hlow hhigh
      simp only [Storage.entries, getEntries]
      exact Or.inr (by rw [if_neg (by omega), if_neg (by omega), if_pos hctx])
    · exact Or.inl ⟨_, getEntries_eq max h hlow hlt hhigh hctx⟩

instance [Codec] : ConfStorage MemoryStorage where
  getSnapshot_confState s request peer snap hread := by
    simp only [Storage.getSnapshot, getSnapshot] at hread
    obtain ⟨snapshot, hsnapshot, hread⟩ := of_bind hread
    have hconf := snapshot_confState hsnapshot
    split at hread
    all_goals
      simp only [some.injEq, Except.ok.injEq] at hread
      rw [← hread]
      exact hconf

end MemoryStorage

end Raftpp
