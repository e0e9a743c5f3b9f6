import Raftpp.Wal.Files

/-!
# The names of the segment files

A segment file is found again only if its name has exactly six digits.  The segment
manager takes the number behind the last one for a new segment.  Whatever it does with
the segments it has, those that it made and did not remove are found when the directory
is opened again, as long as no number has reached seven digits.
-/

namespace Raftpp

open SegmentHeader
open List hiding modify

namespace SegmentManager

open Segment

/-! ## Runs of the segment manager -/

/-- A file that begins with the header of a segment. -/
def Headed (id : ℕ) (file : Bytes) : Prop :=
  ∃ firstIndex rest, firstIndex < 2 ^ 64 ∧
    file = serialize { segmentId := id, firstIndex } ++ rest

/-- A segment manager together with the segments that it has made and not removed, in the order in
which it made them.  Every call to the file system may fail; the directory is opened again
without failures. -/
inductive Created (config : WalConfig) : List ℕ → SegmentManager → Prop
  | new : Created config [] {}
  | roll {created m s m'} (faults : Faults) {firstIndex : ℕ} (h : Created config created m)
      (hindex : firstIndex < 2 ^ 64) (hid : m.currentSegmentId + 1 < 1000000)
      (hroll : rollToNewSegment faults config firstIndex m = .ok s m') :
      Created config (created ++ [s.segmentId]) m'
  | rollFails {created m e m'} (faults : Faults) (firstIndex : ℕ) (h : Created config created m)
      (hroll : rollToNewSegment faults config firstIndex m = .error e m') :
      Created config created m'
  | append {created m s} (faults : Faults) (site : WriteSite) (data : Bytes)
      (h : Created config created m) (hs : s ∈ m.segments) :
      Created config created (leaves (appendTo faults site s data) m)
  | truncate {created m s} (faults : Faults) {offset : ℕ} (h : Created config created m)
      (hs : s ∈ m.segments) (hoffset : SegmentHeader.size ≤ offset) :
      Created config created (leaves (truncate faults s offset) m)
  | sync {created m} (faults : Faults) (site : SyncSite) (s : Segment)
      (h : Created config created m) : Created config created (leaves (sync faults site s) m)
  | remove {created m} (faults : Faults) (id : ℕ) (h : Created config created m) :
      Created config (created.filter fun id' => id' ≠ id) (leaves (removeSegment faults id) m)
  | reopen {created m} (h : Created config created m) :
      Created config created (leaves (initializeSegments Faults.none) { files := m.files })

/-- The map of segments and the directory fit together. -/
structure Mapped (m : SegmentManager) : Prop where
  sorted : m.segments.Pairwise fun s t => s.segmentId < t.segmentId
  current : ∀ s ∈ m.segments, s.segmentId ≤ m.currentSegmentId
  path : ∀ s ∈ m.segments, s.path = s.segmentId
  offset : ∀ s ∈ m.segments, SegmentHeader.size ≤ s.writeOffset
  filed : ∀ s ∈ m.segments, s.segmentId ∈ m.files.keys
  short : ∀ f ∈ m.files, f.1 < 1000000
  headed : ∀ f ∈ m.files, Headed f.1 f.2

/-- The ids of the segments in the map. -/
def ids (m : SegmentManager) : List ℕ := m.segments.map Segment.segmentId

section Files

variable {id offset : ℕ} {file : Bytes}

/-- What is changed behind the header leaves the header. -/
theorem Headed.take_append (h : Headed id file) (hoffset : SegmentHeader.size ≤ offset)
    (blank data : Bytes) : Headed id ((file ++ blank).take offset ++ data) := by
  obtain ⟨firstIndex, rest, hindex, rfl⟩ := h
  refine ⟨firstIndex, (rest ++ blank).take (offset - SegmentHeader.size) ++ data, hindex, ?_⟩
  rw [append_assoc, take_append, serialize_length, take_of_length_le
    (by rw [serialize_length]; exact hoffset), append_assoc]

theorem Headed.pwrite (h : Headed id file) (hoffset : SegmentHeader.size ≤ offset) (data : Bytes) :
    Headed id (pwriteBytes file offset data) :=
  h.take_append hoffset _ _

theorem Headed.truncate (h : Headed id file) (hoffset : SegmentHeader.size ≤ offset) :
    Headed id (truncateBytes file offset) := by
  have htake := h.take_append hoffset (List.replicate (offset - file.length) 0) []
  rwa [append_nil] at htake

theorem headed_newFile (faults : Faults) (config : WalConfig) {firstIndex : ℕ}
    (hindex : firstIndex < 2 ^ 64) : Headed id (newFile faults config id firstIndex) :=
  ⟨firstIndex, _, hindex, rfl⟩

/-- A file with a header is opened as the segment that the header names. -/
theorem openSegment_headed (h : Headed id file) (hid : id < 1000000) :
    ∃ s, openSegment Faults.none id file = some s ∧ s.path = id ∧ s.segmentId = id ∧
      SegmentHeader.size ≤ s.writeOffset := by
  obtain ⟨firstIndex, rest, hindex, rfl⟩ := h
  have hlength : SegmentHeader.size ≤
      (serialize { segmentId := id, firstIndex } ++ rest).length := by
    rw [length_append, serialize_length]
    exact Nat.le_add_right _ _
  have hheader := deserialize_serialize (show id < 2 ^ 64 by omega) hindex rest
  unfold openSegment
  have hopen : ¬((Faults.none (.openSegment id)).isSome = true ∨
      (serialize { segmentId := id, firstIndex } ++ rest).length <
        SegmentHeader.size) := by
    rintro (hfault | hshort)
    · exact absurd hfault Bool.false_ne_true
    · exact absurd hlength (Nat.not_le.mpr hshort)
  rw [if_neg hopen]
  dsimp only
  rw [hheader]
  exact ⟨_, rfl, rfl, rfl, hlength⟩

end Files

/-! ## The map of segments -/

section Map

variable {m : SegmentManager} {s t : Segment} {ss : List Segment}

theorem eq_or_mem_of_mem_insertSegment (h : t ∈ insertSegment s ss) : t = s ∨ t ∈ ss := by
  induction ss with
  | nil => exact Or.inl (mem_singleton.mp h)
  | cons u us ih =>
      rw [insertSegment] at h
      split at h
      · exact mem_cons.mp h
      · split at h
        · exact (mem_cons.mp h).imp_right (mem_cons_of_mem u)
        · rcases mem_cons.mp h with rfl | htail
          · exact Or.inr mem_cons_self
          · exact (ih htail).imp_right (mem_cons_of_mem u)

/-- An id in the map stays there, with the new segment if it is the same id. -/
theorem mem_ids_insertSegment (s : Segment) (ss : List Segment) {id : ℕ} :
    id ∈ (insertSegment s ss).map Segment.segmentId ↔
      id = s.segmentId ∨ id ∈ ss.map Segment.segmentId := by
  induction ss with
  | nil => simp [insertSegment]
  | cons u us ih =>
      rw [insertSegment]
      split
      · simp
      · split
        next hsame => simp [hsame]
        next => rw [map_cons, mem_cons, ih, map_cons, mem_cons]; tauto

theorem sorted_insertSegment (h : ss.Pairwise fun s t => s.segmentId < t.segmentId) :
    (insertSegment s ss).Pairwise fun s t => s.segmentId < t.segmentId := by
  induction ss with
  | nil => exact pairwise_singleton _ _
  | cons u us ih =>
      obtain ⟨hu, hus⟩ := pairwise_cons.mp h
      rw [insertSegment]
      split
      next hlt =>
          refine pairwise_cons.mpr ⟨fun t ht => ?_, h⟩
          rcases mem_cons.mp ht with rfl | htail
          · exact hlt
          · exact hlt.trans (hu t htail)
      next hge =>
          split
          next hsame =>
              exact pairwise_cons.mpr ⟨fun t ht => hsame ▸ hu t ht, hus⟩
          next hne =>
              refine pairwise_cons.mpr ⟨fun t ht => ?_, ih hus⟩
              rcases eq_or_mem_of_mem_insertSegment ht with rfl | htail
              · omega
              · exact hu t htail

/-- Binding a segment of the directory in the map. -/
theorem Mapped.insert (h : Mapped m) (hpath : s.path = s.segmentId)
    (hoffset : SegmentHeader.size ≤ s.writeOffset) (hfile : s.segmentId ∈ m.files.keys) {id : ℕ}
    (hcurrent : m.currentSegmentId ≤ id) (hid : s.segmentId ≤ id) :
    Mapped { m with segments := insertSegment s m.segments, currentSegmentId := id } where
  sorted := sorted_insertSegment h.sorted
  current t ht := by
    rcases eq_or_mem_of_mem_insertSegment ht with rfl | hmem
    · exact hid
    · exact (h.current t hmem).trans hcurrent
  path t ht := by
    rcases eq_or_mem_of_mem_insertSegment ht with rfl | hmem
    exacts [hpath, h.path t hmem]
  offset t ht := by
    rcases eq_or_mem_of_mem_insertSegment ht with rfl | hmem
    exacts [hoffset, h.offset t hmem]
  filed t ht := by
    rcases eq_or_mem_of_mem_insertSegment ht with rfl | hmem
    exacts [hfile, h.filed t hmem]
  short := h.short
  headed := h.headed

/-- Opening files of the directory binds their numbers in the map. -/
theorem Mapped.openSegments (h : Mapped m) {todo : List (ℕ × Bytes)} (htodo : todo ⊆ m.files) :
    Mapped (openSegments Faults.none m todo) ∧
      ∀ id, id ∈ m.ids ∨ id ∈ todo.map Prod.fst → id ∈ (openSegments Faults.none m todo).ids := by
  induction todo generalizing m with
  | nil => exact ⟨h, fun id hid => hid.resolve_right not_mem_nil⟩
  | cons f todo ih =>
      obtain ⟨path, file⟩ := f
      have hmem : (path, file) ∈ m.files := htodo mem_cons_self
      obtain ⟨s, hopen, rfl, hsame, hoffset⟩ :=
        openSegment_headed (h.headed _ hmem) (h.short _ hmem)
      have hfile : s.segmentId ∈ m.files.keys := hsame ▸ mem_map_of_mem hmem
      obtain ⟨hmapped, hids⟩ := ih (h.insert hsame.symm hoffset hfile (le_max_left _ _)
        (le_max_right _ _)) (subset_of_cons_subset htodo)
      rw [SegmentManager.openSegments, hopen]
      refine ⟨hmapped, fun id hid => hids id ?_⟩
      rw [map_cons, mem_cons] at hid
      rw [ids, mem_ids_insertSegment, hsame]
      tauto

/-- Opening a directory anew binds every file of it. -/
theorem Mapped.reopen (h : Mapped m) :
    Mapped (leaves (initializeSegments Faults.none) { files := m.files }) ∧
      ∀ id ∈ m.files.keys,
        id ∈ (leaves (initializeSegments Faults.none) { files := m.files }).ids := by
  have hempty : Mapped { files := m.files } :=
    { sorted := List.Pairwise.nil, current := fun _ hs => absurd hs not_mem_nil
      path := fun _ hs => absurd hs not_mem_nil
      offset := fun _ hs => absurd hs not_mem_nil
      filed := fun _ hs => absurd hs not_mem_nil, short := h.short, headed := h.headed }
  have hscanned : ∀ f, f ∈ scanned m.files ↔ f ∈ m.files := by
    intro f
    rw [scanned_eq, mem_insertionSort, mem_filter, decide_eq_true_iff]
    exact and_iff_left_of_imp (h.short f)
  obtain ⟨hmapped, hids⟩ := hempty.openSegments fun f hf => (hscanned f).mp hf
  rw [initializeSegments]
  refine ⟨hmapped, fun id hid => hids id (Or.inr ?_)⟩
  obtain ⟨f, hf, rfl⟩ := mem_map.mp hid
  exact mem_map_of_mem ((hscanned f).mpr hf)

end Map

/-! ## The operations -/

section Operations

variable {m : SegmentManager} {faults : Faults} {config : WalConfig}

/-- The segment that a roll makes. -/
def rolled (m : SegmentManager) (firstIndex : ℕ) : Segment where
  path := m.currentSegmentId + 1
  segmentId := m.currentSegmentId + 1
  firstIndex := firstIndex
  writeOffset := SegmentHeader.size

/-- The segment manager after a roll. -/
def afterRoll (faults : Faults) (config : WalConfig) (m : SegmentManager) (firstIndex : ℕ) :
    SegmentManager where
  segments := insertSegment (m.rolled firstIndex) m.segments
  currentSegmentId := m.currentSegmentId + 1
  files := m.files ++ [(m.currentSegmentId + 1,
    newFile faults config (m.currentSegmentId + 1) firstIndex)]

/-- Rolling binds the number behind the current one, unless its name is taken or a call fails. -/
theorem ends_roll (m : SegmentManager) (firstIndex : ℕ) :
    Ends (rollToNewSegment faults config firstIndex) m
      (fun s m' => s = m.rolled firstIndex ∧ m' = m.afterRoll faults config firstIndex)
      fun _ m' => m' = m ∧ (m.files.contains (m.currentSegmentId + 1) = true ∨
        CreateFails faults (m.currentSegmentId + 1) firstIndex) := by
  unfold rollToNewSegment
  refine ((ends_syncCurrent m).mono (fun _ _ => id) fun _ _ => False.elim).bind ?_
  rintro - m₁ rfl
  unfold create
  simp only [ends_bind, ends_get, ends_check, ends_modify, ends_pure]
  refine ⟨fun _ => ⟨fun _ => ⟨fun _ => ⟨fun _ => ⟨rfl, rfl⟩, ?_⟩, ?_⟩, ?_⟩, ?_⟩
  · exact fun f hf => ⟨trivial, Or.inr (Or.inr (Or.inr (Option.isSome_of_mem hf)))⟩
  · exact fun f hf => ⟨trivial, Or.inr (Or.inr (Or.inl (Option.isSome_of_mem hf)))⟩
  · exact fun f hf => ⟨trivial, Or.inr (Or.inl (Option.isSome_of_mem hf))⟩
  · intro f hf
    refine ⟨trivial, Or.inl ?_⟩
    by_contra hfree
    rw [if_neg hfree] at hf
    cases hf

/-- Without failures a roll succeeds if the number is behind all that are taken. -/
theorem roll_succeeds (config : WalConfig) (firstIndex : ℕ)
    (hfree : ∀ f ∈ m.files, f.1 ≤ m.currentSegmentId) :
    rollToNewSegment Faults.none config firstIndex m =
      .ok (m.rolled firstIndex) (m.afterRoll Faults.none config firstIndex) := by
  have hfails : ¬CreateFails Faults.none (m.currentSegmentId + 1) firstIndex := by
    rintro (hfault | hfault | hfault) <;> exact absurd hfault Bool.false_ne_true
  have hends : Ends (rollToNewSegment Faults.none config firstIndex) m
      (fun s m' => s = m.rolled firstIndex ∧ m' = m.afterRoll Faults.none config firstIndex)
      fun _ _ => False := by
    refine (ends_roll m firstIndex).mono (fun _ _ => id) ?_
    rintro - - ⟨-, htaken | hfault⟩
    · obtain ⟨file, hfile⟩ := Option.isSome_iff_exists.mp htaken
      exact absurd (hfree _ (ListMap.get_mem hfile)) (Nat.not_succ_le_self _)
    · exact hfails hfault
  obtain ⟨s, m', hroll, rfl, rfl⟩ := hends.exists_ok
  exact hroll

theorem Mapped.roll (h : Mapped m) {firstIndex : ℕ} (hindex : firstIndex < 2 ^ 64)
    (hid : m.currentSegmentId + 1 < 1000000) :
    Mapped (m.afterRoll faults config firstIndex) := by
  have hfiles : Mapped { m with files := m.files ++ [(m.currentSegmentId + 1,
      newFile faults config (m.currentSegmentId + 1) firstIndex)] } :=
    { sorted := h.sorted, current := h.current, path := h.path, offset := h.offset
      filed := fun s hs => by
        rw [ListMap.keys, map_append]
        exact mem_append_left _ (h.filed s hs)
      short := fun f hf => by
        rcases mem_append.mp hf with hmem | hnew
        · exact h.short f hmem
        · rw [mem_singleton.mp hnew]
          exact hid
      headed := fun f hf => by
        rcases mem_append.mp hf with hmem | hnew
        · exact h.headed f hmem
        · rw [mem_singleton.mp hnew]
          exact headed_newFile faults config hindex }
  refine hfiles.insert rfl le_rfl ?_ (Nat.le_succ _) le_rfl
  simp [ListMap.keys, rolled]

/-- Changing a file behind its header. -/
theorem Mapped.modifyFile (h : Mapped m) {id : ℕ} {g : Bytes → Bytes}
    (hg : ∀ file, Headed id file → Headed id (g file)) :
    Mapped { m with files := m.files.modify id g } where
  sorted := h.sorted
  current := h.current
  path := h.path
  offset := h.offset
  filed s hs := by
    rw [ListMap.keys_modify]
    exact h.filed s hs
  short f hf := by
    obtain ⟨f₀, hf₀, rfl⟩ := mem_map.mp hf
    split <;> exact h.short f₀ hf₀
  headed f hf := by
    obtain ⟨f₀, hf₀, rfl⟩ := mem_map.mp hf
    split
    next hsame =>
        have hhead := h.headed f₀ hf₀
        rw [hsame] at hhead ⊢
        exact hg f₀.2 hhead
    next => exact h.headed f₀ hf₀

/-- Changing where a segment is written next. -/
theorem Mapped.modifySegment (h : Mapped m) (id : ℕ) {f : ℕ → ℕ}
    (hf : ∀ offset, SegmentHeader.size ≤ offset → SegmentHeader.size ≤ f offset) :
    Mapped (m.modifySegment id fun s => { s with writeOffset := f s.writeOffset }) ∧
      (m.modifySegment id fun s => { s with writeOffset := f s.writeOffset }).ids = m.ids := by
  set m' := m.modifySegment id fun s => { s with writeOffset := f s.writeOffset }
  have hmem : ∀ s ∈ m'.segments, ∃ t ∈ m.segments, s.segmentId = t.segmentId ∧ s.path = t.path ∧
        SegmentHeader.size ≤ s.writeOffset := by
    intro s hs
    obtain ⟨t, ht, rfl⟩ := mem_map.mp hs
    refine ⟨t, ht, ?_⟩
    split
    · exact ⟨rfl, rfl, hf _ (h.offset t ht)⟩
    · exact ⟨rfl, rfl, h.offset t ht⟩
  have hids : m'.ids = m.ids := by
    refine (map_map ..).trans (map_congr_left fun t _ => ?_)
    rw [Function.comp_apply]
    split <;> rfl
  refine ⟨⟨?_, ?_, ?_, ?_, ?_, h.short, h.headed⟩, hids⟩
  · have hsorted : m.ids.Pairwise (· < ·) := pairwise_map.mpr h.sorted
    rw [← hids] at hsorted
    exact pairwise_map.mp hsorted
  · intro s hs
    obtain ⟨t, ht, hid, -⟩ := hmem s hs
    exact hid ▸ h.current t ht
  · intro s hs
    obtain ⟨t, ht, hid, hpath, -⟩ := hmem s hs
    rw [hid, hpath]
    exact h.path t ht
  · intro s hs
    obtain ⟨-, -, -, -, hoffset⟩ := hmem s hs
    exact hoffset
  · intro s hs
    obtain ⟨t, ht, hid, -⟩ := hmem s hs
    exact hid ▸ h.filed t ht

/-- The map as it was, up to where its segments are written next. -/
def Stays (m m' : SegmentManager) : Prop := Mapped m' ∧ m'.ids = m.ids

theorem Mapped.ends_append (h : Mapped m) {s : Segment} (hs : s ∈ m.segments) (site : WriteSite)
    (data : Bytes) :
    Ends (appendTo faults site s data) m (fun _ => Stays m) fun _ => Stays m := by
  have hwrite : ∀ bytes, Mapped { m with
      files := m.files.modify s.path fun file => pwriteBytes file s.writeOffset bytes } :=
    fun bytes => h.modifyFile fun _ hfile => hfile.pwrite (h.offset s hs) bytes
  unfold appendTo
  cases faults (.write site s.segmentId s.writeOffset) with
  | none =>
      simp only [ends_bind, ends_modify]
      exact (hwrite data).modifySegment s.segmentId fun _ hle => hle.trans (Nat.le_add_right _ _)
  | some fault =>
      simp only [ends_bind, ends_modify]
      split <;> exact ⟨hwrite _, rfl⟩

theorem Mapped.ends_truncate (h : Mapped m) (s : Segment) {offset : ℕ}
    (hoffset : SegmentHeader.size ≤ offset) :
    Ends (truncate faults s offset) m (fun _ => Stays m) fun _ => Stays m := by
  unfold truncate
  simp only [ends_bind, ends_check, ends_modify]
  refine ⟨fun _ => ?_, fun _ _ => ⟨h, rfl⟩⟩
  exact (h.modifyFile fun _ hfile => hfile.truncate hoffset).modifySegment s.segmentId
    fun _ _ => hoffset

/-- Removing a segment from the map; the next number then follows the last one that is left. -/
theorem Mapped.unmap (h : Mapped m) (id : ℕ) :
    Mapped { m with
      segments := m.segments.filter fun s => s.segmentId ≠ id
      currentSegmentId :=
        if m.currentSegmentId = id then
          ((m.segments.filter fun s => s.segmentId ≠ id).getLast?.map Segment.segmentId).getD 0
        else m.currentSegmentId } := by
  have hmem : ∀ s ∈ m.segments.filter (fun s => s.segmentId ≠ id), s ∈ m.segments :=
    fun s hs => mem_of_mem_filter hs
  have hsorted := h.sorted.filter fun s => decide (s.segmentId ≠ id)
  refine ⟨hsorted, ?_, fun s hs => h.path s (hmem s hs), fun s hs => h.offset s (hmem s hs),
    fun s hs => h.filed s (hmem s hs), h.short, h.headed⟩
  intro s hs
  dsimp only at hs ⊢
  split
  next =>
      rcases eq_nil_or_concat (m.segments.filter fun s => s.segmentId ≠ id) with
        hnil | ⟨init, last, hconcat⟩
      · rw [hnil] at hs
        exact absurd hs not_mem_nil
      · rw [hconcat, concat_eq_append] at hs hsorted ⊢
        rw [getLast?_concat, Option.map_some, Option.getD_some]
        rcases mem_append.mp hs with hinit | hlast
        · exact ((pairwise_append.mp hsorted).2.2 s hinit last (by simp)).le
        · rw [mem_singleton.mp hlast]
  next => exact h.current s (hmem s hs)

/-- The map without one segment. -/
def Loses (m : SegmentManager) (id : ℕ) (m' : SegmentManager) : Prop :=
  Mapped m' ∧ m'.ids = m.ids.filter fun id' => id' ≠ id

theorem Mapped.ends_remove (h : Mapped m) (faults : Faults) (id : ℕ) :
    Ends (removeSegment faults id) m (fun _ => Loses m id) fun _ => Loses m id := by
  have hids : (m.segments.filter fun s => s.segmentId ≠ id).map Segment.segmentId =
      m.ids.filter fun id' => id' ≠ id := by
    rw [ids, filter_map]
    rfl
  unfold removeSegment
  rw [ends_bind, ends_get]
  split
  next hfind =>
      refine ⟨h, (filter_eq_self.mpr fun id' hid' => ?_).symm⟩
      obtain ⟨s, hs, rfl⟩ := mem_map.mp hid'
      have hne := find?_eq_none.mp hfind s hs
      simpa using hne
  next s hfind =>
      obtain ⟨hs, hid⟩ : s ∈ m.segments ∧ s.segmentId = id :=
        ⟨mem_of_find?_eq_some hfind, by simpa using find?_some hfind⟩
      simp only [ends_bind, ends_check, ends_modify]
      refine ⟨fun _ => ⟨?_, hids⟩, fun _ _ => ⟨h.unmap id, hids⟩⟩
      -- with the file gone as well
      have hunmapped := h.unmap id
      refine ⟨hunmapped.sorted, hunmapped.current, hunmapped.path, hunmapped.offset, ?_, ?_, ?_⟩
      · intro t ht
        have hne : t.segmentId ≠ id := of_decide_eq_true (mem_filter.mp ht).2
        obtain ⟨f, hf, hkey⟩ := mem_map.mp (hunmapped.filed t ht)
        refine mem_map.mpr ⟨f, mem_filter.mpr ⟨hf, decide_eq_true ?_⟩, hkey⟩
        rw [hkey, h.path s hs, hid]
        exact hne
      · exact fun f hf => h.short f (mem_of_mem_filter hf)
      · exact fun f hf => h.headed f (mem_of_mem_filter hf)

end Operations

/-! ## Whole runs -/

/-- What holds of the segments that were made along every run. -/
structure Kept (created : List ℕ) (m : SegmentManager) : Prop where
  mapped : Mapped m
  order : created.Pairwise (· < ·)
  live : created ⊆ m.ids

variable {config : WalConfig} {created : List ℕ} {m m' : SegmentManager}

theorem Kept.stays (h : Kept created m) (hstays : Stays m m') : Kept created m' :=
  ⟨hstays.1, h.order, hstays.2 ▸ h.live⟩

theorem Created.kept (h : Created config created m) : Kept created m := by
  induction h with
  | new =>
      refine ⟨⟨List.Pairwise.nil, ?_, ?_, ?_, ?_, ?_, ?_⟩, List.Pairwise.nil, nil_subset _⟩
      all_goals exact fun _ hmem => absurd hmem not_mem_nil
  | roll faults _ hindex hid hroll ih =>
      obtain ⟨rfl, rfl⟩ := (ends_roll _ _).ok hroll
      refine ⟨ih.mapped.roll hindex hid, ?_, ?_⟩
      · refine pairwise_append.mpr ⟨ih.order, pairwise_singleton _ _, ?_⟩
        intro a ha b hb
        obtain ⟨s, hs, rfl⟩ := mem_map.mp (ih.live ha)
        rw [mem_singleton.mp hb]
        exact Nat.lt_succ_of_le (ih.mapped.current s hs)
      · intro id hid
        rw [ids, afterRoll, mem_ids_insertSegment]
        rcases mem_append.mp hid with hold | hnew
        · exact Or.inr (ih.live hold)
        · exact Or.inl (mem_singleton.mp hnew)
  | rollFails faults firstIndex _ hroll ih =>
      obtain ⟨rfl, -⟩ := (ends_roll _ _).error hroll
      exact ih
  | append faults site data _ hs ih =>
      exact ih.stays (ih.mapped.ends_append hs site data).leaves
  | truncate faults _ hs hoffset ih =>
      exact ih.stays (ih.mapped.ends_truncate _ hoffset).leaves
  | @sync created m faults site s _ ih =>
      have hsame : leaves (SegmentManager.sync faults site s) m = m :=
        Ends.leaves ((ends_sync m site s).mono (fun _ _ => id) fun _ _ => And.left)
      rw [hsame]
      exact ih
  | remove faults id _ ih =>
      obtain ⟨hmapped, hids⟩ := (ih.mapped.ends_remove faults id).leaves
      exact ⟨hmapped, ih.order.filter _, hids ▸ filter_subset _ ih.live⟩
  | reopen _ ih =>
      obtain ⟨hmapped, hids⟩ := ih.mapped.reopen
      refine ⟨hmapped, ih.order, fun id hid => hids id ?_⟩
      obtain ⟨s, hs, rfl⟩ := mem_map.mp (ih.live hid)
      exact ih.mapped.filed s hs

/-- The segments that were made and not removed are found again in the order they were made. -/
theorem Created.found (h : Created config created m) :
    created.Sublist (leaves (initializeSegments Faults.none) { files := m.files }).ids := by
  have hkept := h.reopen.kept
  have hids : (leaves (initializeSegments Faults.none) { files := m.files }).ids.Pairwise (· < ·) :=
    pairwise_map.mpr hkept.mapped.sorted
  exact sublist_of_subperm_of_pairwise
    (subperm_of_subset (hkept.order.imp Nat.ne_of_lt) hkept.live) hkept.order hids

/-- Names are read back and are in the order of the numbers exactly up to six digits, and up to
there every segment is found again in the order of creation. -/
theorem segmentNames_faithful (config : WalConfig) :
    (∀ a b : ℕ, ((parseSegmentId (makeSegmentFilename a) = some a ∧
        parseSegmentId (makeSegmentFilename b) = some b) ∧
        (makeSegmentFilename a < makeSegmentFilename b ↔ a < b)) ↔ a < 1000000 ∧ b < 1000000) ∧
      ∀ created m, Created config created m →
        created.Sublist (leaves (initializeSegments Faults.none) { files := m.files }).ids := by
  refine ⟨fun a b => ?_, fun created m h => h.found⟩
  rw [parseSegmentId_make_iff, parseSegmentId_make_iff]
  exact and_iff_left_of_imp fun h => makeSegmentFilename_lt_iff h.1 h.2

/-- Rolling again and again without a failure. -/
theorem exists_created (config : WalConfig) {n : ℕ} (hn : n < 1000000) :
    ∃ m, Created config (List.range' 1 n) m ∧ m.currentSegmentId = n ∧ ∀ f ∈ m.files, f.1 ≤ n := by
  induction n with
  | zero => exact ⟨{}, .new, rfl, fun f hf => absurd hf not_mem_nil⟩
  | succ n ih =>
      obtain ⟨m, h, hcurrent, hfiles⟩ := ih (by omega)
      have hroll := roll_succeeds config 1 (hcurrent ▸ hfiles)
      refine ⟨m.afterRoll Faults.none config 1, ?_, congrArg (· + 1) hcurrent, ?_⟩
      · have hcreated := h.roll Faults.none (by decide) (hcurrent ▸ hn) hroll
        rwa [rolled, hcurrent, Nat.add_comm n 1, ← range'_1_concat] at hcreated
      · intro f hf
        rcases mem_append.mp hf with hmem | hnew
        · exact (hfiles f hmem).trans (Nat.le_succ n)
        · rw [mem_singleton.mp hnew, hcurrent]

/-- Three segments are made and found again. -/
theorem segmentNames_faithful_three :
    ∃ m, Created {} [1, 2, 3] m ∧
      [1, 2, 3].Sublist (leaves (initializeSegments Faults.none) { files := m.files }).ids := by
  obtain ⟨m, h, -, -⟩ := exists_created {} (show 3 < 1000000 by decide)
  exact ⟨m, h, (segmentNames_faithful {}).2 _ m h⟩

/-- The files that are not found do not count. -/
theorem openSegments_files (faults : Faults) (files : ListMap ℕ Bytes) (m : SegmentManager)
    (todo : List (ℕ × Bytes)) :
    (openSegments faults { m with files } todo).ids = (openSegments faults m todo).ids := by
  induction todo generalizing m with
  | nil => rfl
  | cons f todo ih =>
      rw [openSegments, openSegments]
      cases openSegment faults f.1 f.2 with
      | none => exact ih m
      | some s =>
          exact ih { m with
            segments := insertSegment s m.segments
            currentSegmentId := max m.currentSegmentId s.segmentId }

/-- The segment with the first number of seven digits is made, and never found again. -/
theorem segmentNames_lost :
    parseSegmentId (makeSegmentFilename 1000000) = none ∧
      makeSegmentFilename 1000000 < makeSegmentFilename 999999 ∧
      ∃ created m s m', Created {} created m ∧
        rollToNewSegment Faults.none {} 1 m = .ok s m' ∧ s.segmentId = 1000000 ∧
        1000000 ∉ (leaves (initializeSegments Faults.none) { files := m'.files }).ids := by
  refine ⟨by decide +kernel, by decide +kernel, ?_⟩
  obtain ⟨m, h, hcurrent, hfiles⟩ := exists_created {} (show 999999 < 1000000 by decide)
  refine ⟨_, m, _, _, h, roll_succeeds {} 1 (hcurrent ▸ hfiles), congrArg (· + 1) hcurrent, ?_⟩
  have hscanned : scanned (m.afterRoll Faults.none {} 1).files = scanned m.files := by
    rw [scanned_eq, scanned_eq, afterRoll, filter_append, hcurrent]
    rw [filter_cons_of_neg (by decide), filter_nil, append_nil]
  rw [initializeSegments]
  change 1000000 ∉ (openSegments Faults.none
    { files := (m.afterRoll Faults.none {} 1).files } (scanned _)).ids
  rw [hscanned, openSegments_files Faults.none _ { files := m.files }]
  intro hfound
  have hkept := h.reopen.kept
  rw [initializeSegments] at hkept
  obtain ⟨s, hs, hid⟩ := mem_map.mp hfound
  obtain ⟨f, hf, hkey⟩ := mem_map.mp (hkept.mapped.filed s hs)
  have hshort := hkept.mapped.short f hf
  omega

end SegmentManager

end Raftpp
