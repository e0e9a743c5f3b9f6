import Raftpp.Wal.Holds

/-!
# The segment manager on images

What the operations of the segment manager do to the images of the segment files:
writing appends records to an image, cutting drops the last ones, rolling adds an
empty image, and removing segments from an image on leaves those before it.
-/

namespace Raftpp

open SegmentManager Image

variable {im' : Image} {pre post : List LogRecord}

open List Option

/-- Two maps over a list that differ at one place. -/
theorem map_change {α β : Type*} {f g : α → β} {before after : List α} {x y : α}
    (hx : f x = g y) (hbefore : ∀ z ∈ before, f z = g z) (hafter : ∀ z ∈ after, f z = g z) :
    (before ++ x :: after).map f = (before ++ y :: after).map g := by
  rw [map_append, map_append, map_cons, map_cons, hx, map_congr_left hbefore, map_congr_left hafter]

section Ids

variable {before after images : List Image} {im : Image}

/-- The ids of the images increase. -/
def Increasing (images : List Image) : Prop := images.Pairwise fun im im' => im.id < im'.id

theorem Chain.increasing (h : Chain images) : Increasing images :=
  h.ordered.imp Before.id

theorem Increasing.id_ne (h : Increasing (before ++ im :: after)) :
    (∀ im' ∈ before, im'.id ≠ im.id) ∧ ∀ im' ∈ after, im'.id ≠ im.id := by
  obtain ⟨-, hright, hcross⟩ := List.pairwise_append.mp h
  exact ⟨fun im' him' => (hcross im' him' im (by simp)).ne,
    fun im' him' => ((pairwise_cons.mp hright).1 im' him').ne'⟩

/-- Another image with the same id in the place of the last one. -/
theorem Increasing.replace (h : Increasing (before ++ [im])) (hid : im'.id = im.id) :
    Increasing (before ++ [im']) := by
  obtain ⟨hbefore, -, hcross⟩ := List.pairwise_append.mp h
  refine List.pairwise_append.mpr ⟨hbefore, pairwise_singleton _ _, fun b hb c hc => ?_⟩
  rw [mem_singleton.mp hc, hid]
  exact hcross b hb im (by simp)

/-- The id of the last image. -/
def lastId (images : List Image) : ℕ := (images.getLast?.map Image.id).getD 0

@[simp]
theorem lastId_append_singleton (before : List Image) (im : Image) :
    lastId (before ++ [im]) = im.id := by simp [lastId]

theorem Increasing.id_le (h : Increasing images) (him : im ∈ images) :
    im.id ≤ lastId images := by
  rcases eq_nil_or_concat images with rfl | ⟨init, last, rfl⟩
  · cases him
  · rw [concat_eq_append] at h him ⊢
    rw [lastId_append_singleton]
    rcases mem_append.mp him with hmem | hmem
    · exact ((List.pairwise_append.mp h).2.2 im hmem last (by simp)).le
    · rw [mem_singleton.mp hmem]

end Ids

variable [WalCodec] {before after images : List Image} {im : Image}

theorem managerOf_current (images : List Image) :
    (managerOf images).currentSegmentId = lastId images := rfl

theorem managerOf_append_singleton (images : List Image) (im : Image) :
    managerOf (images ++ [im]) =
      { segments := (managerOf images).segments ++ [im.segment]
        currentSegmentId := im.id
        files := (managerOf images).files ++ [(im.id, im.file)] } := by
  simp [managerOf]

theorem managerOf_find (h : Increasing images) (him : im ∈ images) :
    (managerOf images).find im.id = some im.segment := by
  obtain ⟨before, after, rfl⟩ := append_of_mem him
  have hbefore := h.id_ne.1
  change ((before ++ im :: after).map segment).find? _ = _
  rw [map_append, find?_append, find?_eq_none.mpr, none_or, map_cons,
    find?_cons_of_pos (by simp [Image.segment])]
  intro s hs
  obtain ⟨im', him', rfl⟩ := mem_map.mp hs
  exact fun hsame => hbefore im' him' (of_decide_eq_true hsame)

/-! ## Changing one image -/

/-- A change of one segment and of its file is a change of the image. -/
theorem managerOf_modify (h : Increasing (before ++ im :: after)) {f : Segment → Segment}
    {g : Bytes → Bytes} (hid : im'.id = im.id) (hsegment : f im.segment = im'.segment)
    (hfile : g im.file = im'.file) :
    modifySegment
        { managerOf (before ++ im :: after) with
          files := (managerOf (before ++ im :: after)).files.modify im.id g } im.id f =
      managerOf (before ++ im' :: after) := by
  obtain ⟨hbefore, hafter⟩ := h.id_ne
  have hsegments : ((before ++ im :: after).map segment).map
      (fun s => if s.segmentId = im.id then f s else s) =
      (before ++ im' :: after).map segment := by
    rw [List.map_map]
    exact map_change ((if_pos rfl).trans hsegment) (fun z hz => if_neg (hbefore z hz))
      fun z hz => if_neg (hafter z hz)
  have hfiles : ListMap.modify ((before ++ im :: after).map fun im => (im.id, im.file)) im.id g =
      (before ++ im' :: after).map fun im => (im.id, im.file) := by
    rw [ListMap.modify, List.map_map]
    refine map_change ((if_pos rfl).trans ?_) (fun z hz => if_neg (hbefore z hz))
      fun z hz => if_neg (hafter z hz)
    rw [hfile, hid]
  have hcurrent : lastId (before ++ im :: after) = lastId (before ++ im' :: after) := by
    rcases eq_nil_or_concat after with rfl | ⟨init, last, rfl⟩
    · rw [lastId_append_singleton, lastId_append_singleton, hid]
    · rw [concat_eq_append, ← cons_append, ← append_assoc,
        lastId_append_singleton, ← cons_append, ← append_assoc, lastId_append_singleton]
  unfold managerOf modifySegment
  rw [← hsegments, ← hfiles]
  exact congrArg (fun current => ({ segments := _, currentSegmentId := current, files := _ } :
    SegmentManager)) hcurrent

/-- A change of a file behind the records. -/
theorem managerOf_modify_file (h : Increasing (before ++ im :: after)) {g : Bytes → Bytes}
    (hid : im'.id = im.id) (hsegment : im.segment = im'.segment) (hfile : g im.file = im'.file) :
    { managerOf (before ++ im :: after) with
      files := (managerOf (before ++ im :: after)).files.modify im.id g } =
      managerOf (before ++ im' :: after) := by
  have hmodify := managerOf_modify h (f := id) hid hsegment hfile
  rw [← hmodify]
  simp [modifySegment]

/-- What lies behind the records after a write of `data` there. -/
def Image.torn (im : Image) (data : Bytes) : Image :=
  { im with tail := data ++ im.tail.drop data.length }

/-- An image after a write of some records. -/
def Image.extend (im : Image) (records : List LogRecord) : Image :=
  { im with records := im.records ++ records, tail := im.tail.drop (recordsSize records) }

/-- An image cut behind some of its records. -/
def Image.cut (im : Image) (records : List LogRecord) : Image :=
  { im with records, tail := [] }

theorem pwriteBytes_file (im : Image) (data : Bytes) :
    pwriteBytes im.file im.size data = (im.torn data).file := by
  have hlength : (im.header ++ recordsBytes im.records).length = im.size := by
    simp [Image.size]
  have hgap : im.size - im.file.length = 0 := by
    rw [im.file_length]
    omega
  have hfile : im.file = (im.header ++ recordsBytes im.records) ++ im.tail := by
    rw [file, append_assoc]
  rw [pwriteBytes, hgap, replicate_zero, append_nil, hfile, take_left' hlength,
    ← hlength, drop_append, drop_eq_nil_of_le (by omega), List.nil_append,
    Nat.add_sub_cancel_left, append_assoc]
  rfl

theorem torn_recordsBytes_file (im : Image) (records : List LogRecord) :
    (im.torn (recordsBytes records)).file = (im.extend records).file := by
  simp only [torn, extend, file, recordsBytes_length, recordsBytes_append,
    append_assoc]
  rfl

theorem truncateBytes_file (h : im.records = pre ++ post) :
    truncateBytes im.file (SegmentHeader.size + recordsSize pre) = (im.cut pre).file := by
  have hlength : (im.header ++ recordsBytes pre).length =
      SegmentHeader.size + recordsSize pre := by simp
  have hfile : im.file =
      (im.header ++ recordsBytes pre) ++ (recordsBytes post ++ im.tail) := by
    simp [file, h]
  rw [truncateBytes, hfile, append_assoc, take_left' hlength]
  simp only [cut, file, append_nil]
  rfl

/-! ## The operations -/

section Operations

variable {faults : Faults} {config : WalConfig}

/-- Writing at the end of the last image. -/
theorem ends_appendTo (h : Increasing (before ++ [im])) (site : WriteSite)
    (records : List LogRecord) :
    Ends (appendTo faults site im.segment (recordsBytes records))
      (managerOf (before ++ [im]))
      (fun _ m => faults (.write site im.id im.size) = none ∧
        m = managerOf (before ++ [im.extend records]))
      fun _ m => ∃ fault, faults (.write site im.id im.size) = some fault ∧
        m = managerOf (before ++ [im.torn ((recordsBytes records).take fault.transferred)]) := by
  unfold appendTo
  rw [show faults (.write site im.segment.segmentId im.segment.writeOffset) =
    faults (.write site im.id im.size) from rfl]
  cases hfault : faults (.write site im.id im.size) with
  | none =>
      simp only [ends_bind, ends_modify]
      refine ⟨trivial, managerOf_modify h rfl ?_ ?_⟩
      · simp only [Image.segment, extend, Image.size, recordsBytes_length,
          recordsSize_append, Nat.add_assoc]
      · exact (pwriteBytes_file im _).trans (torn_recordsBytes_file im records)
  | some fault =>
      simp only [ends_bind, ends_modify]
      split <;> exact ⟨fault, rfl, managerOf_modify_file h rfl rfl (pwriteBytes_file im _)⟩

/-- Cutting an image behind some of its records. -/
theorem ends_truncate (h : Increasing (before ++ im :: after))
    {pre post : List LogRecord} (hrecords : im.records = pre ++ post) :
    Ends (truncate faults im.segment (SegmentHeader.size + recordsSize pre))
      (managerOf (before ++ im :: after))
      (fun _ m => m = managerOf (before ++ im.cut pre :: after))
      fun _ m => m = managerOf (before ++ im :: after) ∧
        (faults (.truncate im.id (SegmentHeader.size + recordsSize pre))).isSome = true := by
  unfold truncate
  simp only [ends_bind, ends_check, ends_modify]
  refine ⟨fun _ => managerOf_modify h rfl rfl (truncateBytes_file hrecords), ?_⟩
  rintro fault hfault
  exact ⟨trivial, isSome_of_mem hfault⟩

section

omit [WalCodec]

theorem ends_sync (m : SegmentManager) (site : SyncSite) (s : Segment) :
    Ends (sync faults site s) m (fun _ m' => m' = m)
      fun _ m' => m' = m ∧ (faults (.sync site s.segmentId)).isSome = true := by
  unfold sync
  rw [ends_check]
  exact ⟨fun _ => rfl, fun fault hfault => ⟨rfl, isSome_of_mem hfault⟩⟩

/-- Syncing changes nothing. -/
theorem ends_syncSegments (m : SegmentManager) (ss : List Segment) :
    Ends (syncSegments faults ss) m (fun _ m' => m' = m)
      fun _ m' => m' = m ∧ ∃ id, (faults (.sync .all id)).isSome = true := by
  induction ss with
  | nil => rfl
  | cons s ss ih =>
      refine ((ends_sync m .all s).mono (fun _ _ => id) fun _ _ h => ⟨h.1, _, h.2⟩).bind ?_
      rintro - m' rfl
      exact ih

theorem ends_syncAll (m : SegmentManager) :
    Ends (syncAll faults) m (fun _ m' => m' = m)
      fun _ m' => m' = m ∧ ∃ id, (faults (.sync .all id)).isSome = true := by
  unfold syncAll
  rw [ends_bind, ends_get]
  exact ends_syncSegments m m.segments

end

/-! ## New segments -/

/-- What a new segment file holds behind its header. -/
def blankTail (faults : Faults) (config : WalConfig) (id : ℕ) : Bytes :=
  if config.preallocate ∧ (faults (.preallocate id)).isNone then
    List.replicate (config.segmentSize - SegmentHeader.size) 0 else []

omit [WalCodec] in
theorem blankTail_eq (id : ℕ) : ∃ n, blankTail faults config id = List.replicate n 0 := by
  unfold blankTail
  split
  · exact ⟨_, rfl⟩
  · exact ⟨0, rfl⟩

/-- The image of a new segment behind some others. -/
def newImage (faults : Faults) (config : WalConfig) (images : List Image) (firstIndex : ℕ) :
    Image where
  id := lastId images + 1
  firstIndex := firstIndex
  tail := blankTail faults config (lastId images + 1)

/-- One of the calls that make a new segment fails. -/
def CreateFails (faults : Faults) (id firstIndex : ℕ) : Prop :=
  (faults (.create id firstIndex)).isSome = true ∨
    (faults (.writeHeader id firstIndex)).isSome = true ∨
      (faults (.stat id firstIndex)).isSome = true

theorem newFile_eq (images : List Image) (firstIndex : ℕ) :
    newFile faults config (lastId images + 1) firstIndex =
      (newImage faults config images firstIndex).file := by
  have hblank : ∀ blank : Bytes, pwriteBytes blank 0 (SegmentHeader.serialize
      { segmentId := lastId images + 1, firstIndex }) =
      SegmentHeader.serialize { segmentId := lastId images + 1, firstIndex } ++
        blank.drop SegmentHeader.size := by
    intro blank
    rw [pwriteBytes, take_zero, List.nil_append, Nat.zero_add, SegmentHeader.serialize_length]
  rw [newFile, hblank]
  simp only [newImage, file, header, blankTail, recordsBytes_nil, List.nil_append]
  split <;> simp

omit [WalCodec] in
theorem insertSegment_last {ss : List Segment} {s : Segment}
    (h : ∀ t ∈ ss, t.segmentId < s.segmentId) :
    insertSegment s ss = ss ++ [s] := by
  induction ss with
  | nil => rfl
  | cons t ts ih =>
      have hlt := h t mem_cons_self
      rw [insertSegment, if_neg (by omega), if_neg (by omega),
        ih fun u hu => h u (mem_cons_of_mem _ hu), cons_append]

omit [WalCodec] in
theorem ends_syncCurrent (m : SegmentManager) :
    Ends (ignoring (syncCurrent faults)) m (fun _ m' => m' = m)
      fun _ _ => False := by
  rw [ends_ignoring]
  unfold syncCurrent
  simp only [ends_bind, ends_get]
  split
  · exact (ends_sync m .roll _).mono (fun _ _ => id) fun _ _ => And.left
  · rfl

theorem managerOf_contains (h : Increasing images) :
    (managerOf images).files.contains (lastId images + 1) = false := by
  rw [ListMap.contains, isSome_eq_false_iff, isNone_iff_eq_none, eq_none_iff_forall_ne_some]
  intro file hfile
  obtain ⟨im, him, hsame⟩ := mem_map.mp (ListMap.get_mem hfile)
  have hle := h.id_le him
  have hid : im.id = lastId images + 1 := congrArg Prod.fst hsame
  omega

theorem ends_create (h : Increasing images) (firstIndex : ℕ) :
    Ends (create faults config (lastId images + 1) firstIndex) (managerOf images)
      (fun s m => s = (newImage faults config images firstIndex).segment ∧
        m = { managerOf images with
              files := (managerOf images).files ++
                [(lastId images + 1, (newImage faults config images firstIndex).file)] })
      fun _ m => m = managerOf images ∧ CreateFails faults (lastId images + 1) firstIndex := by
  unfold create
  simp only [ends_bind, ends_get, ends_check, ends_modify, ends_pure, managerOf_contains h,
    Bool.false_eq_true, if_false, newFile_eq]
  refine ⟨fun _ => ⟨fun _ => ⟨fun _ => ⟨fun _ => ⟨rfl, trivial⟩, ?_⟩, ?_⟩, ?_⟩, nofun⟩
  · exact fun f hf => ⟨trivial, Or.inr (Or.inr (isSome_of_mem hf))⟩
  · exact fun f hf => ⟨trivial, Or.inr (Or.inl (isSome_of_mem hf))⟩
  · exact fun f hf => ⟨trivial, Or.inl (isSome_of_mem hf)⟩

/-- Rolling to a new segment: a failure leaves the segments as they were. -/
theorem ends_rollToNewSegment (h : Increasing images) (firstIndex : ℕ) :
    Ends (rollToNewSegment faults config firstIndex) (managerOf images)
      (fun s m => s = (newImage faults config images firstIndex).segment ∧
        m = managerOf (images ++ [newImage faults config images firstIndex]))
      fun _ m => m = managerOf images ∧ CreateFails faults (lastId images + 1) firstIndex := by
  have hids : ∀ t ∈ (managerOf images).segments, t.segmentId < lastId images + 1 := by
    intro t ht
    obtain ⟨im, him, rfl⟩ := mem_map.mp ht
    exact Nat.lt_succ_of_le (h.id_le him)
  unfold rollToNewSegment
  refine ((ends_syncCurrent _).mono (fun _ _ => id) fun _ _ => False.elim).bind ?_
  rintro - m rfl
  rw [ends_bind, ends_get, managerOf_current]
  refine (ends_create h firstIndex).bind ?_
  rintro s m ⟨rfl, rfl⟩
  rw [ends_bind, ends_modify, ends_pure]
  refine ⟨rfl, ?_⟩
  rw [managerOf_append_singleton,
    ← insertSegment_last (s := (newImage faults config images firstIndex).segment) hids]
  rfl

/-- The current segment is the last one; without one a first one is made. -/
theorem ends_getCurrentSegment (h : Increasing (before ++ [im])) (firstIndex : ℕ) :
    Ends (getCurrentSegment faults config firstIndex) (managerOf (before ++ [im]))
      (fun s m => s = im.segment ∧ m = managerOf (before ++ [im])) fun _ _ => False := by
  have hfind : (managerOf (before ++ [im])).find im.id = _ := managerOf_find h (by simp)
  unfold getCurrentSegment
  rw [ends_bind, ends_get, if_neg (by simp [managerOf])]
  simp only [ends_bind, ends_get, managerOf_current, lastId_append_singleton, hfind, ends_pure,
    and_self]

theorem ends_getCurrentSegment_nil (firstIndex : ℕ) :
    Ends (getCurrentSegment faults config firstIndex) (managerOf [])
      (fun s m => s = (newImage faults config [] firstIndex).segment ∧
        m = managerOf [newImage faults config [] firstIndex])
      fun _ m => m = managerOf [] ∧ CreateFails faults 1 firstIndex :=
  ends_rollToNewSegment List.Pairwise.nil firstIndex

/-! ## Removing segments -/

omit [WalCodec] in
theorem lastId_append_cons (h : Increasing (before ++ im :: after)) :
    (if lastId (before ++ im :: after) = im.id then lastId (before ++ after)
      else lastId (before ++ im :: after)) = lastId (before ++ after) := by
  rcases eq_nil_or_concat after with rfl | ⟨init, last, rfl⟩
  · rw [lastId_append_singleton, if_pos rfl]
  · rw [concat_eq_append] at h ⊢
    have hne : last.id ≠ im.id := h.id_ne.2 last (by simp)
    rw [← cons_append, ← append_assoc, lastId_append_singleton, if_neg hne,
      ← append_assoc, lastId_append_singleton]

omit [WalCodec] in
/-- What passes a test that only one image fails. -/
theorem filter_append_cons {α : Type*} {p : α → Bool} {f : Image → α} (him : p (f im) = false)
    (hbefore : ∀ z ∈ before, p (f z) = true) (hafter : ∀ z ∈ after, p (f z) = true) :
    ((before ++ im :: after).map f).filter p = (before ++ after).map f := by
  have hall : ∀ {images : List Image}, (∀ z ∈ images, p (f z) = true) →
      (images.map f).filter p = images.map f := by
    intro images h
    rw [filter_eq_self]
    intro x hx
    obtain ⟨z, hz, rfl⟩ := mem_map.mp hx
    exact h z hz
  rw [map_append, filter_append, map_cons, List.filter_cons_of_neg (by simp [him]),
    hall hbefore, hall hafter, map_append]

/-- Removing a segment; if its file cannot be removed, only the file stays. -/
theorem ends_removeSegment (h : Increasing (before ++ im :: after)) :
    Ends (removeSegment faults im.id) (managerOf (before ++ im :: after))
      (fun _ m => m = managerOf (before ++ after))
      fun _ m => m = { managerOf (before ++ after) with
                       files := (managerOf (before ++ im :: after)).files } ∧
        (faults (.remove im.id)).isSome = true := by
  obtain ⟨hbefore, hafter⟩ := h.id_ne
  have hsegments : (managerOf (before ++ im :: after)).segments.filter
      (fun s => s.segmentId ≠ im.id) = (before ++ after).map segment :=
    filter_append_cons (decide_eq_false (by simp [Image.segment]))
      (fun z hz => decide_eq_true (hbefore z hz)) fun z hz => decide_eq_true (hafter z hz)
  have hfiles : (managerOf (before ++ im :: after)).files.erase im.id =
      (managerOf (before ++ after)).files :=
    filter_append_cons (decide_eq_false (by simp))
      (fun z hz => decide_eq_true (hbefore z hz)) fun z hz => decide_eq_true (hafter z hz)
  have hcurrent : (if lastId (before ++ im :: after) = im.id then
      (((before ++ after).map segment).getLast?.map Segment.segmentId).getD 0
      else lastId (before ++ im :: after)) = lastId (before ++ after) := by
    rw [← lastId_append_cons h, List.getLast?_map, Option.map_map]
    rfl
  have hfind : (managerOf (before ++ im :: after)).find im.id = _ := managerOf_find h (by simp)
  unfold removeSegment
  simp only [ends_bind, ends_get, hfind, ends_modify, ends_check, hsegments, managerOf_current,
    hcurrent]
  refine ⟨fun _ => ?_, fun fault hfault => ⟨rfl, isSome_of_mem hfault⟩⟩
  rw [show im.segment.path = im.id from rfl, hfiles]
  rfl

/-- Removing the segments behind some others, up to the first failure. -/
theorem ends_removeSegments (h : Increasing (before ++ after)) :
    Ends (removeSegments faults (after.map Image.id)) (managerOf (before ++ after))
      (fun _ m => m = managerOf before)
      fun _ m => ∃ removed im rest, after = removed ++ im :: rest ∧
        (faults (.remove im.id)).isSome = true ∧
        m = { managerOf (before ++ rest) with
              files := (managerOf (before ++ im :: rest)).files } := by
  induction after with
  | nil => exact congrArg managerOf (append_nil before)
  | cons im after ih =>
      have hrest : Increasing (before ++ after) :=
        h.sublist (List.Sublist.append_left (sublist_cons_self im after) before)
      have hfirst : Ends (removeSegment faults im.id)
          (managerOf (before ++ im :: after)) (fun _ m => m = managerOf (before ++ after))
          fun _ m => ∃ removed im' rest, im :: after = removed ++ im' :: rest ∧
            (faults (.remove im'.id)).isSome = true ∧
            m = { managerOf (before ++ rest) with
                  files := (managerOf (before ++ im' :: rest)).files } :=
        (ends_removeSegment h).mono (fun _ _ => id)
          fun _ m hm => ⟨[], im, after, rfl, hm.2, hm.1⟩
      refine hfirst.bind ?_
      rintro - m rfl
      refine (ih hrest).mono (fun _ _ => id) ?_
      rintro - m ⟨removed, im', rest, rfl, hfault, rfl⟩
      exact ⟨im :: removed, im', rest, rfl, hfault, rfl⟩

/-! ## Cutting a suffix off -/

theorem later_segments (h : Increasing (before ++ im :: after)) (hid : im'.id = im.id) :
    ((managerOf (before ++ im' :: after)).segments.filter fun t =>
      decide (t.segmentId > im.id)).map Segment.segmentId = after.map Image.id := by
  obtain ⟨-, hright, hcross⟩ := List.pairwise_append.mp h
  have hbefore : (before.map segment).filter (fun t => decide (t.segmentId > im.id)) =
      [] := by
    rw [filter_eq_nil_iff]
    intro s hs
    obtain ⟨b, hb, rfl⟩ := mem_map.mp hs
    have hlt : b.id < im.id := hcross b hb im (by simp)
    exact fun hgt => lt_asymm hlt (of_decide_eq_true hgt)
  have hafter : (after.map segment).filter (fun t => decide (t.segmentId > im.id)) =
      after.map segment := by
    rw [filter_eq_self]
    intro s hs
    obtain ⟨b, hb, rfl⟩ := mem_map.mp hs
    exact decide_eq_true ((pairwise_cons.mp hright).1 b hb)
  have hself : ¬decide (im'.segment.segmentId > im.id) = true := by
    rw [show im'.segment.segmentId = im.id from hid, decide_eq_true_eq]
    exact lt_irrefl _
  change (((before ++ im' :: after).map segment).filter _).map _ = _
  rw [map_append, map_cons, filter_append, hbefore,
    List.filter_cons_of_neg (p := fun t : Segment => decide (t.segmentId > im.id)) hself, hafter,
    List.nil_append, List.map_map]
  rfl

/-- Cutting an image behind some of its records and removing the images behind it.  If that
fails behind the cut, the records are gone from the file. -/
theorem ends_cutSegments (h : Increasing (before ++ im :: after))
    (hrecords : im.records = pre ++ post) :
    Ends (cutSegments faults im.segment (SegmentHeader.size + recordsSize pre))
      (managerOf (before ++ im :: after))
      (fun _ m => m = managerOf (before ++ [im.cut pre]))
      fun _ m =>
        m = managerOf (before ++ im :: after) ∧
            (∃ id offset, (faults (.truncate id offset)).isSome = true) ∨
          ((∃ id, (faults (.sync .truncate id)).isSome = true) ∨
              ∃ id, (faults (.remove id)).isSome = true) ∧
            ∃ rest rest', rest <:+ after ∧ rest' <:+ after ∧
              m = { managerOf (before ++ im.cut pre :: rest) with
                    files := (managerOf (before ++ im.cut pre :: rest')).files } := by
  have hcut : Increasing ((before ++ [im.cut pre]) ++ after) := by
    rw [append_assoc, singleton_append]
    obtain ⟨hbefore, hright, hcross⟩ := List.pairwise_append.mp h
    refine List.pairwise_append.mpr ⟨hbefore, pairwise_cons.mpr
      ⟨(pairwise_cons.mp hright).1, (pairwise_cons.mp hright).2⟩, fun b hb c hc => ?_⟩
    rcases mem_cons.mp hc with rfl | hmem
    · exact hcross b hb im (by simp)
    · exact hcross b hb c (mem_cons_of_mem _ hmem)
  unfold cutSegments
  rw [ends_bind]
  refine (ends_truncate h hrecords).mono ?_ fun _ m hm => Or.inl ⟨hm.1, _, _, hm.2⟩
  rintro - m rfl
  rw [ends_bind]
  refine (ends_sync _ .truncate im.segment).mono ?_ ?_
  swap
  · rintro - m ⟨rfl, hfault⟩
    exact Or.inr ⟨Or.inl ⟨_, hfault⟩, after, after, suffix_rfl, suffix_rfl, rfl⟩
  rintro - m rfl
  rw [ends_bind, ends_get]
  dsimp only
  rw [show im.segment.segmentId = im.id from rfl,
    later_segments h (show (im.cut pre).id = im.id from rfl)]
  rw [show before ++ im.cut pre :: after = (before ++ [im.cut pre]) ++ after by simp]
  refine (ends_removeSegments hcut).mono (fun _ _ => id) ?_
  rintro - m ⟨removed, im', rest, rfl, hfault, rfl⟩
  refine Or.inr ⟨Or.inr ⟨_, hfault⟩, rest, im' :: rest, ?_, suffix_append _ _, ?_⟩
  · exact (suffix_cons im' rest).trans (suffix_append _ _)
  · rw [append_assoc, singleton_append, append_assoc, singleton_append]

end Operations

end Raftpp
