import Raftpp.Wal.FailedAppend

/-!
# Updates of the metadata and of the snapshot

What the operations of a log that write its metadata or its snapshot do, with the
calls that fail as a parameter.  Each of them assigns the fields in memory, writes a
file or appends a record in its own order, so what a failure leaves is different for
each.
-/

namespace Raftpp

/-- The snapshot file is installed by a rename; these are the calls up to it. -/
def SnapshotStep.installs : SnapshotStep → Bool
  | .openDirectory => false
  | .syncDirectory => false
  | _ => true

namespace Wal

variable {faults : Faults} {w : Wal} {im : Image} {α : Type}

/-! ## Files that are replaced -/

/-- A call that replaces the metadata file fails. -/
def MetadataFails (faults : Faults) : Prop := ∃ step, (faults (.metadata step)).isSome = true

/-- A call that writes the snapshot file fails, before the file is replaced or after. -/
def SnapshotFails (faults : Faults) (installs : Bool) : Prop :=
  ∃ step : SnapshotStep, step.installs = installs ∧ (faults (.snapshot step)).isSome = true

/-- The metadata file is replaced as a whole or not at all. -/
theorem ends_saveMetadata (metadata : WalMetadata) :
    Ends (saveMetadata faults metadata) w
      (fun _ w' => w' = { w with metadataFile := some metadata })
      fun _ w' => w' = w ∧ MetadataFails faults := by
  have hfails : ∀ step fault, faults (.metadata step) = some fault → MetadataFails faults :=
    fun step fault hfault => ⟨step, Option.isSome_of_mem hfault⟩
  unfold saveMetadata
  simp only [ends_bind, ends_check, ends_modify, true_and]
  refine ⟨fun _ => ?_, hfails .openFile⟩
  refine ⟨fun _ => ?_, hfails .write⟩
  refine ⟨fun _ => ?_, hfails .sync⟩
  refine ⟨fun _ => ?_, hfails .rename⟩
  trivial

/-- The snapshot file is replaced as a whole; the failure may come after. -/
theorem ends_persistSnapshotFile (snapshot : Snapshot) :
    Ends (persistSnapshotFile faults snapshot) w
      (fun _ w' => w' = { w with snapshotFile := some snapshot })
      fun _ w' => w' = w ∧ SnapshotFails faults true ∨
        w' = { w with snapshotFile := some snapshot } ∧ SnapshotFails faults false := by
  have hbefore : ∀ step : SnapshotStep, step.installs = true → ∀ fault,
      faults (.snapshot step) = some fault → SnapshotFails faults true ∨
        w = { w with snapshotFile := some snapshot } ∧ SnapshotFails faults false :=
    fun step hstep fault hfault => Or.inl ⟨step, hstep, Option.isSome_of_mem hfault⟩
  unfold persistSnapshotFile
  simp only [ends_bind, ends_check, ends_modify, true_and]
  refine ⟨fun _ => ?_, hbefore .createDirectories rfl⟩
  refine ⟨fun _ => ?_, hbefore .openFile rfl⟩
  refine ⟨fun _ => ?_, hbefore .write rfl⟩
  refine ⟨fun _ => ?_, hbefore .sync rfl⟩
  refine ⟨fun _ => ?_, hbefore .close rfl⟩
  refine ⟨fun _ => ?_, hbefore .rename rfl⟩
  -- from here on the new snapshot is in its place
  refine ⟨fun _ => ⟨fun _ => trivial, fun fault hfault => Or.inr ⟨.syncDirectory, rfl, ?_⟩⟩,
    fun fault hfault => Or.inr ⟨.openDirectory, rfl, ?_⟩⟩ <;>
  exact Option.isSome_of_mem hfault

/-! ## The operations -/

theorem ends_removeLogged (ids : List ℕ) :
    Ends (removeLogged faults ids) w (fun _ _ => True) fun _ _ => False := by
  induction ids generalizing w with
  | nil => trivial
  | cons id ids ih =>
      unfold removeLogged
      rw [ends_bind, ends_ignoring]
      exact ends_of_runs (fun _ _ _ => ih) fun _ _ _ => ih

/-- The fields are assigned before they are saved. -/
theorem ends_assign (assign : Wal → Wal) :
    Ends (do modify assign; saveMetadata faults (← get).createMetadata) w
      (fun _ w' => w' = { assign w with metadataFile := some (assign w).createMetadata })
      fun _ w' => w' = assign w := by
  rw [ends_bind, ends_modify, ends_bind, ends_get]
  exact (ends_saveMetadata _).mono (fun _ _ => id) fun _ _ => And.left

/-- Compaction moves the first index before it saves it. -/
theorem ends_compact (index : ℕ) :
    Ends (compact faults index) w (fun _ _ => True)
      fun _ w' => w' = w ∧ w.lastIndex < index ∨
        w'.firstIndex = index ∧ w.firstIndex < index ∧ index ≤ w.lastIndex := by
  unfold compact
  rw [ends_bind, ends_get]
  split
  · trivial
  next hfirst =>
    dsimp only
    split
    next hlast => exact Or.inl ⟨rfl, hlast⟩
    next hlast =>
      rw [ends_bind, ends_modify, ends_bind, ends_get]
      dsimp only
      rw [ends_bind]
      refine (ends_saveMetadata _).mono ?_ ?_
      · exact fun _ _ _ => (ends_removeLogged _).mono (fun _ _ => id) fun _ _ => False.elim
      · rintro - w' ⟨rfl, -⟩
        exact Or.inr ⟨rfl, not_le.mp hfirst, not_lt.mp hlast⟩

/-- The files of a snapshot are written before the log starts behind it. -/
theorem ends_installSnapshot (snapshot : Snapshot) (metadata : WalMetadata) {rest : WalM α}
    (hrest : ∀ w', Ends rest w' (fun _ _ => True) fun _ _ => False) :
    Ends (do persistSnapshotFile faults snapshot; saveMetadata faults metadata; rest) w
      (fun _ _ => True)
      fun _ w' => w' = w ∧ SnapshotFails faults true ∨
        w' = { w with snapshotFile := some snapshot } ∧
          (SnapshotFails faults false ∨ MetadataFails faults) := by
  rw [ends_bind]
  refine (ends_persistSnapshotFile snapshot).mono ?_ ?_
  · rintro - w' rfl
    rw [ends_bind]
    refine (ends_saveMetadata metadata).mono ?_ ?_
    · exact fun _ w' _ => (hrest w').mono (fun _ _ => id) fun _ _ => False.elim
    · rintro - w' ⟨rfl, hfails⟩
      exact Or.inr ⟨rfl, Or.inr hfails⟩
  · rintro - w' (⟨rfl, hfails⟩ | ⟨rfl, hfails⟩)
    · exact Or.inl ⟨rfl, hfails⟩
    · exact Or.inr ⟨rfl, Or.inl hfails⟩

theorem ends_applySnapshot (snapshot : Snapshot) :
    Ends (applySnapshot faults snapshot) w (fun _ _ => True)
      fun _ w' => w' = w ∧
          (snapshot.metadata.index ≤ w.snapshotIndex ∨ SnapshotFails faults true) ∨
        w' = { w with snapshotFile := some snapshot } ∧
          w.snapshotIndex < snapshot.metadata.index ∧
            (SnapshotFails faults false ∨ MetadataFails faults) := by
  unfold applySnapshot
  rw [ends_bind, ends_get]
  split
  next hold => exact Or.inl ⟨rfl, Or.inl hold⟩
  next hnew =>
    refine (ends_installSnapshot snapshot _ fun w' => ?_).mono (fun _ _ => id) ?_
    · rw [ends_bind, ends_modify, ends_bind, ends_ignoring]
      exact ends_of_runs (fun _ _ _ => trivial) fun _ _ _ => trivial
    · rintro - w' (⟨rfl, hfails⟩ | ⟨rfl, hfails⟩)
      · exact Or.inl ⟨rfl, Or.inr hfails⟩
      · exact Or.inr ⟨rfl, not_le.mp hnew, hfails⟩

theorem ends_applyLocalSnapshot (snapshot : Snapshot) :
    Ends (applyLocalSnapshot faults snapshot) w (fun _ _ => True)
      fun _ w' => w' = w ∧ (snapshot.metadata.index ≤ w.snapshotIndex ∨
          w.lastIndex < snapshot.metadata.index ∨ SnapshotFails faults true) ∨
        w' = { w with snapshotFile := some snapshot } ∧
          w.snapshotIndex < snapshot.metadata.index ∧ snapshot.metadata.index ≤ w.lastIndex ∧
            (SnapshotFails faults false ∨ MetadataFails faults) := by
  unfold applyLocalSnapshot
  rw [ends_bind, ends_get]
  split
  next hold => exact Or.inl ⟨rfl, Or.inl hold⟩
  next hnew =>
    dsimp only
    split
    next hbeyond => exact Or.inl ⟨rfl, Or.inr (Or.inl hbeyond)⟩
    next hwithin =>
      refine (ends_installSnapshot snapshot _ fun w' => ?_).mono (fun _ _ => id) ?_
      · rw [ends_bind, ends_modify, ends_bind, ends_get]
        exact ends_removeLogged _
      · rintro - w' (⟨rfl, hfails⟩ | ⟨rfl, hfails⟩)
        · exact Or.inl ⟨rfl, Or.inr (Or.inr hfails)⟩
        · exact Or.inr ⟨rfl, not_le.mp hnew, not_lt.mp hwithin, hfails⟩

/-! ## Hard states -/

/-- A computation that does not touch the hard state. -/
def KeepsHardState {α : Type} (m : WalM α) : Prop :=
  ∀ w, Ends m w (fun _ w' => w'.hardState = w.hardState) fun _ w' => w'.hardState = w.hardState

theorem KeepsHardState.bind {β : Type} {m : WalM α} {f : α → WalM β} (hm : KeepsHardState m)
    (hf : ∀ a, KeepsHardState (f a)) : KeepsHardState (m >>= f) := by
  intro w
  rw [ends_bind]
  refine (hm w).mono (fun a w' hw' => ?_) fun _ _ => id
  rw [← hw']
  exact hf a w'

theorem keepsHardState_get : KeepsHardState get := fun _ => rfl

theorem keepsHardState_pure (a : α) : KeepsHardState (pure a) := fun _ => rfl

theorem keepsHardState_onManager (m : SegmentM α) : KeepsHardState (onManager m) :=
  fun _ => ends_onManager.mpr (ends_of_runs (fun _ _ _ => rfl) fun _ _ _ => rfl)

theorem keepsHardState_flushWriteBuffer : KeepsHardState (flushWriteBuffer faults) := by
  refine keepsHardState_get.bind fun w => ?_
  split
  · exact keepsHardState_pure ()
  · refine (keepsHardState_onManager _).bind fun s => (keepsHardState_onManager _).bind fun _ => ?_
    exact fun _ => rfl

theorem keepsHardState_segment (id : ℕ) : KeepsHardState (segment id) := by
  refine keepsHardState_get.bind fun w => ?_
  split
  · exact keepsHardState_pure _
  · exact fun _ => rfl

theorem keepsHardState_getCurrentSegmentForAppend (firstIndex : ℕ) :
    KeepsHardState (getCurrentSegmentForAppend faults firstIndex) := by
  refine keepsHardState_get.bind fun w => (keepsHardState_onManager _).bind fun s => ?_
  refine (keepsHardState_segment _).bind fun s => keepsHardState_get.bind fun w => ?_
  dsimp only
  split
  · exact keepsHardState_flushWriteBuffer.bind fun _ => (keepsHardState_onManager _).bind
      fun s => keepsHardState_pure _
  · exact keepsHardState_pure _

theorem keepsHardState_saveMetadata (metadata : WalMetadata) :
    KeepsHardState (saveMetadata faults metadata) := by
  intro w
  refine (ends_saveMetadata metadata).mono ?_ ?_
  · rintro - w' rfl
    rfl
  · rintro - w' ⟨rfl, -⟩
    rfl

variable [WalCodec]

/-- The new hard state is in memory, whichever call fails. -/
theorem ends_saveHardState_memory (hs : HardState) :
    Ends (saveHardState faults hs) w (fun _ _ => True) fun _ w' => w'.hardState = hs := by
  unfold saveHardState
  rw [ends_bind, ends_modify]
  have hkeeps : KeepsHardState (do
      flushWriteBuffer faults
      let id ← getCurrentSegmentForAppend faults (← get).firstIndex
      let s ← segment id
      onManager (SegmentManager.appendTo faults .hardState s
        (buildRecord .hardState (WalCodec.hardStateBytes hs)))
      saveMetadata faults (← get).createMetadata
      if (← get).config.syncOnWrite then onManager (SegmentManager.syncAll faults)) := by
    refine keepsHardState_flushWriteBuffer.bind fun _ => keepsHardState_get.bind fun w => ?_
    refine (keepsHardState_getCurrentSegmentForAppend _).bind fun id => ?_
    refine (keepsHardState_segment id).bind fun s => (keepsHardState_onManager _).bind fun _ => ?_
    refine keepsHardState_get.bind fun w => (keepsHardState_saveMetadata _).bind fun _ => ?_
    refine keepsHardState_get.bind fun w => ?_
    split
    · exact keepsHardState_onManager _
    · exact keepsHardState_pure ()
  exact (hkeeps _).mono (fun _ _ _ => trivial) fun _ _ => id

variable {images before : List Image}

/-- The segment that a hard state goes to: the last one, or a new one that starts at the first
index of the log. -/
inductive HardStateSegment (w : Wal) (faults : Faults) (images : List Image) :
    List Image → Image → Prop
  | last {before : List Image} {im : Image} (eq : images = before ++ [im])
      (room : im.size < w.config.segmentSize) : HardStateSegment w faults images before im
  | new (full : ∀ im ∈ images.getLast?, w.config.segmentSize ≤ im.size) :
      HardStateSegment w faults images images (newImage faults w.config images w.firstIndex)

theorem HardStateSegment.increasing (h : HardStateSegment w faults images before im)
    (hincreasing : Increasing images) :
    Increasing (before ++ [im]) := by
  cases h with
  | last heq => exact heq ▸ hincreasing
  | new =>
      refine List.pairwise_append.mpr ⟨hincreasing, List.pairwise_singleton _ _, ?_⟩
      intro b hb c hc
      rw [List.mem_singleton.mp hc]
      exact Nat.lt_succ_of_le (hincreasing.id_le hb)

theorem HardStateSegment.located (h : HardStateSegment w faults images before im) (first : ℕ) :
    located first (before ++ [im]) = located first images := by
  cases h with
  | last heq => rw [heq]
  | new => exact located_newImage images first

theorem HardStateSegment.records_extend (h : HardStateSegment w faults images before im)
    (hs : HardState) :
    (before ++ [im.extend [.hardState hs]]).flatMap Image.records =
      images.flatMap Image.records ++ [.hardState hs] := by
  cases h with
  | last heq => simp [heq, Image.extend]
  | new => simp [newImage, Image.extend]

/-- An empty write buffer is not written. -/
theorem ends_flushWriteBuffer_nil (images : List Image) :
    Ends (flushWriteBuffer faults) (w.withLog images []) (fun _ w' => w' = w.withLog images [])
      fun _ _ => False := by
  unfold flushWriteBuffer
  rw [ends_bind, ends_get, if_pos (show (w.withLog images []).writeBuffer = [] from rfl)]
  rfl

theorem ends_maybeRollForHardState (h : Increasing (before ++ [im])) :
    Ends (maybeRollSegmentForAppend faults w.firstIndex im.id) (w.withLog (before ++ [im]) [])
      (fun id w' => ∃ before' im', HardStateSegment w faults (before ++ [im]) before' im' ∧
        im'.id = id ∧ w' = w.withLog (before' ++ [im']) [])
      fun _ _ => True := by
  unfold maybeRollSegmentForAppend
  rw [ends_bind]
  refine (ends_segment h).mono ?_ fun _ _ => False.elim
  rintro s w' ⟨rfl, rfl⟩
  rw [ends_bind, ends_get]
  change Ends (if im.segment.isFull w.config.segmentSize = true then _ else _) _ _ _
  by_cases hfull : w.config.segmentSize ≤ im.size
  · rw [if_pos (show im.segment.isFull _ = true from decide_eq_true hfull), ends_bind]
    refine (ends_flushWriteBuffer_nil _).mono ?_ fun _ _ => False.elim
    rintro - w' rfl
    rw [ends_bind, ends_onManager]
    refine (ends_rollToNewSegment h w.firstIndex).mono ?_ fun _ _ _ => trivial
    rintro s m ⟨rfl, rfl⟩
    refine ⟨_, _, .new fun im' him' => ?_, rfl, withLog_setManager (located_newImage _ _)⟩
    obtain rfl : im = im' := by simpa using him'
    exact hfull
  · rw [if_neg (show ¬im.segment.isFull _ = true from fun hle => hfull (of_decide_eq_true hle))]
    exact ⟨before, im, .last rfl (not_le.mp hfull), rfl, rfl⟩

theorem ends_currentForHardState (hsized : w.config.Sized) (hincreasing : Increasing images) :
    Ends (getCurrentSegmentForAppend faults w.firstIndex) (w.withLog images [])
      (fun id w' => ∃ before im, HardStateSegment w faults images before im ∧ im.id = id ∧
        w' = w.withLog (before ++ [im]) [])
      fun _ _ => True := by
  unfold getCurrentSegmentForAppend
  rw [ends_bind, ends_get, ends_bind, ends_onManager]
  rcases List.eq_nil_or_concat images with rfl | ⟨before, im, rfl⟩
  · refine (ends_getCurrentSegment_nil w.firstIndex).mono ?_ fun _ _ _ => trivial
    rintro s m ⟨rfl, rfl⟩
    have hstate : { w.withLog [] [] with
        manager := managerOf [newImage faults w.config [] w.firstIndex] } =
        w.withLog ([] ++ [newImage faults w.config [] w.firstIndex]) [] :=
      withLog_setManager (located_newImage [] _)
    change Ends (maybeRollSegmentForAppend faults w.firstIndex
      (newImage faults w.config [] w.firstIndex).id) { w.withLog [] [] with
        manager := managerOf [newImage faults w.config [] w.firstIndex] } _ _
    rw [hstate]
    have hincreasing' : Increasing ([] ++ [newImage faults w.config [] w.firstIndex]) :=
      List.pairwise_singleton _ _
    refine (ends_maybeRollForHardState hincreasing').mono ?_ fun _ _ => id
    rintro id w' ⟨before, im, hsegment, hid, rfl⟩
    -- a new segment has room
    cases hsegment with
    | last heq =>
        obtain ⟨rfl, rfl⟩ := List.append_singleton_inj.mp heq
        exact ⟨[], _, .new (by simp), hid, rfl⟩
    | new hfull => exact absurd (hfull _ rfl) (not_le.mpr hsized.segmentSize)
  · rw [List.concat_eq_append] at hincreasing ⊢
    refine (ends_getCurrentSegment hincreasing _).mono ?_ fun _ _ => False.elim
    rintro s m ⟨rfl, rfl⟩
    exact ends_maybeRollForHardState hincreasing

/-- Saving the hard state that is in memory already. -/
theorem ends_saveHardState (hsized : w.config.Sized) (hincreasing : Increasing images) :
    Ends (saveHardState faults w.hardState) (w.withLog images [])
      (fun _ w' => ∃ before im, HardStateSegment w faults images before im ∧
        w' = { w.withLog (before ++ [im.extend [.hardState w.hardState]]) [] with
          metadataFile := some w.createMetadata })
      fun _ _ => True := by
  unfold saveHardState
  rw [ends_bind, ends_modify, ends_bind]
  refine (ends_flushWriteBuffer_nil images).mono ?_ fun _ _ => False.elim
  rintro - w' rfl
  rw [ends_bind, ends_get, ends_bind]
  refine (ends_currentForHardState hsized hincreasing).mono ?_ fun _ _ _ => trivial
  rintro id w' ⟨before, im, hsegment, rfl, rfl⟩
  have hincreasing' := hsegment.increasing hincreasing
  rw [ends_bind]
  refine (ends_segment hincreasing').mono ?_ fun _ _ => False.elim
  rintro s w' ⟨rfl, rfl⟩
  rw [ends_bind, ends_onManager]
  have hbytes : buildRecord .hardState (WalCodec.hardStateBytes w.hardState) =
      recordsBytes [.hardState w.hardState] := by
    rw [recordsBytes_cons, recordsBytes_nil, List.append_nil]
    rfl
  rw [hbytes]
  refine (ends_appendTo hincreasing' .hardState [.hardState w.hardState]).mono ?_
    fun _ _ _ => trivial
  rintro - m ⟨-, rfl⟩
  have hlocated : located w.firstIndex (before ++ [im.extend [.hardState w.hardState]]) =
      located w.firstIndex (before ++ [im]) := by
    rw [located_extend]
    exact List.append_nil _
  rw [withLog_setManager hlocated, ends_bind, ends_get, ends_bind]
  refine (ends_saveMetadata _).mono ?_ fun _ _ _ => trivial
  rintro - w' rfl
  rw [ends_bind, ends_get]
  split
  · rw [ends_onManager]
    refine (ends_syncAll _).mono ?_ fun _ _ _ => trivial
    rintro - m rfl
    exact ⟨before, im, hsegment, rfl⟩
  · exact ⟨before, im, hsegment, rfl⟩

/-! ### A log that stays in order -/

/-- There is room for a hard state: its segment does not get full without an entry in it, and no
segment starts at the first index of the log behind one that holds entries. -/
structure HasRoom (w : Wal) (hs : HardState) : Prop where
  start : w.firstIndex < 2 ^ 64
  new : SegmentHeader.size + (LogRecord.hardState hs).size < w.config.segmentSize
  last : ∀ s ∈ w.manager.segments.getLast?,
    if w.config.segmentSize ≤ s.writeOffset then w.lastIndex < w.firstIndex
    else s.firstIndex ≤ w.lastIndex ∨
      s.writeOffset + (LogRecord.hardState hs).size < w.config.segmentSize

instance {hs : HardState} : Decidable (w.HasRoom hs) :=
  decidable_of_iff (_ ∧ _ ∧ _) ⟨fun h => ⟨h.1, h.2.1, h.2.2⟩, fun h => ⟨h.start, h.new, h.last⟩⟩

section InOrder

variable {spare : Bytes} {hs : HardState} {w' : Wal}

theorem located_save (before : List Image) (im : Image) (hs : HardState) (first : ℕ) :
    Raftpp.located first (before ++ [im.extend [.hardState hs]]) =
      Raftpp.located first (before ++ [im]) := by
  rw [located_extend]
  exact List.append_nil _

variable [LawfulWalCodec]

theorem stops_save (h : InertBehind im.tail) (hfits : hs.Fits) :
    Stops (im.extend [.hardState hs]).tail :=
  h _ (recordsSize_pos (by simp)) (recordsSize_words (List.forall_mem_singleton.mpr hfits))

/-- A hard state behind the records of the last segment. -/
theorem Laid.save (h : w.Laid spare (before ++ [im])) (hfits : hs.Fits)
    (hroom : im.firstIndex < w.nextIndex (before ++ [im]) ∨
      im.size + (LogRecord.hardState hs).size < w.config.segmentSize) :
    w.Laid spare (before ++ [im.extend [.hardState hs]]) := by
  have hlocated := located_save before im hs w.firstIndex
  have hnext : w.nextIndex (before ++ [im.extend [.hardState hs]]) =
      w.nextIndex (before ++ [im]) := by
    rw [nextIndex, walEntries, hlocated, nextIndex, walEntries]
  have hwords : 8 ∣ recordsSize [.hardState hs] :=
    recordsSize_words (List.forall_mem_singleton.mpr hfits)
  have hinert := h.inert im (by simp)
  have hsound := h.chain.sound im (by simp)
  refine h.replace rfl rfl ⟨hsound.firstIndex, List.forall_mem_append.mpr
    ⟨hsound.fits, List.forall_mem_singleton.mpr hfits⟩, fun e he => ?_⟩ ?_ ?_ (hinert.drop hwords)
    ⟨hnext ▸ h.takes.firstIndex, fun hfull => ⟨?_, stops_save hinert hfits⟩,
      h.takes.spare.drop hwords⟩
  · exact hsound.entries e ((List.mem_append.mp he).resolve_right (by simp))
  · rw [walEntries, hlocated]
    exact h.numbered
  · rw [hlocated]
    exact h.offsets
  · rw [hnext]
    rw [size_extend, recordsSize_cons] at hfull
    exact hroom.resolve_right (by simpa using hfull)

/-- A hard state that is saved with room for it leaves the log in order. -/
theorem InOrder.saveHardState (h : w.InOrder images) (hfits : hs.Fits) (hroom : w.HasRoom hs)
    (hrun : saveHardState faults hs w = .ok () w') :
    ∃ images', w'.InOrder images' ∧ (∀ im ∈ images', Stops im.tail) ∧
      images'.flatMap Image.records = images.flatMap Image.records ++ [.hardState hs] ∧
      Raftpp.located w.firstIndex images' = Raftpp.located w.firstIndex images ∧
      w' = { ({ w with hardState := hs } : Wal).withLog images' [] with
        metadataFile := some ({ w with hardState := hs } : Wal).createMetadata } := by
  have hstate : ({ w with hardState := hs } : Wal).withLog images [] = { w with hardState := hs } :=
    congrArg (fun v : Wal => { v with hardState := hs }) h.state
  have hends : Ends (Wal.saveHardState faults ({ w with hardState := hs } : Wal).hardState)
      (({ w with hardState := hs } : Wal).withLog images []) _ _ :=
    ends_saveHardState h.sized h.laid.chain.increasing
  rw [hstate] at hends
  obtain ⟨before, im, hsegment, rfl⟩ :=
    hends.ok (show Wal.saveHardState faults hs { w with hardState := hs } = .ok () w' from hrun)
  have hmanager : w.manager = managerOf images := (congrArg Wal.manager h.state).symm
  have hlast := h.lastIndex
  obtain ⟨hlaid, hfree⟩ : w.Laid ((images.getLast?.map Image.tail).getD []) (before ++ [im]) ∧
      (im.firstIndex < w.nextIndex (before ++ [im]) ∨
        im.size + (LogRecord.hardState hs).size < w.config.segmentSize) := by
    cases hsegment with
    | last heq hlt =>
        subst heq
        have hcase := hroom.last im.segment (by rw [hmanager]; simp [managerOf])
        rw [if_neg (show ¬w.config.segmentSize ≤ im.segment.writeOffset from not_le.mpr hlt)]
          at hcase
        exact ⟨h.laid, hcase.imp (fun hle => hlast ▸ Nat.lt_succ_of_le hle) id⟩
    | new hfull =>
        have hempty : w.nextIndex images = w.firstIndex := by
          rcases List.eq_nil_or_concat images with rfl | ⟨init, last, rfl⟩
          · rfl
          · rw [List.concat_eq_append] at *
            have hcase := hroom.last last.segment (by rw [hmanager]; simp [managerOf])
            rw [if_pos (show w.config.segmentSize ≤ last.segment.writeOffset from
              hfull last (by simp))] at hcase
            rw [nextIndex] at hlast ⊢
            omega
        have hroll := (h.laid.roll h.sized hfull faults (hempty ▸ hroom.start)).1
        rw [hempty] at hroll
        exact ⟨hroll, Or.inr hroom.new⟩
  have hlocated := (located_save before im hs w.firstIndex).trans (hsegment.located _)
  refine ⟨before ++ [im.extend [.hardState hs]], ⟨h.sized, rfl, (hlaid.save hfits hfree).congr rfl
    rfl, ⟨h.based.snapshot, fun hnil => h.based.empty ?_⟩, rfl, rfl⟩, ?_,
    hsegment.records_extend hs, hlocated, rfl⟩
  · rw [walEntries, ← hlocated]
    exact hnil
  · refine List.forall_mem_append.mpr ⟨fun b hb => ?_, List.forall_mem_singleton.mpr ?_⟩
    · exact hlaid.stops b (by rwa [List.dropLast_concat])
    · exact stops_save (hlaid.inert im (by simp)) hfits

end InOrder

end Wal

end Raftpp
