import Raftpp.Wal.Updates

/-!
# After a failed update

One call to the file system fails within an operation that updates the metadata or
the snapshot of a log, the operation returns an error, and the process stays alive.
The log should show what it showed before, and so should the log that is opened from
the directory: `Unchanged`.

Most of the operations assign the fields in memory before they write the file, so the
new values show although they have not been saved.  A snapshot is different: memory
follows at the end, but the snapshot file is replaced before the metadata, and from
then on it does not match them.  What is spared by a failure is collected in `Spared`.
-/

namespace Raftpp

open List

/-- The operations that update the metadata or the snapshot. -/
inductive WalUpdate
  | saveHardState (hs : HardState)
  | saveConfState (cs : ConfState)
  | savePeerAddresses (peerAddresses : List PeerAddress)
  | upsertPeerAddress (id : ℕ) (addr : Bytes)
  | removePeerAddress (id : ℕ)
  | compact (index : ℕ)
  | applySnapshot (snapshot : Snapshot)
  | applyLocalSnapshot (snapshot : Snapshot)

/-- An operation, with the calls that fail. -/
def WalUpdate.run [WalCodec] (faults : Faults) : WalUpdate → WalM Unit
  | .saveHardState hs => Wal.saveHardState faults hs
  | .saveConfState cs => Wal.saveConfState faults cs
  | .savePeerAddresses peerAddresses => Wal.savePeerAddresses faults peerAddresses
  | .upsertPeerAddress id addr => Wal.upsertPeerAddress faults id addr
  | .removePeerAddress id => Wal.removePeerAddress faults id
  | .compact index => Wal.compact faults index
  | .applySnapshot snapshot => Wal.applySnapshot faults snapshot
  | .applyLocalSnapshot snapshot => Wal.applyLocalSnapshot faults snapshot

/-- The updates that save values in the metadata and do nothing else. -/
def WalUpdate.Saves : WalUpdate → Prop
  | .saveConfState _ | .savePeerAddresses _ | .upsertPeerAddress _ _ | .removePeerAddress _ => True
  | _ => False

/-- What a log shows besides its entries. -/
structure WalView where
  hardState : HardState
  confState : ConfState
  peerAddresses : List PeerAddress
  firstIndex : ℕ
  lastIndex : ℕ
  snapshotIndex : ℕ
  snapshot : Result Snapshot

namespace Wal

/-! ## What shows -/

/-- `GetHardState`, `GetConfState`, `GetPeerAddresses`, `FirstIndex`, `LastIndex`,
`SnapshotIndex` and `LoadSnapshot`. -/
def view (w : Wal) : WalView where
  hardState := w.hardState
  confState := w.confState
  peerAddresses := w.peerAddresses
  firstIndex := w.firstIndex
  lastIndex := w.lastIndex
  snapshotIndex := w.snapshotIndex
  snapshot := w.loadSnapshot

/-- The snapshot file with another snapshot in it is read as before: the log has no snapshot, or
neither of the two belongs to it. -/
def ReadsSame (w : Wal) (snapshot : Snapshot) : Prop :=
  { w with snapshotFile := some snapshot }.loadSnapshot = w.loadSnapshot

/-- The calls of `PersistSnapshotFile` before the file is replaced. -/
def BeforeInstall (call : IoCall) : Prop :=
  ∃ step : SnapshotStep, step.installs = true ∧ call = .snapshot step

/-- A failure of the call spares the log.  Values that are saved again do not show; a snapshot
that is refused is not looked at. -/
def Spared (w : Wal) (call : IoCall) : WalUpdate → Prop
  | .saveHardState _ => False
  | .saveConfState cs => cs = w.confState
  | .savePeerAddresses peerAddresses => peerAddresses = w.peerAddresses
  | .upsertPeerAddress id addr => upsertPeer id addr w.peerAddresses = w.peerAddresses
  | .removePeerAddress id => (w.peerAddresses.filter fun peer => peer.id ≠ id) = w.peerAddresses
  | .compact index => w.lastIndex < index
  | .applySnapshot snapshot =>
      snapshot.metadata.index ≤ w.snapshotIndex ∨ BeforeInstall call ∨ w.ReadsSame snapshot
  | .applyLocalSnapshot snapshot =>
      (snapshot.metadata.index ≤ w.snapshotIndex ∨ w.lastIndex < snapshot.metadata.index) ∨
        BeforeInstall call ∨ w.ReadsSame snapshot

variable [WalCodec]

/-- The log that is opened from the directory of `w'` shows what `w` shows. -/
def Recovers (w' w : Wal) : Prop :=
  ∃ opened, openLog w'.config w'.directory = .ok opened ∧ opened.view = w.view

/-- Nothing that shows has changed from `w` to `w'`. -/
structure Unchanged (w w' : Wal) : Prop where
  memory : w'.view = w.view
  reopened : w'.Recovers w

/-- A log that its directory gives back. -/
structure Durable (w : Wal) : Prop where
  recovers : w.Recovers w
  snapshotTerm : (w.metadataFile.getD {}).snapshotTerm = w.snapshotTerm

variable {w w' : Wal}

theorem Durable.unchanged (h : w.Durable) : w.Unchanged w := ⟨rfl, h.recovers⟩

/-! ## The snapshot file -/

/-- Opening a log does not look at the snapshot file. -/
theorem openLog_snapshot (config : WalConfig) (dir : WalDirectory) (snapshot : Option Snapshot) :
    openLog config { dir with snapshot } =
      (openLog config dir).map fun w => { w with snapshotFile := snapshot } := by
  have hreplay : replayLog config { dir with snapshot } =
      (replayLog config dir).map fun w => { w with snapshotFile := snapshot } := by
    simp only [replayLog, bind, Except.bind]
    split <;> rfl
  simp only [openLog, hreplay, bind, Except.bind]
  cases replayLog config dir with
  | error error => rfl
  | ok w =>
      simp only [Except.map]
      change (if w.lastIndex < w.hardState.commit then _ else _) = _
      split <;> rfl

theorem openLog_snapshotTerm {config : WalConfig} {dir : WalDirectory}
    (h : openLog config dir = .ok w) : w.snapshotTerm = (dir.metadata.getD {}).snapshotTerm := by
  simp only [openLog, replayLog, bind, Except.bind] at h
  split at h
  · cases h
  next opened hreplay =>
    split at hreplay
    · cases hreplay
    · cases hreplay
      split at h
      · cases h
      · rw [← Except.ok.inj h]

omit [WalCodec] in
theorem loadSnapshot_congr (hindex : w'.snapshotIndex = w.snapshotIndex)
    (hterm : w'.snapshotTerm = w.snapshotTerm) (hfile : w'.snapshotFile = w.snapshotFile) :
    w'.loadSnapshot = w.loadSnapshot := by
  unfold loadSnapshot
  rw [hindex, hterm, hfile]

omit [WalCodec] in
theorem lastIndex_congr (hindex : w'.index = w.index)
    (hsnapshot : w'.snapshotIndex = w.snapshotIndex) : w'.lastIndex = w.lastIndex := by
  unfold lastIndex
  rw [hindex, hsnapshot]

/-- A snapshot file that is replaced shows unless it is read as before. -/
theorem Durable.unchanged_snapshot_iff (h : w.Durable) (snapshot : Snapshot) :
    w.Unchanged { w with snapshotFile := some snapshot } ↔ w.ReadsSame snapshot := by
  refine ⟨fun hunchanged => congrArg WalView.snapshot hunchanged.memory, fun hsame => ?_⟩
  obtain ⟨opened, hopened, hview⟩ := h.recovers
  have hload : { opened with snapshotFile := some snapshot }.loadSnapshot = w.loadSnapshot := by
    rw [← show _ = w.loadSnapshot from hsame]
    refine loadSnapshot_congr ?_ ?_ rfl
    · exact congrArg WalView.snapshotIndex hview
    · exact (openLog_snapshotTerm hopened).trans h.snapshotTerm
  have hshows : ∀ {v : Wal}, v.view = w.view →
      { v with snapshotFile := some snapshot }.loadSnapshot = w.loadSnapshot →
      { v with snapshotFile := some snapshot }.view = w.view := by
    intro v hv hsnapshot
    rw [← show { v.view with snapshot := w.loadSnapshot } = w.view by rw [hv]; rfl, ← hsnapshot]
    rfl
  refine ⟨hshows rfl hsame, { opened with snapshotFile := some snapshot }, ?_, hshows hview hload⟩
  change openLog w.config { w.directory with snapshot := some snapshot } = _
  rw [openLog_snapshot, hopened]
  rfl

/-! ## Logs that are found again -/

section Filed

variable {images : List Image}

/-- A log whose files are in order and hold what is in memory, with a name left for a segment
more. -/
structure Filed (w : Wal) (images : List Image) : Prop extends w.InOrder images where
  stops : ∀ im ∈ images, Stops im.tail
  named : w.manager.currentSegmentId + 1 < 1000000
  start : w.firstIndex < 2 ^ 64
  fits : w.hardState.Fits
  metadata : w.metadataFile.getD {} = w.createMetadata
  replayed : replayedHardState (filedHardState w.createMetadata) (images.flatMap Image.records) =
    w.hardState
  commit : w.hardState.commit ≤ w.lastIndex

theorem Filed.manager (h : w.Filed images) : w.manager = managerOf images :=
  (congrArg Wal.manager h.state).symm

theorem Filed.id_lt (h : w.Filed images) : ∀ im ∈ images, im.id + 1 < 1000000 := by
  intro im him
  have hle := h.laid.chain.increasing.id_le him
  have hnamed := h.named
  rw [h.manager, managerOf_current] at hnamed
  omega

variable [LawfulWalCodec]

/-- Such a log is found again. -/
theorem Filed.durable (h : w.Filed images) : w.Durable := by
  have hmetadata : w.directory.metadata.getD {} = w.createMetadata := h.metadata
  have hnumbered : NumberedFrom (w.directory.metadata.getD {}).firstIndex
      (walEntries (w.directory.metadata.getD {}).firstIndex images) := by
    rw [hmetadata]
    exact h.laid.numbered
  have hreplay := replayLog_images w.config w.directory (congrArg SegmentManager.files h.manager)
    h.laid.chain.sequence (fun im him => Nat.lt_of_succ_lt (h.id_lt im him)) h.stops hnumbered
  rw [hmetadata, h.replayed] at hreplay
  have hlast : (ofImages w.config w.createMetadata w.directory.snapshot w.hardState
      (images.map Image.trim)).lastIndex = w.lastIndex := by
    rw [← show (w.withLog images []).lastIndex = w.lastIndex by rw [h.state]]
    refine lastIndex_congr ?_ rfl
    simp only [ofImages, withLog, createMetadata, located_trim]
  refine ⟨⟨ofImages w.config w.createMetadata w.directory.snapshot w.hardState
    (images.map Image.trim), ?_, ?_⟩, by rw [h.metadata]; rfl⟩
  · change Except.bind (replayLog w.config w.directory) _ = _
    rw [hreplay]
    exact if_neg (not_lt.mpr (by rw [hlast]; exact h.commit))
  · simp only [view, WalView.mk.injEq]
    exact ⟨rfl, rfl, rfl, rfl, hlast, rfl, loadSnapshot_congr rfl rfl rfl⟩

end Filed

/-! ## The failing calls -/

section Main

variable {call : IoCall} {fault : Fault}

theorem Durable.unchanged_confState_iff (h : w.Durable) (cs : ConfState) :
    w.Unchanged { w with confState := cs } ↔ cs = w.confState := by
  refine ⟨fun hunchanged => congrArg WalView.confState hunchanged.memory, ?_⟩
  rintro rfl
  exact h.unchanged

theorem Durable.unchanged_peerAddresses_iff (h : w.Durable) (peerAddresses : List PeerAddress) :
    w.Unchanged { w with peerAddresses } ↔ peerAddresses = w.peerAddresses := by
  refine ⟨fun hunchanged => congrArg WalView.peerAddresses hunchanged.memory, ?_⟩
  rintro rfl
  exact h.unchanged

/-- Nothing has changed, or the snapshot file was replaced by a call behind its rename. -/
theorem Durable.unchanged_install_iff (h : w.Durable) {snapshot : Snapshot} {refused : Prop}
    (hend : w' = w ∧ (refused ∨ SnapshotFails (Faults.only call fault) true) ∨
      w' = { w with snapshotFile := some snapshot } ∧ ¬refused ∧
        (SnapshotFails (Faults.only call fault) false ∨ MetadataFails (Faults.only call fault))) :
    w.Unchanged w' ↔ refused ∨ BeforeInstall call ∨ w.ReadsSame snapshot := by
  rcases hend with ⟨rfl, hrefused⟩ | ⟨rfl, hrefused, hfails⟩
  · refine iff_of_true h.unchanged ?_
    rcases hrefused with hrefused | ⟨step, hstep, hfault⟩
    · exact Or.inl hrefused
    · exact Or.inr (Or.inl ⟨step, hstep, (eq_of_only hfault).symm⟩)
  · have hbehind : ¬BeforeInstall call := by
      rintro ⟨step, hstep, rfl⟩
      rcases hfails with ⟨step', hstep', hfault⟩ | ⟨step', hfault⟩
      · obtain rfl := IoCall.snapshot.inj (eq_of_only hfault)
        rw [hstep] at hstep'
        cases hstep'
      · cases eq_of_only hfault
    rw [h.unchanged_snapshot_iff]
    simp only [hrefused, hbehind, false_or]

end Main

/-! ## Calls that keep the files -/

/-- A call that succeeds and goes with the files of a log: a batch behind the log, a hard state
with room that does not go back, or values of the metadata. -/
inductive Upkeep (w : Wal) : Wal → Prop
  | append {e : Entry} {es : List Entry} {w' : Wal} (numbered : NumberedFrom e.index (e :: es))
      (fits : ∀ f ∈ e :: es, f.Fits) (behind : e.index = w.lastIndex + 1)
      (run : append Faults.none (e :: es) w = .ok () w') : Upkeep w w'
  | saveHardState {hs : HardState} {w' : Wal} (fits : hs.Fits) (room : w.HasRoom hs)
      (term : w.hardState.term ≤ hs.term) (commit : hs.commit ≤ w.lastIndex)
      (run : saveHardState Faults.none hs w = .ok () w') : Upkeep w w'
  | save {update : WalUpdate} {w' : Wal} (saves : update.Saves)
      (run : update.run Faults.none w = .ok () w') : Upkeep w w'

section Upkeep

variable {images : List Image} {e : Entry} {es : List Entry} {hs : HardState}

omit [WalCodec] in
theorem le_replayedHardState (hs : HardState) (rs : List LogRecord) :
    hs.term ≤ (replayedHardState hs rs).term := by
  induction rs generalizing hs with
  | nil => exact le_rfl
  | cons r rs ih =>
      cases r with
      | entry e => exact ih hs
      | hardState hs' =>
          rw [replayedHardState]
          split
          next hge => exact hge.trans (ih hs')
          next => exact ih hs

omit [WalCodec] in
/-- The term that a replay reaches comes from where it starts or from a record. -/
theorem replayedHardState_le (hs hs' : HardState) (rs : List LogRecord) :
    (replayedHardState hs rs).term ≤ max hs.term (replayedHardState hs' rs).term := by
  induction rs generalizing hs hs' with
  | nil => exact le_max_left _ _
  | cons r rs ih =>
      cases r with
      | entry e => exact ih hs hs'
      | hardState new =>
          rw [replayedHardState, replayedHardState]
          have hrest := ih (if new.term ≥ hs.term then new else hs)
            (if new.term ≥ hs'.term then new else hs')
          have hreached := le_replayedHardState (if new.term ≥ hs'.term then new else hs') rs
          have hnew : new.term ≤ (if new.term ≥ hs'.term then new else hs').term := by
            split <;> omega
          have hstart : (if new.term ≥ hs.term then new else hs).term ≤ max hs.term new.term := by
            split <;> omega
          omega

theorem filed_newLog {config : WalConfig} (h : config.Sized) : (newLog config).Filed [] where
  toInOrder := inOrder_newLog h
  stops := by simp
  named := by simp [newLog]
  start := by simp [newLog]
  fits := ⟨by simp [newLog], by simp [newLog], by simp [newLog]⟩
  metadata := rfl
  replayed := rfl
  commit := Nat.zero_le _

theorem Filed.save (h : w.Filed images) {update : WalUpdate} (hsaves : update.Saves)
    (hrun : update.run Faults.none w = .ok () w') : w'.Filed images := by
  obtain ⟨confState, peerAddresses, rfl⟩ : ∃ confState peerAddresses, w' =
      { w with
        confState, peerAddresses
        metadataFile := some ({ w with confState, peerAddresses } : Wal).createMetadata } := by
    cases update with
    | saveConfState cs => exact ⟨_, _, (ends_assign fun w => { w with confState := cs }).ok hrun⟩
    | savePeerAddresses peerAddresses =>
        exact ⟨_, _, (ends_assign fun w => { w with peerAddresses }).ok hrun⟩
    | upsertPeerAddress id addr => exact ⟨_, _, (ends_assign fun w =>
        { w with peerAddresses := upsertPeer id addr w.peerAddresses }).ok hrun⟩
    | removePeerAddress id => exact ⟨_, _, (ends_assign fun w =>
        { w with peerAddresses := w.peerAddresses.filter fun peer => peer.id ≠ id }).ok hrun⟩
    | _ => exact hsaves.elim
  exact ⟨⟨h.sized, congrArg (fun v : Wal => { v with
      confState, peerAddresses
      metadataFile := some ({ w with confState, peerAddresses } : Wal).createMetadata }) h.state,
    h.laid.congr rfl rfl, ⟨h.based.snapshot, h.based.empty⟩, rfl, rfl⟩,
    h.stops, h.named, h.start, h.fits, rfl, h.replayed, h.commit⟩

variable [LawfulWalCodec]

theorem Filed.append (h : w.Filed images) (hes : NumberedFrom e.index (e :: es))
    (hfits : ∀ f ∈ e :: es, f.Fits) (hbehind : e.index = w.lastIndex + 1)
    (hrun : append Faults.none (e :: es) w = .ok () w')
    (hnamed : w'.manager.currentSegmentId + 1 < 1000000) : ∃ images', w'.Filed images' := by
  obtain ⟨images', horder, hstops, rfl, hentries, hsaved⟩ := h.toInOrder.append hes hfits hrun
  refine ⟨images', horder, hstops, hnamed, h.start, h.fits, h.metadata, ?_, h.commit.trans ?_⟩
  · exact (replayedHardState_congr (hsaved hbehind) _).trans h.replayed
  · have hold := h.lastIndex
    have hnew := horder.lastIndex
    rw [nextIndex] at hold
    rw [nextIndex, show walEntries (w.withLog images' []).firstIndex images' = _ from hentries,
      length_append, length_take, length_cons] at hnew
    change _ = w.firstIndex + _ at hnew
    omega

theorem Filed.saveHardState (h : w.Filed images) (hfits : hs.Fits) (hroom : w.HasRoom hs)
    (hterm : w.hardState.term ≤ hs.term) (hcommit : hs.commit ≤ w.lastIndex)
    (hrun : saveHardState Faults.none hs w = .ok () w')
    (hnamed : w'.manager.currentSegmentId + 1 < 1000000) : ∃ images', w'.Filed images' := by
  obtain ⟨images', horder, hstops, hrecords, hlocated, rfl⟩ :=
    h.toInOrder.saveHardState hfits hroom hrun
  refine ⟨images', horder, hstops, hnamed, h.start, hfits, rfl, ?_, hcommit.trans_eq ?_⟩
  · -- no hard state before has a later term
    have hold := le_replayedHardState (filedHardState w.createMetadata)
      (images.flatMap Image.records)
    have hreached := replayedHardState_le
      (filedHardState ({ w with hardState := hs } : Wal).createMetadata)
      (filedHardState w.createMetadata) (images.flatMap Image.records)
    have hstart : (filedHardState ({ w with hardState := hs } : Wal).createMetadata).term ≤
        hs.term := by
      rw [h.replayed] at hold
      unfold filedHardState createMetadata raiseHardState at hold ⊢
      split
      next hpos =>
        rw [if_pos hpos] at hold
        simp only at hold ⊢
        omega
      next => exact le_rfl
    rw [h.replayed] at hreached
    rw [hrecords, replayedHardState_append]
    exact if_pos (hreached.trans (max_le hstart hterm))
  · rw [← h.state]
    refine lastIndex_congr ?_ rfl
    simp only [withLog, hlocated]

/-- Along such calls the files stay in order, so the log is always found again. -/
theorem Filed.of_run (h : ∃ images, w.Filed images)
    (hrun : Relation.ReflTransGen
      (fun w w' => w.Upkeep w' ∧ w'.manager.currentSegmentId + 1 < 1000000) w w') :
    ∃ images, w'.Filed images := by
  induction hrun with
  | refl => exact h
  | tail _ hstep ih =>
      obtain ⟨images, hfiled⟩ := ih
      obtain ⟨hupkeep, hnamed⟩ := hstep
      cases hupkeep with
      | append hes hfits hbehind hrun => exact hfiled.append hes hfits hbehind hrun hnamed
      | saveHardState hfits hroom hterm hcommit hrun =>
          exact hfiled.saveHardState hfits hroom hterm hcommit hrun hnamed
      | save hsaves hrun => exact ⟨images, hfiled.save hsaves hrun⟩

end Upkeep

/-- A snapshot of two entries. -/
def snapshotAtTwo : Snapshot := { metadata := { index := 2, term := 1 } }

section

omit [WalCodec]

theorem ends_twoEntries :
    letI := WalCodec.plain
    Ends (append Faults.none twoEntries) (newLog oneSegment) (fun _ w₁ =>
      w₁.HasRoom { term := 1, commit := 2 } ∧ w₁.lastIndex = 2 ∧
        w₁.manager.currentSegmentId = 1 ∧ w₁.hardState.term ≤ 1 ∧
        Ends (saveHardState Faults.none { term := 1, commit := 2 }) w₁
          (fun _ w => w.lastIndex = 2 ∧ w.manager.currentSegmentId = 1 ∧
            { w with snapshotFile := some snapshotAtTwo }.loadSnapshot = w.loadSnapshot ∧
            Ends ((WalUpdate.applySnapshot snapshotAtTwo).run
              (Faults.only (.metadata .rename) { strerror := "Is a directory" })) w
              (fun _ _ => False) fun _ _ => True)
          fun _ _ => False) fun _ _ => False := by
  decide +kernel

end

end Wal

end Raftpp
