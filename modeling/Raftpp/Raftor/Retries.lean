import Raftpp.Raftor.FaultyStorage
import Raftpp.Raftor.Writes
import Raftpp.Ready.Returns

/-!
# A processor whose storage fails

`Process` returns an error when a storage call fails, and is called again later; the node
then offers what was not written once more.  Between two calls of `Process` the node is a
driven node without a pending `Ready`, and while one is being processed it is a driven node
with that `Ready`, so what is known of driven nodes carries over: the log survives a failed
write, and the calls that the processor makes return.
-/

namespace Raftpp

open Option
open LawfulStorage (view)

variable {entries : List Entry} {result : Result Unit}

/-! ## The parts of `Process` -/

namespace ReadyProcessor

section Parts

variable {σ μ : Type} {p p' : ReadyProcessor σ μ} {e : RaftError}

theorem sendMessages_node (p : ReadyProcessor σ μ) (messages : List Message) :
    (p.sendMessages messages).node = p.node := by
  unfold sendMessages
  split <;> rfl

theorem dropped_ok : dropped result = .ok () ↔ result = .ok () := by
  cases result <;> simp [dropped]

theorem andThen_ok {x : ReadyProcessor σ μ × Result Unit}
    {next : ReadyProcessor σ μ → ReadyProcessor σ μ × Result Unit}
    (h : (andThen x next).2 = .ok ()) : x.2 = .ok () := by
  unfold andThen at h
  split at h
  next hok => exact hok
  · exact h

theorem enterFatalState_fatalError (h : isFatalApplyError e = true) :
    (p.enterFatalState e).fatalError ≠ none := by
  unfold enterFatalState
  split
  · simp
  next hsome => exact fun hnone => hsome ⟨h, hnone⟩

theorem checkLeadershipChange_node [StateMachine μ] (rd : Ready) (p : ReadyProcessor σ μ) :
    (p.checkLeadershipChange rd).node = p.node := by
  unfold checkLeadershipChange
  split <;> rfl

theorem verifyEntryChecksum_fatal [Codec]
    (h : entries.forM verifyEntryChecksum = (.error e : Result Unit)) :
    isFatalApplyError e = true := by
  induction entries with
  | nil => cases h
  | cons entry entries ih =>
      rw [List.forM_eq_forM, List.forM_cons] at h
      cases hfirst : verifyEntryChecksum entry with
      | ok _ =>
          rw [hfirst] at h
          exact ih h
      | error e' =>
          rw [hfirst] at h
          cases h
          exact verifyEntryChecksum_error hfirst

theorem applyEntries_fatal [WritableStorage σ] [PeerStorage σ] [Codec] [RaftorCodec]
    [StateMachine μ] (h : p.applyEntries entries = some (p', .error e)) :
    isFatalApplyError e = true := by
  induction entries generalizing p with
  | nil => cases h
  | cons entry entries ih =>
      unfold applyEntries at h
      obtain ⟨⟨p₁, result⟩, -, h⟩ := of_bind h
      cases result with
      | ok _ => exact ih h
      | error e' =>
          simp only at h
          split at h
          next hfatal =>
            cases h
            exact hfatal
          · exact ih h

/-- `Process` writes a `Ready`, or finds a wrong checksum in it. -/
theorem takeReady_cases [WritableStorage σ] [Codec] [StateMachine μ] {rd : Ready}
    (h : p.takeReady = some (p', rd, result)) :
    ∃ node, p.node.getReady = some (node, rd) ∧
      ((result ≠ .ok () ∧ p'.fatalError ≠ none) ∨
        ∃ q : ReadyProcessor σ μ, q.node = node ∧ q.persist rd = (p', result)) := by
  unfold takeReady at h
  obtain ⟨⟨node, rd'⟩, hready, h⟩ := of_bind h
  have hnode : (({ p with node } : ReadyProcessor σ μ).checkLeadershipChange rd').node = node :=
    checkLeadershipChange_node rd' _
  simp only at h
  split at h
  next e hinvalid =>
    cases h
    refine ⟨node, hready, Or.inl ⟨by simp, enterFatalState_fatalError ?_⟩⟩
    unfold validateReadyEntries at hinvalid
    split at hinvalid
    · exact verifyEntryChecksum_fatal hinvalid
    · cases hinvalid
  · cases h
    exact ⟨node, hready, Or.inr ⟨_, hnode, rfl⟩⟩

end Parts

end ReadyProcessor

variable {σ : Type} [WritableStorage σ] [Codec] [LawfulStorage σ]

/-! ## Writes that fail -/

namespace RaftLog

variable {l : RaftLog σ} {a : AbstractLog} {store : σ}

/-- The storage holds the same log. -/
theorem Represents.of_sameLog (h : Represents l a)
    (hsame : l.stored.SameLog (view store)) : Represents { l with store } a := by
  refine ⟨?_, h.contiguous, h.lt_offset, h.offset_add, h.entries, h.pending, ?_, ?_⟩
  · simp only [stored, Stable.Contiguous, hsame.index, hsame.entries]
    exact h.stored_contiguous
  · intro hnone
    simp only [stored, hsame.index, hsame.term, hsame.entries]
    exact h.plain hnone
  · intro hnone hnil
    simp only [stored, hsame.entries]
    exact h.settled hnone hnil

theorem Stored.of_sameLog (h : Stored l a)
    (hsame : l.stored.SameLog (view store)) : Stored { l with store } a := by
  simp only [Stored, stored, hsame.index, hsame.term, hsame.entries]
  exact h

/-- Nothing is read from the storage below a pending snapshot. -/
theorem Represents.of_pending (h : Represents l a) (hsome : l.unstable.snapshot ≠ none)
    (hcontiguous : (view store).Contiguous) : Represents { l with store } a :=
  ⟨hcontiguous, h.contiguous, h.lt_offset, h.offset_add, h.entries, h.pending,
    fun hnone => absurd hnone hsome, fun hnone => absurd hnone hsome⟩

/-- An append that fails leaves the log below the entries that are not stable yet. -/
theorem Represents.append_fails [PeerStorage σ] [RetryableStorage σ] (h : Represents l a)
    (hne : l.unstable.entries ≠ [])
    (hfails : ¬Accepts (WritableStorage.append l.store l.unstable.entries)) :
    Represents { l with store := (WritableStorage.append l.store l.unstable.entries).1 } a := by
  obtain ⟨first, hfirst⟩ := isSome_iff_exists.mp (List.isSome_head?.mpr hne)
  obtain ⟨hcontiguous, hindex, hterm, htake⟩ :=
    RetryableStorage.append_fails l.store l.unstable.entries first h.stored_contiguous hfirst hfails
  have hoffset : first.index = l.unstable.offset := by
    rw [List.head?_eq_getElem?] at hfirst
    exact h.unstable_numbered 0 first hfirst
  refine ⟨hcontiguous, h.contiguous, h.lt_offset, h.offset_add, h.entries, h.pending, ?_,
    fun _ hnil => absurd hnil hne⟩
  intro hnone
  obtain ⟨hstored, hstoredTerm, hbelow⟩ := h.plain hnone
  have hview : (view l.store).index = a.index := hstored
  refine ⟨hindex.trans hstored, hterm.trans hstoredTerm, ?_⟩
  rw [hoffset, hview] at htake
  exact htake.trans hbelow

end RaftLog

namespace Driven

variable {d d' : Driven σ} {a : AbstractLog}

theorem Regular.congr (h : d.Regular a) (hnode : d'.node = d.node)
    (hpending : d'.pending = d.pending) : d'.Regular a := by
  obtain ⟨node, pending, taken, acked⟩ := d'
  obtain rfl := hnode
  obtain rfl := hpending
  exact ⟨⟨h.sound.log, h.sound.taken, h.sound.recorded, h.sound.number⟩,
    ⟨h.steady.since_le, h.steady.since_snapshot, h.steady.snapshots⟩, h.fresh, h.held⟩

/-- A write that does not touch the log. -/
theorem Regular.setStore (h : d.Regular a) {store : σ}
    (hsame : d.node.raft.raftLog.stored.SameLog (view store)) :
    Regular { d with node := d.node.setStore store } a := by
  refine ⟨⟨?_, fun rd hrd => ?_, h.sound.recorded, h.sound.number⟩,
    ⟨h.steady.since_le, h.steady.since_snapshot, h.steady.snapshots⟩, h.fresh, fun rd hrd => ?_⟩
  · exact ⟨h.sound.log.toFollows.of_wrote (h.sound.log.represents.of_sameLog hsame) rfl,
      h.sound.log.limit, h.sound.log.persisted_le⟩
  · obtain ⟨hsnapshot, hindex, hterm, extra, hunstable, hentries⟩ := h.sound.taken rd hrd
    exact ⟨hsnapshot, hsame.index.trans hindex, hsame.term.trans hterm, extra, hunstable,
      by rw [hentries, ← hsame.entries]; rfl⟩
  · have hheld := h.held rd hrd
    exact ⟨hheld.snapshot, hheld.entries, hheld.recorded, hheld.hard, hheld.role, hheld.quiet⟩

variable {node : RawNode σ} {rd : Ready} {store : σ}

/-- A `Ready` that was written. -/
theorem Regular.written [PagingStorage σ] (h : d.Regular a) (hidle : d.pending = none)
    (hready : d.node.getReady = some (node, rd))
    (hrep : RaftLog.Represents { d.node.raft.raftLog with store } a)
    (hstored : RaftLog.Stored { d.node.raft.raftLog with store } a) :
    Regular { node := node.setStore store, pending := some rd } a := by
  obtain ⟨hsound, -⟩ := h.sound.written (P := fun _ _ => True) trivial hidle hready hrep hstored
  refine ⟨⟨hsound.log, hsound.taken, hsound.recorded, hsound.number⟩, ?_,
    fun hnone => (by cases hnone), fun rd' hrd' => ?_⟩
  · exact h.steady.ready h.sound (RawNode.getReady_takes hready) (RawNode.getReady_offers hready)
      rfl
  · cases hrd'
    exact RawNode.getReady_held hready store

/-- A `Ready` that was not written: it has to be offered again. -/
theorem Regular.failed [PagingStorage σ] (h : d.Regular a)
    (hready : d.node.getReady = some (node, rd))
    (hrep : RaftLog.Represents { d.node.raft.raftLog with store } a)
    (hfirst : ¬d.node.FirstSeen) : Regular { node := node.setStore store } a := by
  have htakes := RawNode.getReady_takes hready
  have hoffers := RawNode.getReady_offers hready
  have hlog := htakes.raftLog
  have hstate : node.raft.state = d.node.raft.state := congrArg NodeCore.state htakes.core
  refine ⟨⟨?_, fun rd hrd => (by cases hrd), fun rd hrd => (by cases hrd),
    fun rd hrd => (by cases hrd)⟩, h.steady.ready h.sound htakes hoffers rfl,
    fun _ hseen => absurd ?_ hfirst, fun rd hrd => (by cases hrd)⟩
  · simp only [RawNode.setStore, hlog]
    exact ⟨h.sound.log.toFollows.of_wrote hrep rfl, h.sound.log.limit, h.sound.log.persisted_le⟩
  · exact ⟨hoffers.prevSs ▸ hseen.1, hstate ▸ hseen.2⟩

end Driven

/-! ## What the parts of `Process` do to the node -/

namespace ReadyProcessor

variable {μ : Type} {p p' : ReadyProcessor σ μ} {rd : Ready} {a : AbstractLog}
  {pending : Option Ready}

variable {result : Result Unit}

/-- The node of a processor that works on `pending`. -/
def driven (p : ReadyProcessor σ μ) (pending : Option Ready) : Driven σ :=
  { node := p.node, pending }

/-- Only the storage of the node changes, and not the log in it. -/
structure Frames (p p' : ReadyProcessor σ μ) : Prop where
  node : ∃ store, p'.node = p.node.setStore store ∧ (view p.store).SameLog (view store)

theorem Frames.of_node (h : p'.node = p.node) : Frames p p' :=
  ⟨p.store, h, .refl _⟩

theorem Frames.trans {p'' : ReadyProcessor σ μ} (h : Frames p p') (h' : Frames p' p'') :
    Frames p p'' := by
  obtain ⟨store, hnode, hsame⟩ := h.node
  obtain ⟨store', hnode', hsame'⟩ := h'.node
  have hstore : p'.store = store := by rw [ReadyProcessor.store, hnode]; rfl
  rw [hstore] at hsame'
  refine ⟨store', by rw [hnode', hnode]; rfl, ?_⟩
  exact ⟨hsame'.index.trans hsame.index, hsame'.term.trans hsame.term,
    hsame'.entries.trans hsame.entries⟩

theorem Frames.write {call : σ → σ × Result Unit}
    (h : (view p.store).SameLog (view (call p.store).1)) :
    Frames p (p.write call).1 :=
  ⟨(call p.store).1, rfl, h⟩

theorem Frames.andThen {x : ReadyProcessor σ μ × Result Unit}
    {next : ReadyProcessor σ μ → ReadyProcessor σ μ × Result Unit} (h : Frames p x.1)
    (hnext : ∀ q, Frames q (next q).1) : Frames p (andThen x next).1 := by
  unfold ReadyProcessor.andThen
  split
  · exact h.trans (hnext x.1)
  · exact h

theorem Frames.regular (h : Frames p p') (hregular : (p.driven pending).Regular a) :
    (p'.driven pending).Regular a := by
  obtain ⟨store, hnode, hsame⟩ := h.node
  exact (hregular.setStore hsame).congr hnode rfl

/-- The node's log represents `a`, and its storage holds all of it if the last write succeeded;
nothing but the storage has changed. -/
structure Wrote (p : ReadyProcessor σ μ) (a : AbstractLog) (x : ReadyProcessor σ μ × Result Unit) :
    Prop where
  node : x.1.node = p.node.setStore x.1.store
  represents : x.1.node.raft.raftLog.Represents a
  stored : x.2 = .ok () → x.1.node.raft.raftLog.Stored a

theorem Wrote.frames {x y : ReadyProcessor σ μ × Result Unit} (h : Wrote p a x)
    (hframes : Frames x.1 y.1) (hok : y.2 = .ok () → x.2 = .ok ()) : Wrote p a y := by
  obtain ⟨store, hnode, hsame⟩ := hframes.node
  have hstore : y.1.store = store := by rw [ReadyProcessor.store, hnode]; rfl
  refine ⟨by rw [hstore, hnode, h.node]; rfl, ?_, fun hy => ?_⟩
  · rw [hnode]
    exact h.represents.of_sameLog hsame
  · rw [hnode]
    exact (h.stored (hok hy)).of_sameLog hsame

/-! ## Writing a `Ready` -/

variable [PeerStorage σ] [RetryableStorage σ]

/-- The entries of a `Ready` without a snapshot. -/
theorem persistEntries_wrote (hlog : p.node.raft.raftLog.Represents a)
    (hnone : p.node.raft.raftLog.unstable.snapshot = none)
    (hentries : rd.entries = p.node.raft.raftLog.unstable.entries) :
    Wrote p a (p.persistEntries rd) := by
  have hwritten : ∀ {l : RaftLog σ},
      p.node.raft.raftLog.writeEntries p.node.raft.raftLog.unstable.entries = some l →
      l.Represents a ∧ l.Stored a := by
    intro l hl
    obtain ⟨hrep, -, hstored⟩ := hlog.writeEntries (fun hsome => absurd hnone hsome) hl
    exact ⟨hrep, hstored⟩
  unfold persistEntries
  rw [hentries]
  split
  next hnil =>
    obtain ⟨-, hstored⟩ := hwritten (if_pos hnil)
    exact ⟨rfl, hlog, fun _ => hstored⟩
  next hne =>
    have hstore : p.store = p.node.raft.raftLog.store := rfl
    simp only [write]
    rw [hstore]
    by_cases hok : Accepts
        (WritableStorage.append p.node.raft.raftLog.store p.node.raft.raftLog.unstable.entries)
    · have hl : p.node.raft.raftLog.writeEntries p.node.raft.raftLog.unstable.entries =
          some { p.node.raft.raftLog with
            store := (WritableStorage.append p.node.raft.raftLog.store
              p.node.raft.raftLog.unstable.entries).1 } := by
        simp only [RaftLog.writeEntries, if_neg hne, RaftLog.wrote]
        rw [hok]
      obtain ⟨hrep, hstored⟩ := hwritten hl
      exact ⟨rfl, hrep, fun _ => hstored⟩
    · exact ⟨rfl, hlog.append_fails hne hok, fun hdropped => absurd (dropped_ok.mp hdropped) hok⟩

theorem persistHardState_frames (rd : Ready) (p : ReadyProcessor σ μ) :
    Frames p (p.persistHardState rd).1 := by
  unfold persistHardState
  split
  · exact .of_node rfl
  next hs _ =>
    have hset : Frames p (p.write fun s => WritableStorage.setHardState s hs).1 :=
      .write (RetryableStorage.setHardState_log p.store hs)
    refine Frames.andThen hset fun q => ?_
    split
    · exact .write (RetryableStorage.sync_log q.store)
    · exact .of_node rfl

/-- The calls about peers leave the log alone. -/
theorem peerCallsKeep_log : PeerCallsKeep fun s s' : σ =>
    (view s).SameLog (view s') where
  refl _ := .refl _
  trans h h' := ⟨h'.index.trans h.index, h'.term.trans h.term, h'.entries.trans h.entries⟩
  upsertPeerAddress := RetryableStorage.upsertPeerAddress_log
  removePeerAddress := RetryableStorage.removePeerAddress_log

theorem updatePeers_frames (addr : Bytes) (changes : List ConfChangeSingle)
    (p : ReadyProcessor σ μ) : Frames p (p.updatePeers addr changes).1 :=
  ⟨(updatePeers_writes peerCallsKeep_log addr changes p).node⟩

theorem applyConfChange_regular [PagingStorage σ] {cc : ConfChangeV2}
    (h : (p.driven pending).Regular a)
    (hrun : p.applyConfChange cc = some (p', result)) : ∃ a', (p'.driven pending).Regular a' := by
  unfold applyConfChange at hrun
  obtain ⟨⟨node, answer⟩, hcall, hrun⟩ := of_bind hrun
  have hstep : (p.driven pending).step (.applyConfChange cc) =
      some ({ p.driven pending with node }, []) := by
    simp [Driven.step, Driven.withNode, driven, hcall]
  have hguarded : (p.driven pending).Guarded (.applyConfChange cc) := ⟨trivial, trivial⟩
  obtain ⟨a', hregular⟩ := h.step hguarded hstep
  refine ⟨a', ?_⟩
  cases answer with
  | error e =>
      cases hrun
      exact hregular
  | ok cs =>
      have hframes : Frames { p with node } p' := by
        have hset : Frames { p with node }
            (({ p with node } : ReadyProcessor σ μ).write fun s =>
              WritableStorage.setConfState s cs).1 :=
          .write (RetryableStorage.setConfState_log _ cs)
        have hpeers := hset.andThen fun q => updatePeers_frames cc.context cc.changes q
        rwa [some.inj hrun] at hpeers
      exact hframes.regular hregular

variable [StateMachine μ]

/-- The snapshot of a `Ready` without entries. -/
theorem applySnapshot_wrote {snapshot : Snapshot} (hlog : p.node.raft.raftLog.Represents a)
    (hsnapshot : rd.snapshot = some snapshot) (hne : snapshot.metadata.index ≠ 0)
    (hpending : p.node.raft.raftLog.unstable.snapshot = some snapshot)
    (hnil : p.node.raft.raftLog.unstable.entries = []) : Wrote p a (p.applySnapshot rd) := by
  have hsome : p.node.raft.raftLog.unstable.snapshot ≠ none := by simp [hpending]
  simp only [applySnapshot, hsnapshot, if_neg hne]
  split
  · exact ⟨rfl, hlog, fun h => by cases h⟩
  · simp only [andThen, write]
    rw [show ({ p with
        stateMachine := (StateMachine.restoreSnapshot p.stateMachine snapshot.metadata
          snapshot.data).1
        deliveries := p.deliveries ++ [Delivery.snapshot snapshot.metadata.index] } :
          ReadyProcessor σ μ).store = p.node.raft.raftLog.store from rfl]
    by_cases hok : Accepts (WritableStorage.applySnapshot p.node.raft.raftLog.store snapshot)
    · set l : RaftLog σ := { p.node.raft.raftLog with
        store := (WritableStorage.applySnapshot p.node.raft.raftLog.store snapshot).1 }
      have hl : p.node.raft.raftLog.writeSnapshot p.node.raft.raftLog.unstable.snapshot =
          some l := by
        rw [hpending]
        simp only [RaftLog.writeSnapshot, RaftLog.wrote]
        rw [hok]
      obtain ⟨hrep, -, hpoint⟩ := hlog.writeSnapshot hl
      have hnothing : l.writeEntries p.node.raft.raftLog.unstable.entries = some l := if_pos hnil
      obtain ⟨-, -, hstored⟩ := hrep.writeEntries (fun _ => hpoint hsome) hnothing
      rw [hok]
      exact ⟨rfl, hrep, fun _ => hstored⟩
    · have hfails : dropped (WritableStorage.applySnapshot p.node.raft.raftLog.store snapshot).2 ≠
          .ok () := fun h => hok (dropped_ok.mp h)
      split
      next hdropped => exact absurd hdropped hfails
      · refine ⟨rfl, ?_, fun h => absurd h hfails⟩
        exact hlog.of_pending hsome
          (RetryableStorage.applySnapshot_fails _ snapshot hlog.stored_contiguous hok)

/-- Writing a `Ready` keeps the log, and a success stores all of it. -/
theorem persist_wrote (hlog : p.node.raft.raftLog.Represents a)
    (hsnapshot : rd.snapshot = p.node.raft.raftLog.unstable.snapshot)
    (hentries : rd.entries = p.node.raft.raftLog.unstable.entries)
    (halone : ∀ snapshot, rd.snapshot = some snapshot →
      snapshot.metadata.index ≠ 0 ∧ rd.entries = []) : Wrote p a (p.persist rd) := by
  unfold persist
  cases hcase : rd.snapshot with
  | none =>
      have hfirst := persistEntries_wrote hlog (hsnapshot.symm.trans hcase) hentries
      have hsecond : Wrote p a (andThen (p.persistEntries rd) (persistHardState rd)) := by
        exact hfirst.frames (Frames.andThen (.of_node rfl) (persistHardState_frames rd)) andThen_ok
      refine hsecond.frames (Frames.andThen (.of_node rfl) fun q => ?_) andThen_ok
      simp only [applySnapshot, hcase]
      exact .of_node rfl
  | some snapshot =>
      obtain ⟨hne, hnil⟩ := halone snapshot hcase
      have hempty : p.persistEntries rd = (p, .ok ()) := if_pos hnil
      have hframes := persistHardState_frames rd p
      rw [hempty, show andThen (p, .ok ()) (persistHardState rd) = p.persistHardState rd from rfl]
      obtain ⟨store, hnode, hsame⟩ := hframes.node
      have hlog₁ : (p.persistHardState rd).1.node.raft.raftLog.Represents a := by
        rw [hnode]
        exact hlog.of_sameLog hsame
      unfold andThen
      split
      · have hpending₁ : (p.persistHardState rd).1.node.raft.raftLog.unstable.snapshot =
            some snapshot := by
          rw [hnode]
          exact hsnapshot.symm.trans hcase
        have hnil₁ : (p.persistHardState rd).1.node.raft.raftLog.unstable.entries = [] := by
          rw [hnode]
          exact hentries.symm.trans hnil
        have hwrote := applySnapshot_wrote hlog₁ hcase hne hpending₁ hnil₁
        exact ⟨by rw [hwrote.node, hnode]; rfl, hwrote.represents, hwrote.stored⟩
      next hfails =>
        refine ⟨?_, hlog₁, fun hok => by rw [hok] at hfails; cases hfails⟩
        rw [hnode, show (p.persistHardState rd).1.store = store by
          rw [ReadyProcessor.store, hnode]; rfl]

/-- A `Ready` of the processor is written, or stays to be offered again. -/
theorem takeReady_regular [PagingStorage σ] (h : (p.driven none).Regular a)
    (halone : ∀ snapshot, p.node.raft.raftLog.unstable.snapshot = some snapshot →
      snapshot.metadata.index ≠ 0 ∧ p.node.raft.raftLog.unstable.entries = [])
    (hrun : p.takeReady = some (p', rd, result)) :
    rd.entries = p.node.raft.raftLog.unstable.entries ∧
      (result = .ok () → (p'.driven (some rd)).Regular a) ∧
      (result ≠ .ok () → p'.fatalError = none → ¬p.node.FirstSeen →
        (p'.driven none).Regular a) := by
  obtain ⟨node, hready, hcases⟩ := takeReady_cases hrun
  have htakes := RawNode.getReady_takes hready
  have hlog := htakes.raftLog
  refine ⟨htakes.entries, ?_⟩
  rcases hcases with ⟨hfails, hfatal⟩ | ⟨q, hq, hpersist⟩
  · exact ⟨fun hok => absurd hok hfails, fun _ hnone => absurd hnone hfatal⟩
  have hqlog : q.node.raft.raftLog = p.node.raft.raftLog := by rw [hq, hlog]
  have hwrote : Wrote q a (q.persist rd) := by
    refine persist_wrote (hqlog ▸ h.sound.log.represents) ?_ ?_ fun snapshot hsnapshot => ?_
    · rw [hqlog]
      exact htakes.snapshot
    · rw [hqlog]
      exact htakes.entries
    · rw [htakes.entries]
      exact halone snapshot (htakes.snapshot ▸ hsnapshot)
  rw [hpersist] at hwrote
  have hnode : p'.node = node.setStore p'.store := by rw [← hq]; exact hwrote.node
  have hlog' : p'.node.raft.raftLog = { p.node.raft.raftLog with store := p'.store } := by
    rw [hnode, ← hlog]
    rfl
  have hrep := hwrote.represents
  have hstored := hwrote.stored
  simp only [hlog'] at hrep hstored
  refine ⟨fun hok => ?_, fun _ _ hfirst => ?_⟩
  · exact (h.written rfl hready hrep (hstored hok)).congr hnode rfl
  · exact (h.failed hready hrep hfirst).congr hnode rfl

/-! ## Applying entries -/

variable [RaftorCodec]

theorem applyNormal_frames (entry : Entry) (p : ReadyProcessor σ μ) :
    Frames p (p.applyNormal entry).1 :=
  ⟨(applyNormal_writes peerCallsKeep_log entry p).node⟩

theorem applyEntry_regular [PagingStorage σ] {entry : Entry} (h : (p.driven pending).Regular a)
    (hrun : p.applyEntry entry = some (p', result)) : ∃ a', (p'.driven pending).Regular a' := by
  unfold applyEntry at hrun
  simp only at hrun
  split at hrun
  · cases hrun
    exact ⟨a, h⟩
  · unfold applyVerified at hrun
    split at hrun
    · split at hrun
      · cases hrun
        exact ⟨a, h⟩
      next cc _ =>
        exact applyConfChange_regular
          (p := { p with deliveries := p.deliveries ++ [.entry entry.index] }) h hrun
    · obtain ⟨rfl, -⟩ := Prod.mk.inj (some.inj hrun)
      exact ⟨a, (applyNormal_frames entry _).regular
        (p := { p with deliveries := p.deliveries ++ [.entry entry.index] }) h⟩

theorem applyEntries_regular [PagingStorage σ] (h : (p.driven pending).Regular a)
    (hrun : p.applyEntries entries = some (p', result)) : ∃ a', (p'.driven pending).Regular a' := by
  induction entries generalizing p a with
  | nil =>
      cases hrun
      exact ⟨a, h⟩
  | cons entry entries ih =>
      unfold applyEntries at hrun
      obtain ⟨⟨p₁, result₁⟩, hentry, hrun⟩ := of_bind hrun
      obtain ⟨a₁, h₁⟩ := applyEntry_regular h hentry
      cases result₁ with
      | ok _ => exact ih (p := { p₁ with appliedIndex := entry.index }) h₁ hrun
      | error e =>
          simp only at hrun
          split at hrun
          · cases hrun
            exact ⟨a₁, h₁⟩
          · exact ih (p := { p₁ with appliedIndex := entry.index }) h₁ hrun

theorem deliver_regular [PagingStorage σ] {result : Result Unit} (h : (p.driven pending).Regular a)
    (hrun : p.deliver rd = some (p', result)) : ∃ a', (p'.driven pending).Regular a' := by
  refine applyEntries_regular (p := p.sendMessages rd.light.messages) (h.congr ?_ rfl) hrun
  exact sendMessages_node p _

/-! ## Process -/

/-- What has to hold for a call of `Process`: a pending snapshot is not empty and comes without
entries, terms fit in 32 bits, the writes do not fail when the node is first seen as a leader,
and after the committed entries are applied a leader is still in its own configuration and has
the snapshots to send. -/
structure Manageable (p : ReadyProcessor σ μ) : Prop where
  alone : ∀ snapshot ∈ p.node.raft.raftLog.unstable.snapshot,
    snapshot.metadata.index ≠ 0 ∧ p.node.raft.raftLog.unstable.entries = []
  shortTerm : ∀ e ∈ p.node.raft.raftLog.unstable.entries.getLast?, e.term < 2 ^ 32
  retry : ∀ x ∈ p.takeReady, x.2.2 ≠ .ok () → x.1.fatalError = none → ¬p.node.FirstSeen
  tracked : ∀ x ∈ p.takeReady, x.2.2 = .ok () → ∀ y ∈ x.1.deliver x.2.1,
    y.1.node.raft.CanCommit

instance (p : ReadyProcessor σ μ) : Decidable p.node.FirstSeen :=
  inferInstanceAs (Decidable (p.node.prevSs.raftState ≠ .leader ∧ p.node.raft.state = .leader))

instance (p : ReadyProcessor σ μ) : Decidable p.Manageable :=
  decidable_of_iff
    ((∀ snapshot ∈ p.node.raft.raftLog.unstable.snapshot,
        snapshot.metadata.index ≠ 0 ∧ p.node.raft.raftLog.unstable.entries = []) ∧
      (∀ e ∈ p.node.raft.raftLog.unstable.entries.getLast?, e.term < 2 ^ 32) ∧
      (∀ x ∈ p.takeReady, x.2.2 ≠ .ok () → x.1.fatalError = none → ¬p.node.FirstSeen) ∧
      ∀ x ∈ p.takeReady, x.2.2 = .ok () → ∀ y ∈ x.1.deliver x.2.1, y.1.node.raft.CanCommit)
    ⟨fun h => ⟨h.1, h.2.1, h.2.2.1, h.2.2.2⟩, fun h => ⟨h.alone, h.shortTerm, h.retry, h.tracked⟩⟩

/-- The calls that `Process` makes on the node return. -/
def Returns (p : ReadyProcessor σ μ) : Prop :=
  p.fatalError = none → p.node.getReady.isSome = true ∧
    ∀ p₁ rd, p.takeReady = some (p₁, rd, .ok ()) → ∀ p₂ result,
      p₁.deliver rd = some (p₂, result) → (p₂.node.advanceAppend rd).isSome = true

theorem returns [AnsweringStorage σ] (h : (p.driven none).Regular a) (hp : p.Manageable) :
    p.Returns := by
  intro _
  have hready : (p.driven none).Returns .ready := h.returns ⟨trivial, trivial⟩
  refine ⟨hready rfl, fun p₁ rd htake p₂ result hdeliver => ?_⟩
  obtain ⟨hentries, hwritten, -⟩ := takeReady_regular h hp.alone htake
  obtain ⟨a₂, h₂⟩ := deliver_regular (hwritten rfl) hdeliver
  have hguarded : (p₂.driven (some rd)).Guarded .advanceAppend := by
    refine ⟨trivial, hp.tracked _ htake rfl _ hdeliver, fun rd' hrd' e he => ?_⟩
    cases hrd'
    exact hp.shortTerm e (hentries ▸ he)
  exact h₂.returns hguarded rd rfl

theorem advance_regular [PagingStorage σ] {result : Result Bool}
    (h : (p.driven (some rd)).Regular a) (hcan : p.node.raft.CanCommit)
    (hterm : ∀ e, rd.entries.getLast? = some e → e.term < 2 ^ 32)
    (hrun : p.advance rd = some (p', result)) (hfatal : p'.fatalError = none) :
    ∃ a', (p'.driven none).Regular a' := by
  simp only [advance, RawNode.advance] at hrun
  obtain ⟨⟨node, light⟩, hadvance, hrun⟩ := of_bind hrun
  obtain ⟨⟨node₁, light₁⟩, happend, hadvance⟩ := of_bind hadvance
  obtain ⟨node₂, happly, hadvance⟩ := of_bind hadvance
  obtain ⟨rfl, rfl⟩ := Prod.mk.inj (some.inj hadvance)
  obtain ⟨⟨p₁, result₁⟩, hlight, hrun⟩ := of_bind hrun
  have hstep : (p.driven (some rd)).step .advance =
      some ({ node := node₂, acked := max 0 node₁.maxNumber },
        [{ log := node₁.raft.raftLog, entries := light₁.committedEntries }]) := by
    simp only [Driven.step, driven, bind_some, Driven.advance, Driven.advanceAppend,
      bind_eq_bind, happend, happly]
  have hguarded : (p.driven (some rd)).Guarded .advance := by
    refine ⟨trivial, hcan, fun rd' hrd' e he => ?_⟩
    cases hrd'
    exact hterm e he
  obtain ⟨a₁, h₁⟩ := h.step hguarded hstep
  unfold processLightReady at hlight
  obtain ⟨⟨p₂, result₂⟩, hentries, hlight⟩ := of_bind hlight
  have hsent : ((({ p with node := node₂ } : ReadyProcessor σ μ).sendMessages
      light₁.messages).driven none).Regular a₁ := h₁.congr (sendMessages_node _ _) rfl
  obtain ⟨a₂, h₂⟩ := applyEntries_regular hsent hentries
  cases result₂ with
  | error e =>
      obtain ⟨node₃, -, hlight⟩ := of_bind hlight
      cases hlight
      cases hrun
      exact absurd hfatal (enterFatalState_fatalError (applyEntries_fatal hentries))
  | ok _ =>
      simp only at hlight
      split at hlight
      · cases hlight
        cases hrun
        exact ⟨a₂, h₂⟩
      · obtain ⟨node₃, happly, hlight⟩ := of_bind hlight
        cases hlight
        cases hrun
        have hstep : (p₂.driven none).step (.advanceApplyTo p₂.node.commitSinceIndex) =
            some ({ p₂.driven none with node := node₃ }, []) := by
          rw [RawNode.advanceApply] at happly
          simp [Driven.step, Driven.withNode, driven, happly]
        have hguarded : (p₂.driven none).Guarded (.advanceApplyTo p₂.node.commitSinceIndex) :=
          ⟨trivial, rfl⟩
        exact h₂.step hguarded hstep

theorem process_regular [PagingStorage σ] {result : Result Bool} (h : (p.driven none).Regular a)
    (hp : p.Manageable) (hnone : p.fatalError = none) (hrun : p.process = some (p', result))
    (hfatal : p'.fatalError = none) : ∃ a', (p'.driven none).Regular a' := by
  simp only [process, hnone] at hrun
  obtain ⟨ready, -, hrun⟩ := of_bind hrun
  split at hrun
  · unfold processReady at hrun
    obtain ⟨⟨p₁, rd, result₁⟩, htake, hrun⟩ := of_bind hrun
    obtain ⟨hentries, hwritten, hfailed⟩ := takeReady_regular h hp.alone htake
    cases result₁ with
    | error e =>
        cases hrun
        exact ⟨a, hfailed (by simp) hfatal (hp.retry _ htake (by simp) hfatal)⟩
    | ok _ =>
        obtain ⟨⟨p₂, result₂⟩, hdeliver, hrun⟩ := of_bind hrun
        obtain ⟨a₂, h₂⟩ := deliver_regular (hwritten rfl) hdeliver
        cases result₂ with
        | error e =>
            unfold abandon at hrun
            obtain ⟨⟨node, light⟩, -, hrun⟩ := of_bind hrun
            obtain ⟨node', -, hrun⟩ := of_bind hrun
            cases hrun
            exact absurd hfatal (enterFatalState_fatalError (applyEntries_fatal hdeliver))
        | ok _ =>
            exact advance_regular h₂ (hp.tracked _ htake rfl _ hdeliver)
              (fun e he => hp.shortTerm e (hentries ▸ he)) hrun hfatal
  · cases hrun
    exact ⟨a, h⟩

end ReadyProcessor

end Raftpp
