import Raftpp.Membership.Replay
import Raftpp.Raftor.Process

/-!
# Restarting does not change the configuration

The processor stores the configuration after each change.  A node that restarts begins with the
stored configuration and applies the committed entries after its snapshot once more; a change
that fails is passed over.  So the trackers of both nodes carry out the same calls of the
changer, and the restarted one repeats those before the stop.
-/

namespace Raftpp

open List Option ProgressTracker
open LawfulStorage (view)

variable {p : ReadyProcessor MemoryStorage Unit}

namespace ConfChanger

variable {t t' : ProgressTracker}

theorem changes_removeAll (gone : List ℕ) (prs : IncrChangeMap) :
    (gone.foldl (fun prs id => prs.push id .remove) prs).changes =
      prs.changes ++ gone.map fun id => (id, .remove) := by
  induction gone generalizing prs with
  | nil => simp
  | cons id gone ih =>
      rw [foldl_cons, ih]
      simp [IncrChangeMap.push]

theorem leaveJoint_alike (h : t.Consistent) (halike : t.Alike t') :
    leaveJoint t' = leaveJoint t := by
  have h' := h.alike halike
  have hdraft : t'.leftDraft.1 = t.leftDraft.1 ∧
      t'.leftDraft.2.changes = t.leftDraft.2.changes := by
    simp only [ProgressTracker.leftDraft, changes_removeAll, halike.conf, and_self]
  by_cases hjoint : t.conf.joint = true
  · have haccepts : Call.leaveJoint.Accepts t := hjoint
    have haccepts' : Call.leaveJoint.Accepts t' := by
      rw [Call.Accepts, halike.conf]
      exact hjoint
    have hrun : leaveJoint t = _ := Call.run_of_accepts h haccepts
    have hrun' : leaveJoint t' = _ := Call.run_of_accepts h' haccepts'
    simp only [hrun, hrun', Call.draft, hdraft.1, hdraft.2]
  · simp only [leaveJoint, halike.conf, eq_false_of_ne_true hjoint, if_true]

theorem Call.run_alike (h : t.Consistent) (halike : t.Alike t') (call : Call) :
    call.run t' = call.run t := by
  cases call with
  | simple ccs => exact simple_alike halike ccs
  | enterJoint autoLeave ccs => exact enterJoint_alike halike autoLeave ccs
  | leaveJoint => exact leaveJoint_alike h halike

end ConfChanger

namespace ProgressTracker

variable {t t' t'' : ProgressTracker}

theorem Alike.refl (t : ProgressTracker) : t.Alike t := ⟨rfl, fun _ => rfl⟩

theorem Alike.trans (h : t.Alike t') (h' : t'.Alike t'') : t.Alike t'' :=
  ⟨h'.conf.trans h.conf, fun id => (h'.contains id).trans (h.contains id)⟩

theorem Alike.carryOut (h : t.Consistent) (halike : t.Alike t') (call : ConfChanger.Call) :
    (t.carryOut call).Alike (t'.carryOut call) := by
  unfold ProgressTracker.carryOut
  rw [ConfChanger.Call.run_alike h halike]
  split
  · exact halike.applyConf _ _ _ _
  · exact halike

theorem Alike.foldl_carryOut (h : t.Consistent) (halike : t.Alike t')
    (calls : List ConfChanger.Call) :
    (calls.foldl ProgressTracker.carryOut t).Alike (calls.foldl ProgressTracker.carryOut t') := by
  induction calls generalizing t t' with
  | nil => exact halike
  | cons call calls ih => exact ih (carryOut_consistent h call) (halike.carryOut h call)

end ProgressTracker

/-- A change that `ApplyConfChange` makes is a single one or joint. -/
theorem ConfChangeV2.call_single (cc : ConfChangeV2) : cc.call.Single := by
  unfold call
  split
  · trivial
  next hleaves =>
    split
    · trivial
    next hmode =>
      simp only [Raft.leavesJoint, decide_eq_true_eq, not_and] at hleaves
      simp only [Raft.enterJointMode, ite_eq_right_iff, reduceCtorEq, imp_false, not_or, not_not,
        not_lt] at hmode
      have hne : cc.changes ≠ [] := hleaves hmode.1
      have hpos := length_pos_iff.mpr hne
      have hle := hmode.2
      show cc.changes.length = 1
      omega

/-! ## Applying entries -/

/-- A storage that keeps the configuration it is given. -/
class RecordingStorage (σ : Type) [WritableStorage σ] [PeerStorage σ] [Codec] [LawfulStorage σ] :
    Prop where
  setConfState_records : ∀ (s : σ) (cs : ConfState),
    (view (WritableStorage.setConfState s cs).1).confState = cs
  upsertPeerAddress_keeps : ∀ (s : σ) (id : ℕ) (addr : Bytes),
    (view (PeerStorage.upsertPeerAddress s id addr).1).confState =
      (view s).confState
  removePeerAddress_keeps : ∀ (s : σ) (id : ℕ),
    (view (PeerStorage.removePeerAddress s id).1).confState =
      (view s).confState

namespace ReadyProcessor

variable {σ μ : Type}

def tracker (p : ReadyProcessor σ μ) : ProgressTracker := p.node.raft.tracker

section Calls

variable [Codec] [RaftorCodec]

/-- The call of the changer that an entry leads to. -/
def entryCall (entry : Entry) : Option ConfChanger.Call :=
  if entry.entryType = .entryConfChange ∨ entry.entryType = .entryConfChangeV2 then
    (entryConfChange entry).map ConfChangeV2.call
  else none

def entryCalls (entries : List Entry) : List ConfChanger.Call := entries.filterMap entryCall

theorem entryCalls_single {entries : List Entry} {call : ConfChanger.Call}
    (h : call ∈ entryCalls entries) : call.Single := by
  obtain ⟨entry, -, hcall⟩ := mem_filterMap.mp h
  unfold entryCall at hcall
  split at hcall
  · obtain ⟨cc, -, rfl⟩ := map_eq_some_iff.mp hcall
    exact cc.call_single
  · cases hcall

end Calls

variable [WritableStorage σ] [PeerStorage σ] [Codec] [LawfulStorage σ] [RaftorCodec]
  [StateMachine μ] {p p' : ReadyProcessor σ μ}

/-- The configuration of the node is in its storage, and has a voter. -/
structure Recorded [WritableStorage σ] [Codec] [LawfulStorage σ] (p : ReadyProcessor σ μ) :
    Prop where
  consistent : p.tracker.Consistent
  voters : p.tracker.conf.voters.incoming.isEmpty = false
  stored : (view p.store).confState.Describes p.tracker.conf

/-- Entries are applied one after the other, as `ApplyCommittedEntries` does: an error that is
not fatal is passed over.  In between the node may do whatever leaves its configuration and its
peers alone. -/
inductive Applies : ReadyProcessor σ μ → List Entry → ReadyProcessor σ μ → Prop
  | nil (p : ReadyProcessor σ μ) : Applies p [] p
  | entry {p p₁ p₂ : ReadyProcessor σ μ} {e : Entry} {es : List Entry} {result : Result Unit}
      (happly : p.applyEntry e = some (p₁, result))
      (hgoes : ∀ err, result = .error err → isFatalApplyError err = false)
      (hrest : Applies { p₁ with appliedIndex := e.index } es p₂) : Applies p (e :: es) p₂
  | other {p p₁ p₂ : ReadyProcessor σ μ} {es : List Entry}
      (halike : p.tracker.Alike p₁.tracker)
      (hstored : (view p₁.store).confState = (view p.store).confState)
      (hrest : Applies p₁ es p₂) : Applies p es p₂

theorem Applies.of_applyEntries {es : List Entry}
    (h : p.applyEntries es = some (p', .ok ())) : Applies p es p' := by
  induction es generalizing p with
  | nil =>
      cases h
      exact .nil _
  | cons e es ih =>
      unfold applyEntries at h
      obtain ⟨⟨p₁, result⟩, happly, h⟩ := of_bind h
      cases result with
      | ok _ => exact .entry happly (fun err herr => by cases herr) (ih h)
      | error err =>
          simp only at h
          split at h
          · cases h
          next hgoes =>
            refine .entry happly (fun err' herr' => ?_) (ih h)
            cases herr'
            exact eq_false_of_ne_true hgoes

section Recording

variable [RecordingStorage σ]

omit [RaftorCodec] [StateMachine μ] in
theorem peerCallsKeep_confState : PeerCallsKeep fun s s' : σ =>
    (view s').confState = (view s).confState where
  refl _ := rfl
  trans h h' := h'.trans h
  upsertPeerAddress := RecordingStorage.upsertPeerAddress_keeps
  removePeerAddress := RecordingStorage.removePeerAddress_keeps

omit [RaftorCodec] [StateMachine μ] in
/-- A change is carried out by the tracker, and its result is stored. -/
theorem applyConfChange_recorded (h : p.Recorded) {cc : ConfChangeV2} {result : Result Unit}
    (hrun : p.applyConfChange cc = some (p', result)) :
    p'.Recorded ∧ (p.tracker.carryOut cc.call).Alike p'.tracker := by
  unfold applyConfChange at hrun
  obtain ⟨⟨node, answer⟩, hcall, hrun⟩ := of_bind hrun
  simp only [RawNode.applyConfChange, RawNode.withRaft] at hcall
  obtain ⟨⟨raft, answer'⟩, hraft, hcall⟩ := of_bind hcall
  cases hcall
  rcases Raft.applyConfChange_cases hraft with
    ⟨e, hrefused, rfl, rfl⟩ | ⟨cfg, changes, next, cs, htaken, rfl, halike, rfl⟩
  · obtain ⟨rfl, -⟩ := Prod.mk.inj (some.inj hrun)
    refine ⟨h, ?_⟩
    have hcarry : p.tracker.carryOut cc.call = p.tracker := by
      simp only [ProgressTracker.carryOut, tracker, hrefused]
    rw [hcarry]
    exact .refl _
  · set p₁ : ReadyProcessor σ μ := { p with node := { p.node with raft } }
    set q := p₁.write fun s => WritableStorage.setConfState s cfg.toConfState with hq
    have hcarry : (p.tracker.carryOut cc.call).Alike raft.tracker := by
      refine ProgressTracker.Alike.trans ?_ halike
      simp only [ProgressTracker.carryOut, tracker, htaken]
      exact (ProgressTracker.Alike.refl _).applyConf _ _ _ _
    have hrest : Writes (fun s s' : σ =>
        (view s').confState = (view s).confState) q.1 p' := by
      have hkeep := peerCallsKeep_confState (σ := σ)
      have hwrites : Writes _ q.1 (andThen q fun q' => q'.updatePeers cc.context cc.changes).1 :=
        (Writes.of_node hkeep rfl).andThen hkeep
          fun q' => updatePeers_writes hkeep cc.context cc.changes q'
      rwa [some.inj hrun] at hwrites
    have htracker : p'.tracker = raft.tracker := hrest.tracker
    have hconf : p'.tracker.conf = cfg := by
      rw [htracker, halike.conf, applyConf_conf]
    obtain ⟨haccepts, rfl, -⟩ := (ConfChanger.Call.run_eq_ok h.consistent).mp htaken
    refine ⟨⟨?_, ?_, ?_⟩, htracker ▸ hcarry⟩
    · rw [htracker]
      exact (carryOut_consistent h.consistent cc.call).alike hcarry
    · rw [hconf]
      exact ConfChanger.Call.voters_draft haccepts h.voters
    · have hstored := hrest.store
      rw [hconf, hstored, hq]
      have hrecords : (view q.1.store).confState =
          (cc.call.draft p.tracker).1.toConfState := RecordingStorage.setConfState_records _ _
      rw [← hq, hrecords]
      exact TrackerConfiguration.toConfState_describes _

/-- An entry leads to at most one call. -/
theorem applyEntry_recorded (h : p.Recorded) {e : Entry} {result : Result Unit}
    (hrun : p.applyEntry e = some (p', result))
    (hgoes : ∀ err, result = .error err → isFatalApplyError err = false) :
    p'.Recorded ∧ ((entryCall e).toList.foldl ProgressTracker.carryOut p.tracker).Alike
      p'.tracker := by
  unfold applyEntry at hrun
  simp only at hrun
  split at hrun
  next err herr =>
    -- a wrong checksum is a fatal error
    obtain ⟨-, rfl⟩ := Prod.mk.inj (some.inj hrun)
    split at herr
    · have hfatal := verifyEntryChecksum_error herr
      rw [hgoes err rfl] at hfatal
      cases hfatal
    · cases herr
  · unfold applyVerified at hrun
    unfold entryCall
    split at hrun
    next hkind =>
      rw [if_pos hkind]
      split at hrun
      next hnone =>
        obtain ⟨rfl, -⟩ := Prod.mk.inj (some.inj hrun)
        rw [hnone]
        exact ⟨⟨h.consistent, h.voters, h.stored⟩, .refl _⟩
      next cc hcc =>
        rw [hcc]
        have hp : ({ p with deliveries := p.deliveries ++ [.entry e.index] } :
            ReadyProcessor σ μ).Recorded := ⟨h.consistent, h.voters, h.stored⟩
        exact applyConfChange_recorded hp hrun
    next hkind =>
      rw [if_neg hkind]
      have hwrites := applyNormal_writes peerCallsKeep_confState e
        ({ p with deliveries := p.deliveries ++ [.entry e.index] } : ReadyProcessor σ μ)
      rw [some.inj hrun] at hwrites
      have htracker : p'.tracker = p.tracker := hwrites.tracker
      have hstored := hwrites.store
      refine ⟨⟨?_, ?_, ?_⟩, ?_⟩
      · rw [htracker]
        exact h.consistent
      · rw [htracker]
        exact h.voters
      · rw [htracker]
        exact hstored ▸ h.stored
      · rw [htracker]
        exact .refl _

/-- Applying entries carries out their calls, and keeps the configuration stored. -/
theorem Applies.recorded {es : List Entry} (hrun : Applies p es p') (h : p.Recorded) :
    p'.Recorded ∧
      ((entryCalls es).foldl ProgressTracker.carryOut p.tracker).Alike p'.tracker := by
  induction hrun with
  | nil p => exact ⟨h, .refl _⟩
  | @entry p p₁ p₂ e es result happly hgoes _ ih =>
      obtain ⟨h₁, halike₁⟩ := applyEntry_recorded h happly hgoes
      obtain ⟨h₂, halike₂⟩ := ih ⟨h₁.consistent, h₁.voters, h₁.stored⟩
      refine ⟨h₂, ProgressTracker.Alike.trans ?_ halike₂⟩
      have hcalls : entryCalls (e :: es) = (entryCall e).toList ++ entryCalls es := by
        simp only [entryCalls, filterMap_cons]
        cases entryCall e <;> rfl
      rw [hcalls, foldl_append]
      exact halike₁.foldl_carryOut (foldl_carryOut_consistent _ h.consistent) _
  | @other p p₁ p₂ es halike hstored _ ih =>
      have h₁ : p₁.Recorded := by
        refine ⟨h.consistent.alike halike, ?_, ?_⟩
        · rw [halike.conf]
          exact h.voters
        · rw [halike.conf, hstored]
          exact h.stored
      obtain ⟨h₂, halike₂⟩ := ih h₁
      exact ⟨h₂, (halike.foldl_carryOut h.consistent _).trans halike₂⟩

end Recording

/-! ## Restarting -/

omit [PeerStorage σ] [RaftorCodec] [StateMachine μ] in
/-- A node that starts with a stored configuration has it. -/
theorem Recorded.new {config : Config} {store : σ} {rng : ℕ → ℕ} {t : ProgressTracker}
    (ht : t.Consistent) (hvoters : t.conf.voters.incoming.isEmpty = false)
    (hstore : (view store).confState.Describes t.conf)
    (hnew : RawNode.new config store rng = some p.node) :
    p.Recorded ∧ t.conf.Same p.tracker.conf := by
  unfold RawNode.new at hnew
  obtain ⟨raft, hraft, hnew⟩ := of_bind hnew
  split at hnew
  · cases hnew
  · have htracker : p.tracker = raft.tracker := by
      rw [tracker, ← some.inj hnew]
    have hstore' : p.store = raft.raftLog.store := by
      rw [ReadyProcessor.store, ← some.inj hnew]
    obtain ⟨state, next, tracker, hstate, hrestore, halike, hraftStore⟩ := Raft.new_restored hraft
    rw [LawfulStorage.initialState_eq] at hstate
    cases hstate
    obtain ⟨t', hrestore', h', hsame⟩ :=
      restoreTracker_ok ht hstore hvoters config.maxInflightMessages next
    rw [hrestore'] at hrestore
    cases hrestore
    have hsame' : t.conf.Same p.tracker.conf := by
      rw [htracker, halike.conf]
      exact hsame
    have hdescribes := hstore.of_same hsame'
    refine ⟨⟨?_, ?_, ?_⟩, hsame'⟩
    · rw [htracker]
      exact h'.alike halike
    · obtain ⟨v, hv⟩ := isEmpty_eq_false_iff_exists_mem.mp hvoters
      exact isEmpty_eq_false_iff_exists_mem.mpr ⟨v, (hsame'.incoming v).mpr hv⟩
    · rw [hstore', hraftStore]
      exact hdescribes

end ReadyProcessor

section Restart

variable {σ μ : Type} [WritableStorage σ] [PeerStorage σ] [Codec] [LawfulStorage σ]
  [RaftorCodec] [StateMachine μ] [RecordingStorage σ]

/-- A node that stops after some entries, and then restarts from what is stored and applies them
again and the later ones after them, ends in the configuration of a node that did not stop. -/
theorem restart_keeps_configuration {p₀ p₁ p₂ q₀ q₂ : ReadyProcessor σ μ}
    {before after : List Entry} {config : Config} {store : σ} {rng : ℕ → ℕ}
    (hstart : p₀.Recorded) (hbefore : p₀.Applies before p₁) (hafter : p₁.Applies after p₂)
    (hstore : (view store).confState = (view p₁.store).confState)
    (hnew : RawNode.new config store rng = some q₀.node)
    (hreplay : q₀.Applies (before ++ after) q₂)
    (hwell : ProgressTracker.RepeatsAllWell p₁.tracker.conf (ReadyProcessor.entryCalls after)
      (ReadyProcessor.entryCalls before) p₀.tracker q₀.tracker) :
    p₂.tracker.conf.Same q₂.tracker.conf := by
  obtain ⟨h₁, halike₁⟩ := hbefore.recorded hstart
  obtain ⟨-, halike₂⟩ := hafter.recorded h₁
  obtain ⟨hq₀, hsame⟩ := ReadyProcessor.Recorded.new (p := q₀) h₁.consistent h₁.voters
    (by rw [hstore]; exact h₁.stored) hnew
  obtain ⟨-, halike⟩ := hreplay.recorded hq₀
  have hcalls : ReadyProcessor.entryCalls (before ++ after) =
      ReadyProcessor.entryCalls before ++ ReadyProcessor.entryCalls after :=
    filterMap_append
  have hend := (halike₁.foldl_carryOut
    (foldl_carryOut_consistent _ hstart.consistent)
    (ReadyProcessor.entryCalls after)).trans halike₂
  rw [← foldl_append] at hend
  rw [hend.conf, halike.conf, hcalls]
  rw [halike₁.conf] at hsame hwell
  refine same_of_repeats hstart.consistent hq₀.consistent (fun call hcall => ?_)
    hsame hwell
  rw [← hcalls] at hcall
  exact ReadyProcessor.entryCalls_single hcall

end Restart

/-! ## A run with restarts -/

instance [Codec] : RecordingStorage MemoryStorage where
  setConfState_records _ _ := rfl
  upsertPeerAddress_keeps _ _ _ := rfl
  removePeerAddress_keeps _ _ := rfl

/-- A codec that knows three changes: the node 4 enters, a joint configuration is left, and the
node 5 enters. -/
@[reducible]
def Codec.members : Codec :=
  { Codec.plain with
    confChangeV2OfBytes := fun
      | [1] => some { transition := .explicit, changes := [⟨.addNode, 4⟩] }
      | [2] => some {}
      | [3] => some { transition := .explicit, changes := [⟨.addNode, 5⟩] }
      | _ => none }

/-- The committed entries: two joint configurations, of which the first one is left again. -/
def memberEntry (index : ℕ) : Entry :=
  { index, term := 1, entryType := .entryConfChangeV2, data := [UInt8.ofNat index] }

def threeVoters : MemoryStorage where
  confState := { voters := [1, 2, 3] }

/-- A processor with a new node on a storage. -/
def startProcessor [Codec] (store : MemoryStorage) : Option (ReadyProcessor MemoryStorage Unit) :=
  (RawNode.new { id := 1 } store fun _ => 0).map fun node => { node, stateMachine := () }

theorem startProcessor_new [Codec] {store : MemoryStorage} (h : startProcessor store = some p) :
    RawNode.new { id := 1 } store (fun _ => 0) = some p.node := by
  obtain ⟨node, hnew, rfl⟩ := map_eq_some_iff.mp h
  exact hnew

theorem threeVoters_recorded [Codec] (h : startProcessor threeVoters = some p) : p.Recorded := by
  have heval : (unwrap (restoreTracker (.new 1) 1 { voters := [1, 2, 3] })).any (fun t =>
      decide (t.conf.toConfState = { voters := [3, 2, 1] })) = true := by
    decide +kernel
  obtain ⟨t, ht, hconf⟩ := (any_eq_true _ _).mp heval
  have hconf : t.conf.toConfState = { voters := [3, 2, 1] } := of_decide_eq_true hconf
  have hdescribes : threeVoters.confState.Describes t.conf := by
    have hself := t.conf.toConfState_describes
    rw [hconf] at hself
    exact ⟨.trans (by decide) hself.voters, hself.votersOutgoing, hself.learners,
      hself.learnersNext, hself.autoLeave⟩
  refine (ReadyProcessor.Recorded.new (restoreTracker_consistent
    (new_consistent 1) (unwrap_eq_some.mp ht)) ?_ hdescribes
    (startProcessor_new h)).1
  exact isEmpty_eq_false_iff_exists_mem.mpr ⟨1, hdescribes.voters.mem_iff.mp (by decide)⟩

/-- The node stops after the first joint configuration is left. -/
theorem restart_keeps_configuration_left :
    letI := Codec.members
    letI := RaftorCodec.plain
    ∃ p₀ p₁ p₂ q₀ q₂ : ReadyProcessor MemoryStorage Unit,
      startProcessor threeVoters = some p₀ ∧
      p₀.applyEntries [memberEntry 1, memberEntry 2] = some (p₁, .ok ()) ∧
      p₁.applyEntries [memberEntry 3] = some (p₂, .ok ()) ∧
      startProcessor p₁.store = some q₀ ∧
      q₀.applyEntries [memberEntry 1, memberEntry 2, memberEntry 3] = some (q₂, .ok ()) ∧
      p₂.tracker.conf.joint = true ∧ p₂.tracker.conf.Same q₂.tracker.conf := by
  obtain ⟨p₀, hp₀, p₁, ok₁, hp₁, hok₁, q₀, hq₀, p₂, ok₂, hp₂, hok₂, hjoint, q₂, ok, hq₂, hok,
      hwell⟩ :
      letI := Codec.members
      letI := RaftorCodec.plain
      ∃ p₀, startProcessor threeVoters = some p₀ ∧
        ∃ p₁ ok₁, p₀.applyEntries [memberEntry 1, memberEntry 2] = some (p₁, ok₁) ∧ ok₁ = .ok () ∧
        ∃ q₀, startProcessor p₁.store = some q₀ ∧
        ∃ p₂ ok₂, p₁.applyEntries [memberEntry 3] = some (p₂, ok₂) ∧ ok₂ = .ok () ∧
          p₂.tracker.conf.joint = true ∧
          ∃ q₂ ok, q₀.applyEntries [memberEntry 1, memberEntry 2, memberEntry 3] = some (q₂, ok) ∧
            ok = .ok () ∧ ProgressTracker.RepeatsAllWell p₁.tracker.conf
              (ReadyProcessor.entryCalls [memberEntry 3])
              (ReadyProcessor.entryCalls [memberEntry 1, memberEntry 2]) p₀.tracker q₀.tracker := by
    set_option synthInstance.maxSize 512 in decide +kernel
  let _ := Codec.members
  let _ := RaftorCodec.plain
  subst hok₁ hok₂ hok
  exact ⟨p₀, p₁, p₂, q₀, q₂, hp₀, hp₁, hp₂, hq₀, hq₂, hjoint,
    restart_keeps_configuration (threeVoters_recorded hp₀) (.of_applyEntries hp₁)
      (.of_applyEntries hp₂) rfl (startProcessor_new hq₀) (.of_applyEntries hq₂) hwell⟩

/-- The node stops inside the second joint configuration.  The repeated `LeaveJoint`, which
belongs to the first one, leaves the second one, and the repeated change enters it from the
wrong voters. -/
theorem restart_changes_outgoing :
    letI := Codec.members
    letI := RaftorCodec.plain
    ∃ p₀ p₁ q₀ q₁ : ReadyProcessor MemoryStorage Unit,
      startProcessor threeVoters = some p₀ ∧ p₀.Recorded ∧
      p₀.applyEntries [memberEntry 1, memberEntry 2, memberEntry 3] = some (p₁, .ok ()) ∧
      startProcessor p₁.store = some q₀ ∧
      q₀.applyEntries [memberEntry 1, memberEntry 2, memberEntry 3] = some (q₁, .ok ()) ∧
      5 ∉ p₁.tracker.conf.voters.outgoing ∧ 5 ∈ q₁.tracker.conf.voters.outgoing ∧
      ¬p₁.tracker.conf.Same q₁.tracker.conf := by
  obtain ⟨p₀, hp₀, p₁, ok₁, hp₁, hok₁, q₀, hq₀, q₁, ok, hq₁, hok, hnot, hmem⟩ :
      letI := Codec.members
      letI := RaftorCodec.plain
      ∃ p₀, startProcessor threeVoters = some p₀ ∧
        ∃ p₁ ok₁, p₀.applyEntries [memberEntry 1, memberEntry 2, memberEntry 3] =
            some (p₁, ok₁) ∧ ok₁ = .ok () ∧
        ∃ q₀, startProcessor p₁.store = some q₀ ∧
        ∃ q₁ ok, q₀.applyEntries [memberEntry 1, memberEntry 2, memberEntry 3] = some (q₁, ok) ∧
          ok = .ok () ∧ 5 ∉ p₁.tracker.conf.voters.outgoing ∧
          5 ∈ q₁.tracker.conf.voters.outgoing := by
    set_option synthInstance.maxSize 512 in decide +kernel
  let _ := Codec.members
  let _ := RaftorCodec.plain
  subst hok₁ hok
  exact ⟨p₀, p₁, q₀, q₁, hp₀, threeVoters_recorded hp₀, hp₁, hq₀, hq₁, hnot, hmem,
    fun hsame => hnot ((hsame.outgoing 5).mp hmem)⟩

end Raftpp
