import Raftpp.Membership.Changes
import Raftpp.Core.MemoryStorage
import Raftpp.Protocol.Node

/-!
# Configurations that a node reaches

A node starts with a tracker that `Restore` has built and changes it by `ApplyConfChange`.  What
a leader sends after a change moves the progress of its peers, but the peers stay the same.
So the tracker of a node is consistent at any time.
-/

namespace Raftpp

open Option ConfChanger ProgressTracker

variable {result : Result ConfState}

/-- The call of the changer that `ApplyConfChange` makes for a change. -/
def ConfChangeV2.call (cc : ConfChangeV2) : Call :=
  if Raft.leavesJoint cc then .leaveJoint
  else
    match Raft.enterJointMode cc with
    | some autoLeave => .enterJoint autoLeave cc.changes
    | none => .simple cc.changes

theorem ConfChangeV2.changes_call (cc : ConfChangeV2) : cc.call.changes = cc.changes := by
  unfold call
  split
  next hleaves => exact (of_decide_eq_true hleaves).2.symm
  · split <;> rfl

/-! ## What a leader sends -/

/-- Nothing is delivered and no election is held. -/
def Env.silent : Env where
  sent _ := False
  proper := True
  persist _ := False
  elect := False
  outdate := False
  propose _ := False
  transfer := False
  stale := False

section Silent

variable {σ : Type} [Storage σ] [Codec] {c c' : NodeCore σ}

theorem Micro.silent_peers (h : Micro Env.silent c c') (hleader : c'.state = .leader) :
    c'.conf = c.conf ∧ ∀ id, (c'.tracks id).isSome = (c.tracks id).isSome := by
  cases h with
  | follow term tracks log hterm hlog => cases hleader
  | preCampaign henv hvoter hclear => exact henv.elim
  | campaign tracks henv hvoter => exact henv.elim
  | win last index log tracks henv => exact henv.elim
  | install m log tracker maxInflight hm => exact hm.sent.elim
  | retrack v t t' hstate htrack h =>
      refine ⟨rfl, fun id => ?_⟩
      by_cases hid : id = v
      · subst hid
        simp [NodeCore.setTrack, htrack]
      · simp [NodeCore.setTrack, hid]
  | _ => exact ⟨rfl, fun _ => rfl⟩

theorem Steps.silent_peers (h : Steps Env.silent c c') (hleader : c'.state = .leader) :
    c'.conf = c.conf ∧ ∀ id, (c'.tracks id).isSome = (c.tracks id).isSome := by
  induction h with
  | refl => exact ⟨rfl, fun _ => rfl⟩
  | tail _ hstep ih =>
      obtain ⟨hconf, htracks⟩ := hstep.silent_peers hleader
      have hbefore := (hstep.state_before id (by simp [hleader])).1
      obtain ⟨hconf', htracks'⟩ := ih (hbefore.symm.trans hleader)
      exact ⟨hconf.trans hconf', fun id => (htracks id).trans (htracks' id)⟩

end Silent

namespace Raft

variable {σ : Type} [Storage σ] [Codec] {r r' : Raft σ}

omit [Codec] [Storage σ] in
theorem core_tracks_isSome (r : Raft σ) (id : ℕ) :
    (r.core.tracks id).isSome = ListMap.contains r.tracker.progress id := by
  simp [core, ListMap.contains, ProgressTracker.get]

/-- The peers stay the same when a leader sends. -/
theorem alike_of_leaderRun (h : LeaderRun Env.silent r r') : r.tracker.Alike r'.tracker := by
  obtain ⟨hconf, htracks⟩ := Steps.silent_peers h.steps h.state
  refine ⟨hconf, fun id => ?_⟩
  rw [← core_tracks_isSome, ← core_tracks_isSome, htracks]

theorem postConfChange_alike {cs : ConfState} (h : r.postConfChange = some (r', cs)) :
    r.tracker.Alike r'.tracker ∧ cs = r.tracker.conf.toConfState := by
  obtain ⟨rfl, rfl | ⟨hstate, hleader⟩⟩ := postConfChange_eq h
  · exact ⟨⟨rfl, fun _ => rfl⟩, rfl⟩
  · have halike := alike_of_leaderRun (postConfChangeLeader_run (by exact hstate) hleader)
    exact ⟨halike, rfl⟩

/-- What `ApplyConfChange` does: it fails and changes nothing, or it carries out the call. -/
theorem applyConfChange_cases {cc : ConfChangeV2} (h : r.applyConfChange cc = some (r', result)) :
    (∃ e, cc.call.run r.tracker = .error e ∧ result = .error e ∧ r' = r) ∨
      ∃ cfg changes next cs, cc.call.run r.tracker = .ok (cfg, changes) ∧ result = .ok cs ∧
        (r.tracker.applyConf cfg changes next).Alike r'.tracker ∧ cs = cfg.toConfState := by
  have hcall : cc.call.run r.tracker =
      if leavesJoint cc then leaveJoint r.tracker
      else
        match enterJointMode cc with
        | some autoLeave => enterJoint r.tracker autoLeave cc.changes
        | none => ConfChanger.simple r.tracker cc.changes := by
    unfold ConfChangeV2.call
    split
    · rfl
    · split <;> rfl
  simp only [applyConfChange] at h
  split at h
  next e he =>
    simp only [some.injEq, Prod.mk.injEq] at h
    exact Or.inl ⟨e, hcall.trans he, h.2.symm, h.1.symm⟩
  next cfg changes hok =>
    obtain ⟨last, -, h⟩ := of_bind h
    obtain ⟨⟨r₁, cs⟩, hpost, h⟩ := of_bind h
    cases h
    obtain ⟨halike, hcs⟩ := postConfChange_alike hpost
    rw [applyConf_conf] at hcs
    exact Or.inr ⟨cfg, changes, last, cs, hcall.trans hok, rfl, halike, hcs⟩

end Raft

/-! ## Restored trackers -/

section Restored

variable {t t₁ : ProgressTracker} {ccs : List ConfChangeSingle}

/-- A chain of single changes, each of which leaves a voter. -/
theorem foldlM_apply_eq {d d₁ : Draft}
    (h : ccs.foldlM (fun d cc => ConfChanger.apply d [cc]) d = .ok d₁) :
    d₁ = ccs.foldl applyOne d := by
  induction ccs generalizing d with
  | nil => exact (Except.ok.inj h).symm
  | cons cc ccs ih =>
      rw [List.foldlM_cons] at h
      obtain ⟨d₂, hone, hrest⟩ := Result.bind_eq_ok.mp h
      rw [apply_eq] at hone
      split at hone
      · cases hone
      · cases hone
        exact ih hrest

theorem foldlM_simple_consistent {next : ℕ} (ht : t.Consistent)
    (h : ccs.foldlM (applySimple next) t = .ok t₁) : t₁.Consistent := by
  induction ccs generalizing t with
  | nil =>
      cases h
      exact ht
  | cons cc ccs ih =>
      rw [List.foldlM_cons] at h
      obtain ⟨t₂, hone, hrest⟩ := Result.bind_eq_ok.mp h
      obtain ⟨⟨cfg, changes⟩, hsimple, happly⟩ := Result.bind_eq_ok.mp hone
      cases happly
      have hrun : (Call.simple [cc]).run t = .ok (cfg, changes) := hsimple
      exact ih (Call.applyConf_consistent ht hrun next) hrest

/-- `Restore` keeps a tracker consistent. -/
theorem restoreTracker_consistent {next : ℕ} {cs : ConfState} (ht : t.Consistent)
    (h : restoreTracker t next cs = .ok t₁) : t₁.Consistent := by
  unfold restoreTracker at h
  simp only at h
  split at h
  · split at h
    next cfg changes hjoint =>
      cases h
      have hrun : (Call.enterJoint false (toConfChangeSingle cs).2).run t =
          .ok (cfg, changes) := hjoint
      exact Call.applyConf_consistent ht hrun next
    · obtain ⟨d, hcopy, h⟩ := Result.bind_eq_ok.mp h
      obtain ⟨d₁, hfold, h⟩ := Result.bind_eq_ok.mp h
      obtain ⟨_, -, h⟩ := Result.bind_eq_ok.mp h
      cases h
      rw [checkAndCopy_ok ht] at hcopy
      cases hcopy
      obtain rfl := foldlM_apply_eq hfold
      set ccs := (toConfChangeSingle cs).2
      refine applyConf_consistent
        (foldl_applyOne_consistent ccs ht.draft)
        (Call.draft_base t (.simple ccs)) (fun hjoint => ?_) next
      rw [foldl_applyOne_autoLeave]
      rw [TrackerConfiguration.joint, foldl_applyOne_outgoing] at hjoint
      exact ht.autoLeave hjoint
  · obtain ⟨t₂, hout, h⟩ := Result.bind_eq_ok.mp h
    obtain ⟨⟨cfg, changes⟩, hjoint, h⟩ := Result.bind_eq_ok.mp h
    cases h
    have hrun : (Call.enterJoint cs.autoLeave (toConfChangeSingle cs).2).run t₂ =
        .ok (cfg, changes) := hjoint
    exact Call.applyConf_consistent (foldlM_simple_consistent ht hout) hrun next

end Restored

/-! ## Reachable trackers -/

/-- The nodes whose tracker was restored from some configuration state and then changed by
`ApplyConfChange`.  In between a node may do whatever leaves its configuration and the set of
its peers alone. -/
inductive Raft.Reconfigured {σ : Type} [Storage σ] [Codec] : Raft σ → Prop
  | restored {r : Raft σ} {size next : ℕ} {cs : ConfState}
      (h : restoreTracker (.new size) next cs = .ok r.tracker) : Reconfigured r
  | changed {r r' : Raft σ} {cc : ConfChangeV2} {result : Result ConfState}
      (hr : Reconfigured r) (h : r.applyConfChange cc = some (r', result)) : Reconfigured r'
  | other {r r' : Raft σ} (hr : Reconfigured r) (halike : r.tracker.Alike r'.tracker) :
      Reconfigured r'

section Reconfigured

variable {σ : Type} [Storage σ] [Codec] {r r' : Raft σ}

theorem Raft.applyConfChange_consistent {cc : ConfChangeV2} (hr : r.tracker.Consistent)
    (h : r.applyConfChange cc = some (r', result)) : r'.tracker.Consistent := by
  rcases applyConfChange_cases h with ⟨e, -, -, rfl⟩ | ⟨cfg, changes, next, cs, hrun, -, halike, -⟩
  · exact hr
  · exact (Call.applyConf_consistent hr hrun next).alike halike

theorem Raft.Reconfigured.consistent (h : r.Reconfigured) : r.tracker.Consistent := by
  induction h with
  | restored h => exact restoreTracker_consistent (new_consistent _) h
  | changed _ h ih => exact applyConfChange_consistent ih h
  | other _ halike ih => exact ih.alike halike

/-- A new node has the peers of the configuration in its storage. -/
theorem Raft.new_restored {config : Config} {store : σ} {rng : ℕ → ℕ}
    (h : Raft.new config store rng = some r) :
    ∃ state next tracker, Storage.initialState store = .ok state ∧
      restoreTracker (.new config.maxInflightMessages) next state.confState = .ok tracker ∧
      tracker.Alike r.tracker ∧ r.raftLog.store = store := by
  obtain ⟨state, hinitial, hboot⟩ := new_booted h
  obtain ⟨tracker, next, htracker, halike⟩ := hboot.conf
  obtain ⟨first, last, -, -, hstore, -⟩ := hboot.log
  exact ⟨state, next, tracker, hinitial, htracker, halike, hstore⟩

theorem Raft.Reconfigured.new {config : Config} {store : σ} {rng : ℕ → ℕ}
    (h : Raft.new config store rng = some r) : r.Reconfigured := by
  obtain ⟨state, next, tracker, -, htracker, halike, -⟩ := new_restored h
  have hbefore : ({ r with tracker } : Raft σ).Reconfigured := .restored htracker
  exact .other hbefore halike

/-- The configuration of a node and the progress of its peers fit together at any time, a change
moves the progress only of the peers it mentions, and a refused change moves nothing. -/
theorem conf_and_progress_consistent (h : r.Reconfigured) :
    (∀ id, ListMap.contains r.tracker.progress id = true ↔
      id ∈ r.tracker.conf.voters.incoming ∨ id ∈ r.tracker.conf.voters.outgoing ∨
        id ∈ r.tracker.conf.learners) ∧
    (∀ id ∈ r.tracker.conf.learnersNext, id ∈ r.tracker.conf.voters.outgoing) ∧
    (∀ id ∈ r.tracker.conf.learners,
      id ∉ r.tracker.conf.voters.incoming ∧ id ∉ r.tracker.conf.voters.outgoing) ∧
    (∀ id ∈ r.tracker.conf.learnersNext, id ∉ r.tracker.conf.voters.incoming) ∧
    (r.tracker.conf.joint = false →
      r.tracker.conf.learnersNext.isEmpty = true ∧ r.tracker.conf.autoLeave = false) ∧
    (∀ (cc : ConfChangeV2) cfg changes next id, cc.call.run r.tracker = .ok (cfg, changes) →
      ListMap.contains (r.tracker.applyConf cfg changes next).progress id = true →
      id ∉ changes.map Prod.fst ∨ id ∉ cc.changes.map ConfChangeSingle.nodeId →
      (r.tracker.applyConf cfg changes next).get id = r.tracker.get id) ∧
    ∀ (cc : ConfChangeV2) r' e, r.applyConfChange cc = some (r', .error e) → r' = r := by
  have hc := h.consistent
  refine ⟨hc.draft.tracked, hc.draft.next_outgoing, fun id hid =>
    ⟨hc.draft.learners_incoming id hid, hc.draft.learners_outgoing id hid⟩,
    hc.draft.next_incoming, fun hjoint => ⟨?_, hc.autoLeave hjoint⟩, ?_, ?_⟩
  · rw [ListSet.isEmpty, List.isEmpty_iff, List.eq_nil_iff_forall_not_mem]
    exact hc.learnersNext hjoint
  · intro cc cfg changes next id hrun hstays hid
    rcases hid with hid | hid
    · exact get_applyConf_of_not_mem hid
    · exact Call.get_applyConf hc hrun (cc.changes_call ▸ hid) hstays
  · intro cc r' e hchange
    rcases Raft.applyConfChange_cases hchange with ⟨_, -, -, hr⟩ | ⟨_, _, _, _, -, hok, -⟩
    · exact hr
    · cases hok

end Reconfigured

/-- A node that has entered a joint configuration: one of its voters leaves, another becomes a
learner. -/
theorem conf_and_progress_consistent_joint :
    letI := Codec.plain
    ∃ r : Raft MemoryStorage, r.Reconfigured ∧
      r.tracker.conf.voters.incoming.elems = [1] ∧
      r.tracker.conf.voters.outgoing.elems = [1, 2, 3] ∧
      r.tracker.conf.learnersNext.elems = [3] ∧
      ListMap.contains r.tracker.progress 2 = true := by
  obtain ⟨r, hnew, r', result, hchange, hincoming, houtgoing, hnext⟩ : letI := Codec.plain
      ∃ r, Raft.new { id := 1 } ({ confState := { voters := [1, 2, 3] } } : MemoryStorage)
          (fun _ => 0) = some r ∧
        ∃ r' result, r.applyConfChange
            { transition := .explicit
              changes := [⟨.removeNode, 2⟩, ⟨.addLearnerNode, 3⟩] } = some (r', result) ∧
          r'.tracker.conf.voters.incoming.elems = [1] ∧
          r'.tracker.conf.voters.outgoing.elems = [1, 2, 3] ∧
          r'.tracker.conf.learnersNext.elems = [3] := by
    decide +kernel
  let _ := Codec.plain
  have hreached : r'.Reconfigured := .changed (.new hnew) hchange
  have htracked := ((conf_and_progress_consistent hreached).1 2).mpr
    (Or.inr (Or.inl (by rw [ListSet.mem_def, houtgoing]; decide)))
  exact ⟨r', hreached, hincoming, houtgoing, hnext, htracked⟩

end Raftpp
