import Raftpp.Membership.Restore

/-!
# Changes that are applied a second time

A node that restarts starts from its last configuration and applies the committed changes
again, also those that this configuration already contains.  Two runs of the same changes are
compared here, one from the old configuration and one from its result.

The runs agree node by node: the standing of a node in the second run is the one it has in the
first, or the one it has in the result.  A change to the node makes both standings equal, and at
the end of the repeated changes both are the result's.  This needs that the second run takes a
change when the first one did and refuses it when the first one did, or that it refuses it in the
result itself.  What remains are the outgoing voters, which the standings do not tell: they agree
again after the next `LeaveJoint`.
-/

namespace Raftpp

open TrackerConfiguration (joint standing_eq_voter)

variable {c : TrackerConfiguration} {calls : List Call} {ccs : List ConfChangeSingle}

open List

theorem settle_of_not_mem {id : ℕ} (h : id ∉ ccs.map ConfChangeSingle.nodeId) (s : Standing) :
    settle ccs id s = s := by
  induction ccs generalizing s with
  | nil => rfl
  | cons cc ccs ih =>
      simp only [map_cons, mem_cons, not_or] at h
      have hskip : settle (cc :: ccs) id s = settle ccs id s := by
        simp only [settle, foldl_cons]
        rw [if_neg fun hid => h.1 hid.2.symm]
      rw [hskip, ih h.2]

namespace ConfChanger.Call

variable {t : ProgressTracker}

/-- Some node is a voter after the changes. -/
def LeavesVoter (c : TrackerConfiguration) (ccs : List ConfChangeSingle) : Prop :=
  ∃ id ∈ c.voters.incoming.elems ++ ccs.map ConfChangeSingle.nodeId,
    settle ccs id (c.standing id) = .voter

instance (c : TrackerConfiguration) (ccs : List ConfChangeSingle) :
    Decidable (LeavesVoter c ccs) := by
  unfold LeavesVoter
  infer_instance

theorem leavesVoter_iff : LeavesVoter c ccs ↔ ∃ id, settle ccs id (c.standing id) = .voter := by
  constructor
  · rintro ⟨id, -, hid⟩
    exact ⟨id, hid⟩
  · rintro ⟨id, hid⟩
    refine ⟨id, mem_append.mpr ?_, hid⟩
    by_cases hmem : id ∈ ccs.map ConfChangeSingle.nodeId
    · exact Or.inr hmem
    · rw [settle_of_not_mem hmem] at hid
      exact Or.inl (standing_eq_voter.mp hid)

/-- What a call asks of a configuration. -/
def Admits (c : TrackerConfiguration) : Call → Prop
  | simple ccs => c.joint = false ∧ LeavesVoter c ccs
  | enterJoint _ ccs =>
      c.joint = false ∧ c.voters.incoming.isEmpty = false ∧ LeavesVoter c ccs
  | leaveJoint => c.joint = true

instance (c : TrackerConfiguration) (call : Call) : Decidable (call.Admits c) :=
  match call with
  | simple _ => instDecidableAnd
  | enterJoint _ _ => instDecidableAnd
  | leaveJoint => instDecidableEqBool _ _

/-- The call enters a joint configuration. -/
def enters : Call → Bool
  | enterJoint _ _ => true
  | _ => false

/-- The call enters a joint configuration that is left automatically. -/
def leavesLater : Call → Bool
  | enterJoint autoLeave _ => autoLeave
  | _ => false

/-- A simple change is a single one. -/
def Single : Call → Prop
  | simple ccs => ccs.length = 1
  | _ => True

theorem isEmpty_incoming : c.voters.incoming.isEmpty = false ↔ ∃ id, c.standing id = .voter := by
  rw [ListSet.isEmpty, isEmpty_eq_false_iff_exists_mem]
  simp only [standing_eq_voter, ListSet.mem_def]

theorem accepts_iff_admits (h : t.Consistent) {call : Call} (hsingle : call.Single) :
    call.Accepts t ↔ call.Admits t.conf := by
  cases call with
  | simple ccs =>
      have hone : symmetricDifference ((simple ccs).draft t).1.voters.incoming
          t.conf.voters.incoming ≤ 1 := by
        obtain ⟨cc, rfl⟩ := length_eq_one_iff.mp hsingle
        exact symmetricDifference_applyOne h.draft cc
      have hstanding : ∀ id, ((simple ccs).draft t).1.standing id =
          settle ccs id (t.conf.standing id) := standing_foldl_applyOne ccs h.draft
      simp only [Accepts, Admits, isEmpty_incoming, hstanding, leavesVoter_iff, hone, and_true]
  | enterJoint autoLeave ccs =>
      refine and_congr_right fun hjoint => and_congr_right fun _ => ?_
      have hstanding : ∀ id, ((enterJoint autoLeave ccs).draft t).1.standing id =
          settle ccs id (t.conf.standing id) :=
        standing_foldl_applyOne ccs (ProgressTracker.jointDraft_consistent h hjoint)
      simp only [isEmpty_incoming, hstanding, leavesVoter_iff]
  | leaveJoint => exact Iff.rfl

/-- Whether a call is admitted depends on the standings, and on whether the configuration is
joint. -/
theorem admits_congr {c' : TrackerConfiguration} (hjoint : c'.joint = c.joint)
    (hstanding : ∀ id, c'.standing id = c.standing id) (call : Call) :
    call.Admits c' ↔ call.Admits c := by
  cases call with
  | simple ccs => simp only [Admits, hjoint, leavesVoter_iff, hstanding]
  | enterJoint autoLeave ccs =>
      simp only [Admits, hjoint, isEmpty_incoming, leavesVoter_iff, hstanding]
  | leaveJoint => simp only [Admits, hjoint]

end ConfChanger.Call

/-! ## Carrying out a call -/

namespace ProgressTracker

open ConfChanger

/-- Carry out a call, or leave the tracker alone when it fails. -/
def carryOut (t : ProgressTracker) (call : Call) : ProgressTracker :=
  match call.run t with
  | .ok (cfg, changes) => t.applyConf cfg changes 0
  | .error _ => t

variable {t : ProgressTracker} {call : Call}

theorem carryOut_of_admits (h : t.Consistent) (hsingle : call.Single)
    (hadmits : call.Admits t.conf) :
    t.carryOut call = t.applyConf (call.draft t).1 (call.draft t).2.changes 0 := by
  have haccepts := (Call.accepts_iff_admits h hsingle).mpr hadmits
  simp only [carryOut, Call.run_of_accepts h haccepts]

theorem carryOut_of_not_admits (h : t.Consistent) (hsingle : call.Single)
    (hadmits : ¬call.Admits t.conf) : t.carryOut call = t := by
  have haccepts := fun haccepts => hadmits ((Call.accepts_iff_admits h hsingle).mp haccepts)
  obtain ⟨e, he⟩ := Call.run_of_not_accepts h haccepts
  simp only [carryOut, he]

theorem carryOut_consistent (h : t.Consistent) (call : Call) : (t.carryOut call).Consistent := by
  unfold carryOut
  split
  next cfg changes hrun => exact Call.applyConf_consistent h hrun 0
  · exact h

theorem foldl_carryOut_consistent (calls : List Call) (h : t.Consistent) :
    (calls.foldl carryOut t).Consistent := by
  induction calls generalizing t with
  | nil => exact h
  | cons call calls ih => exact ih (carryOut_consistent h call)

/-- What an admitted call makes of a configuration. -/
structure Outcome (c : TrackerConfiguration) (call : Call) (c' : TrackerConfiguration) :
    Prop where
  standing : ∀ id, c'.standing id = settle call.changes id (c.standing id)
  outgoing : ∀ id, id ∈ c'.voters.outgoing ↔ call.enters = true ∧ id ∈ c.voters.incoming
  joint : c'.joint = call.enters
  autoLeave : c'.autoLeave = call.leavesLater

theorem carryOut_outcome (h : t.Consistent) (hsingle : call.Single)
    (hadmits : call.Admits t.conf) : Outcome t.conf call (t.carryOut call).conf := by
  have haccepts := (Call.accepts_iff_admits h hsingle).mpr hadmits
  rw [carryOut_of_admits h hsingle hadmits, applyConf_conf]
  have hout : ∀ id, id ∈ (call.draft t).1.voters.outgoing ↔
      call.enters = true ∧ id ∈ t.conf.voters.incoming := by
    intro id
    cases call with
    | simple ccs =>
        rw [Call.outgoing_simple, ListSet.mem_def, outgoing_eq_nil haccepts.1]
        simp [Call.enters]
    | enterJoint autoLeave ccs =>
        rw [Call.mem_outgoing_enterJoint haccepts.1]
        simp [Call.enters]
    | leaveJoint => simp [Call.draft, leftDraft, Call.enters]
  refine ⟨Call.standing_draft h haccepts, hout, ?_, ?_⟩
  · cases call with
    | simple ccs =>
        rw [joint, Call.outgoing_simple]
        exact haccepts.1
    | enterJoint autoLeave ccs =>
        obtain ⟨id, hid⟩ := isEmpty_eq_false_iff_exists_mem.mp haccepts.2.1
        have hsome : ((Call.enterJoint autoLeave ccs).draft t).1.voters.outgoing.isEmpty = false :=
          isEmpty_eq_false_iff_exists_mem.mpr ⟨id, (hout id).mpr ⟨rfl, hid⟩⟩
        simp [joint, hsome, Call.enters]
    | leaveJoint => rfl
  · cases call with
    | simple ccs => exact (foldl_applyOne_autoLeave ccs t.draft).trans (h.autoLeave haccepts.1)
    | enterJoint autoLeave ccs => rfl
    | leaveJoint => rfl

end ProgressTracker

/-! ## Two runs -/

namespace TrackerConfiguration

open ConfChanger

/-- The outgoing voters agree, and how the configuration is left. -/
structure Even (c c' : TrackerConfiguration) : Prop where
  outgoing : ∀ id, id ∈ c'.voters.outgoing ↔ id ∈ c.voters.outgoing
  autoLeave : c'.autoLeave = c.autoLeave

/-- Two configurations that are joint or not together, and even or about to be made so. -/
structure Level (rest : List Call) (c c' : TrackerConfiguration) : Prop where
  joint : c'.joint = c.joint
  even : Even c c' ∨ .leaveJoint ∈ rest

variable {c c' : TrackerConfiguration}

theorem Same.standing (h : Same c c') (id : ℕ) : c'.standing id = c.standing id := by
  simp only [TrackerConfiguration.standing, h.incoming, h.learners, h.learnersNext]

theorem Same.level (h : Same c c') (rest : List Call) : Level rest c c' := by
  refine ⟨?_, Or.inl ⟨h.outgoing, h.autoLeave⟩⟩
  have hperm := (perm_ext_iff_of_nodup c.voters.outgoing.nodup c'.voters.outgoing.nodup).mpr
    fun id => (h.outgoing id).symm
  simp only [joint, ListSet.isEmpty, hperm.isEmpty_eq]

end TrackerConfiguration

namespace ProgressTracker

open ConfChanger TrackerConfiguration

variable {t t' : ProgressTracker} {call : Call} {rest : List Call}

theorem even_of_not_joint (h : t.Consistent) (h' : t'.Consistent) (hjoint : t.conf.joint = false)
    (hjoint' : t'.conf.joint = false) : Even t.conf t'.conf := by
  refine ⟨fun id => ?_, (h'.autoLeave hjoint').trans (h.autoLeave hjoint).symm⟩
  rw [ListSet.mem_def, ListSet.mem_def, outgoing_eq_nil hjoint, outgoing_eq_nil hjoint']

/-- A call that both runs take or both refuse keeps them level. -/
theorem level_carryOut (h : t.Consistent) (h' : t'.Consistent) (hsingle : call.Single)
    (hjoint : t'.conf.joint = t.conf.joint)
    (hadmits : call.Admits t'.conf ↔ call.Admits t.conf)
    (henter : call.enters = true → call.Admits t.conf → .leaveJoint ∈ rest ∨
      ∀ id, id ∈ t'.conf.voters.incoming ↔ id ∈ t.conf.voters.incoming)
    (hlevel : call.Admits t.conf ∨ Level (call :: rest) t.conf t'.conf) :
    Level rest (t.carryOut call).conf (t'.carryOut call).conf := by
  by_cases htaken : call.Admits t.conf
  · have hout := carryOut_outcome h hsingle htaken
    have hout' := carryOut_outcome h' hsingle (hadmits.mpr htaken)
    refine ⟨hout'.joint.trans hout.joint.symm, ?_⟩
    by_cases henters : call.enters = true
    · rcases henter henters htaken with hleave | hincoming
      · exact Or.inr hleave
      · refine Or.inl ⟨fun id => ?_, hout'.autoLeave.trans hout.autoLeave.symm⟩
        rw [hout'.outgoing, hout.outgoing, hincoming]
    · refine Or.inl ⟨fun id => ?_, hout'.autoLeave.trans hout.autoLeave.symm⟩
      rw [hout'.outgoing, hout.outgoing]
      simp [henters]
  · rw [carryOut_of_not_admits h hsingle htaken,
      carryOut_of_not_admits h' hsingle fun htaken' => htaken (hadmits.mp htaken')]
    refine ⟨hjoint, ?_⟩
    rcases (hlevel.resolve_left htaken).even with heven | hleave
    · exact Or.inl heven
    · rcases mem_cons.mp hleave with rfl | hleave
      · -- a leave that is refused finds a configuration that is not joint
        have hnot : t.conf.joint = false := eq_false_of_ne_true htaken
        exact Or.inl (even_of_not_joint h h' hnot (hjoint.trans hnot))
      · exact Or.inr hleave

theorem standing_carryOut (h : t.Consistent) (hsingle : call.Single) (id : ℕ) :
    (t.carryOut call).conf.standing id =
      if call.Admits t.conf then settle call.changes id (t.conf.standing id)
      else t.conf.standing id := by
  split
  next htaken => exact (carryOut_outcome h hsingle htaken).standing id
  next htaken => rw [carryOut_of_not_admits h hsingle htaken]

/-- Two runs from configurations with equal standings end in the same configuration. -/
theorem same_of_level (h : t.Consistent) (h' : t'.Consistent)
    (hsingle : ∀ call ∈ calls, call.Single)
    (hstanding : ∀ id, t'.conf.standing id = t.conf.standing id)
    (hlevel : Level calls t.conf t'.conf) :
    (calls.foldl carryOut t).conf.Same (calls.foldl carryOut t').conf := by
  induction calls generalizing t t' with
  | nil =>
      have heven := hlevel.even.resolve_right not_mem_nil
      exact h.draft.same_of_standing h'.draft hstanding heven.outgoing heven.autoLeave
  | cons call calls ih =>
      have hone := hsingle call (by simp)
      have hadmits := Call.admits_congr hlevel.joint hstanding call
      refine ih (carryOut_consistent h call) (carryOut_consistent h' call)
        (fun call' hcall' => hsingle call' (by simp [hcall'])) (fun id => ?_)
        (level_carryOut h h' hone hlevel.joint hadmits (fun _ _ => Or.inr fun id => ?_)
          (Or.inr hlevel))
      · rw [standing_carryOut h hone, standing_carryOut h' hone, hstanding]
        simp only [hadmits]
      · rw [← standing_eq_voter, hstanding, standing_eq_voter]

/-! ## Repeating the changes that lead to a configuration -/

/-- A change is repeated well: the result `c` itself refuses it, or the repeating run takes it if
and only if the first one did.  Voters that a repeated `EnterJoint` makes outgoing ones are the
original ones, unless the configuration is left again. -/
def RepeatsWell (c o o' : TrackerConfiguration) (call : Call) (rest : List Call) : Prop :=
  (c.Same o' ∧ ¬call.Admits o') ∨
    (o'.joint = o.joint ∧ (call.Admits o' ↔ call.Admits o) ∧
      (call.enters = true → call.Admits o → .leaveJoint ∈ rest ∨
        ∀ id, id ∈ o'.voters.incoming ↔ id ∈ o.voters.incoming))

/-- All changes are repeated well by a run from `t'`, while the first run was one from `t`. -/
def RepeatsAllWell (c : TrackerConfiguration) (rest : List Call) :
    List Call → ProgressTracker → ProgressTracker → Prop
  | [], _, _ => True
  | call :: calls, t, t' =>
      RepeatsWell c t.conf t'.conf call (calls ++ rest) ∧
        RepeatsAllWell c rest calls (t.carryOut call) (t'.carryOut call)

instance (c o o' : TrackerConfiguration) (call : Call) (rest : List Call) :
    Decidable (RepeatsWell c o o' call rest) := by
  unfold RepeatsWell
  infer_instance

instance decidableRepeatsAllWell (c : TrackerConfiguration) (rest : List Call) :
    ∀ calls t t', Decidable (RepeatsAllWell c rest calls t t')
  | [], _, _ => isTrue trivial
  | call :: calls, t, t' =>
      have := decidableRepeatsAllWell c rest calls (t.carryOut call) (t'.carryOut call)
      inferInstanceAs (Decidable (_ ∧ _))

/-- The repeating run ends with the standings of the first one, and level with it. -/
theorem standing_of_repeats (h : t.Consistent) (h' : t'.Consistent)
    (hsingle : ∀ call ∈ calls, call.Single) (hend : (calls.foldl carryOut t).conf = c)
    (hstanding : ∀ id, t'.conf.standing id = t.conf.standing id ∨
      t'.conf.standing id = c.standing id)
    (hlevel : c.Same t'.conf ∨ Level (calls ++ rest) t.conf t'.conf)
    (hwell : RepeatsAllWell c rest calls t t') :
    (∀ id, (calls.foldl carryOut t').conf.standing id = c.standing id) ∧
      Level rest c (calls.foldl carryOut t').conf := by
  induction calls generalizing t t' with
  | nil =>
      obtain rfl : t.conf = c := hend
      exact ⟨fun id => (hstanding id).elim (fun heq => heq) fun heq => heq,
        hlevel.elim (fun hsame => hsame.level rest) fun hlevel => hlevel⟩
  | cons call calls ih =>
      have hone := hsingle call (by simp)
      obtain ⟨hfirst, hrest⟩ := hwell
      refine ih (carryOut_consistent h call) (carryOut_consistent h' call)
        (fun call' hcall' => hsingle call' (by simp [hcall'])) hend ?_ ?_ hrest
      · intro id
        rw [standing_carryOut h' hone]
        rcases hfirst with ⟨hsame, hrefused⟩ | ⟨-, hadmits, -⟩
        · rw [if_neg hrefused]
          exact Or.inr (hsame.standing id)
        · rw [standing_carryOut h hone]
          simp only [hadmits]
          split
          · rcases settle_eq_or call.changes id with hkeep | ⟨s, hs⟩
            · rw [hkeep, hkeep]
              exact hstanding id
            · exact Or.inl (by rw [hs, hs])
          · exact hstanding id
      · rcases hfirst with ⟨hsame, hrefused⟩ | ⟨hjoint, hadmits, henter⟩
        · rw [carryOut_of_not_admits h' hone hrefused]
          exact Or.inl hsame
        · by_cases htaken : call.Admits t.conf
          · exact Or.inr (level_carryOut h h' hone hjoint hadmits henter (Or.inl htaken))
          · rcases hlevel with hsame | hlevel
            · rw [carryOut_of_not_admits h' hone fun htaken' => htaken (hadmits.mp htaken')]
              exact Or.inl hsame
            · exact Or.inr (level_carryOut h h' hone hjoint hadmits henter (Or.inr hlevel))

/-- Changes that are repeated well, from the configuration they led to, lead there again, and
whatever follows them does the same to both runs. -/
theorem same_of_repeats {later : List Call} (h : t.Consistent) (h' : t'.Consistent)
    (hsingle : ∀ call ∈ calls ++ later, call.Single)
    (hstart : (calls.foldl carryOut t).conf.Same t'.conf)
    (hwell : RepeatsAllWell (calls.foldl carryOut t).conf later calls t t') :
    ((calls ++ later).foldl carryOut t).conf.Same ((calls ++ later).foldl carryOut t').conf := by
  obtain ⟨hstanding, hlevel⟩ := standing_of_repeats h h'
    (fun call hcall => hsingle call (by simp [hcall])) rfl
    (fun id => Or.inr (hstart.standing id)) (Or.inl hstart) hwell
  rw [foldl_append, foldl_append]
  exact same_of_level (foldl_carryOut_consistent calls h) (foldl_carryOut_consistent calls h')
    (fun call hcall => hsingle call (by simp [hcall])) hstanding hlevel

end ProgressTracker

end Raftpp
