import Raftpp.Membership.Consistent

/-!
# The calls of the changer on a consistent tracker

On a consistent tracker the checks of invariants inside `Simple`, `EnterJoint` and `LeaveJoint`
never fail.  What is left of a call is a condition on the tracker (`Call.Accepts`) and a
consistent draft (`Call.draft`), which `ApplyConf` then carries out.
-/

namespace Raftpp

open ListSet ProgressTracker

namespace ProgressTracker

variable {t : ProgressTracker}

theorem Consistent.learnersNext (h : t.Consistent) (hjoint : t.conf.joint = false) (id : ℕ) :
    id ∉ t.conf.learnersNext := by
  intro hid
  have hmem : id ∈ t.conf.voters.outgoing := h.draft.next_outgoing id hid
  rw [mem_def, ConfChanger.outgoing_eq_nil hjoint] at hmem
  simp at hmem

theorem jointDraft_consistent (h : t.Consistent) (hjoint : t.conf.joint = false) :
    ConfChanger.Consistent t.jointDraft := by
  have hnext := h.learnersNext hjoint
  have hempty : ∀ id, id ∉ t.conf.voters.outgoing := by
    intro id hid
    rw [mem_def, ConfChanger.outgoing_eq_nil hjoint] at hid
    simp at hid
  obtain ⟨⟨htracked, hli, hlo, hno, hni, hzero⟩, -⟩ := h
  simp only [draft] at htracked hli hzero
  refine ⟨fun id => ?_, hli, fun id hid => ?_, fun id hid => absurd hid (hnext id),
    fun id hid => absurd hid (hnext id), hzero⟩
  · simp only [jointDraft, htracked id, mem_insertAll, ← mem_def]
    have := hempty id
    tauto
  · simp only [jointDraft, mem_insertAll, ← mem_def]
    have := hempty id
    have := hli id hid
    tauto

theorem contains_removeAll (gone : List ℕ) (prs : IncrChangeMap) (id : ℕ) :
    (gone.foldl (fun prs id => prs.push id .remove) prs).contains id =
      (prs.contains id && decide (id ∉ gone)) := by
  induction gone generalizing prs with
  | nil => simp
  | cons id' gone ih =>
      rw [List.foldl_cons, ih, ConfChanger.contains_push]
      by_cases hid : id' = id
      · simp [hid]
      · have hid' : id ≠ id' := fun h => hid h.symm
        simp [hid, hid']

theorem mem_removeAll_changes {change : ℕ × MapChangeType} (gone : List ℕ) {prs : IncrChangeMap}
    (h : change ∈ (gone.foldl (fun prs id => prs.push id .remove) prs).changes) :
    change ∈ prs.changes ∨ change.1 ∈ gone := by
  induction gone generalizing prs with
  | nil => exact Or.inl h
  | cons id gone ih =>
      rcases ih h with hmem | hmem
      · rcases List.mem_append.mp hmem with hmem | hmem
        · exact Or.inl hmem
        · exact Or.inr (by simp [List.mem_singleton.mp hmem])
      · exact Or.inr (by simp [hmem])

theorem leftDraft_consistent (h : t.Consistent) : ConfChanger.Consistent t.leftDraft := by
  obtain ⟨⟨htracked, hli, hlo, hno, hni, hzero⟩, -⟩ := h
  simp only [draft] at htracked hli hlo hno hni hzero
  refine ⟨fun id => ?_, fun id hid => ?_, fun id _ => not_mem_empty id,
    fun id hid => absurd hid (not_mem_empty id),
    fun id hid => absurd hid (not_mem_empty id), ?_⟩
  · simp only [leftDraft, contains_removeAll, Bool.and_eq_true, htracked id, decide_eq_true_eq,
      List.mem_filter, ← mem_def, mem_insertAll, not_mem_empty]
    have := hno id
    tauto
  · simp only [leftDraft, mem_insertAll, ← mem_def] at hid ⊢
    rcases hid with hid | hid
    · exact hni id hid
    · exact hli id hid
  · simp only [leftDraft, contains_removeAll, hzero, Bool.false_and]

end ProgressTracker

namespace ConfChanger

variable {t : ProgressTracker}

theorem checkAndCopy_ok (h : t.Consistent) : checkAndCopy t = .ok t.draft := by
  have hcheck : checkInvariants t.conf { base := t.progress } = .ok () :=
    checkInvariants_ok h.draft h.autoLeave
  simp only [checkAndCopy, hcheck]
  rfl

theorem apply_eq (d : Draft) (ccs : List ConfChangeSingle) :
    apply d ccs =
      if (ccs.foldl applyOne d).1.voters.incoming.isEmpty then
        .error (.confChange .removedAllVoters)
      else .ok (ccs.foldl applyOne d) := rfl

namespace Call

variable {call : Call} {cfg : TrackerConfiguration}

/-- The draft that a call builds. -/
def draft (t : ProgressTracker) : Call → Draft
  | simple ccs => ccs.foldl applyOne t.draft
  | enterJoint autoLeave ccs =>
      let d := ccs.foldl applyOne t.jointDraft
      ({ d.1 with autoLeave }, d.2)
  | leaveJoint => t.leftDraft

/-- What a call asks of the tracker. -/
def Accepts (t : ProgressTracker) : Call → Prop
  | simple ccs =>
      t.conf.joint = false ∧ ((simple ccs).draft t).1.voters.incoming.isEmpty = false ∧
        symmetricDifference ((simple ccs).draft t).1.voters.incoming
          t.conf.voters.incoming ≤ 1
  | enterJoint autoLeave ccs =>
      t.conf.joint = false ∧ t.conf.voters.incoming.isEmpty = false ∧
        ((enterJoint autoLeave ccs).draft t).1.voters.incoming.isEmpty = false
  | leaveJoint => t.conf.joint = true

instance (t : ProgressTracker) (call : Call) : Decidable (call.Accepts t) := by
  cases call <;> unfold Accepts <;> infer_instance

/-- The single changes of a call. -/
def changes : Call → List ConfChangeSingle
  | simple ccs => ccs
  | enterJoint _ ccs => ccs
  | leaveJoint => []

theorem draft_base (t : ProgressTracker) (call : Call) : (call.draft t).2.base = t.progress := by
  cases call with
  | simple ccs => exact (@foldl_applyOne_rebase t.progress ccs t.draft fun _ => rfl).2
  | enterJoint autoLeave ccs =>
      exact (@foldl_applyOne_rebase t.progress ccs t.jointDraft fun _ => rfl).2
  | leaveJoint =>
      have hfold : ∀ (gone : List ℕ) (prs : IncrChangeMap),
          (gone.foldl (fun prs id => prs.push id .remove) prs).base = prs.base := by
        intro gone
        induction gone with
        | nil => exact fun prs => rfl
        | cons id gone ih => exact fun prs => ih _
      exact hfold _ _

theorem draft_consistent (h : t.Consistent) (haccepts : call.Accepts t) :
    Consistent (call.draft t) := by
  cases call with
  | simple ccs => exact foldl_applyOne_consistent ccs h.draft
  | enterJoint autoLeave ccs =>
      have hfold := foldl_applyOne_consistent ccs
        (jointDraft_consistent h haccepts.1)
      exact ⟨hfold.tracked, hfold.learners_incoming, hfold.learners_outgoing,
        hfold.next_outgoing, hfold.next_incoming, hfold.nonzero⟩
  | leaveJoint => exact leftDraft_consistent h

theorem outgoing_simple (t : ProgressTracker) (ccs : List ConfChangeSingle) :
    ((simple ccs).draft t).1.voters.outgoing = t.conf.voters.outgoing :=
  foldl_applyOne_outgoing ccs t.draft

theorem mem_outgoing_enterJoint {autoLeave : Bool} {ccs : List ConfChangeSingle}
    (hjoint : t.conf.joint = false) (id : ℕ) :
    id ∈ ((enterJoint autoLeave ccs).draft t).1.voters.outgoing ↔ id ∈ t.conf.voters.incoming := by
  have hout := foldl_applyOne_outgoing ccs t.jointDraft
  simp only [draft]
  rw [hout]
  exact mem_outgoing_insertAll hjoint id

theorem draft_autoLeave (h : t.Consistent) (haccepts : call.Accepts t)
    (hjoint : (call.draft t).1.joint = false) : (call.draft t).1.autoLeave = false := by
  cases call with
  | simple ccs =>
      exact (foldl_applyOne_autoLeave ccs t.draft).trans (h.autoLeave haccepts.1)
  | enterJoint autoLeave ccs =>
      -- the old incoming voters are outgoing ones now, and there are some
      obtain ⟨id, hid⟩ := List.exists_mem_of_ne_nil _ (elems_ne_nil haccepts.2.1)
      have hmem : id ∈ ((enterJoint autoLeave ccs).draft t).1.voters.outgoing :=
        (mem_outgoing_enterJoint haccepts.1 id).mpr hid
      rw [mem_def, outgoing_eq_nil hjoint] at hmem
      simp at hmem
  | leaveJoint => rfl

/-- A call leaves a voter. -/
theorem voters_draft {call : Call} (haccepts : call.Accepts t)
    (hvoters : t.conf.voters.incoming.isEmpty = false) :
    (call.draft t).1.voters.incoming.isEmpty = false := by
  cases call with
  | simple ccs => exact haccepts.2.1
  | enterJoint autoLeave ccs => exact haccepts.2.2
  | leaveJoint => exact hvoters

/-- A call gives each node the standing of the last change to it. -/
theorem standing_draft (h : t.Consistent) (haccepts : call.Accepts t) (id : ℕ) :
    (call.draft t).1.standing id = settle call.changes id (t.conf.standing id) := by
  cases call with
  | simple ccs => exact standing_foldl_applyOne ccs h.draft id
  | enterJoint autoLeave ccs =>
      exact standing_foldl_applyOne ccs (jointDraft_consistent h haccepts.1) id
  | leaveJoint =>
      simp only [draft, leftDraft, TrackerConfiguration.standing, changes, settle,
        List.foldl_nil, mem_insertAll, not_mem_empty, ← mem_def,
        false_or, or_comm]

/-- A call that the tracker accepts returns its draft. -/
theorem run_of_accepts (h : t.Consistent) (haccepts : call.Accepts t) :
    call.run t = .ok ((call.draft t).1, (call.draft t).2.changes) := by
  have hcheck : checkInvariants (call.draft t).1 (call.draft t).2 = .ok () :=
    checkInvariants_ok (draft_consistent h haccepts) (draft_autoLeave h haccepts)
  cases call with
  | simple ccs =>
      obtain ⟨hjoint, hsome, hdiff⟩ := haccepts
      simp only [draft] at hsome hdiff hcheck
      simp only [run, ConfChanger.simple, hjoint, checkAndCopy_ok h, bind, Except.bind, apply_eq,
        hsome, Nat.not_lt.mpr hdiff, hcheck, draft, Bool.false_eq_true, if_false]
  | enterJoint autoLeave ccs =>
      obtain ⟨hjoint, hvoters, hsome⟩ := haccepts
      simp only [draft] at hsome hcheck
      simp only [jointDraft] at hsome hcheck
      simp only [run, ConfChanger.enterJoint, hjoint, checkAndCopy_ok h, bind, Except.bind,
        apply_eq,
        ProgressTracker.draft, jointDraft, hvoters, hsome, hcheck, draft,
        Bool.false_eq_true, if_false]
  | leaveJoint =>
      have hjoint : t.conf.joint = true := haccepts
      simp only [draft, leftDraft] at hcheck
      simp only [run, ConfChanger.leaveJoint, hjoint, checkAndCopy_ok h, bind, Except.bind,
        ProgressTracker.draft, leftDraft, hcheck, draft, reduceCtorEq, if_false]

/-- A call that the tracker does not accept fails. -/
theorem run_of_not_accepts (h : t.Consistent) (hnot : ¬call.Accepts t) :
    ∃ e, call.run t = .error e := by
  cases call with
  | simple ccs =>
      simp only [run, ConfChanger.simple, checkAndCopy_ok h, bind, Except.bind, apply_eq]
      split
      · exact ⟨_, rfl⟩
      next hjoint =>
        split
        · exact ⟨_, rfl⟩
        next hd =>
          split at hd
          · cases hd
          next hsome =>
            cases hd
            split
            · exact ⟨_, rfl⟩
            next hdiff =>
              exact absurd ⟨eq_false_of_ne_true hjoint, eq_false_of_ne_true hsome,
                Nat.le_of_not_lt hdiff⟩ hnot
  | enterJoint autoLeave ccs =>
      simp only [run, ConfChanger.enterJoint, checkAndCopy_ok h, bind, Except.bind, apply_eq]
      split
      · exact ⟨_, rfl⟩
      next hjoint =>
        split
        · exact ⟨_, rfl⟩
        next hvoters =>
          split
          · exact ⟨_, rfl⟩
          next hd =>
            split at hd
            · cases hd
            next hsome =>
              exact absurd ⟨eq_false_of_ne_true hjoint, eq_false_of_ne_true hvoters,
                eq_false_of_ne_true hsome⟩ hnot
  | leaveJoint =>
      have hjoint : t.conf.joint = false := eq_false_of_ne_true hnot
      exact ⟨.confChange .leaveNonJointConfig, by simp [run, ConfChanger.leaveJoint, hjoint]⟩

/-- What a call returns on a consistent tracker. -/
theorem run_eq_ok (h : t.Consistent) {changes : MapChange} : call.run t = .ok (cfg, changes) ↔
      call.Accepts t ∧ cfg = (call.draft t).1 ∧ changes = (call.draft t).2.changes := by
  constructor
  · intro hrun
    by_cases haccepts : call.Accepts t
    · rw [run_of_accepts h haccepts] at hrun
      obtain ⟨rfl, rfl⟩ := Prod.mk.inj (Except.ok.inj hrun)
      exact ⟨haccepts, rfl, rfl⟩
    · obtain ⟨e, he⟩ := run_of_not_accepts h haccepts
      rw [he] at hrun
      cases hrun
  · rintro ⟨haccepts, rfl, rfl⟩
    exact run_of_accepts h haccepts

/-- Carrying out a successful call keeps the tracker consistent. -/
theorem applyConf_consistent (h : t.Consistent) {changes : MapChange}
    (hrun : call.run t = .ok (cfg, changes)) (next : ℕ) :
    (t.applyConf cfg changes next).Consistent := by
  obtain ⟨haccepts, rfl, rfl⟩ := (run_eq_ok h).mp hrun
  exact applyConf_consistent (draft_consistent h haccepts) (draft_base t call)
    (draft_autoLeave h haccepts) next

/-- A peer that a call does not mention keeps its progress, if it stays a peer at all. -/
theorem get_applyConf (h : t.Consistent) {changes : MapChange}
    (hrun : call.run t = .ok (cfg, changes)) {next id : ℕ}
    (hid : id ∉ call.changes.map ConfChangeSingle.nodeId)
    (hstays : ListMap.contains (t.applyConf cfg changes next).progress id = true) :
    (t.applyConf cfg changes next).get id = t.get id := by
  obtain ⟨haccepts, rfl, rfl⟩ := (run_eq_ok h).mp hrun
  refine get_applyConf_of_not_mem fun hmem => ?_
  obtain ⟨change, hchange, rfl⟩ := List.mem_map.mp hmem
  cases call with
  | simple ccs =>
      have hnone : change ∉ t.draft.2.changes := by simp [ProgressTracker.draft]
      exact hid ((mem_foldl_applyOne_changes hchange).resolve_left hnone)
  | enterJoint autoLeave ccs =>
      have hnone : change ∉ t.jointDraft.2.changes := by simp [jointDraft]
      exact hid ((mem_foldl_applyOne_changes hchange).resolve_left hnone)
  | leaveJoint =>
      -- the peers that the changes are about are removed
      have hgone := mem_removeAll_changes _ hchange
      rw [contains_applyConf, ← draft_base t leaveJoint] at hstays
      have hcontains : t.leftDraft.2.contains change.1 = true := hstays
      simp only [leftDraft, contains_removeAll, Bool.and_eq_true,
        decide_eq_true_eq] at hcontains
      exact hcontains.2 (hgone.resolve_left (by simp))

end Call

end ConfChanger

end Raftpp
