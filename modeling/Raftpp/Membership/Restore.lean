import Raftpp.Membership.Reached

/-!
# A stored configuration is restored

`Restore` replays synthetic changes: a configuration that is not joint is built by single
changes from the empty one, and a joint one by adding its outgoing voters one at a time and
then entering the joint configuration.  Either way each member ends with the standing that it
has in the stored configuration.

A set has no order, so the lists of a `ConfState` may come in any.
-/

namespace Raftpp

open List ConfChanger ProgressTracker TrackerConfiguration

variable {c c' : TrackerConfiguration}

/-! ## The standings that a list of changes gives -/

theorem settle_append (ccs ccs' : List ConfChangeSingle) (id : ℕ) (s : Standing) :
    settle (ccs ++ ccs') id s = settle ccs' id (settle ccs id s) := by
  unfold settle
  exact foldl_append

theorem settle_map (changeType : ConfChangeType) (ids : List ℕ) (id : ℕ) (s : Standing) :
    settle (ids.map fun id => ⟨changeType, id⟩) id s =
      if id ∈ ids ∧ id ≠ 0 then (⟨changeType, id⟩ : ConfChangeSingle).target else s := by
  induction ids generalizing s with
  | nil => simp [settle]
  | cons id' ids ih =>
      have hstep : settle ((id' :: ids).map fun id => ⟨changeType, id⟩) id s =
          settle (ids.map fun id => ⟨changeType, id⟩) id
            (if id' ≠ 0 ∧ id' = id then (⟨changeType, id'⟩ : ConfChangeSingle).target else s) :=
        rfl
      rw [hstep, ih]
      by_cases hid : id' = id
      · subst hid
        by_cases hzero : id' = 0 <;> simp [hzero]
      · have hid' : id ≠ id' := fun h => hid h.symm
        simp [hid, hid']

namespace TrackerConfiguration

variable {c c' : TrackerConfiguration}

theorem standing_eq_voter {id : ℕ} : c.standing id = .voter ↔ id ∈ c.voters.incoming := by
  unfold standing
  split
  · simpa
  · split <;> simpa

/-- The same configuration, whatever the order of its sets. -/
structure Same (c c' : TrackerConfiguration) : Prop where
  incoming : ∀ id, id ∈ c'.voters.incoming ↔ id ∈ c.voters.incoming
  outgoing : ∀ id, id ∈ c'.voters.outgoing ↔ id ∈ c.voters.outgoing
  learners : ∀ id, id ∈ c'.learners ↔ id ∈ c.learners
  learnersNext : ∀ id, id ∈ c'.learnersNext ↔ id ∈ c.learnersNext
  autoLeave : c'.autoLeave = c.autoLeave

instance : Decidable (Same c c') :=
  decidable_of_iff
    ((∀ id, id ∈ c'.voters.incoming ↔ id ∈ c.voters.incoming) ∧
      (∀ id, id ∈ c'.voters.outgoing ↔ id ∈ c.voters.outgoing) ∧
      (∀ id, id ∈ c'.learners ↔ id ∈ c.learners) ∧
      (∀ id, id ∈ c'.learnersNext ↔ id ∈ c.learnersNext) ∧ c'.autoLeave = c.autoLeave)
    ⟨fun ⟨hin, hout, hlearners, hnext, hauto⟩ => ⟨hin, hout, hlearners, hnext, hauto⟩,
      fun h => ⟨h.incoming, h.outgoing, h.learners, h.learnersNext, h.autoLeave⟩⟩

end TrackerConfiguration

namespace ConfChanger.Consistent

variable {d d' : Draft}

theorem mem_learners (h : Consistent d) (id : ℕ) :
    id ∈ d.1.learners ↔ d.1.standing id = .learner ∧ id ∉ d.1.voters.outgoing := by
  obtain ⟨-, hli, hlo, hno, hni, -⟩ := h
  have := hli id
  have := hlo id
  have := hno id
  unfold TrackerConfiguration.standing
  split
  · simp; tauto
  · split
    · simp; tauto
    · simp; tauto

theorem mem_learnersNext (h : Consistent d) (id : ℕ) :
    id ∈ d.1.learnersNext ↔ d.1.standing id = .learner ∧ id ∈ d.1.voters.outgoing := by
  obtain ⟨-, hli, hlo, hno, hni, -⟩ := h
  have := hlo id
  have := hno id
  have := hni id
  unfold TrackerConfiguration.standing
  split
  · simp; tauto
  · split
    · simp; tauto
    · simp; tauto

/-- A consistent configuration is determined by its standings, its outgoing voters and whether
it is left automatically. -/
theorem same_of_standing (h : Consistent d) (h' : Consistent d')
    (hstanding : ∀ id, d'.1.standing id = d.1.standing id)
    (houtgoing : ∀ id, id ∈ d'.1.voters.outgoing ↔ id ∈ d.1.voters.outgoing)
    (hauto : d'.1.autoLeave = d.1.autoLeave) : d.1.Same d'.1 where
  incoming id := by
    rw [← standing_eq_voter, hstanding, standing_eq_voter]
  outgoing := houtgoing
  learners id := by rw [h'.mem_learners, h.mem_learners, hstanding, houtgoing]
  learnersNext id := by rw [h'.mem_learnersNext, h.mem_learnersNext, hstanding, houtgoing]
  autoLeave := hauto

end ConfChanger.Consistent

/-! ## Stored configurations -/

/-- `cs` lists the sets of `c`, in any order. -/
structure ConfState.Describes (cs : ConfState) (c : TrackerConfiguration) : Prop where
  voters : cs.voters.Perm c.voters.incoming.elems
  votersOutgoing : cs.votersOutgoing.Perm c.voters.outgoing.elems
  learners : cs.learners.Perm c.learners.elems
  learnersNext : cs.learnersNext.Perm c.learnersNext.elems
  autoLeave : cs.autoLeave = c.autoLeave

theorem TrackerConfiguration.toConfState_describes (c : TrackerConfiguration) :
    c.toConfState.Describes c := ⟨.refl _, .refl _, .refl _, .refl _, rfl⟩

theorem ConfState.Describes.of_same {cs : ConfState} (h : cs.Describes c) (hsame : c.Same c') :
    cs.Describes c' := by
  have hperm : ∀ {s s' : IdSet}, (∀ id, id ∈ s' ↔ id ∈ s) → s.elems.Perm s'.elems :=
    fun {s s'} hs => (perm_ext_iff_of_nodup s.nodup s'.nodup).mpr fun id => (hs id).symm
  exact ⟨h.voters.trans (hperm hsame.incoming), h.votersOutgoing.trans (hperm hsame.outgoing),
    h.learners.trans (hperm hsame.learners), h.learnersNext.trans (hperm hsame.learnersNext),
    h.autoLeave.trans hsame.autoLeave.symm⟩

section Stored

variable {t : ProgressTracker} {cs : ConfState} {d : Draft}

theorem ConfChanger.Consistent.ne_zero (h : Consistent d) {id : ℕ}
    (hid : id ∈ d.1.voters.incoming ∨ id ∈ d.1.voters.outgoing ∨ id ∈ d.1.learners) : id ≠ 0 := by
  rintro rfl
  have hcontains := (h.tracked 0).mpr hid
  rw [h.nonzero] at hcontains
  cases hcontains

/-- The synthetic changes give each member its standing, from a start where at most the outgoing
voters have one. -/
theorem settle_toConfChangeSingle (h : t.Consistent) (hcs : cs.Describes t.conf) {s : Standing}
    {id : ℕ} (hs : id ∉ t.conf.voters.outgoing → s = .absent) :
    settle (toConfChangeSingle cs).2 id s = t.conf.standing id := by
  have hvoters : id ∈ cs.voters ↔ id ∈ t.conf.voters.incoming := hcs.voters.mem_iff
  have hout : id ∈ cs.votersOutgoing ↔ id ∈ t.conf.voters.outgoing := hcs.votersOutgoing.mem_iff
  have hlearners : id ∈ cs.learners ↔ id ∈ t.conf.learners := hcs.learners.mem_iff
  have hnext : id ∈ cs.learnersNext ↔ id ∈ t.conf.learnersNext := hcs.learnersNext.mem_iff
  have hzero := @Consistent.ne_zero _ h.draft id
  have hli := h.draft.learners_incoming id
  have hni := h.draft.next_incoming id
  have hno := h.draft.next_outgoing id
  simp only [ProgressTracker.draft] at hzero hli hni hno
  simp only [toConfChangeSingle, settle_append, settle_map, hvoters, hout, hlearners, hnext,
    ConfChangeSingle.target, TrackerConfiguration.standing]
  grind

/-! ## Replaying the synthetic changes -/

/-- Single changes succeed as long as they keep some voter. -/
theorem foldlM_apply_ok {ccs : List ConfChangeSingle} (h : Consistent d) {v : ℕ}
    (hv : v ∈ d.1.voters.incoming) (hkeep : ∀ cc ∈ ccs, cc.nodeId = v → cc.changeType = .addNode) :
    ccs.foldlM (fun d cc => ConfChanger.apply d [cc]) d =
      .ok (ccs.foldl applyOne d) := by
  induction ccs generalizing d with
  | nil => rfl
  | cons cc ccs ih =>
      have hmem : v ∈ (applyOne d cc).1.voters.incoming := by
        rw [← standing_eq_voter, standing_applyOne h]
        split
        next hid => rw [ConfChangeSingle.target, hkeep cc (by simp) hid.2]
        · exact standing_eq_voter.mpr hv
      have hsome : (applyOne d cc).1.voters.incoming.isEmpty = false := by
        rw [ListSet.isEmpty, isEmpty_eq_false_iff_exists_mem]
        exact ⟨v, hmem⟩
      have hone : ConfChanger.apply d [cc] = .ok (applyOne d cc) := by
        simp [apply_eq, hsome]
      rw [foldlM_cons, hone]
      exact ih (applyOne_consistent h cc) hmem
        fun cc' hcc' => hkeep cc' (by simp [hcc'])

/-- The synthetic changes of a configuration that is not joint succeed: the first one adds a
voter, which the others keep. -/
theorem foldlM_toConfChangeSingle (h : t.Consistent) (hcs : cs.Describes t.conf)
    (hvoters : t.conf.voters.incoming.isEmpty = false) (hnil : cs.votersOutgoing = [])
    {t₀ : ProgressTracker} (h₀ : t₀.Consistent) :
    (toConfChangeSingle cs).2.foldlM (fun d cc => ConfChanger.apply d [cc]) t₀.draft =
      .ok ((toConfChangeSingle cs).2.foldl applyOne t₀.draft) := by
  have hsome : cs.voters ≠ [] := by
    intro hempty
    have hperm := hcs.voters
    rw [hempty] at hperm
    exact elems_ne_nil hvoters hperm.symm.eq_nil
  obtain ⟨v, vs, hlist⟩ := exists_cons_of_ne_nil hsome
  have hv : v ∈ t.conf.voters.incoming := hcs.voters.mem_iff.mp (by simp [hlist])
  have hne : v ≠ 0 := h.draft.ne_zero (Or.inl hv)
  have hkeep : ∀ cc ∈ (toConfChangeSingle cs).2, cc.nodeId = v → cc.changeType = .addNode := by
    intro cc hcc hid
    simp only [toConfChangeSingle, hnil, map_nil, nil_append, mem_append, mem_map] at hcc
    rcases hcc with (⟨id, -, rfl⟩ | ⟨id, hmem, rfl⟩) | ⟨id, hmem, rfl⟩
    · rfl
    · obtain rfl : id = v := hid
      exact absurd hv (h.draft.learners_incoming id (hcs.learners.mem_iff.mp hmem))
    · obtain rfl : id = v := hid
      exact absurd hv (h.draft.next_incoming id (hcs.learnersNext.mem_iff.mp hmem))
  obtain ⟨rest, hrest⟩ : ∃ rest, (toConfChangeSingle cs).2 = ⟨.addNode, v⟩ :: rest := by
    simp only [toConfChangeSingle, hnil, hlist, map_nil, nil_append, map_cons, cons_append]
    exact ⟨_, rfl⟩
  have hfirst : v ∈ (applyOne t₀.draft ⟨.addNode, v⟩).1.voters.incoming := by
    rw [← standing_eq_voter, standing_applyOne h₀.draft, if_pos ⟨hne, rfl⟩]
    rfl
  have hone : ConfChanger.apply t₀.draft [⟨.addNode, v⟩] =
      .ok (applyOne t₀.draft ⟨.addNode, v⟩) := by
    have hempty : (applyOne t₀.draft ⟨.addNode, v⟩).1.voters.incoming.isEmpty =
        false := by
      rw [ListSet.isEmpty, isEmpty_eq_false_iff_exists_mem]
      exact ⟨v, hfirst⟩
    simp [apply_eq, hempty]
  rw [hrest] at hkeep ⊢
  rw [foldlM_cons, hone]
  exact foldlM_apply_ok (applyOne_consistent h₀.draft _) hfirst
    fun cc hcc => hkeep cc (by simp [hcc])

/-- A configuration that is not joint is restored by the fallback path. -/
theorem restoreIncoming_ok (h : t.Consistent) (hcs : cs.Describes t.conf)
    (hvoters : t.conf.voters.incoming.isEmpty = false) (hjoint : t.conf.joint = false)
    (size next : ℕ) :
    ∃ t', restoreIncoming (.new size) next (toConfChangeSingle cs).2 = .ok t' ∧
      t'.Consistent ∧ t.conf.Same t'.conf := by
  have h₀ : (ProgressTracker.new size).Consistent := new_consistent size
  have hout := outgoing_eq_nil hjoint
  have hnil : cs.votersOutgoing = [] := by
    have hperm := hcs.votersOutgoing
    rw [hout] at hperm
    exact hperm.eq_nil
  have hfold := foldlM_toConfChangeSingle h hcs hvoters hnil h₀
  set ccs := (toConfChangeSingle cs).2
  set d := ccs.foldl applyOne (ProgressTracker.new size).draft with hd
  have hconsistent : Consistent d := foldl_applyOne_consistent ccs h₀.draft
  have hauto : d.1.autoLeave = false := foldl_applyOne_autoLeave ccs _
  have houtgoing : d.1.voters.outgoing = ∅ := foldl_applyOne_outgoing ccs _
  have hcheck : checkInvariants d.1 d.2 = .ok () :=
    checkInvariants_ok hconsistent fun _ => hauto
  refine ⟨(ProgressTracker.new size).applyConf d.1 d.2.changes next, ?_,
    applyConf_consistent hconsistent
      (Call.draft_base _ (.simple ccs)) (fun _ => hauto) next, ?_⟩
  · simp only [restoreIncoming, checkAndCopy_ok h₀, bind, Except.bind, hfold, hcheck]
  · rw [applyConf_conf]
    refine h.draft.same_of_standing hconsistent (fun id => ?_) (fun id => ?_)
      (hauto.trans (h.autoLeave hjoint).symm)
    · rw [hd, standing_foldl_applyOne ccs h₀.draft]
      exact settle_toConfChangeSingle h hcs fun _ => rfl
    · rw [houtgoing, ProgressTracker.draft, ListSet.mem_def (s := t.conf.voters.outgoing), hout]
      simp

/-! ## Joint configurations -/

theorem symmetricDifference_le_one {s s' : IdSet} {v : ℕ} (h : ∀ id ≠ v, id ∈ s ↔ id ∈ s') :
    symmetricDifference s s' ≤ 1 := by
  have hcount : ∀ {a b : IdSet}, (∀ id ≠ v, id ∈ a → id ∈ b) →
      (a.elems.countP fun id => decide (id ∉ b)) ≤ a.elems.count v := by
    intro a b hab
    refine countP_mono_left fun id hid hnot => ?_
    by_contra hne
    exact (of_decide_eq_true hnot) (hab id (by simpa using hne) hid)
  have hnone : ∀ {a b : IdSet}, (∀ id ∈ a, id ∈ b) →
      (a.elems.countP fun id => decide (id ∉ b)) = 0 := by
    intro a b hab
    rw [countP_eq_zero]
    intro id hid
    simpa using hab id hid
  have honce : ∀ a : IdSet, a.elems.count v ≤ 1 := fun a =>
    nodup_iff_count_le_one.mp a.nodup v
  unfold symmetricDifference
  by_cases hv : v ∈ s'
  · have hzero := @hnone s s' fun id hid => by
      by_cases hid' : id = v
      · exact hid' ▸ hv
      · exact (h id hid').mp hid
    have hone := (@hcount s' s fun id hne => (h id hne).mpr).trans (honce s')
    omega
  · have hzero := @hnone s' s fun id hid => by
      have hid' : id ≠ v := fun heq => hv (heq ▸ hid)
      exact (h id hid').mpr hid
    have hone := (@hcount s s' fun id hne => (h id hne).mp).trans (honce s)
    omega

/-- One change moves at most one voter. -/
theorem symmetricDifference_applyOne (h : Consistent d) (cc : ConfChangeSingle) :
    symmetricDifference (applyOne d cc).1.voters.incoming
      d.1.voters.incoming ≤ 1 := by
  refine symmetricDifference_le_one (v := cc.nodeId) fun id hid => ?_
  rw [← standing_eq_voter, standing_applyOne h,
    if_neg fun hsame => hid hsame.2.symm, standing_eq_voter]

/-- The outgoing voters are added one at a time. -/
theorem foldlM_simple_ok {ids : List ℕ} (next : ℕ) (h : t.Consistent)
    (hjoint : t.conf.joint = false) (hids : ∀ id ∈ ids, id ≠ 0) :
    ∃ t', (ids.map fun id => ⟨.addNode, id⟩).foldlM (applySimple next) t = .ok t' ∧
      t'.Consistent ∧ t'.conf.joint = false ∧
      ∀ id, t'.conf.standing id = if id ∈ ids then .voter else t.conf.standing id := by
  induction ids generalizing t with
  | nil => exact ⟨t, rfl, h, hjoint, fun id => by simp⟩
  | cons v ids ih =>
      have hne := hids v (by simp)
      set call : Call := .simple [⟨.addNode, v⟩]
      have hmem : v ∈ (call.draft t).1.voters.incoming := by
        rw [← standing_eq_voter]
        exact (standing_applyOne h.draft _ v).trans (if_pos ⟨hne, rfl⟩)
      have haccepts : call.Accepts t := by
        refine ⟨hjoint, ?_, symmetricDifference_applyOne h.draft _⟩
        rw [ListSet.isEmpty, isEmpty_eq_false_iff_exists_mem]
        exact ⟨v, hmem⟩
      have hrun := Call.run_of_accepts h haccepts
      set t₁ := t.applyConf (call.draft t).1 (call.draft t).2.changes next with ht₁
      have h₁ : t₁.Consistent := Call.applyConf_consistent h hrun next
      have hconf : t₁.conf = (call.draft t).1 := applyConf_conf _ _ _ _
      have hjoint₁ : t₁.conf.joint = false := by
        rw [hconf, TrackerConfiguration.joint, Call.outgoing_simple]
        exact hjoint
      obtain ⟨t', hfold, h', hjoint', hstanding⟩ := ih h₁ hjoint₁
        fun id hid => hids id (by simp [hid])
      refine ⟨t', ?_, h', hjoint', fun id => ?_⟩
      · rw [map_cons, foldlM_cons, applySimple]
        have hsimple : ConfChanger.simple t [⟨.addNode, v⟩] =
            .ok ((call.draft t).1, (call.draft t).2.changes) := hrun
        rw [hsimple]
        exact hfold
      · rw [hstanding, hconf, Call.standing_draft h haccepts]
        by_cases hid : id = v
        · subst hid
          simp [Call.changes, call, settle, hne, ConfChangeSingle.target]
        · have hid' : v ≠ id := fun heq => hid heq.symm
          simp [Call.changes, call, settle, hid, hid']

/-- A joint configuration is entered from its outgoing voters. -/
theorem restoreJoint_ok (h : t.Consistent) (hcs : cs.Describes t.conf)
    (hvoters : t.conf.voters.incoming.isEmpty = false) (hjoint : t.conf.joint = true)
    {t₀ : ProgressTracker} (h₀ : t₀.Consistent) (hjoint₀ : t₀.conf.joint = false)
    (hstanding₀ : ∀ id, t₀.conf.standing id =
      if id ∈ t.conf.voters.outgoing then .voter else .absent) (next : ℕ) :
    ∃ cfg changes,
      enterJoint t₀ cs.autoLeave (toConfChangeSingle cs).2 = .ok (cfg, changes) ∧
      (t₀.applyConf cfg changes next).Consistent ∧ t.conf.Same cfg := by
  set call : Call := .enterJoint cs.autoLeave (toConfChangeSingle cs).2
  have hincoming₀ : ∀ id, id ∈ t₀.conf.voters.incoming ↔ id ∈ t.conf.voters.outgoing := by
    intro id
    rw [← standing_eq_voter, hstanding₀]
    split <;> simp [*]
  have hstanding : ∀ id, (call.draft t₀).1.standing id = t.conf.standing id := by
    intro id
    refine (standing_foldl_applyOne _
      (jointDraft_consistent h₀ hjoint₀) id).trans ?_
    refine settle_toConfChangeSingle h hcs fun hid => ?_
    exact (hstanding₀ id).trans (if_neg hid)
  have haccepts : call.Accepts t₀ := by
    refine ⟨hjoint₀, ?_, ?_⟩
    · have hout : t.conf.voters.outgoing.isEmpty = false := by
        simpa [TrackerConfiguration.joint] using hjoint
      obtain ⟨v, hv⟩ := isEmpty_eq_false_iff_exists_mem.mp hout
      exact isEmpty_eq_false_iff_exists_mem.mpr ⟨v, (hincoming₀ v).mpr hv⟩
    · obtain ⟨v, hv⟩ := isEmpty_eq_false_iff_exists_mem.mp hvoters
      refine isEmpty_eq_false_iff_exists_mem.mpr ⟨v, ?_⟩
      exact standing_eq_voter.mp
        ((hstanding v).trans (standing_eq_voter.mpr hv))
  have hrun := Call.run_of_accepts h₀ haccepts
  refine ⟨_, _, hrun, Call.applyConf_consistent h₀ hrun next, ?_⟩
  refine h.draft.same_of_standing (Call.draft_consistent h₀ haccepts) hstanding
    (fun id => ?_) hcs.autoLeave
  exact (Call.mem_outgoing_enterJoint hjoint₀ id).trans (hincoming₀ id)

/-- `Restore` rebuilds a configuration from its description. -/
theorem restoreTracker_ok (h : t.Consistent) (hcs : cs.Describes t.conf)
    (hvoters : t.conf.voters.incoming.isEmpty = false) (size next : ℕ) :
    ∃ t', restoreTracker (.new size) next cs = .ok t' ∧ t'.Consistent ∧ t.conf.Same t'.conf := by
  have h₀ : (ProgressTracker.new size).Consistent := new_consistent size
  cases hjoint : t.conf.joint with
  | false =>
      have hnil : cs.votersOutgoing = [] := by
        have hperm := hcs.votersOutgoing
        rw [outgoing_eq_nil hjoint] at hperm
        exact hperm.eq_nil
      -- the empty tracker has no voters to enter a joint configuration with
      have hnot : ¬(Call.enterJoint false (toConfChangeSingle cs).2).Accepts
          (ProgressTracker.new size) := fun haccepts => by cases haccepts.2.1
      obtain ⟨e, he⟩ := Call.run_of_not_accepts h₀ hnot
      obtain ⟨t', hrestore, h', hsame⟩ := restoreIncoming_ok h hcs hvoters hjoint size next
      refine ⟨t', ?_, h', hsame⟩
      have henter : enterJoint (ProgressTracker.new size) false
          (toConfChangeSingle cs).2 = .error e := he
      have hfirst : (toConfChangeSingle cs).1 = [] := by simp [toConfChangeSingle, hnil]
      unfold restoreTracker
      simp only [hfirst, if_true, henter, hrestore]
  | true =>
      have hne : (toConfChangeSingle cs).1 ≠ [] := by
        intro hnil
        have hempty : cs.votersOutgoing = [] := by simpa [toConfChangeSingle] using hnil
        have hperm := hcs.votersOutgoing
        rw [hempty] at hperm
        have hout := hperm.symm.eq_nil
        simp [TrackerConfiguration.joint, ListSet.isEmpty, hout] at hjoint
      have hids : ∀ id ∈ cs.votersOutgoing, id ≠ 0 := fun id hid =>
        h.draft.ne_zero (Or.inr (Or.inl (hcs.votersOutgoing.mem_iff.mp hid)))
      obtain ⟨t₁, hfold, h₁, hjoint₁, hstanding₁⟩ := foldlM_simple_ok next h₀ rfl hids
      have hstanding : ∀ id, t₁.conf.standing id =
          if id ∈ t.conf.voters.outgoing then .voter else .absent := by
        intro id
        have hmem : id ∈ cs.votersOutgoing ↔ id ∈ t.conf.voters.outgoing :=
          hcs.votersOutgoing.mem_iff
        simp only [hstanding₁, hmem]
        rfl
      obtain ⟨cfg, changes, henter, h', hsame⟩ :=
        restoreJoint_ok h hcs hvoters hjoint h₁ hjoint₁ hstanding next
      refine ⟨t₁.applyConf cfg changes next, ?_, h', ?_⟩
      · unfold restoreTracker
        simp only [hne, if_false]
        refine Result.bind_eq_ok.mpr ⟨t₁, hfold,
          Result.bind_eq_ok.mpr ⟨(cfg, changes), henter, rfl⟩⟩
      · rw [applyConf_conf]
        exact hsame

/-- What `ConfStatesEqualIgnoringOrder` compares agrees. -/
theorem confStatesEqual_of_same (hcs : cs.Describes c) (hsame : c.Same c') :
    Raft.confStatesEqualIgnoringOrder cs c'.toConfState = true := by
  have h := hcs.of_same hsame
  simp only [Raft.confStatesEqualIgnoringOrder, TrackerConfiguration.toConfState, Bool.and_eq_true,
    isPerm_iff]
  exact ⟨⟨h.voters, h.learners⟩, h.votersOutgoing⟩

end Stored

/-- The trackers that the calls of the changer reach, from an empty or a restored one. -/
inductive ProgressTracker.Reachable : ProgressTracker → Prop
  | new (size : ℕ) : Reachable (.new size)
  | restored {t : ProgressTracker} {size next : ℕ} {cs : ConfState}
      (h : restoreTracker (.new size) next cs = .ok t) : Reachable t
  | changed {t : ProgressTracker} {call : Call} {cfg : TrackerConfiguration}
      {changes : MapChange} (ht : Reachable t) (hrun : call.run t = .ok (cfg, changes))
      (next : ℕ) : Reachable (t.applyConf cfg changes next)

theorem ProgressTracker.Reachable.consistent {t : ProgressTracker} (h : t.Reachable) :
    t.Consistent := by
  induction h with
  | new size => exact new_consistent size
  | restored h => exact restoreTracker_consistent (new_consistent _) h
  | changed _ hrun next ih => exact Call.applyConf_consistent ih hrun next

/-- A configuration survives being stored and restored, in whatever order its sets are written,
and the constructor accepts what it has restored. -/
theorem restore_stored_configuration {t : ProgressTracker} {cs : ConfState} (h : t.Reachable)
    (hvoters : t.conf.voters.incoming.isEmpty = false) (hcs : cs.Describes t.conf) :
    (∀ size next, ∃ t', restoreTracker (.new size) next cs = .ok t' ∧ t.conf.Same t'.conf ∧
      ∀ id, ListMap.contains t'.progress id = true ↔
        id ∈ t'.conf.voters.incoming ∨ id ∈ t'.conf.voters.outgoing ∨ id ∈ t'.conf.learners) ∧
    ∀ {σ : Type} [Storage σ] [Codec] {config : Config} {store : σ} {rng : ℕ → ℕ} {r : Raft σ}
      (last : ℕ), Raft.init config store rng = some r →
      ∃ tracker r' newCs, restoreTracker r.tracker last cs = .ok tracker ∧
        { r with tracker }.postConfChange = some (r', newCs) ∧
        Raft.confStatesEqualIgnoringOrder cs newCs = true := by
  refine ⟨fun size next => ?_, ?_⟩
  · obtain ⟨t', hrestore, h', hsame⟩ := restoreTracker_ok h.consistent hcs hvoters size next
    exact ⟨t', hrestore, hsame, h'.draft.tracked⟩
  · intro σ _ _ config store rng r last hinit
    simp only [Raft.init, Option.bind_eq_bind, Option.bind_eq_some_iff, Option.some.injEq] at hinit
    obtain ⟨log, -, rfl⟩ := hinit
    obtain ⟨tracker, hrestore, -, hsame⟩ :=
      restoreTracker_ok h.consistent hcs hvoters config.maxInflightMessages last
    exact ⟨tracker, _, tracker.conf.toConfState, hrestore, rfl, confStatesEqual_of_same hcs hsame⟩

/-- Three voters, of which one leaves and one becomes a learner, beside a new learner. -/
def demoting : Call :=
  .enterJoint true [⟨.removeNode, 2⟩, ⟨.addLearnerNode, 3⟩, ⟨.addLearnerNode, 4⟩]

theorem restore_stored_configuration_joint :
    ∃ t t' : ProgressTracker, t.Reachable ∧ t.conf.learnersNext.elems = [3] ∧
      restoreTracker (.new 8) 1
        { voters := [1], votersOutgoing := [3, 1, 2], learners := [4], learnersNext := [3]
          autoLeave := true } = .ok t' ∧ t.conf.Same t'.conf := by
  have heval : (unwrap (restoreTracker (.new 4) 1 { voters := [1, 2, 3] })).any (fun t₀ =>
      (unwrap (demoting.run t₀)).any fun result =>
        decide (result.1.learnersNext.elems = [3]) &&
        decide (result.1.voters.incoming.elems = [1]) &&
        decide (result.1.voters.outgoing.elems = [1, 2, 3]) &&
        decide (result.1.learners.elems = [4]) && result.1.autoLeave) = true := by
    decide +kernel
  obtain ⟨t₀, ht₀, hresult⟩ := (Option.any_eq_true _ _).mp heval
  obtain ⟨⟨cfg, changes⟩, hrun, hconf⟩ := (Option.any_eq_true _ _).mp hresult
  simp only [Bool.and_eq_true, decide_eq_true_eq] at hconf
  obtain ⟨⟨⟨⟨hnext, hin⟩, hout⟩, hlearners⟩, hauto⟩ := hconf
  have hreached : (t₀.applyConf cfg changes 1).Reachable :=
    .changed (.restored (unwrap_eq_some.mp ht₀))
      (unwrap_eq_some.mp hrun) 1
  have hdescribes : ConfState.Describes
      { voters := [1], votersOutgoing := [3, 1, 2], learners := [4], learnersNext := [3]
        autoLeave := true } (t₀.applyConf cfg changes 1).conf := by
    rw [applyConf_conf]
    refine ⟨?_, ?_, ?_, ?_, hauto.symm⟩
    · rw [hin]
    · rw [hout]
      decide
    · rw [hlearners]
    · rw [hnext]
  obtain ⟨t', hrestore, hsame, -⟩ := (restore_stored_configuration hreached (by
    rw [applyConf_conf, ListSet.isEmpty, hin]; rfl) hdescribes).1 8 1
  exact ⟨_, t', hreached, by rw [applyConf_conf, hnext], hrestore, hsame⟩

end Raftpp
