import Raftpp.Membership.Overlap

/-!
# Where the members of a configuration stand

A consistent tracker has a progress for exactly its members, its learners vote in neither
half, and its next learners are outgoing voters that are no longer incoming.  Apart from the
outgoing voters such a configuration is determined by the standing of each node: an incoming
voter, a learner (now or after the joint configuration is left), or neither.

A list of single changes gives each node the standing of the last change to it.  So the three
calls of `ConfChanger` are described by standings: what they accept and what they return.
-/

namespace Raftpp

open TrackerConfiguration

variable {change : ℕ × MapChangeType} {id : ℕ} {cfg : TrackerConfiguration}

open List ListSet

/-- What a node is to a configuration, apart from its outgoing voters. -/
inductive Standing
  | voter
  | learner
  | absent
  deriving DecidableEq

namespace TrackerConfiguration

def standing (c : TrackerConfiguration) (id : ℕ) : Standing :=
  if id ∈ c.voters.incoming then .voter
  else if id ∈ c.learners ∨ id ∈ c.learnersNext then .learner
  else .absent

end TrackerConfiguration

namespace ConfChangeSingle

/-- The standing that a change gives to its node. -/
def target (cc : ConfChangeSingle) : Standing :=
  match cc.changeType with
  | .addNode => .voter
  | .removeNode => .absent
  | .addLearnerNode => .learner

end ConfChangeSingle

/-- The standing after a list of changes; changes of the node `0` are skipped. -/
def settle (ccs : List ConfChangeSingle) (id : ℕ) (s : Standing) : Standing :=
  ccs.foldl (fun s cc => if cc.nodeId ≠ 0 ∧ cc.nodeId = id then cc.target else s) s

/-- A later standing depends on the earlier one only if no change is about the node. -/
theorem settle_eq_or (ccs : List ConfChangeSingle) (id : ℕ) :
    (∀ s, settle ccs id s = s) ∨ ∃ s', ∀ s, settle ccs id s = s' := by
  induction ccs with
  | nil => exact Or.inl fun s => rfl
  | cons cc ccs ih =>
      by_cases hid : cc.nodeId ≠ 0 ∧ cc.nodeId = id
      · exact Or.inr ⟨settle ccs id cc.target, fun s => by
          simp only [settle, foldl_cons, if_pos hid]⟩
      · have hskip : ∀ s, settle (cc :: ccs) id s = settle ccs id s := fun s => by
          simp only [settle, foldl_cons, if_neg hid]
        simpa only [hskip] using ih

namespace ConfChanger

/-! ## Drafts -/

/-- The configuration under change has a progress for exactly its members, and its four sets
fit together. -/
structure Consistent (d : Draft) : Prop where
  tracked : ∀ id, d.2.contains id = true ↔
    id ∈ d.1.voters.incoming ∨ id ∈ d.1.voters.outgoing ∨ id ∈ d.1.learners
  learners_incoming : ∀ id ∈ d.1.learners, id ∉ d.1.voters.incoming
  learners_outgoing : ∀ id ∈ d.1.learners, id ∉ d.1.voters.outgoing
  next_outgoing : ∀ id ∈ d.1.learnersNext, id ∈ d.1.voters.outgoing
  next_incoming : ∀ id ∈ d.1.learnersNext, id ∉ d.1.voters.incoming
  nonzero : d.2.contains 0 = false

theorem Consistent.congr {d d' : Draft} (h : Consistent d) (hconf : d'.1 = d.1)
    (hcontains : ∀ id, d'.2.contains id = d.2.contains id) : Consistent d' := by
  obtain ⟨cfg, prs⟩ := d'
  obtain rfl : cfg = d.1 := hconf
  obtain ⟨htracked, hli, hlo, hno, hni, hzero⟩ := h
  exact ⟨fun id => by rw [hcontains]; exact htracked id, hli, hlo, hno, hni,
    (hcontains 0).trans hzero⟩

theorem contains_push (prs : IncrChangeMap) (id id' : ℕ) (change : MapChangeType) :
    (prs.push id change).contains id' =
      if id = id' then decide (change = .add) else prs.contains id' := by
  unfold IncrChangeMap.contains IncrChangeMap.push
  simp only [reverse_append, reverse_cons, reverse_nil, nil_append, singleton_append, find?_cons]
  by_cases hid : id = id'
  · cases change <;> simp [hid]
  · simp [hid]

variable {d : Draft}

theorem makeVoter_eq (cfg : TrackerConfiguration) (prs : IncrChangeMap) (id : ℕ) :
    makeVoter (cfg, prs) id =
      if prs.contains id = false then
        ({ cfg with voters := { cfg.voters with incoming := cfg.voters.incoming.insert id } },
          prs.push id .add)
      else
        ({ cfg with
            voters := { cfg.voters with incoming := cfg.voters.incoming.insert id }
            learners := cfg.learners.erase id
            learnersNext := cfg.learnersNext.erase id }, prs) := rfl

theorem makeLearner_eq (cfg : TrackerConfiguration) (prs : IncrChangeMap) (id : ℕ) :
    makeLearner (cfg, prs) id =
      if prs.contains id = false then
        ({ cfg with learners := cfg.learners.insert id }, prs.push id .add)
      else if id ∈ cfg.learners then (cfg, prs)
      else if id ∈ cfg.voters.outgoing then
        ({ dropId cfg id with learnersNext := (cfg.learnersNext.erase id).insert id }, prs)
      else ({ dropId cfg id with learners := (cfg.learners.erase id).insert id }, prs) := rfl

theorem remove_eq (cfg : TrackerConfiguration) (prs : IncrChangeMap) (id : ℕ) :
    remove (cfg, prs) id =
      if prs.contains id = false then (cfg, prs)
      else if id ∈ cfg.voters.outgoing then (dropId cfg id, prs)
      else (dropId cfg id, prs.push id .remove) := rfl

theorem makeVoter_consistent (h : Consistent d) (hid : id ≠ 0) : Consistent (makeVoter d id) := by
  obtain ⟨cfg, prs⟩ := d
  obtain ⟨htracked, hli, hlo, hno, hni, hzero⟩ := h
  simp only at htracked hli hlo hno hni hzero
  rw [makeVoter_eq]
  split
  next habsent =>
    have hnot := htracked id
    rw [habsent] at hnot
    refine ⟨fun id' => ?_, fun id' => ?_, hlo, hno, fun id' => ?_, ?_⟩ <;>
      simp only [contains_push, mem_insert] <;> grind
  · refine ⟨fun id' => ?_, fun id' => ?_, fun id' => ?_, fun id' => ?_, fun id' => ?_, hzero⟩ <;>
      simp only [mem_insert, mem_erase] <;> grind

theorem makeLearner_consistent (h : Consistent d) (hid : id ≠ 0) :
    Consistent (makeLearner d id) := by
  obtain ⟨cfg, prs⟩ := d
  obtain ⟨htracked, hli, hlo, hno, hni, hzero⟩ := h
  simp only at htracked hli hlo hno hni hzero
  rw [makeLearner_eq]
  split
  next habsent =>
    have hnot := htracked id
    rw [habsent] at hnot
    refine ⟨fun id' => ?_, fun id' => ?_, fun id' => ?_, hno, hni, ?_⟩ <;>
      simp only [contains_push, mem_insert] <;> grind
  split
  · exact ⟨htracked, hli, hlo, hno, hni, hzero⟩
  split
  all_goals
    refine ⟨fun id' => ?_, fun id' => ?_, fun id' => ?_, fun id' => ?_, fun id' => ?_, hzero⟩ <;>
      simp only [dropId, mem_insert, mem_erase] <;> grind

theorem remove_consistent (h : Consistent d) (hid : id ≠ 0) : Consistent (remove d id) := by
  obtain ⟨cfg, prs⟩ := d
  obtain ⟨htracked, hli, hlo, hno, hni, hzero⟩ := h
  simp only at htracked hli hlo hno hni hzero
  rw [remove_eq]
  split
  · exact ⟨htracked, hli, hlo, hno, hni, hzero⟩
  split
  · refine ⟨fun id' => ?_, fun id' => ?_, fun id' => ?_, fun id' => ?_, fun id' => ?_, hzero⟩ <;>
      simp only [dropId, mem_erase] <;> grind
  · refine ⟨fun id' => ?_, fun id' => ?_, fun id' => ?_, fun id' => ?_, fun id' => ?_, ?_⟩ <;>
      simp only [dropId, contains_push, mem_erase] <;> grind

theorem applyOne_consistent (h : Consistent d) (cc : ConfChangeSingle) :
    Consistent (applyOne d cc) := by
  unfold applyOne
  split
  · exact h
  next hid =>
    split
    · exact makeVoter_consistent h hid
    · exact remove_consistent h hid
    · exact makeLearner_consistent h hid

theorem foldl_applyOne_consistent (ccs : List ConfChangeSingle) (h : Consistent d) :
    Consistent (ccs.foldl applyOne d) := by
  induction ccs generalizing d with
  | nil => exact h
  | cons cc ccs ih => exact ih (applyOne_consistent h cc)

/-- A single change gives its node its standing and leaves the others alone. -/
theorem standing_applyOne (h : Consistent d) (cc : ConfChangeSingle) (id : ℕ) :
    (applyOne d cc).1.standing id =
      if cc.nodeId ≠ 0 ∧ cc.nodeId = id then cc.target else d.1.standing id := by
  obtain ⟨cfg, prs⟩ := d
  obtain ⟨htracked, hli, hlo, hno, hni, hzero⟩ := h
  obtain ⟨changeType, node⟩ := cc
  simp only at htracked hli hlo hno hni hzero
  unfold applyOne ConfChangeSingle.target
  by_cases hnode : node = 0
  · simp [hnode]
  have hmember := htracked node
  have hnext := hno node
  simp only [hnode, if_false, ne_eq, not_false_eq_true, true_and]
  cases changeType with
  | addNode =>
      dsimp only
      rw [makeVoter_eq]
      split
      all_goals
        simp only [standing, mem_insert, mem_erase]
        grind
  | removeNode =>
      dsimp only
      rw [remove_eq]
      split
      · simp only [standing]
        grind
      · split
        all_goals
          simp only [dropId, standing, mem_erase]
          grind
  | addLearnerNode =>
      have hlearner := hli node
      dsimp only
      rw [makeLearner_eq]
      split
      · simp only [standing, mem_insert]
        grind
      split
      · simp only [standing]
        grind
      split
      all_goals
        simp only [dropId, standing, mem_insert, mem_erase]
        grind

theorem standing_foldl_applyOne (ccs : List ConfChangeSingle) (h : Consistent d) (id : ℕ) :
    (ccs.foldl applyOne d).1.standing id = settle ccs id (d.1.standing id) := by
  induction ccs generalizing d with
  | nil => rfl
  | cons cc ccs ih =>
      rw [foldl_cons, ih (applyOne_consistent h cc), standing_applyOne h]
      rfl

theorem applyOne_autoLeave (d : Draft) (cc : ConfChangeSingle) :
    (applyOne d cc).1.autoLeave = d.1.autoLeave := by
  obtain ⟨cfg, prs⟩ := d
  unfold applyOne
  split
  · rfl
  split
  · rw [makeVoter_eq]
    split <;> rfl
  · rw [remove_eq]
    split
    · rfl
    split <;> rfl
  · rw [makeLearner_eq]
    split
    · rfl
    split
    · rfl
    split <;> rfl

theorem foldl_applyOne_autoLeave (ccs : List ConfChangeSingle) (d : Draft) :
    (ccs.foldl applyOne d).1.autoLeave = d.1.autoLeave := by
  induction ccs generalizing d with
  | nil => rfl
  | cons cc ccs ih => rw [foldl_cons, ih, applyOne_autoLeave]

/-- The pending changes of a single change are about its node. -/
theorem mem_applyOne_changes {cc : ConfChangeSingle} (h : change ∈ (applyOne d cc).2.changes) :
    change ∈ d.2.changes ∨ change.1 = cc.nodeId := by
  have hpush : ∀ {prs : IncrChangeMap} {kind : MapChangeType},
      change ∈ (prs.push cc.nodeId kind).changes →
        change ∈ prs.changes ∨ change.1 = cc.nodeId := by
    intro prs kind hmem
    rcases mem_append.mp hmem with hmem | hmem
    · exact Or.inl hmem
    · exact Or.inr (by rw [mem_singleton.mp hmem])
  obtain ⟨cfg, prs⟩ := d
  unfold applyOne at h
  split at h
  · exact Or.inl h
  split at h
  · rw [makeVoter_eq] at h
    split at h
    · exact hpush h
    · exact Or.inl h
  · rw [remove_eq] at h
    split at h
    · exact Or.inl h
    split at h
    · exact Or.inl h
    · exact hpush h
  · rw [makeLearner_eq] at h
    split at h
    · exact hpush h
    split at h
    · exact Or.inl h
    split at h <;> exact Or.inl h

theorem mem_foldl_applyOne_changes {ccs : List ConfChangeSingle}
    (h : change ∈ (ccs.foldl applyOne d).2.changes) :
    change ∈ d.2.changes ∨ change.1 ∈ ccs.map ConfChangeSingle.nodeId := by
  induction ccs generalizing d with
  | nil => exact Or.inl h
  | cons cc ccs ih =>
      rcases ih h with hmem | hmem
      · exact (mem_applyOne_changes hmem).imp_right fun hid => by simp [hid]
      · exact Or.inr (by simp [hmem])

/-- A consistent draft passes the check. -/
theorem checkInvariants_ok {prs : IncrChangeMap} (h : Consistent (cfg, prs))
    (hauto : cfg.joint = false → cfg.autoLeave = false) : checkInvariants cfg prs = .ok () := by
  obtain ⟨htracked, hli, hlo, hno, hni, hzero⟩ := h
  simp only at htracked hli hlo hno hni hzero
  have hforM : ∀ {f : ℕ → Result Unit} {l : List ℕ}, (∀ id ∈ l, f id = .ok ()) →
      l.forM f = .ok () := by
    intro f l hf
    induction l with
    | nil => rfl
    | cons id l ih =>
        rw [forM_eq_forM, forM_cons, hf id (by simp)]
        exact ih fun id' hid' => hf id' (by simp [hid'])
  have hvoters : (cfg.voters.ids.elems.forM fun id =>
      if prs.contains id then .ok ()
      else .error (.confChangeError s!"no progress for voter {id}") : Result Unit) = .ok () := by
    refine hforM fun id hid => ?_
    have hvoter : id ∈ cfg.voters.incoming ∨ id ∈ cfg.voters.outgoing := by
      rwa [← mem_def, JointConfiguration.ids, mem_insertAll, ← mem_def, or_comm] at hid
    rw [if_pos ((htracked id).mpr (by tauto))]
  have hlearners : cfg.learners.elems.forM (checkLearner cfg prs) = .ok () := by
    refine hforM fun id hid => ?_
    have hmember := (htracked id).mpr (Or.inr (Or.inr hid))
    rw [checkLearner, if_neg (by simp [hmember]), if_neg (hlo id hid), if_neg (hli id hid)]
  have hnext : cfg.learnersNext.elems.forM (checkLearnerNext cfg prs) = .ok () := by
    refine hforM fun id hid => ?_
    have hmember := (htracked id).mpr (Or.inr (Or.inl (hno id hid)))
    rw [checkLearnerNext, if_neg (by simp [hmember]), if_pos (hno id hid)]
  unfold checkInvariants
  rw [hvoters]
  simp only [bind, Except.bind]
  rw [hlearners]
  simp only
  rw [hnext]
  simp only
  split
  · rfl
  next hjoint =>
    have hjoint : cfg.joint = false := by simpa using hjoint
    have hnone : cfg.learnersNext.isEmpty = true := by
      rw [ListSet.isEmpty, List.isEmpty_iff, List.eq_nil_iff_forall_not_mem]
      intro id hid
      have hmem := hno id hid
      rw [mem_def, outgoing_eq_nil hjoint] at hmem
      simp at hmem
    simp [hnone, hauto hjoint]

end ConfChanger

/-! ## Trackers -/

namespace IncrChangeMap

/-- The oldest pending change counts like one that the map has already seen. -/
theorem contains_cons {changes : MapChange} {base base' : ProgressMap}
    (hbase : ListMap.contains base' id =
      if change.1 = id then decide (change.2 = .add) else ListMap.contains base id) :
    ({ changes := change :: changes, base } : IncrChangeMap).contains id =
      ({ changes, base := base' } : IncrChangeMap).contains id := by
  unfold contains
  simp only [reverse_cons, find?_append]
  cases changes.reverse.find? fun change => change.1 = id with
  | some found => obtain ⟨id', kind | kind⟩ := found <;> rfl
  | none =>
      obtain ⟨id', kind⟩ := change
      simp only [hbase]
      by_cases hid : id' = id
      · cases kind <;> simp [hid]
      · simp [hid]

end IncrChangeMap

namespace ProgressTracker

variable {t t' : ProgressTracker}

@[simp] theorem applyConf_conf (t : ProgressTracker) (conf : TrackerConfiguration)
    (changes : MapChange) (next : ℕ) : (t.applyConf conf changes next).conf = conf := by
  have hfold : ∀ (changes : MapChange) (t : ProgressTracker),
      (changes.foldl (applyChange next) t).conf = t.conf := by
    intro changes
    induction changes with
    | nil => exact fun t => rfl
    | cons change changes ih =>
        exact fun t => (ih _).trans (t.applyChange_rest next change).1
  exact hfold changes _

/-- The peers that `ApplyConf` leaves are those that the pending changes announce. -/
theorem contains_applyConf (t : ProgressTracker) (conf : TrackerConfiguration)
    (changes : MapChange) (next id : ℕ) :
    ListMap.contains (t.applyConf conf changes next).progress id =
      ({ changes, base := t.progress } : IncrChangeMap).contains id := by
  have hfold : ∀ (changes : MapChange) (t : ProgressTracker),
      ListMap.contains (changes.foldl (applyChange next) t).progress id =
        ({ changes, base := t.progress } : IncrChangeMap).contains id := by
    intro changes
    induction changes with
    | nil => exact fun t => rfl
    | cons change changes ih =>
        intro t
        rw [foldl_cons, ih]
        refine (IncrChangeMap.contains_cons ?_).symm
        rw [contains_applyChange]
        obtain ⟨id', kind⟩ := change
        by_cases hid : id' = id
        · cases kind <;> simp [hid]
        · have hid' : id ≠ id' := fun h => hid h.symm
          cases kind <;> simp [hid, hid']
  exact hfold changes _

/-- `ApplyConf` leaves a peer alone that no pending change is about. -/
theorem get_applyConf_of_not_mem {conf : TrackerConfiguration} {changes : MapChange} {next : ℕ}
    (hid : id ∉ changes.map Prod.fst) : (t.applyConf conf changes next).get id = t.get id := by
  have hfold : ∀ (changes : MapChange) (t : ProgressTracker), id ∉ changes.map Prod.fst →
      (changes.foldl (applyChange next) t).get id = t.get id := by
    intro changes
    induction changes with
    | nil => exact fun t _ => rfl
    | cons change changes ih =>
        intro t hid
        simp only [map_cons, mem_cons, not_or] at hid
        rw [foldl_cons, ih _ hid.2]
        unfold applyChange get
        split <;> simp [hid.1]
  exact hfold changes _ hid

/-- The draft that a change starts from. -/
def draft (t : ProgressTracker) : ConfChanger.Draft := (t.conf, { base := t.progress })

/-- The draft that `EnterJoint` starts from: the incoming voters become outgoing ones too. -/
def jointDraft (t : ProgressTracker) : ConfChanger.Draft :=
  ({ t.conf with
      voters := { t.conf.voters with
        outgoing := t.conf.voters.outgoing.insertAll t.conf.voters.incoming.elems } },
    { base := t.progress })

/-- The draft that `LeaveJoint` ends with. -/
def leftDraft (t : ProgressTracker) : ConfChanger.Draft :=
  let learners := t.conf.learners.insertAll t.conf.learnersNext.elems
  let gone := t.conf.voters.outgoing.elems.filter fun id =>
    id ∉ t.conf.voters.incoming ∧ id ∉ learners
  ({ voters := { t.conf.voters with outgoing := ∅ }, learners },
    gone.foldl (fun prs id => prs.push id .remove) { base := t.progress })

/-- A tracker whose configuration and progress fit together. -/
structure Consistent (t : ProgressTracker) : Prop where
  draft : ConfChanger.Consistent t.draft
  autoLeave : t.conf.joint = false → t.conf.autoLeave = false

theorem Consistent.alike (h : t.Consistent) (halike : t.Alike t') : t'.Consistent := by
  refine ⟨h.draft.congr halike.conf halike.contains, ?_⟩
  rw [halike.conf]
  exact h.autoLeave

theorem new_consistent (size : ℕ) : (ProgressTracker.new size).Consistent := by
  refine ⟨⟨fun id => ?_, ?_, ?_, ?_, ?_, rfl⟩, fun _ => rfl⟩
  · have hfalse : (ProgressTracker.new size).draft.2.contains id = false := rfl
    rw [hfalse]
    simp [ProgressTracker.draft, ProgressTracker.new, not_mem_empty]
  all_goals simp [ProgressTracker.draft, ProgressTracker.new, not_mem_empty]

/-- Applying a consistent draft gives a consistent tracker. -/
theorem applyConf_consistent {prs : IncrChangeMap} (h : ConfChanger.Consistent (cfg, prs))
    (hbase : prs.base = t.progress) (hauto : cfg.joint = false → cfg.autoLeave = false) (next : ℕ) :
    (t.applyConf cfg prs.changes next).Consistent := by
  refine ⟨h.congr (t.applyConf_conf cfg prs.changes next) fun id => ?_, ?_⟩
  · have hcontains := t.contains_applyConf cfg prs.changes next id
    rw [← hbase] at hcontains
    exact hcontains
  · rw [applyConf_conf]
    exact hauto

end ProgressTracker

end Raftpp
