import Raftpp.Core.Tracker

/-!
# Restored configurations

`Restore` of `conf_restore.cc` reads a tracker only through its configuration
and the set of peers it has a progress for.  Two trackers that are alike in this
sense are restored to the same configuration, whatever index the peers start
from; so all nodes that restore one `ConfState` agree on the voters.
-/

namespace Raftpp

open Result ConfChanger

/-! ## Drafts over another progress map -/

namespace IncrChangeMap

/-- The same pending changes over another progress map. -/
def rebase (prs : IncrChangeMap) (base : ProgressMap) : IncrChangeMap := { prs with base }

variable {prs : IncrChangeMap} {base : ProgressMap}

theorem contains_rebase (hbase : ∀ id, ListMap.contains base id = ListMap.contains prs.base id)
    (id : ℕ) : (prs.rebase base).contains id = prs.contains id := by
  simp only [contains, rebase, hbase]

end IncrChangeMap

theorem checkInvariants_rebase {prs : IncrChangeMap} {base : ProgressMap}
    (hbase : ∀ id, ListMap.contains base id = ListMap.contains prs.base id)
    (cfg : TrackerConfiguration) :
    checkInvariants cfg (prs.rebase base) = checkInvariants cfg prs := by
  have hlearner : checkLearner cfg (prs.rebase base) = checkLearner cfg prs := by
    funext id
    simp only [checkLearner, IncrChangeMap.contains_rebase hbase]
  have hnext : checkLearnerNext cfg (prs.rebase base) = checkLearnerNext cfg prs := by
    funext id
    simp only [checkLearnerNext, IncrChangeMap.contains_rebase hbase]
  simp only [checkInvariants, hlearner, hnext, IncrChangeMap.contains_rebase hbase]

namespace ConfChanger

/-- The draft over another progress map. -/
def Draft.rebase (d : Draft) (base : ProgressMap) : Draft := (d.1, d.2.rebase base)

variable {d : Draft} {base : ProgressMap}

theorem applyOne_base (d : Draft) (cc : ConfChangeSingle) : (applyOne d cc).2.base = d.2.base := by
  obtain ⟨cfg, prs⟩ := d
  unfold applyOne
  split
  · rfl
  split
  · simp only [makeVoter]
    split <;> rfl
  · simp only [remove]
    split
    · rfl
    · split <;> rfl
  · simp only [makeLearner]
    split
    · rfl
    split
    · rfl
    · split <;> rfl

theorem applyOne_rebase (hbase : ∀ id, ListMap.contains base id = ListMap.contains d.2.base id)
    (cc : ConfChangeSingle) : applyOne (d.rebase base) cc = (applyOne d cc).rebase base := by
  have hcontains : ∀ id, (d.2.rebase base).contains id = d.2.contains id :=
    IncrChangeMap.contains_rebase hbase
  unfold applyOne
  split
  · rfl
  split
  · simp only [makeVoter, Draft.rebase, hcontains]
    split <;> rfl
  · simp only [remove, Draft.rebase, hcontains]
    by_cases hout : cc.nodeId ∈ (dropId d.1 cc.nodeId).voters.outgoing <;>
      by_cases hmem : d.2.contains cc.nodeId = false <;>
      simp only [hout, hmem, if_true, if_false] <;> rfl
  · simp only [makeLearner, Draft.rebase, hcontains]
    by_cases hout : cc.nodeId ∈ (dropId d.1 cc.nodeId).voters.outgoing <;>
      by_cases hlearner : cc.nodeId ∈ d.1.learners <;>
      by_cases hmem : d.2.contains cc.nodeId = false <;>
      simp only [hout, hlearner, hmem, if_true, if_false] <;> rfl

theorem foldl_applyOne_rebase {base : ProgressMap} :
    ∀ (ccs : List ConfChangeSingle) {d : Draft},
      (∀ id, ListMap.contains base id = ListMap.contains d.2.base id) →
      ccs.foldl applyOne (d.rebase base) = (ccs.foldl applyOne d).rebase base ∧
        (ccs.foldl applyOne d).2.base = d.2.base := by
  intro ccs
  induction ccs with
  | nil => intro d _; exact ⟨rfl, rfl⟩
  | cons cc ccs ih =>
      intro d hbase
      have hone := applyOne_base d cc
      obtain ⟨hrebase, hsame⟩ := ih (d := applyOne d cc) (by simpa only [hone] using hbase)
      rw [List.foldl_cons, List.foldl_cons, applyOne_rebase hbase]
      exact ⟨hrebase, hsame.trans hone⟩

theorem apply_rebase (hbase : ∀ id, ListMap.contains base id = ListMap.contains d.2.base id)
    (ccs : List ConfChangeSingle) :
    apply (d.rebase base) ccs = (apply d ccs).map fun d => d.rebase base := by
  unfold apply
  rw [(foldl_applyOne_rebase ccs hbase).1]
  dsimp only [Draft.rebase]
  split <;> rfl

theorem apply_base {d' : Draft} {ccs : List ConfChangeSingle} (h : apply d ccs = .ok d') :
    d'.2.base = d.2.base := by
  unfold apply at h
  dsimp only at h
  split at h
  · cases h
  · cases h
    exact (@foldl_applyOne_rebase d.2.base ccs d fun _ => rfl).2

end ConfChanger

/-! ## Trackers that are alike -/

/-- Two trackers with one configuration and progress for the same peers. -/
structure ProgressTracker.Alike (t t' : ProgressTracker) : Prop where
  conf : t'.conf = t.conf
  contains : ∀ id, ListMap.contains t'.progress id = ListMap.contains t.progress id

namespace ProgressTracker

variable {t t' : ProgressTracker}

theorem applyChange_rest (nextIdx : ℕ) (t : ProgressTracker) (change : ℕ × MapChangeType) :
    (t.applyChange nextIdx change).conf = t.conf ∧
      (t.applyChange nextIdx change).votes = t.votes ∧
      (t.applyChange nextIdx change).groupCommit = t.groupCommit := by
  unfold applyChange
  split <;> exact ⟨rfl, rfl, rfl⟩

theorem foldl_applyChange_rest (nextIdx : ℕ) :
    ∀ (changes : MapChange) (t : ProgressTracker),
      (changes.foldl (applyChange nextIdx) t).votes = t.votes ∧
        (changes.foldl (applyChange nextIdx) t).groupCommit = t.groupCommit := by
  intro changes
  induction changes with
  | nil => intro t; exact ⟨rfl, rfl⟩
  | cons change changes ih =>
      intro t
      obtain ⟨-, hvotes, hgroup⟩ := applyChange_rest nextIdx t change
      obtain ⟨hvotes', hgroup'⟩ := ih (t.applyChange nextIdx change)
      exact ⟨hvotes'.trans hvotes, hgroup'.trans hgroup⟩

theorem applyConf_rest (t : ProgressTracker) (conf : TrackerConfiguration) (changes : MapChange)
    (nextIdx : ℕ) :
    (t.applyConf conf changes nextIdx).votes = t.votes ∧
      (t.applyConf conf changes nextIdx).groupCommit = t.groupCommit :=
  foldl_applyChange_rest nextIdx changes { t with conf }

theorem contains_applyChange (nextIdx : ℕ) (t : ProgressTracker) (change : ℕ × MapChangeType)
    (id : ℕ) :
    ListMap.contains (t.applyChange nextIdx change).progress id =
      match change.2 with
      | .add => ListMap.contains t.progress id || decide (id = change.1)
      | .remove => ListMap.contains t.progress id && decide (id ≠ change.1) := by
  unfold applyChange
  cases change.2 with
  | add =>
      simp only [ListMap.contains, ListMap.get_emplace]
      by_cases hid : id = change.1 <;> simp [hid]
  | remove =>
      simp only [ListMap.contains, ListMap.get_erase]
      by_cases hid : id = change.1 <;> simp [hid]

theorem Alike.foldl_applyChange {next next' : ℕ} :
    ∀ (changes : MapChange) {t t' : ProgressTracker}, Alike t t' →
      Alike (changes.foldl (applyChange next) t) (changes.foldl (applyChange next') t') := by
  intro changes
  induction changes with
  | nil => intro t t' halike; exact halike
  | cons change changes ih =>
      intro t t' halike
      refine ih ⟨?_, fun id => ?_⟩
      · rw [(applyChange_rest next t change).1, (applyChange_rest next' t' change).1, halike.conf]
      · rw [contains_applyChange, contains_applyChange, halike.contains]

theorem Alike.applyConf (halike : Alike t t') (cfg : TrackerConfiguration) (changes : MapChange)
    (next next' : ℕ) : Alike (t.applyConf cfg changes next) (t'.applyConf cfg changes next') :=
  foldl_applyChange changes ⟨rfl, halike.contains⟩

end ProgressTracker

namespace ConfChanger

variable {t t' : ProgressTracker}

/-- A successful `checkAndCopy` copies the configuration. -/
theorem checkAndCopy_eq {d : Draft} (h : checkAndCopy t = .ok d) :
    d = (t.conf, { base := t.progress }) := by
  obtain ⟨-, -, h⟩ := bind_eq_ok.mp h
  exact (Except.ok.inj h).symm

theorem checkAndCopy_alike (halike : t.Alike t') :
    checkAndCopy t' = (checkAndCopy t).map fun d => d.rebase t'.progress := by
  have hcheck : checkInvariants t'.conf { base := t'.progress } =
      checkInvariants t.conf { base := t.progress } := by
    rw [halike.conf]
    exact @checkInvariants_rebase { base := t.progress } t'.progress halike.contains t.conf
  simp only [checkAndCopy, hcheck]
  rw [halike.conf]
  cases checkInvariants t.conf { base := t.progress } with
  | error e => rfl
  | ok _ => rfl

/-- Applying changes and checking the result, over either of two alike trackers. -/
theorem apply_check_alike {α : Type} (halike : t.Alike t') {d : Draft}
    (hbase : d.2.base = t.progress) (ccs : List ConfChangeSingle)
    (g : TrackerConfiguration → TrackerConfiguration)
    (f : TrackerConfiguration → MapChange → Result Unit → Result α) :
    ((apply (d.rebase t'.progress) ccs).bind fun d =>
        f d.1 d.2.changes (checkInvariants (g d.1) d.2)) =
      (apply d ccs).bind fun d => f d.1 d.2.changes (checkInvariants (g d.1) d.2) := by
  have hcontains : ∀ id, ListMap.contains t'.progress id = ListMap.contains d.2.base id := by
    intro id
    rw [hbase, halike.contains]
  rw [apply_rebase hcontains]
  cases happly : apply d ccs with
  | error e => rfl
  | ok d₁ =>
      have hbase₁ := apply_base happly
      have hcheck := @checkInvariants_rebase d₁.2 t'.progress
        (by rw [hbase₁]; exact hcontains) (g d₁.1)
      exact congrArg (f d₁.1 d₁.2.changes) hcheck

theorem enterJoint_alike (halike : t.Alike t') (autoLeave : Bool) (ccs : List ConfChangeSingle) :
    enterJoint t' autoLeave ccs = enterJoint t autoLeave ccs := by
  unfold enterJoint
  rw [halike.conf, checkAndCopy_alike halike]
  split
  · rfl
  cases hcopy : checkAndCopy t with
  | error e => rfl
  | ok d =>
      obtain rfl := checkAndCopy_eq hcopy
      show (if t.conf.voters.incoming.isEmpty then _ else _) = if _ then _ else _
      split
      · rfl
      · exact apply_check_alike halike
          (d := ({ t.conf with
            voters := { t.conf.voters with
              outgoing := t.conf.voters.outgoing.insertAll t.conf.voters.incoming.elems } },
            { base := t.progress })) rfl ccs (fun cfg => { cfg with autoLeave })
          fun cfg changes check => check.bind fun _ => .ok ({ cfg with autoLeave }, changes)

theorem simple_alike (halike : t.Alike t') (ccs : List ConfChangeSingle) :
    simple t' ccs = simple t ccs := by
  unfold simple
  rw [halike.conf, checkAndCopy_alike halike]
  split
  · rfl
  cases hcopy : checkAndCopy t with
  | error e => rfl
  | ok d =>
      obtain rfl := checkAndCopy_eq hcopy
      exact apply_check_alike halike (d := (t.conf, { base := t.progress })) rfl ccs id
        fun cfg changes check =>
          if symmetricDifference cfg.voters.incoming t.conf.voters.incoming > 1 then
            .error (.confChange .multipleVotersChangedWithoutJoint)
          else check.bind fun _ => .ok (cfg, changes)

theorem foldlM_apply_rebase {base : ProgressMap} :
    ∀ (ccs : List ConfChangeSingle) {d : Draft},
      (∀ id, ListMap.contains base id = ListMap.contains d.2.base id) →
      ccs.foldlM (fun d cc => apply d [cc]) (d.rebase base) =
        (ccs.foldlM (fun d cc => apply d [cc]) d).map fun d => d.rebase base := by
  intro ccs
  induction ccs with
  | nil => intro d _; rfl
  | cons cc ccs ih =>
      intro d hbase
      rw [List.foldlM_cons, List.foldlM_cons, apply_rebase hbase]
      cases happly : apply d [cc] with
      | error e => rfl
      | ok d₁ =>
          refine ih (d := d₁) ?_
          rw [apply_base happly]
          exact hbase

theorem foldlM_apply_base :
    ∀ (ccs : List ConfChangeSingle) {d d' : Draft},
      ccs.foldlM (fun d cc => apply d [cc]) d = .ok d' → d'.2.base = d.2.base := by
  intro ccs
  induction ccs with
  | nil =>
      intro d d' h
      cases h
      rfl
  | cons cc ccs ih =>
      intro d d' h
      rw [List.foldlM_cons] at h
      obtain ⟨d₁, happly, hrest⟩ := bind_eq_ok.mp h
      exact (ih hrest).trans (apply_base happly)

end ConfChanger

/-! ## Restoring -/

section Restore

variable {t t' t₁ : ProgressTracker} {next next' : ℕ}

theorem restoreIncoming_alike (halike : t.Alike t') {incoming : List ConfChangeSingle}
    (h : restoreIncoming t next incoming = .ok t₁) :
    ∃ t₁', restoreIncoming t' next' incoming = .ok t₁' ∧ t₁.Alike t₁' := by
  obtain ⟨d, hcopy, h⟩ := bind_eq_ok.mp h
  obtain ⟨d₁, happly, h⟩ := bind_eq_ok.mp h
  obtain ⟨_, hcheck, h⟩ := bind_eq_ok.mp h
  cases h
  obtain rfl := checkAndCopy_eq hcopy
  have hcopy' : checkAndCopy t' =
      .ok (Draft.rebase (t.conf, { base := t.progress }) t'.progress) := by
    rw [checkAndCopy_alike halike, hcopy]
    rfl
  have happly' := @foldlM_apply_rebase t'.progress incoming
    (t.conf, { base := t.progress }) halike.contains
  have hcheck' := @checkInvariants_rebase d₁.2 t'.progress
    (by rw [foldlM_apply_base incoming happly]; exact halike.contains) d₁.1
  refine ⟨t'.applyConf d₁.1 d₁.2.changes next', ?_, halike.applyConf _ _ _ _⟩
  refine bind_eq_ok.mpr ⟨_, hcopy', bind_eq_ok.mpr ⟨d₁.rebase t'.progress, ?_,
    bind_eq_ok.mpr ⟨(), ?_, rfl⟩⟩⟩
  · rw [happly', happly]
    rfl
  · exact hcheck'.trans hcheck

/-- One of the changes that `Restore` makes alone. -/
abbrev applySimple (next : ℕ) (t : ProgressTracker) (cc : ConfChangeSingle) :
    Result ProgressTracker := do
  let (cfg, changes) ← ConfChanger.simple t [cc]
  .ok (t.applyConf cfg changes next)

theorem foldlM_simple_alike :
    ∀ (ccs : List ConfChangeSingle) {t t' t₁ : ProgressTracker}, t.Alike t' →
      ccs.foldlM (applySimple next) t = .ok t₁ →
      ∃ t₁', ccs.foldlM (applySimple next') t' = .ok t₁' ∧ t₁.Alike t₁' := by
  intro ccs
  induction ccs with
  | nil =>
      intro t t' t₁ halike h
      cases h
      exact ⟨t', rfl, halike⟩
  | cons cc ccs ih =>
      intro t t' t₁ halike h
      rw [List.foldlM_cons] at h
      obtain ⟨t₂, hone, hrest⟩ := bind_eq_ok.mp h
      obtain ⟨⟨cfg, changes⟩, hsimple, happly⟩ := bind_eq_ok.mp hone
      cases happly
      obtain ⟨t₁', hrest', halike'⟩ := ih (halike.applyConf cfg changes next next') hrest
      refine ⟨t₁', ?_, halike'⟩
      rw [List.foldlM_cons, applySimple, simple_alike halike, hsimple]
      exact hrest'

/-- Alike trackers are restored alike. -/
theorem restoreTracker_alike (halike : t.Alike t') {cs : ConfState}
    (h : restoreTracker t next cs = .ok t₁) :
    ∃ t₁', restoreTracker t' next' cs = .ok t₁' ∧ t₁.Alike t₁' := by
  unfold restoreTracker at h ⊢
  simp only at h ⊢
  split at h
  next houtgoing =>
    rw [if_pos houtgoing, enterJoint_alike halike]
    split at h
    next cfg changes hjoint =>
      cases h
      exact ⟨_, rfl, halike.applyConf _ _ _ _⟩
    next e hjoint =>
      exact restoreIncoming_alike halike h
  next houtgoing =>
    rw [if_neg houtgoing]
    obtain ⟨t₂, hout, h⟩ := bind_eq_ok.mp h
    obtain ⟨⟨cfg, changes⟩, hjoint, h⟩ := bind_eq_ok.mp h
    cases h
    obtain ⟨t₂', hout', halike'⟩ := @foldlM_simple_alike next next' _ _ _ _ halike hout
    refine ⟨t₂'.applyConf cfg changes next', ?_, halike'.applyConf _ _ _ _⟩
    refine bind_eq_ok.mpr ⟨t₂', hout', bind_eq_ok.mpr ⟨(cfg, changes), ?_, rfl⟩⟩
    rw [enterJoint_alike halike', hjoint]

theorem foldlM_simple_rest :
    ∀ (ccs : List ConfChangeSingle) {t t₁ : ProgressTracker},
      ccs.foldlM (applySimple next) t = .ok t₁ →
      t₁.votes = t.votes ∧ t₁.groupCommit = t.groupCommit := by
  intro ccs
  induction ccs with
  | nil =>
      intro t t₁ h
      cases h
      exact ⟨rfl, rfl⟩
  | cons cc ccs ih =>
      intro t t₁ h
      rw [List.foldlM_cons] at h
      obtain ⟨t₂, hone, hrest⟩ := bind_eq_ok.mp h
      obtain ⟨⟨cfg, changes⟩, -, happly⟩ := bind_eq_ok.mp hone
      cases happly
      obtain ⟨hvotes, hgroup⟩ := ih hrest
      obtain ⟨hvotes', hgroup'⟩ := t.applyConf_rest cfg changes next
      exact ⟨hvotes.trans hvotes', hgroup.trans hgroup'⟩

/-- Restoring a tracker leaves its votes and its commit groups alone. -/
theorem restoreTracker_rest {cs : ConfState} (h : restoreTracker t next cs = .ok t₁) :
    t₁.votes = t.votes ∧ t₁.groupCommit = t.groupCommit := by
  unfold restoreTracker at h
  simp only at h
  split at h
  · split at h
    · cases h
      exact t.applyConf_rest _ _ _
    · obtain ⟨d, -, h⟩ := bind_eq_ok.mp h
      obtain ⟨d₁, -, h⟩ := bind_eq_ok.mp h
      obtain ⟨_, -, h⟩ := bind_eq_ok.mp h
      cases h
      exact t.applyConf_rest _ _ _
  · obtain ⟨t₂, hout, h⟩ := bind_eq_ok.mp h
    obtain ⟨⟨cfg, changes⟩, -, h⟩ := bind_eq_ok.mp h
    cases h
    obtain ⟨hvotes, hgroup⟩ := foldlM_simple_rest _ hout
    obtain ⟨hvotes', hgroup'⟩ := t₂.applyConf_rest cfg changes next
    exact ⟨hvotes'.trans hvotes, hgroup'.trans hgroup⟩

end Restore

end Raftpp
