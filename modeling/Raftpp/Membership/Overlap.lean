import Raftpp.Protocol.Membership

/-!
# Quorums of neighbouring configurations overlap

A configuration change is one call of `ConfChanger`.  However the single changes
of a call add, remove, promote and demote nodes, only three things matter for
quorums: the changes leave the outgoing voters alone, `Simple` keeps the incoming
voters up to one node, and `EnterJoint` keeps the old incoming voters as the
outgoing ones.
-/

namespace Raftpp

open JointConfiguration

namespace MajorityConfig

/-- Winning sets of two configurations that differ in at most one voter intersect. -/
theorem won_inter_of_near {c d : MajorityConfig} (hc : c.elems ≠ []) (hd : d.elems ≠ [])
    (hdiff : ConfChanger.symmetricDifference c d ≤ 1) {check check' : ℕ → Option Bool}
    (h : getVoteResult c check = .won) (h' : getVoteResult d check' = .won) :
    ∃ v, v ∈ c ∧ v ∈ d ∧ check v = some true ∧ check' v = some true := by
  rw [getVoteResult_eq_won, or_iff_right hc] at h
  rw [getVoteResult_eq_won, or_iff_right hd] at h'
  obtain ⟨v, hvc, hvd, hp, hq⟩ := exists_mem_of_near_majorities c.nodup d.nodup hdiff h h'
  exact ⟨v, hvc, hvd, by simpa using hp, by simpa using hq⟩

end MajorityConfig

namespace ConfChanger

variable {t : ProgressTracker} {cfg : TrackerConfiguration} {changes : MapChange}
  {ccs : List ConfChangeSingle} {check check' : ℕ → Option Bool}
/-! ## What the single changes leave alone -/

theorem makeVoter_outgoing (d : Draft) (id : ℕ) :
    (makeVoter d id).1.voters.outgoing = d.1.voters.outgoing := by
  obtain ⟨cfg, prs⟩ := d
  simp only [makeVoter, initProgress]
  split <;> rfl

theorem makeLearner_outgoing (d : Draft) (id : ℕ) :
    (makeLearner d id).1.voters.outgoing = d.1.voters.outgoing := by
  obtain ⟨cfg, prs⟩ := d
  by_cases hout : id ∈ cfg.voters.outgoing
  all_goals
    simp only [makeLearner, initProgress, dropId, hout, if_true, if_false]
    split
    · rfl
    split <;> rfl

theorem remove_outgoing (d : Draft) (id : ℕ) :
    (remove d id).1.voters.outgoing = d.1.voters.outgoing := by
  obtain ⟨cfg, prs⟩ := d
  by_cases hout : id ∈ cfg.voters.outgoing
  all_goals
    simp only [remove, dropId, hout, if_true, if_false]
    split <;> rfl

theorem applyOne_outgoing (d : Draft) (cc : ConfChangeSingle) :
    (applyOne d cc).1.voters.outgoing = d.1.voters.outgoing := by
  unfold applyOne
  split
  · rfl
  split
  · exact makeVoter_outgoing d cc.nodeId
  · exact remove_outgoing d cc.nodeId
  · exact makeLearner_outgoing d cc.nodeId

theorem foldl_applyOne_outgoing (ccs : List ConfChangeSingle) (d : Draft) :
    (ccs.foldl applyOne d).1.voters.outgoing = d.1.voters.outgoing := by
  induction ccs generalizing d with
  | nil => rfl
  | cons cc ccs ih => rw [List.foldl_cons, ih, applyOne_outgoing]

/-- Applying single changes keeps the outgoing voters and leaves some incoming voter. -/
theorem apply_spec {d d' : Draft} (h : apply d ccs = .ok d') :
    d'.1.voters.outgoing = d.1.voters.outgoing ∧ d'.1.voters.incoming.isEmpty = false := by
  simp only [apply] at h
  split at h
  · cases h
  next hempty =>
    cases h
    exact ⟨foldl_applyOne_outgoing ccs d, by simpa using hempty⟩

/-! ## The three calls -/

/-- A call of the changer: `Simple`, `EnterJoint` or `LeaveJoint`. -/
inductive Call
  | simple (ccs : List ConfChangeSingle)
  | enterJoint (autoLeave : Bool) (ccs : List ConfChangeSingle)
  | leaveJoint
  deriving DecidableEq

/-- Run a call on a tracker. -/
def Call.run (t : ProgressTracker) : Call → Result (TrackerConfiguration × MapChange)
  | .simple ccs => ConfChanger.simple t ccs
  | .enterJoint autoLeave ccs => ConfChanger.enterJoint t autoLeave ccs
  | .leaveJoint => ConfChanger.leaveJoint t

/-- The part that `Simple` and `EnterJoint` end with: the draft passes the invariants. -/
theorem of_checked {cfg' : TrackerConfiguration} {prs : IncrChangeMap}
    (h : (checkInvariants cfg prs >>= fun _ => Except.ok (cfg, prs.changes)) =
      (.ok (cfg', changes) : Result (TrackerConfiguration × MapChange))) : cfg' = cfg := by
  obtain ⟨-, -, h⟩ := Result.bind_eq_ok.mp h
  cases h
  rfl

theorem simple_spec (h : simple t ccs = .ok (cfg, changes)) :
    t.conf.joint = false ∧ cfg.voters.outgoing = t.conf.voters.outgoing ∧
      cfg.voters.incoming.isEmpty = false ∧
      symmetricDifference cfg.voters.incoming t.conf.voters.incoming ≤ 1 := by
  unfold simple at h
  split at h
  · cases h
  next hjoint =>
    obtain ⟨d, hcopy, hrest⟩ := Result.bind_eq_ok.mp h
    obtain ⟨⟨cfg₁, prs⟩, happly, hend⟩ := Result.bind_eq_ok.mp hrest
    obtain ⟨hout, hin⟩ := apply_spec happly
    rw [checkAndCopy_eq hcopy] at hout
    dsimp only at hend
    split at hend
    · cases hend
    next hdiff =>
      obtain rfl := of_checked hend
      exact ⟨by simpa using hjoint, hout, hin, by omega⟩

theorem enterJoint_spec {autoLeave : Bool} (h : enterJoint t autoLeave ccs = .ok (cfg, changes)) :
    t.conf.joint = false ∧
      cfg.voters.outgoing = t.conf.voters.outgoing.insertAll t.conf.voters.incoming.elems ∧
      cfg.voters.incoming.isEmpty = false := by
  unfold enterJoint at h
  split at h
  · cases h
  next hjoint =>
    obtain ⟨⟨cfg₀, prs₀⟩, hcopy, hrest⟩ := Result.bind_eq_ok.mp h
    cases checkAndCopy_eq hcopy
    dsimp only at hrest
    split at hrest
    · cases hrest
    · obtain ⟨⟨cfg₁, prs⟩, happly, hend⟩ := Result.bind_eq_ok.mp hrest
      obtain ⟨hout, hin⟩ := apply_spec happly
      obtain rfl := of_checked hend
      exact ⟨by simpa using hjoint, hout, hin⟩

theorem leaveJoint_spec (h : leaveJoint t = .ok (cfg, changes)) :
    t.conf.joint = true ∧ cfg.voters.outgoing = ∅ ∧
      cfg.voters.incoming = t.conf.voters.incoming := by
  unfold leaveJoint at h
  split at h
  · cases h
  next hjoint =>
    obtain ⟨⟨cfg₀, prs₀⟩, hcopy, hrest⟩ := Result.bind_eq_ok.mp h
    cases checkAndCopy_eq hcopy
    obtain rfl := of_checked hrest
    exact ⟨by simpa using hjoint, rfl, rfl⟩

/-! ## Overlap -/

theorem outgoing_eq_nil (h : cfg.joint = false) : cfg.voters.outgoing.elems = [] := by
  simpa [TrackerConfiguration.joint, ListSet.isEmpty] using h

theorem elems_ne_nil {s : IdSet} (h : s.isEmpty = false) : s.elems ≠ [] := by
  simpa [ListSet.isEmpty] using h

/-- The old incoming voters are the outgoing voters of the joint configuration. -/
theorem mem_outgoing_insertAll (h : cfg.joint = false) (id : ℕ) :
    id ∈ cfg.voters.outgoing.insertAll cfg.voters.incoming.elems ↔ id ∈ cfg.voters.incoming := by
  rw [ListSet.mem_insertAll, ListSet.mem_def, ListSet.mem_def, outgoing_eq_nil h]
  simp

theorem symmetricDifference_eq_zero {s t : IdSet} (h : ∀ id, id ∈ s ↔ id ∈ t) :
    symmetricDifference s t = 0 := by
  unfold symmetricDifference
  have hst : (s.elems.countP fun id => decide (id ∉ t)) = 0 := by
    rw [List.countP_eq_zero]
    intro id hid
    simpa using (h id).mp hid
  have hts : (t.elems.countP fun id => decide (id ∉ s)) = 0 := by
    rw [List.countP_eq_zero]
    intro id hid
    simpa using (h id).mpr hid
  omega

section

variable (hvoters : t.conf.voters.incoming.isEmpty = false)
  (hwon : t.conf.voters.getVoteResult check = .won)
  (hwon' : cfg.voters.getVoteResult check' = .won)

include hvoters hwon hwon'

theorem simple_overlap (h : simple t ccs = .ok (cfg, changes)) :
    ∃ v, v ∈ t.conf.voters.incoming ∧ v ∈ cfg.voters.incoming ∧
      check v = some true ∧ check' v = some true := by
  obtain ⟨-, -, hin, hdiff⟩ := simple_spec h
  rw [getVoteResult_eq_won] at hwon hwon'
  obtain ⟨v, hnew, hold, hcheck', hcheck⟩ := MajorityConfig.won_inter_of_near
    (elems_ne_nil hin) (elems_ne_nil hvoters) hdiff hwon'.1 hwon.1
  exact ⟨v, hold, hnew, hcheck, hcheck'⟩

theorem enterJoint_overlap {autoLeave : Bool}
    (h : enterJoint t autoLeave ccs = .ok (cfg, changes)) :
    ∃ v, v ∈ t.conf.voters.incoming ∧ v ∈ cfg.voters.outgoing ∧
      check v = some true ∧ check' v = some true := by
  obtain ⟨hjoint, hout, -⟩ := enterJoint_spec h
  rw [getVoteResult_eq_won] at hwon hwon'
  have hsame : ∀ id, id ∈ t.conf.voters.incoming ↔ id ∈ cfg.voters.outgoing := by
    intro id
    rw [hout]
    exact (mem_outgoing_insertAll hjoint id).symm
  obtain ⟨id, hid⟩ := List.exists_mem_of_ne_nil _ (elems_ne_nil hvoters)
  refine MajorityConfig.won_inter_of_near (elems_ne_nil hvoters)
    (List.ne_nil_of_mem ((hsame id).mp hid)) ?_ hwon.1 hwon'.2
  rw [symmetricDifference_eq_zero hsame]
  exact Nat.zero_le 1

theorem leaveJoint_overlap (h : leaveJoint t = .ok (cfg, changes)) :
    ∃ v, v ∈ t.conf.voters.incoming ∧ v ∈ cfg.voters.incoming ∧
      check v = some true ∧ check' v = some true := by
  obtain ⟨-, -, hin⟩ := leaveJoint_spec h
  rw [getVoteResult_eq_won] at hwon hwon'
  rw [hin] at hwon' ⊢
  obtain ⟨v, hv, hcheck⟩ := MajorityConfig.won_inter (elems_ne_nil hvoters) hwon.1 hwon'.1
  exact ⟨v, hv, hv, hcheck⟩

end

theorem run_incoming {call : Call} (hvoters : t.conf.voters.incoming.isEmpty = false)
    (hrun : call.run t = .ok (cfg, changes)) : cfg.voters.incoming.isEmpty = false := by
  cases call with
  | simple ccs => exact (simple_spec hrun).2.2.1
  | enterJoint autoLeave ccs => exact (enterJoint_spec hrun).2.2
  | leaveJoint =>
      rw [(leaveJoint_spec hrun).2.2]
      exact hvoters

/-- A set that wins before a configuration change and a set that wins after it share a voter
of both configurations, and the new configuration still has incoming voters. -/
theorem quorums_overlap {call : Call} (hvoters : t.conf.voters.incoming.isEmpty = false)
    (hrun : call.run t = .ok (cfg, changes)) :
    cfg.voters.incoming.isEmpty = false ∧
      ∀ check check' : ℕ → Option Bool, t.conf.voters.getVoteResult check = .won →
        cfg.voters.getVoteResult check' = .won →
        ∃ v, t.conf.voters.contains v ∧ cfg.voters.contains v ∧
          check v = some true ∧ check' v = some true := by
  refine ⟨run_incoming hvoters hrun, fun check check' hwon hwon' => ?_⟩
  simp only [contains_iff]
  cases call with
  | simple ccs =>
      obtain ⟨v, hold, hnew, hcheck⟩ := simple_overlap hvoters hwon hwon' hrun
      exact ⟨v, Or.inl hold, Or.inl hnew, hcheck⟩
  | enterJoint autoLeave ccs =>
      obtain ⟨v, hold, hnew, hcheck⟩ := enterJoint_overlap hvoters hwon hwon' hrun
      exact ⟨v, Or.inl hold, Or.inr hnew, hcheck⟩
  | leaveJoint =>
      obtain ⟨v, hold, hnew, hcheck⟩ := leaveJoint_overlap hvoters hwon hwon' hrun
      exact ⟨v, Or.inl hold, Or.inl hnew, hcheck⟩

/-- A tracker of a group of voters. -/
def trackerOf (ids : List ℕ) : ProgressTracker :=
  { progress := ids.map fun id => (id, Progress.new 1 4)
    conf := { voters := { incoming := (∅ : IdSet).insertAll ids } }
    maxInflight := 4 }

/-- Replacing node 3 by node 4 in a group of three goes through a joint configuration. -/
def replacement : TrackerConfiguration where
  voters :=
    { incoming := ⟨[4, 2, 1], by decide⟩, outgoing := ⟨[1, 2, 3], by decide⟩ }

theorem quorums_overlap_replacement :
    ∃ changes, (Call.enterJoint false [⟨.addNode, 4⟩, ⟨.removeNode, 3⟩]).run
        (trackerOf [1, 2, 3]) = .ok (replacement, changes) ∧
      ∀ check check' : ℕ → Option Bool,
        (trackerOf [1, 2, 3]).conf.voters.getVoteResult check = .won →
        replacement.voters.getVoteResult check' = .won →
        ∃ v, (trackerOf [1, 2, 3]).conf.voters.contains v ∧ replacement.voters.contains v ∧
          check v = some true ∧ check' v = some true := by
  have hrun : (Call.enterJoint false [⟨.addNode, 4⟩, ⟨.removeNode, 3⟩]).run
      (trackerOf [1, 2, 3]) = .ok (replacement, [(4, .add)]) := by decide
  exact ⟨_, hrun, (quorums_overlap (by decide) hrun).2⟩

end ConfChanger

end Raftpp
