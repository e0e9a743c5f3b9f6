import Raftpp.Log.MaybeAppend
import Raftpp.Ready.Moves

/-!
# Leaving a joint configuration automatically

A leader in a joint configuration with `auto_leave` appends the change that leaves it
when the application passes the pending change.  `CommitApplyInternal` aborts if
the append is refused, and takes this to be impossible because the change is empty.
Its encoding is not: the append is refused whenever the proposals that are still
uncommitted leave no room for it.
-/

namespace Raftpp

open Option

namespace Raft

section Leave

variable {σ : Type} [WritableStorage σ] [Codec] [LawfulStorage σ] {r : Raft σ} {a : AbstractLog}
  {applied : ℕ}

/-- The uncommitted size leaves room for an empty configuration change. -/
def HasRoom (r : Raft σ) : Prop :=
  r.uncommittedState.maxUncommittedSize = kNoLimit ∨ r.uncommittedState.uncommittedSize = 0 ∨
    (Codec.confChangeV2Bytes {}).length + r.uncommittedState.uncommittedSize ≤
      r.uncommittedState.maxUncommittedSize

instance (r : Raft σ) : Decidable r.HasRoom := inferInstanceAs (Decidable (_ ∨ _ ∨ _))

/-- The entry that leaves a joint configuration. -/
def leaveEntry (term index : ℕ) : Entry :=
  let ent : Entry := { entryType := .entryConfChangeV2, data := Codec.confChangeV2Bytes {} }
  { ent with checksum := Codec.entryChecksum ent, term, index }

/-- A leader passes its pending change: the application has got there, and not beyond the
committed index. -/
structure PassesPending (r : Raft σ) (applied : ℕ) : Prop where
  leader : r.state = .leader
  autoLeave : r.tracker.conf.autoLeave = true
  before : r.raftLog.applied ≤ r.pendingConfIndex
  reached : r.pendingConfIndex ≤ applied
  committed : applied ≤ r.raftLog.committed

instance (r : Raft σ) : Decidable (r.PassesPending applied) :=
  decidable_of_iff (r.state = .leader ∧ r.tracker.conf.autoLeave = true ∧
      r.raftLog.applied ≤ r.pendingConfIndex ∧ r.pendingConfIndex ≤ applied ∧
      applied ≤ r.raftLog.committed)
    ⟨fun ⟨h₁, h₂, h₃, h₄, h₅⟩ => ⟨h₁, h₂, h₃, h₄, h₅⟩,
      fun ⟨h₁, h₂, h₃, h₄, h₅⟩ => ⟨h₁, h₂, h₃, h₄, h₅⟩⟩

/-- The node has appended the change that leaves the joint configuration. -/
structure Leaves (a : AbstractLog) (r r' : Raft σ) : Prop where
  log : r'.raftLog.Represents
    { a with entries := a.entries ++ [leaveEntry r.term (a.lastIndex + 1)] }
  pending : r'.pendingConfIndex = a.lastIndex + 1

omit [WritableStorage σ] [Codec] [LawfulStorage σ] in
theorem appliedTo_ok {l : RaftLog σ} (hback : l.applied ≤ applied) (hle : applied ≤ l.committed) :
    ∃ i, l.appliedTo applied = some { l with applied := i } := by
  unfold RaftLog.appliedTo
  split
  · exact ⟨l.applied, rfl⟩
  · rw [if_neg (by omega)]
    exact ⟨applied, rfl⟩

omit [WritableStorage σ] [Codec] [LawfulStorage σ] in
/-- The flow control accepts one entry of some size. -/
theorem accepts_iff (u : UncommittedState) (e : Entry) (hsize : 0 < e.data.length) :
    (u.maybeIncreaseUncommittedSize [e]).2 = true ↔
      u.maxUncommittedSize = kNoLimit ∨ u.uncommittedSize = 0 ∨
        e.data.length + u.uncommittedSize ≤ u.maxUncommittedSize := by
  unfold UncommittedState.maybeIncreaseUncommittedSize UncommittedState.isNoLimit
  simp only [decide_eq_true_eq, List.map_cons, List.map_nil, List.sum_cons, List.sum_nil,
    Nat.add_zero]
  split
  next hnone => simp [hnone]
  next hlimit =>
    split
    next hroom => simpa [hlimit, show e.data.length ≠ 0 by omega] using hroom
    next hroom => simpa [hlimit, show e.data.length ≠ 0 by omega] using hroom

/-- `CommitApply` past the pending change: it returns if there is room, and then has appended
the change that leaves the joint configuration. -/
theorem commitApply_leaves_iff (h : r.raftLog.Follows ⟨a, r.raftLog.committed, r.raftLog.applied⟩)
    (hpass : r.PassesPending applied) (hword : 0 < (Codec.confChangeV2Bytes {}).length) :
    ((r.commitApply applied).isSome ↔ r.HasRoom) ∧
      ∀ r', r.commitApply applied = some r' → Leaves a r r' := by
  obtain ⟨hleader, hauto, hbefore, hreached, hcommitted⟩ := hpass
  obtain ⟨i, happlied⟩ := appliedTo_ok (le_trans hbefore hreached) hcommitted
  have hroom := accepts_iff r.uncommittedState
    { entryType := .entryConfChangeV2, data := Codec.confChangeV2Bytes {}
      checksum := Codec.entryChecksum
        { entryType := .entryConfChangeV2, data := Codec.confChangeV2Bytes {} } } hword
  have hlog : RaftLog.Follows { r.raftLog with applied := i } ⟨a, r.raftLog.committed, i⟩ :=
    h.of_cursors rfl rfl rfl rfl le_rfl h.committed_le h.persisted_lt
  have hnumbered : NumberedFrom (a.lastIndex + 1) [leaveEntry r.term (a.lastIndex + 1)] :=
    numberedFrom_cons.mpr ⟨rfl, .nil _⟩
  obtain ⟨u, last, happend⟩ := hlog.append_ok (by simp) hnumbered
    (Nat.lt_succ_of_le h.committed_le) le_rfl
  have hafter := (hlog.append hnumbered happend).toRepresents
  have hlast := hafter.lastIndex
  simp only [leaveEntry] at happend
  simp only [commitApply, commitApplyInternal, setApplied, Bool.false_eq_true, if_false,
    bind_eq_bind, happlied, bind_some, hauto, hbefore, hleader, ge_iff_le, hreached,
    and_self, if_true, appendEntry, hlog.lastIndex, numberEntries]
  by_cases haccept : r.HasRoom
  · rw [if_pos (hroom.mpr haccept), happend]
    simp only [bind_some, if_true, hlast, isSome_some, haccept, iff_self, true_and,
      some.injEq, forall_eq']
    refine ⟨hafter, ?_⟩
    simp only [LogSpec.append, AbstractLog.lastIndex, List.length_append, List.length_cons,
      List.length_nil]
    omega
  · rw [if_neg (fun hcontra => haccept (hroom.mp hcontra))]
    simp [haccept]

end Leave

end Raft

namespace Driven

section Runs

variable {σ : Type} [WritableStorage σ] [Codec] [LawfulStorage σ]

/-- In every state that a node reaches, `AdvanceApplyTo` past the pending change returns exactly
if the uncommitted proposals leave room for the change that leaves the joint configuration, and
then has appended it. -/
theorem autoLeave_appended_iff {config : Config} {store : σ} {rng : ℕ → ℕ} {n : RawNode σ}
    {ops : List Drive} {d : Driven σ} {pages : List (Page σ)} {applied : ℕ}
    (hstore : (LawfulStorage.view store).Contiguous)
    (hnew : RawNode.new config store rng = some n) (hrun : Run Legal { node := n } ops d pages)
    (hpass : d.node.raft.PassesPending applied)
    (hword : 0 < (Codec.confChangeV2Bytes {}).length) :
    ((d.node.advanceApplyTo applied).isSome ↔ d.node.raft.HasRoom) ∧
      ∃ a, d.node.raft.raftLog.Represents a ∧
        ∀ node, d.node.advanceApplyTo applied = some node →
          Raft.Leaves a d.node.raft node.raft := by
  obtain ⟨a, hsound, -⟩ := (Sound.new hstore hnew).1.run (fun _ _ hop => hop) hrun
  obtain ⟨hiff, hleaves⟩ := Raft.commitApply_leaves_iff hsound.log.toFollows hpass hword
  refine ⟨?_, a, hsound.log.toRepresents, fun node hnode => ?_⟩
  · rw [← hiff, RawNode.advanceApplyTo]
    cases d.node.raft.commitApply applied <;> simp
  · unfold RawNode.advanceApplyTo at hnode
    obtain ⟨raft, hraft, heq⟩ := of_bind hnode
    cases heq
    exact hleaves raft hraft

end Runs

/-- Two nodes join the group of one voter, through a joint configuration. -/
def joinTwo : ConfChangeV2 where
  transition := .implicit
  changes := [⟨.addNode, 2⟩, ⟨.addNode, 3⟩]

/-- A codec that spends one word on a configuration change. -/
@[reducible]
def wordCodec : Codec :=
  { Codec.plain with
    confChangeV2Bytes := fun cc => List.replicate 8 (if cc = {} then 0 else 1)
    confChangeV2OfBytes := fun bytes =>
      if bytes = List.replicate 8 0 then some {} else some joinTwo }

/-- A single voter with room for sixteen bytes of uncommitted proposals. -/
def boundedConfig : Config := { id := 1, maxUncommittedSize := 16 }

/-- The voter commits the change and applies it, but does not report that yet. -/
def joinsTwo : List Drive :=
  [.input .campaign, .ready, .advance, .proposeConfChange [] joinTwo, .ready, .advance,
    .applyConfChange joinTwo]

theorem autoLeave_appended_joined :
    letI := wordCodec
    ∃ n d pages node, RawNode.new boundedConfig soloStore (fun _ => 0) = some n ∧
      Run Legal { node := n } joinsTwo d pages ∧ d.node.raft.PassesPending 2 ∧
      d.node.advanceApplyTo 2 = some node ∧
      ∃ a, d.node.raft.raftLog.Represents a ∧ Raft.Leaves a d.node.raft node.raft := by
  obtain ⟨n, hnew, d, pages, hrun, hpass, hroom⟩ : letI := wordCodec
      ∃ n, RawNode.new boundedConfig soloStore (fun _ => 0) = some n ∧
        ∃ d pages, Run Legal { node := n } joinsTwo d pages ∧ d.node.raft.PassesPending 2 ∧
          d.node.raft.HasRoom := by
    decide +kernel
  let _ := wordCodec
  obtain ⟨hiff, a, hrep, hleaves⟩ :=
    autoLeave_appended_iff soloStore_contiguous hnew hrun hpass (by decide)
  obtain ⟨node, hnode⟩ := isSome_iff_exists.mp (hiff.mpr hroom)
  exact ⟨n, d, pages, node, hnew, hrun, hpass, hnode, a, hrep, hleaves node hnode⟩

/-- A proposal of twelve bytes in between: the leave entry is refused, and the node aborts when
the application reports what it has applied. -/
theorem autoLeave_dropped :
    letI := wordCodec
    ∃ n d pages, RawNode.new boundedConfig soloStore (fun _ => 0) = some n ∧
      Run Legal { node := n } (joinsTwo ++ [.input (.propose [] (List.replicate 12 0))]) d pages ∧
      d.node.raft.PassesPending 2 ∧ d.node.raft.tracker.conf.joint = true ∧
      d.node.commitSinceIndex = 2 ∧ d.node.advanceApply = none := by
  simp only [exists_and_left, ← isNone_iff_eq_none]
  decide +kernel

end Driven

end Raftpp
