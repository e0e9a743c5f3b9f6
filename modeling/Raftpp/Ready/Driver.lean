import Raftpp.Cluster.System
import Raftpp.Protocol.Node
import Raftpp.Ready.Sound

/-!
# Driving a raw node

An application drives a `RawNode` in cycles: it takes a `Ready`, writes it to the
storage, and tells the node so, either with `Advance` or `AdvanceAppend`, or with
`AdvanceAppendAsync` and a later `OnPersistReady`.  `Driven` is a node together with
what its application knows, `Drive` lists the calls, and a run is a sequence of
calls that the application may make.

Between two cycles the node takes any input.  While a `Ready` is being worked on,
the application may apply configuration changes and report what is applied or was
persisted earlier.
-/

namespace Raftpp

open Option

/-- A message that a node may receive from a peer. -/
structure Message.Arrives (id : ℕ) (m : Message) : Prop where
  receiver : m.receiver = id
  sender : m.sender ≠ id
  term_ne : m.msgType.isProtocol = true → ¬m.Rejects → m.term ≠ 0
  numbered : m.Numbered

instance (m : Message) : Decidable m.Rejects :=
  inferInstanceAs (Decidable (m.msgType = .msgAppendResponse ∧ m.reject = true))

instance (id : ℕ) (m : Message) : Decidable (m.Arrives id) :=
  decidable_of_iff (m.receiver = id ∧ m.sender ≠ id ∧
    (m.msgType.isProtocol = true → ¬m.Rejects → m.term ≠ 0) ∧ m.Numbered)
    ⟨fun h => ⟨h.1, h.2.1, h.2.2.1, h.2.2.2⟩,
      fun h => ⟨h.receiver, h.sender, h.term_ne, h.numbered⟩⟩

/-- A node and its application: the `Ready` it works on, all it has taken, newest first, and
the number up to which it has reported them as persisted. -/
structure Driven (σ : Type) where
  node : RawNode σ
  pending : Option Ready := none
  taken : List Ready := []
  acked : ℕ := 0

/-- The calls of an application. -/
inductive Drive
  | input (call : RawNode.Input)
  | proposeConfChange (ctx : Bytes) (cc : ConfChangeV2)
  | applyConfChange (cc : ConfChangeV2)
  | ready
  | advance
  | advanceAppend
  | advanceAppendAsync
  | onPersistReady (number : ℕ)
  | advanceApplyTo (applied : ℕ)
  deriving DecidableEq

/-- Committed entries handed to the application, with the log they were taken from and the
snapshot that came with them. -/
structure Page (σ : Type) where
  log : RaftLog σ
  snapshot : Option ℕ := none
  entries : List Entry

/-- What a node records of a `Ready`. -/
def Ready.record (rd : Ready) : ReadyRecord where
  number := rd.number
  lastEntry := rd.entries.getLast?.map fun e => (e.index, e.term)
  snapshot := rd.snapshot.map fun s => (s.metadata.index, s.metadata.term)

namespace Driven

variable {σ : Type} [WritableStorage σ] [Codec] {d d' : Driven σ} {pages : List (Page σ)}

/-- A call that hands out nothing. -/
def withNode (d : Driven σ) (call : Option (RawNode σ)) : Option (Driven σ × List (Page σ)) :=
  call.map fun node => ({ d with node }, [])

/-- A call between two cycles. -/
def whenIdle (d : Driven σ) (call : Option (Driven σ × List (Page σ))) :
    Option (Driven σ × List (Page σ)) :=
  if d.pending = none then call else none

omit [WritableStorage σ] [Codec] in
theorem of_withNode {call : Option (RawNode σ)} (h : d.withNode call = some (d', pages)) :
    ∃ node, call = some node ∧ d' = { d with node } ∧ pages = [] := by
  obtain ⟨node, hnode, heq⟩ := map_eq_some_iff.mp h
  cases heq
  exact ⟨node, hnode, rfl, rfl⟩

omit [WritableStorage σ] [Codec] in
theorem of_whenIdle {call : Option (Driven σ × List (Page σ))}
    (h : d.whenIdle call = some (d', pages)) : d.pending = none ∧ call = some (d', pages) := by
  unfold whenIdle at h
  split at h
  next hnone => exact ⟨hnone, h⟩
  · cases h

/-- `GetReady`, and the writes it asks for. -/
def takeReady (d : Driven σ) : Option (Driven σ × List (Page σ)) := do
  let (node, rd) ← d.node.processReady
  some
    ({ d with node, pending := some rd, taken := rd :: d.taken },
      [{ log := d.node.raft.raftLog, snapshot := rd.snapshot.map fun s => s.metadata.index
         entries := rd.light.committedEntries }])

/-- `AdvanceAppend`. -/
def advanceAppend (d : Driven σ) (rd : Ready) : Option (Driven σ × List (Page σ)) := do
  let (node, light) ← d.node.advanceAppend rd
  some
    ({ d with node, pending := none, acked := max d.acked node.maxNumber },
      [{ log := node.raft.raftLog, entries := light.committedEntries }])

/-- `Advance`. -/
def advance (d : Driven σ) (rd : Ready) : Option (Driven σ × List (Page σ)) := do
  let applied := d.node.commitSinceIndex
  let (d, pages) ← d.advanceAppend rd
  some ({ d with node := ← d.node.advanceApplyTo applied }, pages)

/-- `AdvanceAppendAsync`. -/
def advanceAppendAsync (d : Driven σ) (rd : Ready) : Option (Driven σ × List (Page σ)) := do
  some ({ d with node := ← d.node.advanceAppendAsync rd, pending := none }, [])

/-- `OnPersistReady`. -/
def onPersistReady (d : Driven σ) (number : ℕ) : Option (Driven σ × List (Page σ)) := do
  some ({ d with node := ← d.node.onPersistReady number, acked := max d.acked number }, [])

/-- One call. -/
def step (d : Driven σ) : Drive → Option (Driven σ × List (Page σ))
  | .input call => d.whenIdle (d.withNode (d.node.input call))
  | .proposeConfChange ctx cc =>
      d.whenIdle (d.withNode ((d.node.proposeConfChange ctx cc).map Prod.fst))
  | .applyConfChange cc => d.withNode ((d.node.applyConfChange cc).map Prod.fst)
  | .ready => d.whenIdle d.takeReady
  | .advance => d.pending.bind d.advance
  | .advanceAppend => d.pending.bind d.advanceAppend
  | .advanceAppendAsync => d.pending.bind d.advanceAppendAsync
  | .onPersistReady number => d.onPersistReady number
  | .advanceApplyTo applied => d.withNode (d.node.advanceApplyTo applied)

/-- The calls of the node that a call of the application is made of. -/
inductive Makes (d : Driven σ) : Drive → Driven σ → List (Page σ) → Prop
  | input (call : RawNode.Input) (node : RawNode σ) (hidle : d.pending = none)
      (hcall : d.node.input call = some node) : Makes d (.input call) { d with node } []
  | proposeConfChange (ctx : Bytes) (cc : ConfChangeV2) (node : RawNode σ)
      (hidle : d.pending = none)
      (hcall : (d.node.proposeConfChange ctx cc).map Prod.fst = some node) :
      Makes d (.proposeConfChange ctx cc) { d with node } []
  | applyConfChange (cc : ConfChangeV2) (node : RawNode σ)
      (hcall : (d.node.applyConfChange cc).map Prod.fst = some node) :
      Makes d (.applyConfChange cc) { d with node } []
  | ready (node : RawNode σ) (rd : Ready) (hidle : d.pending = none)
      (hready : d.node.processReady = some (node, rd)) :
      Makes d .ready { d with node, pending := some rd, taken := rd :: d.taken }
        [{ log := d.node.raft.raftLog, snapshot := rd.snapshot.map fun s => s.metadata.index
           entries := rd.light.committedEntries }]
  | advance (rd : Ready) (node node' : RawNode σ) (light : LightReady)
      (hpending : d.pending = some rd) (happend : d.node.advanceAppend rd = some (node, light))
      (happly : node.advanceApplyTo d.node.commitSinceIndex = some node') :
      Makes d .advance
        { d with node := node', pending := none, acked := max d.acked node.maxNumber }
        [{ log := node.raft.raftLog, entries := light.committedEntries }]
  | advanceAppend (rd : Ready) (node : RawNode σ) (light : LightReady)
      (hpending : d.pending = some rd) (happend : d.node.advanceAppend rd = some (node, light)) :
      Makes d .advanceAppend
        { d with node, pending := none, acked := max d.acked node.maxNumber }
        [{ log := node.raft.raftLog, entries := light.committedEntries }]
  | advanceAppendAsync (rd : Ready) (node : RawNode σ) (hpending : d.pending = some rd)
      (hcommit : d.node.commitReady rd = some node) :
      Makes d .advanceAppendAsync { d with node, pending := none } []
  | onPersistReady (number : ℕ) (node : RawNode σ)
      (hpersist : d.node.onPersistReady number = some node) :
      Makes d (.onPersistReady number) { d with node, acked := max d.acked number } []
  | advanceApplyTo (applied : ℕ) (node : RawNode σ)
      (hcall : d.node.advanceApplyTo applied = some node) :
      Makes d (.advanceApplyTo applied) { d with node } []

theorem step_makes {op : Drive} (h : d.step op = some (d', pages)) : Makes d op d' pages := by
  cases op with
  | input call =>
      obtain ⟨hidle, h⟩ := of_whenIdle h
      obtain ⟨node, hcall, rfl, rfl⟩ := of_withNode h
      exact .input call node hidle hcall
  | proposeConfChange ctx cc =>
      obtain ⟨hidle, h⟩ := of_whenIdle h
      obtain ⟨node, hcall, rfl, rfl⟩ := of_withNode h
      exact .proposeConfChange ctx cc node hidle hcall
  | applyConfChange cc =>
      obtain ⟨node, hcall, rfl, rfl⟩ := of_withNode h
      exact .applyConfChange cc node hcall
  | ready =>
      obtain ⟨hidle, h⟩ := of_whenIdle h
      obtain ⟨⟨node, rd⟩, hready, h⟩ := of_bind h
      cases h
      exact .ready node rd hidle hready
  | advance =>
      obtain ⟨rd, hpending, h⟩ := of_bind h
      obtain ⟨⟨d₁, pages₁⟩, hfirst, h⟩ := of_bind h
      obtain ⟨⟨node, light⟩, happend, hfirst⟩ := of_bind hfirst
      obtain ⟨node', happly, h⟩ := of_bind h
      cases hfirst
      cases h
      exact .advance rd node node' light hpending happend happly
  | advanceAppend =>
      obtain ⟨rd, hpending, h⟩ := of_bind h
      obtain ⟨⟨node, light⟩, happend, h⟩ := of_bind h
      cases h
      exact .advanceAppend rd node light hpending happend
  | advanceAppendAsync =>
      obtain ⟨rd, hpending, h⟩ := of_bind h
      obtain ⟨node, hcommit, h⟩ := of_bind h
      cases h
      exact .advanceAppendAsync rd node hpending hcommit
  | onPersistReady number =>
      obtain ⟨node, hpersist, h⟩ := of_bind h
      cases h
      exact .onPersistReady number node hpersist
  | advanceApplyTo applied =>
      obtain ⟨node, hcall, rfl, rfl⟩ := of_withNode h
      exact .advanceApplyTo applied node hcall

/-- Messages come from peers, and a `Ready` is reported as persisted after the node was told
that it is written. -/
def Legal (d : Driven σ) : Drive → Prop
  | .input (.step m) => m.Arrives d.node.raft.id
  | .onPersistReady number =>
      number ≤ d.node.maxNumber ∧ ∀ rd, d.pending = some rd → number < rd.number
  | _ => True

instance (d : Driven σ) (op : Drive) : Decidable (d.Legal op) := by
  unfold Legal
  split
  · infer_instance
  next number =>
    exact inferInstanceAs (Decidable
      (number ≤ d.node.maxNumber ∧ ∀ rd ∈ d.pending, number < rd.number))
  · infer_instance

/-- A sequence of calls that meet `P`, none of which aborts, and what they hand out. -/
inductive Run (P : Driven σ → Drive → Prop) :
    Driven σ → List Drive → Driven σ → List (Page σ) → Prop
  | nil (d : Driven σ) : Run P d [] d []
  | cons {d d₁ d₂ : Driven σ} {op : Drive} {ops : List Drive} {pages rest : List (Page σ)}
      (hop : P d op) (hstep : d.step op = some (d₁, pages)) (hrun : Run P d₁ ops d₂ rest) :
      Run P d (op :: ops) d₂ (pages ++ rest)

/-- Make a sequence of calls as long as they meet `P`. -/
def runAll (P : Driven σ → Drive → Prop) [∀ d op, Decidable (P d op)] (d : Driven σ) :
    List Drive → Option (Driven σ × List (Page σ))
  | [] => some (d, [])
  | op :: ops =>
      if P d op then do
        let (d₁, pages) ← d.step op
        let (d₂, rest) ← d₁.runAll P ops
        some (d₂, pages ++ rest)
      else none

theorem runAll_iff {P : Driven σ → Drive → Prop} [∀ d op, Decidable (P d op)] {ops : List Drive} :
    d.runAll P ops = some (d', pages) ↔ Run P d ops d' pages := by
  refine ⟨fun h => ?_, fun h => ?_⟩
  · induction ops generalizing d pages with
    | nil =>
        cases h
        exact .nil _
    | cons op ops ih =>
        unfold runAll at h
        split at h
        next hop =>
          obtain ⟨⟨d₁, first⟩, hstep, h⟩ := of_bind h
          obtain ⟨⟨d₂, rest⟩, hrest, h⟩ := of_bind h
          cases h
          exact .cons hop hstep (ih hrest)
        · cases h
  · induction h with
    | nil d => rfl
    | cons hop hstep _ ih => simp [runAll, hop, hstep, ih]

/-- What a run ends with is found out by making it. -/
instance {P : Driven σ → Drive → Prop} [∀ d op, Decidable (P d op)] {ops : List Drive}
    {Q : Driven σ → List (Page σ) → Prop} [∀ d pages, Decidable (Q d pages)] :
    Decidable (∃ d' pages, Run P d ops d' pages ∧ Q d' pages) :=
  decidable_of_iff (∃ d' pages, d.runAll P ops = some (d', pages) ∧ Q d' pages)
    (by simp only [runAll_iff])

/-- The storage of a node that is the only voter. -/
def soloStore : MemoryStorage := { confState := { voters := [1] } }

theorem soloStore_contiguous : (LawfulStorage.view soloStore).Contiguous :=
  show NumberedFrom 1 soloStore.entries by decide

end Driven

/-! ## What the calls of a raw node leave alone -/

namespace RawNode

variable {σ : Type} [Storage σ] [Codec] {env : Env} {n n' : RawNode σ}

/-- The entry of `ProposeConfChange`. -/
def confChangeEntry (ctx : Bytes) (cc : ConfChangeV2) : Entry :=
  setEntryChecksum
    { entryType := .entryConfChangeV2, data := Codec.confChangeV2Bytes cc, context := ctx }

theorem proposeConfChange_eq {ctx : Bytes} {cc : ConfChangeV2}
    (hpropose : env.propose (confChangeEntry ctx cc))
    (h : (n.proposeConfChange ctx cc).map Prod.fst = some n') :
    ∃ raft, Steps env n.raft.core raft.core ∧ n' = { n with raft } := by
  obtain ⟨raft, result, hcall, rfl⟩ := of_withRaft h
  refine ⟨raft, Raft.step_local_steps ⟨rfl, by simp, by simp [MessageType.elects], ?_⟩ hcall, rfl⟩
  intro _ e he
  obtain rfl := List.mem_singleton.mp he
  exact hpropose

theorem processReady_eq {σ : Type} [WritableStorage σ] {n n' : RawNode σ} {rd : Ready}
    (h : n.processReady = some (n', rd)) :
    ∃ n₁ store, n.getReady = some (n₁, rd) ∧ persist n.raft.raftLog.store rd = some store ∧
      n' = n₁.setStore store := by
  obtain ⟨⟨n₁, rd₁⟩, hget, h⟩ := of_bind h
  obtain ⟨store, hpersist, h⟩ := of_bind h
  cases h
  have hlog := (getReady_takes hget).raftLog
  exact ⟨n₁, store, hget, hlog ▸ hpersist, rfl⟩

theorem applyConfChange_eq {cc : ConfChangeV2} (h : (n.applyConfChange cc).map Prod.fst = some n') :
    ∃ tracker promotable raft,
      (tracker = n.raft.tracker ∨
        ∃ cfg changes last, tracker = n.raft.tracker.applyConf cfg changes last) ∧
      Reacts env { n.raft with tracker, promotable } raft ∧ n' = { n with raft } := by
  obtain ⟨raft, result, hcall, rfl⟩ := of_withRaft h
  obtain ⟨tracker, promotable, htracker, hreacts⟩ := Raft.applyConfChange_reacts hcall
  exact ⟨tracker, promotable, raft, htracker, hreacts, rfl⟩

/-- What `GetLightReady` does besides emptying the queue. -/
structure Hands (n n' : RawNode σ) (entries : List Entry) : Prop where
  next : ∃ es, n.raft.raftLog.nextEntriesSince n.commitSinceIndex
    (some n.raft.maxCommittedSizePerReady) = some es ∧ entries = es.getD []
  since : n.commitSinceAfter entries = some n'.commitSinceIndex
  records : n'.records = n.records
  maxNumber : n'.maxNumber = n.maxNumber
  prevSs : n'.prevSs = n.prevSs
  uncommitted : n'.raft.uncommittedState = (n.raft.reduceUncommittedSize entries).uncommittedState

theorem getLightReady_hands {light : LightReady} (h : n.getLightReady = some (n', light)) :
    Hands n n' light.committedEntries := by
  unfold getLightReady at h
  obtain ⟨entries, hnext, h⟩ := of_bind h
  obtain ⟨since, hsince, h⟩ := of_bind h
  cases h
  exact ⟨⟨entries, hnext, rfl⟩, hsince, rfl, rfl, rfl, rfl⟩

/-- Where delivery goes on when a `Ready` is taken: after the pending snapshot, or where it
was. -/
def ReadySince (n : RawNode σ) (since : ℕ) : Prop :=
  (n.raft.raftLog.unstable.snapshot = none ∧ since = n.commitSinceIndex) ∨
    ∃ snapshot, n.raft.raftLog.unstable.snapshot = some snapshot ∧
      n.commitSinceIndex ≤ snapshot.metadata.index ∧ since = snapshot.metadata.index

/-- What `GetReady` does besides emptying the queue. -/
structure Offers (n n' : RawNode σ) (rd : Ready) : Prop where
  number : rd.number = n.maxNumber + 1
  maxNumber : n'.maxNumber = rd.number
  records : ∃ rs, n.readyRecords = some rs ∧ n'.records = rs ++ [rd.record]
  entries : ∃ since es, ReadySince n since ∧ n.raft.raftLog.nextEntriesSince since
      (some n.raft.maxCommittedSizePerReady) = some es ∧ rd.light.committedEntries = es.getD [] ∧
    { n with commitSinceIndex := since }.commitSinceAfter rd.light.committedEntries =
      some n'.commitSinceIndex
  prevSs : n'.prevSs = n.prevSs
  uncommitted : n'.raft.uncommittedState =
    (n.raft.reduceUncommittedSize rd.light.committedEntries).uncommittedState

omit [Codec] in
theorem readySnapshot_since (h : n.readySnapshot = some n') :
    ∃ since, ReadySince n since ∧ n' = { n with commitSinceIndex := since } := by
  unfold readySnapshot at h
  split at h
  next hnone => exact ⟨n.commitSinceIndex, Or.inl ⟨hnone, rfl⟩, (some.inj h).symm⟩
  next snapshot hsome =>
    split at h
    next hle =>
      obtain ⟨more, -, h⟩ := of_bind h
      split at h
      · cases h
      · exact ⟨_, Or.inr ⟨snapshot, hsome, hle, rfl⟩, (some.inj h).symm⟩
    · cases h

theorem getReady_offers {rd : Ready} (h : n.getReady = some (n', rd)) : Offers n n' rd := by
  unfold getReady at h
  obtain ⟨records, hrecords, h⟩ := of_bind h
  obtain ⟨n₁, hsnapshot, h⟩ := of_bind h
  obtain ⟨since, hsince, rfl⟩ := readySnapshot_since hsnapshot
  obtain ⟨⟨n₂, light⟩, hlight, h⟩ := of_bind h
  cases h
  obtain ⟨⟨es, hnext, hentries⟩, hsince', hrecords', hnumber, hprev, huncommitted⟩ :=
    getLightReady_hands hlight
  refine ⟨rfl, hnumber, ⟨records, hrecords, by rw [hrecords']; rfl⟩,
    ⟨since, es, hsince, hnext, hentries, hsince'⟩, hprev, huncommitted.trans ?_⟩
  unfold Raft.reduceUncommittedSize
  split <;> rfl

end RawNode

end Raftpp
