import Raftpp.Raftor.Process

/-!
# What a `Ready` asks to be synced

A `Ready` with `must_sync` set is to be durable before its messages go out.  The
processor appends the entries, writes the hard state and syncs, and then applies the
snapshot: the call of `Sync` belongs to the hard state.  A `Ready` without one, as a
follower has when it appends entries of the current term, is not synced, and neither is
a snapshot.

The storage here is any storage with a journal of its calls.
-/

namespace Raftpp

open Ready
open WritableStorage (append setHardState sync)

/-- A call that a storage received, and whether it succeeded. -/
inductive StorageCall
  | append (ok : Bool)
  | setHardState (ok : Bool)
  | applySnapshot (ok : Bool)
  | sync (ok : Bool)
  deriving DecidableEq

/-- Everything that a `Sync` is to make durable has been synced. -/
def Settled : List StorageCall → Prop
  | [] => True
  | .sync _ :: calls => Settled calls
  | _ :: calls => .sync true ∈ calls ∧ Settled calls

/-- A storage with a journal of the calls that write a `Ready`. -/
structure Journaled (σ : Type) where
  store : σ
  calls : List StorageCall := []

namespace Journaled

variable {σ : Type}

def record (s : Journaled σ) (call : Bool → StorageCall) (write : σ × Result Unit) :
    Journaled σ × Result Unit :=
  ({ store := write.1, calls := s.calls ++ [call write.2.isOk] }, write.2)

def unrecorded (s : Journaled σ) (write : σ × Result Unit) : Journaled σ × Result Unit :=
  ({ s with store := write.1 }, write.2)

instance [WritableStorage σ] : WritableStorage (Journaled σ) where
  initialState s := Storage.initialState s.store
  entries s := Storage.entries s.store
  term s := Storage.term s.store
  firstIndex s := Storage.firstIndex s.store
  lastIndex s := Storage.lastIndex s.store
  getSnapshot s := Storage.getSnapshot s.store
  append s es := s.record .append (append s.store es)
  setHardState s hs := s.record .setHardState (setHardState s.store hs)
  setConfState s cs := s.unrecorded (WritableStorage.setConfState s.store cs)
  applySnapshot s snap := s.record .applySnapshot (WritableStorage.applySnapshot s.store snap)
  applyLocalSnapshot s snap := s.unrecorded (WritableStorage.applyLocalSnapshot s.store snap)
  sync s := s.record .sync (sync s.store)

instance [PeerStorage σ] : PeerStorage (Journaled σ) where
  upsertPeerAddress s id addr := s.unrecorded (PeerStorage.upsertPeerAddress s.store id addr)
  removePeerAddress s id := s.unrecorded (PeerStorage.removePeerAddress s.store id)

end Journaled

/-! ## What a `Ready` asks for -/

namespace Ready

/-- The snapshot that the processor hands on. -/
def installs (rd : Ready) : Option Snapshot := rd.snapshot.filter fun s => s.metadata.index ≠ 0

/-- The calls of a `Ready` that is written. -/
def calls (rd : Ready) : List StorageCall :=
  (if rd.entries = [] then [] else [.append true]) ++
    (if rd.hs.isSome then
      if rd.mustSync then [.setHardState true, .sync true] else [.setHardState true]
    else []) ++
    if rd.installs.isSome then [.applySnapshot true] else []

/-- The sync is the last call of the `Ready`, or it asks for no call. -/
def SyncsLast (rd : Ready) : Prop :=
  rd.installs = none ∧ (rd.hs ≠ none ∨ rd.entries = [])

/-- What the sync is for has been synced if and only if it comes last. -/
theorem settled_calls_iff {rd : Ready} (hsync : rd.mustSync = true) :
    Settled rd.calls ↔ rd.SyncsLast := by
  unfold calls SyncsLast
  rw [hsync]
  by_cases hentries : rd.entries = [] <;> cases hhs : rd.hs <;> cases hinstalls : rd.installs <;>
    simp [hentries, Settled]

end Ready

/-! ## Writing a `Ready` -/

/-- A sequence of storage calls, of which each one is accepted. -/
def AcceptsAll {σ : Type} : List (σ → σ × Result Unit) → σ → Prop
  | [], _ => True
  | call :: calls, s => Accepts (call s) ∧ AcceptsAll calls (call s).1

namespace Ready

variable {σ : Type} [WritableStorage σ] (rd : Ready)

def entryWrites : List (σ → σ × Result Unit) :=
  if rd.entries = [] then [] else [fun s => append s rd.entries]

def hardStateWrites : List (σ → σ × Result Unit) :=
  match rd.hs with
  | none => []
  | some hs =>
      (fun s => setHardState s hs) ::
        if rd.mustSync then [sync] else []

def snapshotWrites : List (σ → σ × Result Unit) :=
  match rd.installs with
  | none => []
  | some snapshot => [fun s => WritableStorage.applySnapshot s snapshot]

/-- The storage calls that write a `Ready`. -/
def storageWrites : List (σ → σ × Result Unit) :=
  rd.entryWrites ++ rd.hardStateWrites ++ rd.snapshotWrites

/-- The state machine takes the snapshot. -/
def Restores {μ : Type} [StateMachine μ] (machine : μ) : Prop :=
  ∀ snapshot, rd.installs = some snapshot →
    (StateMachine.restoreSnapshot machine snapshot.metadata snapshot.data).2 = .ok ()

end Ready

/-- The storage after a sequence of calls. -/
def afterAll {σ : Type} (calls : List (σ → σ × Result Unit)) (s : σ) : σ :=
  calls.foldl (fun s call => (call s).1) s

theorem acceptsAll_append {σ : Type} (calls calls' : List (σ → σ × Result Unit)) (s : σ) :
    AcceptsAll (calls ++ calls') s ↔ AcceptsAll calls s ∧ AcceptsAll calls' (afterAll calls s) := by
  induction calls generalizing s with
  | nil => simp [AcceptsAll, afterAll]
  | cons call calls ih => simp [AcceptsAll, afterAll, ih, and_assoc]

namespace ReadyProcessor

variable {σ μ : Type} {p : ReadyProcessor (Journaled σ) μ}
  {ws ws' : List (Journaled σ → Journaled σ × Result Unit)} {ks ks' : List StorageCall}
  {x : ReadyProcessor (Journaled σ) μ × Result Unit}

/-- A part of `Process` that writes by the storage calls `ws`, which the journal has as `ks` if
all of them succeed, and does nothing else. -/
structure Persists (p : ReadyProcessor (Journaled σ) μ)
    (ws : List (Journaled σ → Journaled σ × Result Unit)) (ks : List StorageCall)
    (x : ReadyProcessor (Journaled σ) μ × Result Unit) : Prop where
  transport : x.1.transport = p.transport
  machine : x.1.stateMachine = p.stateMachine
  calls : ∃ made, x.1.store.calls = p.store.calls ++ made ∧ (x.2 = .ok () → made = ks)
  result : x.2 = .ok () ↔ AcceptsAll ws p.store
  store : x.2 = .ok () → x.1.store = afterAll ws p.store

theorem Persists.nil (p : ReadyProcessor (Journaled σ) μ) (applied : ℕ) :
    Persists p [] [] ({ p with appliedIndex := applied }, .ok ()) :=
  ⟨rfl, rfl, ⟨[], by simp [ReadyProcessor.store], fun _ => rfl⟩, iff_of_true rfl trivial,
    fun _ => rfl⟩

/-- One call that the journal records. -/
theorem Persists.write (kind : Bool → StorageCall) (w : σ → σ × Result Unit)
    (p : ReadyProcessor (Journaled σ) μ) :
    Persists p [fun s => s.record kind (w s.store)] [kind true]
      ((p.write fun s => s.record kind (w s.store)).1,
        dropped (p.write fun s => s.record kind (w s.store)).2) := by
  refine ⟨rfl, rfl, ⟨[kind (w p.store.store).2.isOk], rfl, fun hok => ?_⟩, ?_, fun _ => rfl⟩
  · have hresult : (w p.store.store).2 = .ok () := dropped_ok.mp hok
    rw [hresult]
    rfl
  · show dropped _ = _ ↔ _
    rw [dropped_ok]
    exact ⟨fun hok => ⟨hok, trivial⟩, fun hok => hok.1⟩

theorem Persists.andThen {next : ReadyProcessor (Journaled σ) μ →
    ReadyProcessor (Journaled σ) μ × Result Unit} (h : Persists p ws ks x)
    (hnext : ∀ q, Persists q ws' ks' (next q)) :
    Persists p (ws ++ ws') (ks ++ ks') (andThen x next) := by
  obtain ⟨made, hmade, hkinds⟩ := h.calls
  unfold ReadyProcessor.andThen
  split
  next hok =>
    have hq := hnext x.1
    obtain ⟨made', hmade', hkinds'⟩ := hq.calls
    refine ⟨hq.transport.trans h.transport, hq.machine.trans h.machine, ⟨made ++ made', ?_, ?_⟩,
      ?_, ?_⟩
    · rw [hmade', hmade, List.append_assoc]
    · intro hdone
      rw [hkinds hok, hkinds' hdone]
    · rw [acceptsAll_append, ← h.store hok, hq.result]
      exact ⟨fun hall => ⟨h.result.mp hok, hall⟩, fun hall => hall.2⟩
    · intro hdone
      rw [hq.store hdone, h.store hok, afterAll, afterAll, afterAll, List.foldl_append]
  next e herror =>
    have hfails : x.2 ≠ .ok () := by simp [herror]
    refine ⟨h.transport, h.machine, ⟨made, hmade, fun hdone => absurd hdone hfails⟩, ?_,
      fun hdone => absurd hdone hfails⟩
    rw [acceptsAll_append, ← h.result]
    exact ⟨fun hdone => absurd hdone hfails, fun hall => absurd hall.1 hfails⟩

variable [WritableStorage σ] {rd : Ready}

theorem persistEntries_persists (rd : Ready) (p : ReadyProcessor (Journaled σ) μ) :
    Persists p rd.entryWrites (if rd.entries = [] then [] else [.append true])
      (p.persistEntries rd) := by
  unfold persistEntries entryWrites
  split
  · exact .nil p p.appliedIndex
  · exact .write .append (fun s => append s rd.entries) p

theorem persistHardState_persists (rd : Ready) (p : ReadyProcessor (Journaled σ) μ) :
    Persists p rd.hardStateWrites
      (if rd.hs.isSome then
        if rd.mustSync then [.setHardState true, .sync true] else [.setHardState true]
      else [])
      (p.persistHardState rd) := by
  unfold persistHardState hardStateWrites
  cases rd.hs with
  | none => exact .nil p p.appliedIndex
  | some hs =>
      have hset := Persists.write .setHardState (fun s => setHardState s hs) p
      cases rd.mustSync with
      | true => exact hset.andThen fun q => .write .sync sync q
      | false => exact hset.andThen fun q => .nil q q.appliedIndex

/-- What writing a `Ready`, or its last part, comes to: nothing is sent, and on success the
journal has the calls `ks`. -/
structure Journals (p : ReadyProcessor (Journaled σ) μ) (ks : List StorageCall) (Done : Prop)
    (x : ReadyProcessor (Journaled σ) μ × Result Unit) : Prop where
  transport : x.1.transport = p.transport
  calls : ∃ made, x.1.store.calls = p.store.calls ++ made ∧ (x.2 = .ok () → made = ks)
  result : x.2 = .ok () ↔ Done

/-- The snapshot is written if the state machine takes it. -/
theorem applySnapshot_journals [StateMachine μ] (rd : Ready) (p : ReadyProcessor (Journaled σ) μ) :
    Journals p (if rd.installs.isSome then [.applySnapshot true] else [])
      (AcceptsAll rd.snapshotWrites p.store ∧ rd.Restores p.stateMachine)
      (p.applySnapshot rd) := by
  have hnothing : rd.installs = none → Journals p
      (if rd.installs.isSome then [.applySnapshot true] else [])
      (AcceptsAll rd.snapshotWrites p.store ∧ rd.Restores p.stateMachine) (p, .ok ()) := by
    intro hnone
    refine ⟨rfl, ⟨[], by simp, fun _ => by simp [hnone]⟩, iff_of_true rfl ⟨?_, ?_⟩⟩
    · simp [snapshotWrites, hnone, AcceptsAll]
    · exact fun snapshot hsome => absurd (hnone.symm.trans hsome) (by simp)
  unfold applySnapshot
  cases hsnapshot : rd.snapshot with
  | none => exact hnothing (by simp [installs, hsnapshot])
  | some snapshot =>
      by_cases hzero : snapshot.metadata.index = 0
      · simp only [hzero, if_true]
        exact hnothing (by simp [installs, hsnapshot, hzero])
      have hinstalls : rd.installs = some snapshot := by simp [installs, hsnapshot, hzero]
      have hrestores : rd.Restores p.stateMachine ↔
          (StateMachine.restoreSnapshot p.stateMachine snapshot.metadata snapshot.data).2 =
            .ok () := by
        simp [Restores, hinstalls]
      simp only [if_neg hzero]
      cases hmachine :
          (StateMachine.restoreSnapshot p.stateMachine snapshot.metadata snapshot.data).2 with
      | error e =>
          refine ⟨rfl, ⟨[], by simp [store], by simp⟩, iff_of_false (by simp) fun hdone => ?_⟩
          rw [hrestores, hmachine] at hdone
          cases hdone.2
      | ok value =>
          have hwrite := (Persists.write .applySnapshot
            (fun s => WritableStorage.applySnapshot s snapshot)
            { p with
              stateMachine := (StateMachine.restoreSnapshot p.stateMachine snapshot.metadata
                snapshot.data).1
              deliveries := p.deliveries ++ [.snapshot snapshot.metadata.index] }).andThen
            fun q => .nil q snapshot.metadata.index
          refine ⟨hwrite.transport, ?_, hwrite.result.trans ?_⟩
          · obtain ⟨made, hmade, hkinds⟩ := hwrite.calls
            refine ⟨made, hmade, fun hdone => ?_⟩
            rw [hkinds hdone, hinstalls]
            rfl
          · rw [hrestores, hmachine]
            simp only [snapshotWrites, hinstalls]
            exact ⟨fun hall => ⟨hall, trivial⟩, fun hall => hall.1⟩

/-- Writing a `Ready` succeeds if and only if each of its calls does. -/
theorem persist_journals [StateMachine μ] (rd : Ready) (p : ReadyProcessor (Journaled σ) μ) :
    Journals p rd.calls (AcceptsAll rd.storageWrites p.store ∧ rd.Restores p.stateMachine)
      (p.persist rd) := by
  have hfirst := (persistEntries_persists rd p).andThen (persistHardState_persists rd)
  obtain ⟨made, hmade, hkinds⟩ := hfirst.calls
  unfold persist
  conv => rw [andThen]
  split
  next hok =>
    have hlast := applySnapshot_journals rd
      (andThen (p.persistEntries rd) (persistHardState rd)).1
    obtain ⟨made', hmade', hkinds'⟩ := hlast.calls
    refine ⟨hlast.transport.trans hfirst.transport, ⟨made ++ made', ?_, ?_⟩, ?_⟩
    · rw [hmade', hmade, List.append_assoc]
    · intro hdone
      rw [hkinds hok, hkinds' hdone]
      rfl
    · rw [hlast.result, hfirst.machine, hfirst.store hok, storageWrites, acceptsAll_append]
      exact ⟨fun hall => ⟨⟨hfirst.result.mp hok, hall.1⟩, hall.2⟩, fun hall => ⟨hall.1.2, hall.2⟩⟩
  next e herror =>
    have hfails : (andThen (p.persistEntries rd) (persistHardState rd)).2 ≠ .ok () := by
      simp [herror]
    refine ⟨hfirst.transport, ⟨made, hmade, fun hdone => absurd hdone hfails⟩, ?_⟩
    rw [storageWrites, acceptsAll_append]
    exact iff_of_false hfails fun hall => hfails (hfirst.result.mpr hall.1.1)

/-! ## Process -/

variable [PeerStorage σ] [Codec] [RaftorCodec] [StateMachine μ]
  {p₁ : ReadyProcessor (Journaled σ) μ} {result : Result Unit}

/-- Every call that writes the `Ready` succeeds. -/
def Completes (p : ReadyProcessor (Journaled σ) μ) (rd : Ready) : Prop :=
  p.validateReadyEntries rd.entries = .ok () ∧ AcceptsAll rd.storageWrites p.store ∧
    rd.Restores (p.checkLeadershipChange rd).stateMachine

omit [PeerStorage σ] [RaftorCodec] [WritableStorage σ] in
theorem checkLeadershipChange_frame (rd : Ready) (p : ReadyProcessor (Journaled σ) μ)
    (node : RawNode (Journaled σ)) :
    (({ p with node } : ReadyProcessor (Journaled σ) μ).checkLeadershipChange rd).transport =
        p.transport ∧
      (({ p with node } : ReadyProcessor (Journaled σ) μ).checkLeadershipChange rd).store =
        node.raft.raftLog.store ∧
      (({ p with node } : ReadyProcessor (Journaled σ) μ).checkLeadershipChange rd).stateMachine =
        (p.checkLeadershipChange rd).stateMachine ∧
      (({ p with node } : ReadyProcessor (Journaled σ) μ).checkLeadershipChange
        rd).validateReadyEntries rd.entries = p.validateReadyEntries rd.entries := by
  unfold checkLeadershipChange
  cases rd.ss <;> exact ⟨rfl, rfl, rfl, rfl⟩

omit [PeerStorage σ] [RaftorCodec] in
theorem takeReady_journals (h : p.takeReady = some (p₁, rd, result)) :
    Journals p rd.calls (p.Completes rd) (p₁, result) := by
  simp only [takeReady, Option.bind_eq_bind] at h
  obtain ⟨⟨node, rd'⟩, hready, h⟩ := of_bind h
  have hlog := (RawNode.getReady_takes hready).raftLog
  obtain ⟨htransport, hstore, hmachine, hvalid⟩ := checkLeadershipChange_frame rd' p node
  rw [hlog] at hstore
  change _ = p.store at hstore
  simp only [hvalid] at h
  split at h
  next e hinvalid =>
    cases h
    refine ⟨?_, ⟨[], ?_, by simp⟩, iff_of_false (by simp) fun hdone => ?_⟩
    · simp only [enterFatalState]
      split <;> exact htransport
    · rw [List.append_nil, ← hstore]
      simp only [enterFatalState]
      split <;> rfl
    · rw [Completes, hinvalid] at hdone
      cases hdone.1
  next hok =>
    cases h
    have hwrote := persist_journals rd
      (({ p with node } : ReadyProcessor (Journaled σ) μ).checkLeadershipChange rd)
    have hresult := hwrote.result
    obtain ⟨made, hmade, hkinds⟩ := hwrote.calls
    rw [hstore] at hmade
    rw [hstore, hmachine] at hresult
    refine ⟨hwrote.transport.trans htransport, ⟨made, hmade, hkinds⟩, hresult.trans ?_⟩
    exact ⟨fun hdone => ⟨hok, hdone⟩, fun hdone => hdone.2⟩

/-- Before a message of a `Ready` goes out, and before `Process` succeeds, everything that the
`Ready` asked to write has been synced, if and only if the sync is the last of its calls or one
of them fails; a `Process` that has sent something or succeeded has synced it if and only if the
sync is the last one. -/
theorem must_sync_honoured (hfatal : p.fatalError = none) (hready : p.node.hasReady = some true)
    (htake : p.takeReady = some (p₁, rd, result)) (hsync : rd.mustSync = true) :
    p₁.transport = p.transport ∧
      (∀ e, result = .error e → p.process = some (p₁, .error e)) ∧
      ∃ made, p₁.store.calls = p.store.calls ++ made ∧
        ((result = .ok () → Settled made) ↔ rd.SyncsLast ∨ ¬p.Completes rd) ∧
        ∀ p' outcome, p.process = some (p', outcome) →
          p'.transport ≠ p.transport ∨ outcome = .ok true → (Settled made ↔ rd.SyncsLast) := by
  have hjournals := takeReady_journals htake
  obtain ⟨made, hmade, hkinds⟩ := hjournals.calls
  have hfails : ∀ e, result = .error e → p.process = some (p₁, .error e) := by
    rintro e rfl
    simp only [process, hfatal, hready, processReady, htake, Option.bind_eq_bind,
      Option.bind_some, if_true]
  refine ⟨hjournals.transport, hfails, made, hmade, ?_, fun p' outcome hprocess hdone => ?_⟩
  · rw [← hjournals.result, ← settled_calls_iff hsync]
    constructor
    · intro hsettled
      by_cases hok : result = .ok ()
      · exact Or.inl (hkinds hok ▸ hsettled hok)
      · exact Or.inr hok
    · rintro (hsettled | hfails) hok
      · exact (hkinds hok).symm ▸ hsettled
      · exact absurd hok hfails
  · cases result with
    | ok value => rw [hkinds rfl, settled_calls_iff hsync]
    | error e =>
        -- a failed write ends `Process`, with nothing sent
        cases (hfails e rfl).symm.trans hprocess
        rcases hdone with hsent | hok
        · exact absurd hjournals.transport hsent
        · cases hok

/-! ## A follower that appends -/

/-- The storage of a fresh node. -/
def journaledSolo : Journaled FaultyStorage := { store := { memory := Driven.soloStore } }

/-- The leader of term 1 replicates an entry. -/
def firstAppend : Work :=
  .input (.step
    { msgType := .msgAppend, receiver := 1, sender := 2, term := 1
      entries := [{ index := 1, term := 1 }] })

def firstHeartbeat : Work :=
  .input (.step { msgType := .msgHeartbeat, receiver := 1, sender := 2, term := 1 })

end ReadyProcessor

/-- With the first entry of a term the hard state changes too. -/
theorem must_sync_honoured_new_term :
    letI := Codec.plain
    letI := RaftorCodec.plain
    ∃ n, ∃ p p₁ : ReadyProcessor (Journaled FaultyStorage) Unit, ∃ rd made,
      RawNode.new { id := 1 } ReadyProcessor.journaledSolo (fun _ => 0) = some n ∧
      ReadyProcessor.Run (fun _ _ => True) { node := n, stateMachine := () }
        [ReadyProcessor.firstAppend] p ∧
      p.takeReady = some (p₁, rd, .ok ()) ∧ rd.mustSync = true ∧ rd.entries ≠ [] ∧
      p₁.store.calls = p.store.calls ++ made ∧ Settled made := by
  obtain ⟨n, hnew, p, hrun, hfatal, hready, p₁, ⟨rd, result⟩, htake, hok, hsync, hentries,
      hlast⟩ :
      letI := Codec.plain
      letI := RaftorCodec.plain
      ∃ n, RawNode.new { id := 1 } ReadyProcessor.journaledSolo (fun _ => 0) = some n ∧
        ∃ p : ReadyProcessor (Journaled FaultyStorage) Unit, ReadyProcessor.Run (fun _ _ => True)
            { node := n, stateMachine := () } [ReadyProcessor.firstAppend] p ∧
          p.fatalError = none ∧ p.node.hasReady = some true ∧
          ∃ p₁ x, p.takeReady = some (p₁, x) ∧ x.2 = .ok () ∧ x.1.mustSync = true ∧
            x.1.entries ≠ [] ∧ x.1.installs = none ∧ x.1.hs ≠ none := by
    decide +kernel
  let _ := Codec.plain
  let _ := RaftorCodec.plain
  obtain rfl : result = .ok () := hok
  obtain ⟨-, -, made, hmade, hiff, -⟩ :=
    ReadyProcessor.must_sync_honoured hfatal hready htake hsync
  exact ⟨n, p, p₁, rd, made, hnew, hrun, htake, hsync, hentries, hmade,
    hiff.mpr (Or.inl ⟨hlast.1, Or.inl hlast.2⟩) rfl⟩

/-- A follower acknowledges an entry of a term that it knows, and nothing has been synced. -/
theorem must_sync_ignored :
    letI := Codec.plain
    letI := RaftorCodec.plain
    ∃ n, ∃ p p₁ p' : ReadyProcessor (Journaled FaultyStorage) Unit, ∃ rd made,
      RawNode.new { id := 1 } ReadyProcessor.journaledSolo (fun _ => 0) = some n ∧
      ReadyProcessor.Run (fun _ _ => True) { node := n, stateMachine := () }
        [ReadyProcessor.firstHeartbeat, .process, ReadyProcessor.firstAppend] p ∧
      p.takeReady = some (p₁, rd, .ok ()) ∧ rd.mustSync = true ∧
      p₁.store.calls = p.store.calls ++ made ∧ ¬Settled made ∧
      p.process = some (p', .ok true) ∧
      p'.transport = p.transport ++ [.send rd.light.messages] ∧
      rd.light.messages.map Message.msgType = [.msgAppendResponse] := by
  obtain ⟨n, hnew, p, hrun, p₁, ⟨rd, result⟩, htake, hok, hsync, hcalls, hkinds, p', outcome,
      hprocess, hdone, htransport⟩ :
      letI := Codec.plain
      letI := RaftorCodec.plain
      ∃ n, RawNode.new { id := 1 } ReadyProcessor.journaledSolo (fun _ => 0) = some n ∧
        ∃ p : ReadyProcessor (Journaled FaultyStorage) Unit, ReadyProcessor.Run (fun _ _ => True)
            { node := n, stateMachine := () }
            [ReadyProcessor.firstHeartbeat, .process, ReadyProcessor.firstAppend] p ∧
          ∃ p₁ x, p.takeReady = some (p₁, x) ∧ x.2 = .ok () ∧ x.1.mustSync = true ∧
            p₁.store.calls = p.store.calls ++ [.append true] ∧
            x.1.light.messages.map Message.msgType = [.msgAppendResponse] ∧
            ∃ p' outcome, p.process = some (p', outcome) ∧ outcome = .ok true ∧
              p'.transport = p.transport ++ [.send x.1.light.messages] := by
    set_option synthInstance.maxSize 256 in decide +kernel
  obtain rfl : result = .ok () := hok
  obtain rfl := hdone
  exact ⟨n, p, p₁, p', rd, [.append true], hnew, hrun, htake, hsync, hcalls,
    by simp [Settled], hprocess, htransport, hkinds⟩

end Raftpp
