import Raftpp.Raftor.Retries

/-!
# Runs of a processor

Between two calls of `Process` the node takes messages, ticks and proposals.  A run is a
sequence of such calls, none of which aborts.  In a run whose calls are manageable the calls
that `Process` makes on the node return, whatever the storage answers; the same holds for an
application that drives the node itself.
-/

namespace Raftpp

open Option

/-- The calls that a server makes. -/
inductive Work
  | input (call : RawNode.Input)
  | proposeConfChange (ctx : Bytes) (cc : ConfChangeV2)
  | process
  deriving DecidableEq

/-- A state machine for runs on fixed inputs. -/
instance : StateMachine Unit where
  apply _ _ := ((), .ok none)
  restoreSnapshot _ _ _ := ((), .ok ())
  onLeadershipChange _ _ _ _ := ()

/-- Decoders for runs on fixed inputs. -/
@[reducible]
def RaftorCodec.plain : RaftorCodec where
  confChangeOfBytes _ := none
  parseMetadataChange _ := none

namespace ReadyProcessor

variable {σ μ : Type} [WritableStorage σ] [PeerStorage σ] [Codec] [RaftorCodec] [StateMachine μ]

/-- One call. -/
def work (p : ReadyProcessor σ μ) : Work → Option (ReadyProcessor σ μ)
  | .input call => (p.node.input call).map fun node => { p with node }
  | .proposeConfChange ctx cc =>
      ((p.node.proposeConfChange ctx cc).map Prod.fst).map fun node => { p with node }
  | .process => p.process.map Prod.fst

/-- A sequence of calls that meet `P`. -/
inductive Run (P : ReadyProcessor σ μ → Work → Prop) :
    ReadyProcessor σ μ → List Work → ReadyProcessor σ μ → Prop
  | nil (p : ReadyProcessor σ μ) : Run P p [] p
  | cons {p p₁ p₂ : ReadyProcessor σ μ} {w : Work} {ws : List Work} (hw : P p w)
      (hwork : p.work w = some p₁) (hrun : Run P p₁ ws p₂) : Run P p (w :: ws) p₂

/-- Make a sequence of calls as long as they meet `P`. -/
def runAll (P : ReadyProcessor σ μ → Work → Prop) [∀ p w, Decidable (P p w)]
    (p : ReadyProcessor σ μ) : List Work → Option (ReadyProcessor σ μ)
  | [] => some p
  | w :: ws => if P p w then (p.work w).bind fun p₁ => p₁.runAll P ws else none

theorem runAll_iff {P : ReadyProcessor σ μ → Work → Prop} [∀ p w, Decidable (P p w)]
    {p p' : ReadyProcessor σ μ} {ws : List Work} : p.runAll P ws = some p' ↔ Run P p ws p' := by
  refine ⟨fun h => ?_, fun h => ?_⟩
  · induction ws generalizing p with
    | nil =>
        cases h
        exact .nil _
    | cons w ws ih =>
        unfold runAll at h
        split at h
        next hw =>
          obtain ⟨p₁, hwork, h⟩ := of_bind h
          exact .cons hw hwork (ih h)
        · cases h
  · induction h with
    | nil p => rfl
    | cons hw hwork _ ih => simp [runAll, hw, hwork, ih]

instance {P : ReadyProcessor σ μ → Work → Prop} [∀ p w, Decidable (P p w)]
    {p : ReadyProcessor σ μ} {ws : List Work} {Q : ReadyProcessor σ μ → Prop}
    [∀ p, Decidable (Q p)] : Decidable (∃ p', Run P p ws p' ∧ Q p') :=
  decidable_of_iff (∃ p', p.runAll P ws = some p' ∧ Q p') (by simp only [runAll_iff])

/-- What a server has to take care of. -/
def Guarded (p : ReadyProcessor σ μ) : Work → Prop
  | .input call => (p.driven none).Guarded (.input call)
  | .proposeConfChange .. => True
  | .process => p.fatalError = none → p.Manageable

instance (p : ReadyProcessor σ μ) (w : Work) : Decidable (p.Guarded w) :=
  match w with
  | .input call => inferInstanceAs (Decidable ((p.driven none).Guarded (.input call)))
  | .proposeConfChange .. => isTrue trivial
  | .process => inferInstanceAs (Decidable (p.fatalError = none → p.Manageable))

section Safe

variable [LawfulStorage σ] [RetryableStorage σ] {p p' : ReadyProcessor σ μ}

/-- The node of a processor that still works is in order. -/
def Safe (p : ReadyProcessor σ μ) : Prop :=
  p.fatalError = none → ∃ a, (p.driven none).Regular a

theorem Safe.work [PagingStorage σ] (h : p.Safe) {w : Work} (hw : p.Guarded w)
    (hrun : p.work w = some p') :
    p'.Safe := by
  cases w with
  | input call =>
      obtain ⟨node, hcall, rfl⟩ := map_eq_some_iff.mp hrun
      intro hnone
      obtain ⟨a, hregular⟩ := h hnone
      have hstep : (p.driven none).step (.input call) =
          some ({ p.driven none with node }, []) := by
        simp [Driven.step, Driven.whenIdle, Driven.withNode, driven, hcall]
      exact hregular.step hw hstep
  | proposeConfChange ctx cc =>
      obtain ⟨node, hcall, rfl⟩ := map_eq_some_iff.mp hrun
      intro hnone
      obtain ⟨a, hregular⟩ := h hnone
      have hstep : (p.driven none).step (.proposeConfChange ctx cc) =
          some ({ p.driven none with node }, []) := by
        simp only [Driven.step, Driven.whenIdle, Driven.withNode, driven, if_true, hcall, map_some]
      have hguarded : (p.driven none).Guarded (.proposeConfChange ctx cc) := ⟨trivial, trivial⟩
      exact hregular.step hguarded hstep
  | process =>
      obtain ⟨⟨p₁, result⟩, hprocess, rfl⟩ := map_eq_some_iff.mp hrun
      intro hnone
      by_cases hfatal : p.fatalError = none
      · obtain ⟨a, hregular⟩ := h hfatal
        exact process_regular hregular (hw hfatal) hfatal hprocess hnone
      · -- a processor that has given up does nothing any more
        obtain ⟨e, he⟩ := ne_none_iff_exists'.mp hfatal
        simp only [process, he, some.injEq, Prod.mk.injEq] at hprocess
        obtain ⟨rfl, -⟩ := hprocess
        exact absurd hnone hfatal

theorem Safe.run [PagingStorage σ] {ws : List Work} (h : p.Safe)
    (hrun : Run Guarded p ws p') : p'.Safe := by
  induction hrun with
  | nil p => exact h
  | cons hw hwork _ ih => exact ih (h.work hw hwork)

end Safe

end ReadyProcessor

/-- Neither an application that drives the node itself nor a processor whose storage fails ever
sees the node abort in `GetReady`, `AdvanceAppend`, `AdvanceAppendAsync` or `OnPersistReady`. -/
theorem ready_protocol_returns {σ μ : Type} [WritableStorage σ] [PeerStorage σ] [Codec]
    [RaftorCodec] [StateMachine μ] [LawfulStorage σ] [AnsweringStorage σ] [RetryableStorage σ]
    {config : Config} {store : σ} {rng : ℕ → ℕ} {n : RawNode σ}
    (hstore : (LawfulStorage.view store).Contiguous)
    (hnew : RawNode.new config store rng = some n)
    (happlied : config.applied ≤ n.raft.raftLog.committed) :
    (∀ ops d pages, Driven.Run Driven.Guarded { node := n } ops d pages →
      ∀ op, d.Guarded op → d.Returns op) ∧
    ∀ p₀ : ReadyProcessor σ μ, p₀.node = n → ∀ ws p,
      ReadyProcessor.Run ReadyProcessor.Guarded p₀ ws p → p.Guarded .process → p.Returns := by
  have hregular := Driven.Regular.new hstore hnew happlied
  refine ⟨fun ops d pages hrun op hop => ?_, fun p₀ hnode ws p hrun hp hnone => ?_⟩
  · obtain ⟨a, hd⟩ := hregular.run hrun
    exact hd.returns hop
  · have hsafe : p₀.Safe := fun _ => ⟨_, hregular.congr hnode rfl⟩
    obtain ⟨a, h⟩ := hsafe.run hrun hnone
    exact ReadyProcessor.returns h (hp hnone) hnone

/-- The only voter, with a storage whose fourth write fails. -/
def faultySolo : FaultyStorage where
  memory := Driven.soloStore
  faults := [false, false, false, true]

/-- The application reports the first `Ready` after the next proposal. -/
def reportedLate : List Drive :=
  [.input .campaign, .ready, .advanceAppendAsync, .input (.propose [] [7]), .onPersistReady 1]

/-- The proposal is written at the second attempt. -/
def writtenLate : List Work :=
  [.input .campaign, .process, .input (.propose [] [7]), .process, .process]

/-- The first of two voters is elected, and its first entry is written. -/
def electedByTwo : List Drive :=
  [.input .campaign, .ready, .advance, .input (.step
    { msgType := .msgRequestVoteResponse, sender := 2, receiver := 1, term := 1 }), .ready]

theorem ready_protocol_returns_faulty :
    letI := Codec.plain
    letI := RaftorCodec.plain
    (∃ n d pages, RawNode.new { id := 1 } ({ confState := { voters := [1, 2] } } : MemoryStorage)
        (fun _ => 0) = some n ∧
      Driven.Run Driven.Guarded { node := n } electedByTwo d pages ∧
      d.node.raft.state = .leader ∧ d.Returns .advance) ∧
    ∃ n d pages, ∃ p : ReadyProcessor FaultyStorage Unit,
      RawNode.new { id := 1 } faultySolo (fun _ => 0) = some n ∧
      Driven.Run Driven.Guarded { node := n } reportedLate d pages ∧ d.Returns .ready ∧
      ReadyProcessor.Run ReadyProcessor.Guarded { node := n, stateMachine := () } writtenLate p ∧
      p.deliveries = [.entry 1, .entry 2] ∧ p.Returns := by
  obtain ⟨⟨m, hm, d₁, pages₁, hrun, hleader, hadvance⟩, n, hnew, ⟨d, pages, hdriven, -⟩, p,
      hprocess, hdeliveries, hguarded⟩ :
      letI := Codec.plain
      letI := RaftorCodec.plain
      (∃ n, RawNode.new { id := 1 } ({ confState := { voters := [1, 2] } } : MemoryStorage)
          (fun _ => 0) = some n ∧
        ∃ d pages, Driven.Run Driven.Guarded { node := n } electedByTwo d pages ∧
          d.node.raft.state = .leader ∧ d.Guarded .advance) ∧
      ∃ n, RawNode.new { id := 1 } faultySolo (fun _ => 0) = some n ∧
        (∃ d pages, Driven.Run Driven.Guarded { node := n } reportedLate d pages ∧ True) ∧
        ∃ p : ReadyProcessor FaultyStorage Unit, ReadyProcessor.Run ReadyProcessor.Guarded
            { node := n, stateMachine := () } writtenLate p ∧
          p.deliveries = [.entry 1, .entry 2] ∧ p.Guarded .process := by
    decide +kernel
  let _ := Codec.plain
  let _ := RaftorCodec.plain
  obtain ⟨hpair, -⟩ := ready_protocol_returns (μ := Unit) (fun k e h => by cases h) hm
    (Nat.zero_le _)
  obtain ⟨hdrives, hprocesses⟩ := ready_protocol_returns (μ := Unit) (fun k e h => by cases h)
    hnew (Nat.zero_le _)
  exact ⟨⟨m, d₁, pages₁, hm, hrun, hleader, hpair _ _ _ hrun .advance hadvance⟩, n, d, pages, p,
    hnew, hdriven, hdrives reportedLate d pages hdriven .ready ⟨trivial, trivial⟩, hprocess,
    hdeliveries, hprocesses _ rfl writtenLate p hprocess hguarded⟩

/-- A follower that is the only voter is elected while its last `Ready` is not persisted. -/
def electedEarly : List Drive :=
  [.input (.step { msgType := .msgAppend, receiver := 1, sender := 2, term := 1
                   entries := [{ index := 1, term := 1 }] }),
    .ready, .advanceAppendAsync, .input .campaign]

/-- `GetReady` aborts: it finds the record of an outstanding `Ready` with entries in a node that
it sees as a leader for the first time. -/
theorem getReady_aborts :
    letI := Codec.plain
    ∃ n d pages, RawNode.new { id := 1 } Driven.soloStore (fun _ => 0) = some n ∧
      Driven.Run Driven.Legal { node := n } electedEarly d pages ∧ d.pending = none ∧
      d.node.getReady.isNone = true := by
  simp only [exists_and_left]
  decide +kernel

end Raftpp
