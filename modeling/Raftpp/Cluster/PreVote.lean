import Raftpp.Cluster.ElectionSafety

/-!
# Pre-votes

With pre-votes a node asks for votes at the next term before it moves there, so
that a node which cannot win does not disturb the others.  A pre-vote is granted
for the term of the request, and a pre-candidate accepts a grant for its own
term as well as one for a later term.  A grant for a later term answers a
request of this candidacy: requests that were sent carry at most the term after
the persisted one.  A grant for its own term answers a request of an earlier
candidacy, from before the node moved to its term.

In a run where no such grant is counted, every candidate has a quorum of grants
behind it that were given for its term.  A grant that is delayed until the next
candidacy breaks this.
-/

namespace Raftpp

open Option

/-! ## Grants -/

/-- `v` was asked by `x` for a pre-vote at the term `T`, and has granted it. -/
def Granted (net : List Message) (x v T : ℕ) : Prop :=
  ∃ q ∈ net, q.msgType = .msgRequestPreVote ∧ q.sender = x ∧ q.receiver = v ∧ q.term = T ∧
    ∃ a ∈ net, a.msgType = .msgRequestPreVoteResponse ∧ a.reject = false ∧ a.sender = v ∧
      a.receiver = x ∧ a.term = T

/-- `v` has granted `x` its vote at the term `T`. -/
def GrantedVote (net : List Message) (x v T : ℕ) : Prop :=
  ∃ a ∈ net, a.msgType = .msgRequestVoteResponse ∧ a.reject = false ∧ a.sender = v ∧
    a.receiver = x ∧ a.term = T

/-- What pre-votes promise about the node `x`: the votes it has counted are grants for the term
it asks for, and it is a candidate or a leader only with a quorum of pre-votes for its term. -/
structure PreVoted (cs : ConfState) (net : List Message) (x : ℕ) (state : StateRole) (term : ℕ)
    (votes : ListMap ℕ Bool) : Prop where
  asked : state = .preCandidate → ∀ v, ListMap.get votes v = some true →
    v = x ∨ Granted net x v (term + 1)
  counted : state = .candidate → ∀ v, ListMap.get votes v = some true →
    v = x ∨ GrantedVote net x v term
  quorum : state = .candidate ∨ state = .leader →
    ∃ A, cs.quorums.IsQuorum A ∧ ∀ v ∈ A, v = x ∨ Granted net x v term

/-- A grant answers a request. -/
def Message.Answers (net : List Message) (m : Message) : Prop :=
  m.msgType = .msgRequestPreVoteResponse → m.reject = false →
    ∃ q ∈ net, q.msgType = .msgRequestPreVote ∧ q.sender = m.receiver ∧
      q.receiver = m.sender ∧ q.term = m.term

/-- A request of the node `x` for a pre-vote is for the term after `term`, or an earlier one. -/
def Message.AsksBy (x term : ℕ) (m : Message) : Prop :=
  m.msgType = .msgRequestPreVote → m.sender = x → m.term ≤ term + 1

section Grants

variable {net net' : List Message} {cs : ConfState} {x v T term : ℕ} {state : StateRole}
  {votes : ListMap ℕ Bool} {m : Message}

theorem Granted.mono (h : Granted net x v T) (hnet : net ⊆ net') : Granted net' x v T := by
  obtain ⟨q, hq, hkind, hsender, hreceiver, hterm, a, ha, hrest⟩ := h
  exact ⟨q, hnet hq, hkind, hsender, hreceiver, hterm, a, hnet ha, hrest⟩

theorem Message.Answers.granted (h : m.Answers net) (hm : m ∈ net)
    (hkind : m.msgType = .msgRequestPreVoteResponse) (hreject : m.reject = false) :
    Granted net m.receiver m.sender m.term := by
  obtain ⟨q, hq, hasks, hsender, hreceiver, hterm⟩ := h hkind hreject
  exact ⟨q, hq, hasks, hsender, hreceiver, hterm, m, hm, hkind, hreject, rfl, rfl, rfl⟩

theorem Message.Answers.mono (h : m.Answers net) (hnet : net ⊆ net') : m.Answers net' := by
  intro hkind hreject
  obtain ⟨q, hq, hrest⟩ := h hkind hreject
  exact ⟨q, hnet hq, hrest⟩

theorem Message.AsksBy.mono {term' : ℕ} (h : m.AsksBy x term) (hterm : term ≤ term') :
    m.AsksBy x term' := by
  intro hkind hsender
  have hle := h hkind hsender
  omega

theorem PreVoted.mono (h : PreVoted cs net x state term votes) (hnet : net ⊆ net') :
    PreVoted cs net' x state term votes where
  asked hstate v hv := (h.asked hstate v hv).imp_right fun hgrant => hgrant.mono hnet
  counted hstate v hv := by
    refine (h.counted hstate v hv).imp_right ?_
    rintro ⟨a, ha, hrest⟩
    exact ⟨a, hnet ha, hrest⟩
  quorum hstate := by
    obtain ⟨A, hA, hgrants⟩ := h.quorum hstate
    exact ⟨A, hA, fun v hv => (hgrants v hv).imp_right fun hgrant => hgrant.mono hnet⟩

theorem PreVoted.of_follower (hstate : state = .follower) :
    PreVoted cs net x state term votes := by
  subst hstate
  exact ⟨by simp, by simp, by simp⟩

/-- With no votes counted, only the quorum of the candidacy is left. -/
theorem PreVoted.of_nil (hquorum : state = .candidate ∨ state = .leader →
    ∃ A, cs.quorums.IsQuorum A ∧ ∀ v ∈ A, v = x ∨ Granted net x v term) :
    PreVoted cs net x state term [] :=
  ⟨by simp [ListMap.get], by simp [ListMap.get], hquorum⟩

end Grants

/-! ## Nodes -/

section Nodes

variable {σ : Type} [Storage σ] [Codec] {cs : ConfState} {b : Ballots ℕ} {env : Env}
  {net net' : List Message} {x : ℕ} {c c' : NodeCore σ}

/-- What holds of a node between its steps. -/
structure Guarded (cs : ConfState) (net : List Message) (x : ℕ) (c : NodeCore σ) : Prop where
  preVote : c.preVote = true
  voted : PreVoted cs net x c.state c.term c.votes
  requested : ∀ m ∈ net, m.AsksBy x c.term
  queued : ∀ m ∈ c.messages, m.Answers net ∧
    (m.msgType = .msgRequestPreVote → m.sender = x ∧ m.term ≤ c.term + 1)

/-- What a node queues asks only for itself, and grants only what was asked. -/
theorem SendOk.asks {m : Message} (hproper : env.proper) (hsent : ∀ m, env.sent m → m ∈ net)
    (h : SendOk env c m) : m.Answers net ∧
      (m.msgType = .msgRequestPreVote → m.sender = c.id ∧ m.term ≤ c.term + 1) := by
  cases h with
  | requestPreVote hkind hsender hterm =>
      exact ⟨by simp [Message.Answers, hkind], fun _ => ⟨hsender, hterm.le⟩⟩
  | preVoteReject hkind hterm hreject =>
      exact ⟨by simp [Message.Answers, hreject], by simp [hkind]⟩
  | grantPre q hq hask hkind hsender hreceiver hterm =>
      refine ⟨fun _ _ => ⟨q, hsent q hq.sent, hask, hreceiver.symm, ?_, hterm.symm⟩, ?_⟩
      · rw [hq.receiver hproper, hsender]
      · simp [hkind]
  | other hkind =>
      refine ⟨fun hpre => ?_, fun hpre => ?_⟩ <;>
      · rw [hpre] at hkind
        exact absurd hkind (by decide)
  | grant _ _ _ _ _ hkind | append _ _ _ hkind | snapshot _ _ hkind | accept _ _ _ _ _ hkind
  | outdate _ _ _ _ _ hkind | _ hkind => exact ⟨by simp [Message.Answers, hkind], by simp [hkind]⟩

/-- Where the messages come from that a step leaves in the queue. -/
theorem Guarded.queued_micro (h : Guarded cs net x c) (hid : c.id = x) (hproper : env.proper)
    (hsent : ∀ m, env.sent m → m ∈ net) (hmicro : Micro env c c') :
    ∀ m ∈ c'.messages, m.Answers net ∧
      (m.msgType = .msgRequestPreVote → m.sender = x ∧ m.term ≤ c.term + 1) := by
  intro m hm
  rcases hmicro.mem_messages hm with hm | hok | ⟨m₀, -, -, -, -, entries, -, hkind, rfl⟩
  · exact h.queued m hm
  · exact hid ▸ hok.asks hproper hsent
  · exact ⟨by simp [Message.Answers, hkind], by simp [hkind]⟩

omit [Storage σ] [Codec] in
/-- A grant that is counted is one for the term the node asks for. -/
theorem Guarded.poll (h : Guarded cs net x c) (hid : c.id = x)
    (hproper : env.proper) (hanswers : ∀ m ∈ net, m.Answers net)
    (hsent : ∀ m, env.sent m → m ∈ net) (hstale : ¬env.stale) {v : ℕ} {granted : Bool}
    (hgrant : granted = true → Counted env c v) :
    PreVoted cs net x c.state c.term (ListMap.emplace c.votes v granted) := by
  refine ⟨fun hstate u hu => ?_, fun hstate u hu => ?_, h.voted.quorum⟩ <;>
    rw [ListMap.get_emplace, or_eq_some_iff] at hu
  · rcases hu with hu | ⟨hnone, hu⟩
    · exact h.voted.asked hstate u hu
    split at hu
    next heq =>
      subst heq
      rcases hgrant (some.inj hu) with hself | ⟨m, hm, hreject, rfl, hkind⟩
      · exact Or.inl (hself.trans hid)
      rcases hkind with ⟨hcandidate, -⟩ | ⟨-, hkind, hle, hsame⟩
      · exact absurd (hstate.symm.trans hcandidate) (by simp)
      have hmem := hsent m hm.sent
      have hreceiver : m.receiver = x := (hm.receiver hproper).trans hid
      have hle := hle hproper
      have hgranted : Granted net x m.sender m.term :=
        hreceiver ▸ (hanswers m hmem).granted hmem hkind hreject
      -- the request was sent at the node's term, or at an earlier one
      have ⟨q, hq, hasks, hsender, _, hterm, _⟩ := hgranted
      have hbound := h.requested q hq hasks hsender
      have hne : m.term ≠ c.term := fun heq => hstale (hsame heq hnone)
      have hterm' : m.term = c.term + 1 := by omega
      exact Or.inr (hterm' ▸ hgranted)
    · cases hu
  · rcases hu with hu | ⟨-, hu⟩
    · exact h.voted.counted hstate u hu
    split at hu
    next heq =>
      subst heq
      rcases (hgrant (some.inj hu)).vote hstate with
        hself | ⟨m, hm, hkind, hreject, hsender, hterm⟩
      · exact Or.inl (hself.trans hid)
      · exact Or.inr ⟨m, hsent m hm.sent, hkind, hreject, hsender, (hm.receiver hproper).trans hid,
          hterm hproper⟩
    · cases hu

theorem Guarded.micro (h : Guarded cs net x c) (hnode : NodeElects cs b x c)
    (hproper : env.proper) (hanswers : ∀ m ∈ net, m.Answers net)
    (hsent : ∀ m, env.sent m → m ∈ net) (htransfer : ¬env.transfer) (hstale : ¬env.stale)
    (hmicro : Micro env c c') : Guarded cs net x c' := by
  have hqueued := h.queued_micro hnode.id hproper hsent hmicro
  refine ⟨hmicro.preVote_eq.trans h.preVote, ?_, fun m hm => ?_, fun m hm => ?_⟩
  · cases hmicro with
    | follow => exact .of_follower rfl
    | preCampaign => exact .of_nil (by simp)
    | campaign tracks henv hvoter =>
        refine .of_nil fun _ => ?_
        rcases hvoter with ⟨-, -, hpre⟩ | ⟨hpre, hwon⟩
        · exact absurd (hpre h.preVote) htransfer
        rw [hnode.conf] at hwon
        refine ⟨_, JointConfiguration.isQuorum_of_won (hnode.voter (by simp [hpre])) hwon, ?_⟩
        exact h.voted.asked hpre
    | poll v granted hgrant => exact h.poll hnode.id hproper hanswers hsent hstale hgrant
    | win last index log tracks henv hstate =>
        exact .of_nil fun _ => h.voted.quorum (Or.inl hstate)
    | install m log tracker maxInflight hm hkind hstate => exact .of_follower hstate
    | _ => exact h.voted
  · exact (h.requested m hm).mono (hmicro.term_le hproper)
  · obtain ⟨hanswer, hasks⟩ := hqueued m hm
    refine ⟨hanswer, fun hkind => ⟨(hasks hkind).1, (hasks hkind).2.trans ?_⟩⟩
    exact Nat.succ_le_succ (hmicro.term_le hproper)

section

omit [Storage σ] [Codec]

theorem Guarded.relog (h : Guarded cs net x c) (log : RaftLog σ) :
    Guarded cs net x { c with log } :=
  ⟨h.preVote, h.voted, h.requested, h.queued⟩

theorem Guarded.flush (h : Guarded cs net x c) {uncommitted : UncommittedState} :
    Guarded cs net x { c with messages := [], uncommitted } :=
  ⟨h.preVote, h.voted, h.requested, by simp⟩

/-- Messages are sent, and none of them asks for the node at a term it has not come near. -/
theorem Guarded.send (h : Guarded cs net x c) {messages : List Message}
    (hmessages : ∀ m ∈ messages, m.AsksBy x c.term) : Guarded cs (net ++ messages) x c where
  preVote := h.preVote
  voted := h.voted.mono (List.subset_append_left _ _)
  requested m hm := (List.mem_append.mp hm).elim (h.requested m) (hmessages m)
  queued m hm := (h.queued m hm).imp_left fun hm => hm.mono (List.subset_append_left _ _)

end

/-- A run of a node that the world of recorded votes can follow. -/
theorem Guarded.steps {w : World σ} (hw : Elects cs w b) (hx : x ≠ 0)
    (hmoves : Moves (Relogs cs) w.net (w.node x) c) (hproper : env.proper)
    (hnet : ∀ m ∈ net, w.net m) (h : Guarded cs net x c) (hanswers : ∀ m ∈ net, m.Answers net)
    (hsent : ∀ m, env.sent m → m ∈ net) (htransfer : ¬env.transfer) (hstale : ¬env.stale)
    (hsteps : Steps env c c') : Guarded cs net x c' := by
  induction hsteps with
  | refl => exact h
  | @tail c₁ c₂ hprefix hmicro ih =>
      have hreach : Moves (Relogs cs) w.net (w.node x) c₁ :=
        hmoves.trans (Steps.moves hprefix hproper fun m hm => hnet m (hsent m hm))
      obtain ⟨w₁, b₁, hw₁, -, hnode₁, -⟩ := hw.moves hx hreach
      have hnode := hw₁.node x
      rw [hnode₁, Function.update_self] at hnode
      exact ih.micro hnode hproper hanswers hsent htransfer hstale hmicro

end Nodes

/-! ## Clusters -/

/-- Pre-votes are enabled, and no node is told to take over: a transfer of the leadership ends
with `MSG_TIMEOUT_NOW`. -/
def Action.PreVotes : Action → Prop
  | .restart _ config _ => config.preVote = true
  | .input _ (.step m) => m.msgType ≠ .msgTimeoutNow
  | _ => True

instance (a : Action) : Decidable a.PreVotes := by
  unfold Action.PreVotes
  split <;> infer_instance

/-- A pre-candidate that has not heard from the sender would count the message, which grants a
pre-vote for the term the node is at. -/
def Raft.Outdates {σ : Type} (r : Raft σ) (m : Message) : Prop :=
  r.state = .preCandidate ∧ m.msgType = .msgRequestPreVoteResponse ∧ m.reject = false ∧
    m.term = r.term ∧ ListMap.get r.tracker.votes m.sender = none

instance {σ : Type} (r : Raft σ) (m : Message) : Decidable (r.Outdates m) := by
  unfold Raft.Outdates
  infer_instance

namespace Cluster

/-- No pre-vote of an earlier candidacy is counted. -/
def Fresh {σ : Type} (c : Cluster σ) : Action → Prop
  | .input id (.step m) => ∀ n ∈ (c.servers id).node?, ¬n.raft.Outdates m
  | _ => True

instance {σ : Type} (c : Cluster σ) (a : Action) : Decidable (c.Fresh a) := by
  unfold Fresh
  split <;> infer_instance

end Cluster

section Clusters

variable {σ : Type} [WritableStorage σ] [Codec] [LawfulStorage σ] {cs : ConfState}
  {b b' : Ballots ℕ} {w w' : World σ} {x : ℕ} {c c' : Cluster σ}

variable {n n' : RawNode σ}

open LawfulStorage (view)

/-- What holds of a cluster between its actions.  What was sent is backed by the storages, so
that a restarted node asks for no term again that it has passed. -/
structure Guards (cs : ConfState) (c : Cluster σ) : Prop where
  answers : ∀ m ∈ c.net, m.Answers c.net
  stored : ∀ x, ∀ m ∈ c.net, m.AsksBy x (view (c.servers x).store).hardState.term
  node : ∀ x, ∀ n ∈ (c.servers x).node?, Guarded cs c.net x n.raft.core

/-- One server moves and sends messages that it had queued at the term `T`. -/
theorem Guards.set (h : Guards cs c) {s : Server σ} {messages : List Message} {T : ℕ}
    (hmessages : ∀ m ∈ messages, m.Answers c.net ∧
      (m.msgType = .msgRequestPreVote → m.sender = x ∧ m.term ≤ T + 1))
    (hstore : T ≤ (view s.store).hardState.term)
    (hstored : ∀ m ∈ c.net, m.AsksBy x (view s.store).hardState.term)
    (hnode : ∀ n ∈ s.node?, T ≤ n.raft.term ∧ Guarded cs c.net x n.raft.core) :
    Guards cs ((c.set x s).send messages) where
  answers m hm := by
    refine Message.Answers.mono ?_ (List.subset_append_left _ _)
    exact (List.mem_append.mp hm).elim (h.answers m) fun hm => (hmessages m hm).1
  stored y m hm := by
    by_cases hy : y = x
    · subst hy
      simp only [Cluster.send, Cluster.set, Function.update_self]
      rcases List.mem_append.mp hm with hm | hm
      · exact hstored m hm
      · intro hkind _
        have hle := ((hmessages m hm).2 hkind).2
        omega
    · simp only [Cluster.send, Cluster.set, Function.update_of_ne hy]
      rcases List.mem_append.mp hm with hm | hm
      · exact h.stored y m hm
      · intro hkind hsender
        exact absurd (hsender.symm.trans ((hmessages m hm).2 hkind).1) hy
  node y n hn := by
    by_cases hy : y = x
    · subst hy
      simp only [Cluster.send, Cluster.set, Function.update_self] at hn
      obtain ⟨hT, hguarded⟩ := hnode n hn
      refine hguarded.send fun m hm hkind _ => ?_
      exact ((hmessages m hm).2 hkind).2.trans (Nat.succ_le_succ hT)
    · simp only [Cluster.send, Cluster.set, Function.update_of_ne hy] at hn
      refine (h.node y n hn).send fun m hm hkind hsender => ?_
      exact absurd (hsender.symm.trans ((hmessages m hm).2 hkind).1) hy

/-- One server moves and sends nothing. -/
theorem Guards.set_server (h : Guards cs c) {s : Server σ}
    (hstored : ∀ m ∈ c.net, m.AsksBy x (view s.store).hardState.term)
    (hnode : ∀ n ∈ s.node?, Guarded cs c.net x n.raft.core) : Guards cs (c.set x s) := by
  have hset : Guards cs ((c.set x s).send []) :=
    h.set (by simp) (Nat.zero_le _) hstored fun n hn => ⟨Nat.zero_le _, hnode n hn⟩
  simpa [Cluster.send] using hset

/-- What a node may meet when no grant of an earlier candidacy and no transfer reaches it. -/
def freshEnv (net : List Message) : Env :=
  { Env.free (· ∈ net) with transfer := False, stale := False }

theorem Guards.steps (h : Guards cs c) (hfollows : Follows cs c w b) (hx : x ≠ 0)
    {k k' : NodeCore σ} (hmoves : Moves (Relogs cs) w.net (w.node x) k)
    (hguarded : Guarded cs c.net x k) (hsteps : Steps (freshEnv c.net) k k') :
    Guarded cs c.net x k' :=
  hguarded.steps hfollows.elects hx hmoves trivial hfollows.net h.answers (fun _ hm => hm) id id
    hsteps

/-! ## Actions -/

theorem Guards.input {call : RawNode.Input} (h : Guards cs c) (hfollows : Follows cs c w b)
    (hn : c.servers x = .idle n) (hcall : c.deliverable x call = true)
    (hpre : (Action.input x call).PreVotes) (hfresh : c.Fresh (.input x call))
    (hinput : n.input call = some n') : Guards cs (c.set x (.idle n')) := by
  obtain ⟨hx, -, hmoves, -⟩ := hfollows.at hn
  have hnode : n ∈ (c.servers x).node? := by rw [hn]; rfl
  have hexpected : ∀ m, call = .step m → Raft.Expected (freshEnv c.net) n.raft m := by
    rintro m rfl
    refine ⟨fun hkind => hpre hkind, ?_⟩
    intro hkind hreject hstate hterm hnone
    exact hfresh n hnode ⟨hstate, hkind, hreject, hterm, hnone⟩
  obtain ⟨raft, hsteps, rfl⟩ := @RawNode.input_eq σ _ _ (freshEnv c.net) n n' call hinput
    (hfollows.delivered hn hcall fun _ => id) hexpected (fun _ => trivial) (fun _ => trivial)
    fun _ _ => trivial
  have hstore : raft.raftLog.store = n.raft.raftLog.store := hsteps.store_eq
  refine h.set_server ?_ ?_
  · have hstored := h.stored x
    rw [hn] at hstored
    exact (show Server.store (.idle { n with raft }) = Server.store (.idle n) from hstore) ▸ hstored
  · rintro _ ⟨⟩
    exact h.steps hfollows hx hmoves (h.node x n hnode) hsteps

theorem Guards.ready {rd : Ready} (h : Guards cs c)
    (hfollows' : Follows cs ((c.set x (.ready n' rd)).send rd.light.messages) w' b')
    (hn : c.servers x = .idle n) (hready : n.processReady = some (n', rd)) :
    Guards cs ((c.set x (.ready n' rd)).send rd.light.messages) := by
  have hguarded := h.node x n (by rw [hn]; rfl)
  obtain ⟨n₁, store, htakes, -, -, hcore⟩ := RawNode.processReady_takes hready
  have hterm : n'.raft.term = n.raft.term := congrArg NodeCore.term hcore
  have hkeeps : n'.raft.term ≤ (view n'.raft.raftLog.store).hardState.term := by
    have hserver := hfollows'.server x
    simp only [Cluster.send, Cluster.set, Function.update_self] at hserver
    obtain ⟨-, hkeeps, hcurrent, -⟩ := hserver
    rw [hcurrent] at hkeeps
    exact hkeeps.term
  rw [hterm] at hkeeps
  refine h.set (T := n.raft.term) ?_ hkeeps ?_ ?_
  · rw [htakes.messages]
    exact hguarded.queued
  · exact fun m hm => (hguarded.requested m hm).mono hkeeps
  · rintro _ ⟨⟩
    refine ⟨hterm.ge, ?_⟩
    rw [hcore]
    exact ⟨hguarded.preVote, hguarded.voted, hguarded.requested, fun m hm => absurd hm (by simp)⟩

theorem Guards.advance [ConfStorage σ] {rd : Ready} {light : LightReady} (h : Guards cs c)
    (hfollows : Follows cs c w b) (hn : c.servers x = .ready n rd)
    (hfinish : n.finishReady rd = some (n', light)) :
    Guards cs ((c.set x (.idle n')).send light.messages) := by
  have hguarded := h.node x n (by rw [hn]; rfl)
  obtain ⟨hx, hkeeps, hcurrent, hprevTerm, -, hrecord⟩ := hfollows.at hn
  obtain ⟨n₁, log, reported, hadvances, hsteps, hn'⟩ := @RawNode.finishReady_eq σ _ _
    (freshEnv c.net) _ _ _ _ (fun _ _ _ => trivial) (fun _ _ => trivial) hrecord hfinish
  obtain ⟨hstart, hmoves⟩ := hfollows.reported hn trivial hfollows.net hadvances
  have hreported := h.steps hfollows hx hstart (hguarded.relog log) hadvances.steps
  -- the messages are handed out, and the world follows
  obtain ⟨w₁, b₁, hw₁, -, hnode₁, hnet₁, -⟩ := hfollows.elects.settle hx hmoves
    (hfollows.elects.moves_sharesConf hx hmoves) hadvances.core
  have hstart' : Moves (Relogs cs) w₁.net (w₁.node x) n₁.raft.core := by
    rw [hnode₁, Function.update_self]
  have hguarded₁ : Guarded cs c.net x n₁.raft.core := by
    rw [hadvances.core]
    exact hreported.flush
  have hguarded' := hguarded₁.steps hw₁ hx hstart' trivial
    (fun m hm => hnet₁ m (hfollows.net m hm)) h.answers (fun _ hm => hm) id id hsteps
  have hreportedTerm : reported.term = n.raft.term := hadvances.term.trans hprevTerm
  have hterm₁ : n₁.raft.term = reported.term := congrArg NodeCore.term hadvances.core
  have hlaterTerm : n₁.raft.term ≤ n'.raft.term := hsteps.term_le trivial
  have hstore' : n'.raft.raftLog.store = n.raft.raftLog.store :=
    hsteps.store_eq.trans hadvances.store_eq
  refine h.set (T := n.raft.term) ?_ ?_ ?_ ?_
  · rw [hadvances.messages, ← hreportedTerm]
    exact hreported.queued
  · have hterm := hkeeps.term
    rw [hcurrent] at hterm
    exact (show Server.store (.idle n') = n.raft.raftLog.store from hstore') ▸ hterm
  · have hstored := h.stored x
    rw [hn] at hstored
    exact (show Server.store (.idle n') = n.raft.raftLog.store from hstore') ▸ hstored
  · rintro _ ⟨⟩
    exact ⟨by omega, hguarded'⟩

theorem Guards.snapshot {data : Bytes} {index : ℕ} (h : Guards cs c) (hn : c.servers x = .idle n)
    (hsnapshot : n.takeSnapshot data index = some n') : Guards cs (c.set x (.idle n')) := by
  have hguarded := h.node x n (by rw [hn]; rfl)
  have hstored := h.stored x
  rw [hn] at hstored
  simp only [RawNode.takeSnapshot] at hsnapshot
  split at hsnapshot
  · simp only [bind_eq_bind] at hsnapshot
    obtain ⟨state, -, hsnapshot⟩ := of_bind hsnapshot
    obtain ⟨term, -, hsnapshot⟩ := of_bind hsnapshot
    obtain ⟨store, hwrite, hsnapshot⟩ := of_bind hsnapshot
    cases hsnapshot
    obtain ⟨hok, rfl⟩ := accepted_eq hwrite
    obtain ⟨hhard, -⟩ := LawfulStorage.applyLocalSnapshot_state _ _ hok
    refine h.set_server (fun m hm => (hstored m hm).mono ?_) ?_
    · exact (le_max_left _ _).trans_eq (congrArg HardState.term hhard).symm
    · rintro _ ⟨⟩
      exact hguarded.relog _
  · cases hsnapshot

theorem Guards.restart {store : σ} {config : Config} {rng : ℕ → ℕ} (h : Guards cs c)
    (hs : c.servers x = .down store) (hload : config.loadStateOnStartup = true)
    (hpre : config.preVote = true) (hnew : RawNode.new config store rng = some n) :
    Guards cs (c.set x (.idle n)) := by
  obtain ⟨-, -, -, -, state, hstate, hboot⟩ := RawNode.new_booted hnew
  rw [LawfulStorage.initialState_eq] at hstate
  obtain rfl := (Except.ok.inj hstate).symm
  obtain ⟨first, last, -, -, hstore, -⟩ := hboot.log
  have hstored := h.stored x
  rw [hs] at hstored
  refine h.set_server ?_ ?_
  · exact (show Server.store (.idle n) = store from hstore) ▸ hstored
  · rintro _ ⟨⟩
    refine ⟨hboot.preVote.trans hpre, .of_follower hboot.role, ?_, ?_⟩
    · rw [show n.raft.core.term = (view store).hardState.term from (hboot.hard hload).1]
      exact hstored
    · simp [Raft.core, hboot.messages]

/-! ## Runs -/

theorem Guards.exec [ConfStorage σ] {a : Action} (h : Guards cs c) (hfollows : Follows cs c w b)
    (hfollows' : Follows cs c' w' b') (hpre : a.PreVotes) (hfresh : c.Fresh a)
    (hexec : c.exec a = some c') : Guards cs c' := by
  cases Cluster.Executes.of_exec hexec with
  | input hn hcall hinput => exact h.input hfollows hn hcall hpre hfresh hinput
  | ready hn hready => exact h.ready hfollows' hn hready
  | advance hn hfinish => exact h.advance hfollows hn hfinish
  | snapshot hn hsnapshot => exact h.snapshot hn hsnapshot
  | crash => exact h.set_server (h.stored _) (by simp [Server.node?])
  | restart hs hid hload hnew => exact h.restart hs hload hpre hnew

theorem Guards.run [ConfStorage σ] {actions : List Action}
    (hrun : Cluster.Run (fun c a => a.PreVotes ∧ c.Fresh a) c actions c') :
    ∀ {w b}, Guards cs c → Follows cs c w b → Guards cs c' := by
  induction hrun with
  | nil c => exact fun h _ => h
  | cons hop hexec _ ih =>
      intro w b h hfollows
      obtain ⟨w₁, b₁, hfollows₁, -⟩ := hfollows.exec hexec
      exact ih (h.exec hfollows hfollows₁ hop.1 hop.2 hexec) hfollows₁

theorem Guards.initial (h : c.Initial cs) : Guards cs c := by
  obtain ⟨hnet, hdown⟩ := h
  refine ⟨by simp [hnet], by simp [hnet], fun x n hn => ?_⟩
  obtain ⟨store, hs, -⟩ := hdown x
  rw [hs] at hn
  exact absurd hn (by simp [Server.node?])

/-- **Pre-votes protect terms.**  In every state of a run in which no grant of an earlier
candidacy is counted, the votes that a pre-candidate or a candidate has counted were granted for
the term it asks for, and a node is a candidate or a leader only with a quorum of pre-votes that
were asked and granted for its term. -/
theorem preVote_protects [ConfStorage σ] {c₀ : Cluster σ} {actions : List Action} {n : RawNode σ}
    (hinitial : c₀.Initial cs)
    (hrun : Cluster.Run (fun c a => a.PreVotes ∧ c.Fresh a) c₀ actions c)
    (hn : (c.servers x).node? = some n) :
    PreVoted cs c.net x n.raft.state n.raft.term n.raft.tracker.votes := by
  obtain ⟨w, b, hfollows⟩ := Follows.initial hinitial
  exact ((Guards.initial hinitial).run hrun hfollows).node x n hn |>.voted

end Clusters

/-! ## Runs of three servers -/

def Action.startPreVote (id : ℕ) : Action :=
  .restart id { id, loadStateOnStartup := true, preVote := true } fun _ => 0

/-- The application of a server handles what its node has ready. -/
def Action.cycle (id : ℕ) : List Action := [.ready id, .advance id]

def Action.deliver (msgType : MessageType) (sender receiver term : ℕ) : Action :=
  .input receiver (.step { msgType, sender, receiver, term })

/-- Server 1 asks for pre-votes, and server 2 grants its own. -/
def trioPreVote : List Action :=
  [.startPreVote 1, .startPreVote 2, .startPreVote 3, .input 1 .campaign] ++ Action.cycle 1 ++
    [.deliver .msgRequestPreVote 1 2 1] ++ Action.cycle 2

theorem preVote_protects_trio :
    letI := Codec.plain
    ∃ c n A, Cluster.Run (fun c a => a.PreVotes ∧ c.Fresh a) trio
        (trioPreVote ++ [.deliver .msgRequestPreVoteResponse 2 1 1]) c ∧
      (c.servers 1).node? = some n ∧ n.raft.state = .candidate ∧
      ({ voters := [1, 2, 3] } : ConfState).quorums.IsQuorum A ∧
      ∀ v ∈ A, v = 1 ∨ Granted c.net 1 v n.raft.term := by
  let _ := Codec.plain
  have heval : (trio.runWhile (fun c a => a.PreVotes ∧ c.Fresh a)
      (trioPreVote ++ [.deliver .msgRequestPreVoteResponse 2 1 1])).any (fun c =>
        (c.servers 1).node?.any fun n => decide (n.raft.state = .candidate)) = true := by
    decide +kernel
  simp only [any_eq_true, decide_eq_true_eq] at heval
  obtain ⟨c, hrun, n, hn, hstate⟩ := heval
  have hrun' := Cluster.Run.of_runWhile hrun
  have hinitial : trio.Initial { voters := [1, 2, 3] } := ⟨rfl, fun _ => ⟨_, rfl, rfl⟩⟩
  obtain ⟨A, hA, hgrants⟩ := (preVote_protects hinitial hrun' hn).quorum (Or.inl hstate)
  exact ⟨c, n, A, hrun', hn, hstate, hA, hgrants⟩

/-- The grant of server 2 is delayed.  Server 2 wins a pre-vote and moves to the term 1, where
server 1 follows it and asks for pre-votes again, now for the term 2.  The delayed grant, for the
term 1, makes it a candidate. -/
def delayedGrant : List Action :=
  trioPreVote ++ [.input 2 .campaign] ++ Action.cycle 2 ++
    [.deliver .msgRequestPreVote 2 3 1] ++ Action.cycle 3 ++
    [.deliver .msgRequestPreVoteResponse 3 2 1] ++ Action.cycle 2 ++
    [.deliver .msgRequestVote 2 1 1] ++ Action.cycle 1 ++
    [.input 1 .campaign, .deliver .msgRequestPreVoteResponse 2 1 1]

theorem delayed_grant_counted :
    letI := Codec.plain
    (∀ a ∈ delayedGrant, a.PreVotes) ∧ ∃ c n, trio.run delayedGrant = some c ∧
      (c.servers 1).node? = some n ∧ n.raft.state = .candidate ∧ n.raft.term = 2 ∧
      ¬∃ A, ({ voters := [1, 2, 3] } : ConfState).quorums.IsQuorum A ∧
        ∀ v ∈ A, v = 1 ∨ Granted c.net 1 v n.raft.term := by
  obtain ⟨hall, c, hrun, hnet, n, hn, hstate, hterm⟩ : letI := Codec.plain
      (∀ a ∈ delayedGrant, a.PreVotes) ∧ ∃ c, trio.run delayedGrant = some c ∧
        (∀ m ∈ c.net, m.msgType = .msgRequestPreVote → m.term ≠ 2) ∧
        ∃ n, (c.servers 1).node? = some n ∧ n.raft.state = .candidate ∧ n.raft.term = 2 := by
    decide +kernel
  refine ⟨hall, c, n, hrun, hn, hstate, hterm, ?_⟩
  rintro ⟨A, hA, hgrants⟩
  have halone : ∀ v ∈ A, v = 1 := by
    intro v hv
    refine (hgrants v hv).resolve_right ?_
    rintro ⟨q, hq, hkind, -, -, hqterm, -⟩
    exact hnet q hq hkind (hqterm.trans hterm)
  have htwo := JointConfiguration.eq_of_isQuorum_singleton hA halone (y := 2) (by decide)
  exact absurd htwo (by decide)

end Raftpp
