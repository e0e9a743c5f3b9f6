import Raftpp.Protocol.Backing
import Raftpp.Ready.Driver

/-!
# Election safety

Every run of a cluster is followed by a world of recorded votes.  A server that
is stopped or has persisted everything agrees with its node in that world; one
that runs ahead of its storage is a run away from it.  A leader is then backed by
recorded votes, which are never forgotten, so that no term ever has two leaders.
-/

namespace Raftpp

open Option RawNode LawfulStorage

section Safety

variable {σ : Type} [WritableStorage σ] [Codec] [LawfulStorage σ] {cs : ConfState}
  {b b' : Ballots ℕ} {w w' : World σ} {x : ℕ} {c c' : Cluster σ} {env : Env}
  {messages : List Message} {n n' : RawNode σ} {rd : Ready} {s : Server σ}

/-! ## Storages and nodes -/

/-- A storage holds the term and the vote of a node, or a later term. -/
structure Keeps (cs : ConfState) (k : NodeCore σ) (store : σ) : Prop where
  conf : (view store).confState = cs
  vote : (view store).hardState.vote = k.vote
  term : k.term ≤ (view store).hardState.term

theorem RaftLog.SharesConf.of_view [ConfStorage σ] {l : RaftLog σ}
    (hstore : (view l.store).confState = cs)
    (hsnapshot : ∀ s, l.unstable.snapshot = some s → s.metadata.confState = cs) :
    l.SharesConf cs where
  unstable := hsnapshot
  store _ _ _ hs := (ConfStorage.getSnapshot_confState _ _ _ _ hs).trans hstore

/-- What a persisted `Ready` leaves in the storage. -/
theorem persist_state {store store' : σ} (h : persist store rd = some store')
    (hconf : (view store).confState = cs)
    (hsnapshot : ∀ s, rd.snapshot = some s → s.metadata.confState = cs) :
    (view store').confState = cs ∧
      ((∃ hs, rd.hs = some hs ∧ (view store').hardState = hs) ∨
        rd.hs = none ∧ (view store').hardState.vote = (view store).hardState.vote ∧
          (view store).hardState.term ≤ (view store').hardState.term) := by
  unfold persist at h
  obtain ⟨s₁, hfirst, h⟩ := of_bind h
  obtain ⟨s₂, hsecond, h⟩ := of_bind h
  have h₁ : (view s₁).confState = cs ∧
      (view s₁).hardState.vote = (view store).hardState.vote ∧
      (view store).hardState.term ≤ (view s₁).hardState.term := by
    unfold writeSnapshot at hfirst
    split at hfirst
    next snapshot heq =>
      obtain ⟨hok, rfl⟩ := accepted_eq hfirst
      obtain ⟨commit, -, -, hview⟩ := applySnapshot_eq _ _ hok
      rw [hview]
      exact ⟨hsnapshot snapshot heq, rfl, le_max_left _ _⟩
    · cases hfirst
      exact ⟨hconf, rfl, le_rfl⟩
  have h₂ : (view s₂).confState = (view s₁).confState ∧
      (view s₂).hardState = (view s₁).hardState := by
    unfold writeEntries at hsecond
    split at hsecond
    · cases hsecond
      exact ⟨rfl, rfl⟩
    · obtain ⟨hok, rfl⟩ := accepted_eq hsecond
      exact (append_state _ _ hok).symm
  unfold writeHardState at h
  split at h
  next hs heq =>
    obtain ⟨hok, rfl⟩ := accepted_eq h
    rw [setHardState_eq _ _ hok]
    exact ⟨h₂.1.trans h₁.1, Or.inl ⟨hs, heq, rfl⟩⟩
  next heq =>
    cases h
    rw [h₂.1, h₂.2]
    exact ⟨h₁.1, Or.inr ⟨heq, h₁.2⟩⟩

omit [LawfulStorage σ] in
/-- What a node is after its `Ready` is taken out and persisted. -/
theorem RawNode.processReady_takes (h : n.processReady = some (n', rd)) :
    ∃ n₁ store, Takes n n₁ rd ∧ persist n.raft.raftLog.store rd = some store ∧
      n' = n₁.setStore store ∧
      n'.raft.core =
        { n.raft.core with
          log := { n.raft.raftLog with store }, messages := []
          uncommitted := n'.raft.uncommittedState } := by
  obtain ⟨n₁, store, hget, hpersist, rfl⟩ := processReady_eq h
  have htakes := getReady_takes hget
  have hlog := htakes.raftLog
  have hset : (n₁.setStore store).raft.core =
      { n₁.raft.core with log := { n₁.raft.raftLog with store } } := rfl
  refine ⟨n₁, store, htakes, hpersist, rfl, ?_⟩
  rw [hset, htakes.core, hlog]
  rfl

omit [LawfulStorage σ] in
/-- What a node does when it advances over a `Ready`: it takes note of what is persisted, hands
out messages, and goes on with what it applied. -/
theorem RawNode.finishReady_eq {light : LightReady}
    (henv : ∀ u : Unstable, u.snapshot = none → u.entries = [] → env.persist u)
    (hown : ∀ e : Entry, e.OfLeader → env.propose e)
    (hrecord : ∀ record, n.records.getLast? = some record →
      Records record n.raft.raftLog.unstable) (h : n.finishReady rd = some (n', light)) :
    ∃ n₁ log reported, Advances env n n₁ rd log reported light.messages ∧
      Steps env n₁.raft.core n'.raft.core ∧ n' = { n₁ with raft := n'.raft } := by
  simp only [finishReady, advance] at h
  obtain ⟨⟨n₂, light₁⟩, hadvance, h⟩ := of_bind h
  obtain ⟨⟨n₁, light₂⟩, happend, hadvance⟩ := of_bind hadvance
  obtain ⟨n₃, happly, hadvance⟩ := of_bind hadvance
  cases hadvance
  obtain ⟨log, reported, hadvances⟩ := advanceAppend_advances henv hrecord happend
  obtain ⟨raft, hfirst, rfl⟩ := advanceApplyTo_eq hown happly
  split at h
  · cases h
    exact ⟨n₁, log, reported, hadvances, hfirst, rfl⟩
  · obtain ⟨n₄, hagain, h⟩ := of_bind h
    cases h
    obtain ⟨raft', hsecond, rfl⟩ := advanceApplyTo_eq hown hagain
    exact ⟨n₁, log, reported, hadvances, hfirst.trans hsecond, rfl⟩

/-! ## Servers and the world -/

/-- What a server owes to the world of recorded votes. -/
def ServerElects (cs : ConfState) (w : World σ) (x : ℕ) : Server σ → Prop
  | .down store => Keeps cs (w.node x) store
  | .idle n => x ≠ 0 ∧ Keeps cs (w.node x) n.raft.raftLog.store ∧
      Moves (Relogs cs) w.net (w.node x) n.raft.core ∧
      n.prevHs.term = (w.node x).term ∧ n.prevHs.vote = (w.node x).vote
  | .ready n rd => x ≠ 0 ∧ Keeps cs (w.node x) n.raft.raftLog.store ∧ w.node x = n.raft.core ∧
      (rd.hs.getD n.prevHs).term = n.raft.term ∧ (rd.hs.getD n.prevHs).vote = n.raft.vote ∧
      ∀ record, n.records.getLast? = some record →
        Records record n.raft.raftLog.unstable

/-- The cluster and the world that follows it. -/
structure Follows (cs : ConfState) (c : Cluster σ) (w : World σ) (b : Ballots ℕ) : Prop where
  elects : Elects cs w b
  net : ∀ m ∈ c.net, w.net m
  server : ∀ x, ServerElects cs w x (c.servers x)

theorem ServerElects.keeps (h : ServerElects cs w x s) : Keeps cs (w.node x) s.store := by
  cases s with
  | down store => exact h
  | idle n => exact h.2.1
  | ready n rd => exact h.2.1

theorem ServerElects.mono (h : ServerElects cs w x s) (hnode : w'.node x = w.node x)
    (hnet : ∀ m, w.net m → w'.net m) : ServerElects cs w' x s := by
  cases s with
  | down store =>
      simp only [ServerElects, hnode]
      exact h
  | idle n =>
      simp only [ServerElects, hnode]
      exact ⟨h.1, h.2.1, h.2.2.1.mono hnet, h.2.2.2⟩
  | ready n rd =>
      simp only [ServerElects, hnode]
      exact h

theorem Follows.at (h : Follows cs c w b) (hs : c.servers x = s) : ServerElects cs w x s :=
  hs ▸ h.server x

/-- One server moves, and the world with it. -/
theorem Follows.set (h : Follows cs c w b) {k : NodeCore σ} (helects : Elects cs w' b')
    (hnode : w'.node = Function.update w.node x k) (hnet : ∀ m, w.net m → w'.net m)
    (hmessages : ∀ m ∈ messages, w'.net m) (hs : ServerElects cs w' x s) :
    Follows cs ((c.set x s).send messages) w' b' where
  elects := helects
  net m hm := by
    rcases List.mem_append.mp hm with hm | hm
    · exact hnet m (h.net m hm)
    · exact hmessages m hm
  server y := by
    by_cases hy : y = x
    · subst hy
      simpa [Cluster.send, Cluster.set] using hs
    · simpa [Cluster.send, Cluster.set, hy] using (h.server y).mono (by simp [hnode, hy]) hnet

/-- A server moves while the world stays. -/
theorem Follows.set_server (h : Follows cs c w b) (hs : ServerElects cs w x s) :
    Follows cs (c.set x s) w b := by
  have hset : Follows cs ((c.set x s).send []) w b :=
    h.set h.elects (Function.update_eq_self x _).symm (fun _ hm => hm) (by simp) hs
  simpa [Cluster.send] using hset

/-- The world after an action, with every vote still recorded. -/
def Followed (cs : ConfState) (b : Ballots ℕ) (c : Cluster σ) : Prop :=
  ∃ w b', Follows cs c w b' ∧ ∀ v T y, b.voted v T y → b'.voted v T y

/-! ## Actions -/

/-- What a server is sent reaches its node. -/
theorem Follows.delivered {call : Input} (h : Follows cs c w b) (hn : c.servers x = .idle n)
    (hcall : c.deliverable x call = true) (hsent : ∀ m ∈ c.net, env.sent m) (m : Message)
    (hm : call = .step m) (hkind : m.msgType.isProtocol = true) : Delivered env n.raft.id m := by
  subst hm
  obtain ⟨-, -, hmoves, -⟩ := h.at hn
  obtain ⟨hnet, hreceiver⟩ := of_decide_eq_true hcall
  exact ⟨hsent m hnet, fun _ => hreceiver.trans (hmoves.id_eq.trans (h.elects.node x).id).symm,
    fun _ => (h.elects.message m (h.net m hnet)).term_ne hkind⟩

theorem Follows.input {call : Input} (h : Follows cs c w b) (hn : c.servers x = .idle n)
    (hcall : c.deliverable x call = true) (hinput : n.input call = some n') :
    Follows cs (c.set x (.idle n')) w b := by
  obtain ⟨hx, hkeeps, hmoves, hprev⟩ := h.at hn
  obtain ⟨raft, hsteps, rfl⟩ := @input_eq σ _ _ (.free w.net) n n' call hinput
    (h.delivered hn hcall h.net) (fun m _ => .free w.net n.raft m) (fun _ => trivial)
    (fun _ => trivial) fun _ _ => trivial
  refine h.set_server ⟨hx, ?_, hmoves.trans (hsteps.moves trivial fun _ => id), hprev⟩
  exact (show raft.raftLog.store = n.raft.raftLog.store from hsteps.store_eq) ▸ hkeeps

theorem Follows.ready [ConfStorage σ] (h : Follows cs c w b) (hn : c.servers x = .idle n)
    (hready : n.processReady = some (n', rd)) :
    Followed cs b ((c.set x (.ready n' rd)).send rd.light.messages) := by
  obtain ⟨hx, hkeeps, hmoves, hprevTerm, hprevVote⟩ := h.at hn
  obtain ⟨n₁, store, htakes, hpersist, rfl, hcore⟩ := processReady_takes hready
  have hlog₁ := htakes.raftLog
  have hshares : n.raft.raftLog.SharesConf cs := h.elects.moves_sharesConf hx hmoves
  obtain ⟨hconf, hhard⟩ := persist_state hpersist hkeeps.conf fun s hs =>
    hshares.unstable s (htakes.snapshot ▸ hs)
  have hshares' : RaftLog.SharesConf cs { n.raft.raftLog with store } :=
    .of_view hconf fun s hs => hshares.unstable s hs
  obtain ⟨w₁, b₁, hw₁, hb₁, hnode₁, hnet₁, hqueued⟩ := h.elects.settle hx hmoves hshares' hcore
  have hself : w₁.node x = (n₁.setStore store).raft.core := by rw [hnode₁, Function.update_self]
  have hhs : rd.hs.getD n₁.prevHs = n.raft.hardState := by
    rw [htakes.hs, htakes.prevHs]
    split
    · rfl
    next heq => exact (not_not.mp heq).symm
  have hterm : (n₁.setStore store).raft.term = n.raft.term := congrArg NodeCore.term hcore
  have hvote : (n₁.setStore store).raft.vote = n.raft.vote := congrArg NodeCore.vote hcore
  have hstored : (view store).hardState.vote = n.raft.vote ∧
      n.raft.term ≤ (view store).hardState.term := by
    rcases hhard with ⟨hs, hsome, hview⟩ | ⟨hnone, hsameVote, hlaterTerm⟩
    · rw [hsome, getD_some] at hhs
      rw [hview, hhs]
      exact ⟨rfl, le_rfl⟩
    · -- without a new hard state, term and vote are those persisted before
      rw [hnone, getD_none, htakes.prevHs] at hhs
      have hsameTerm : n.raft.term = (w.node x).term := hprevTerm ▸ congrArg HardState.term hhs.symm
      have hsame : n.raft.vote = (w.node x).vote := hprevVote ▸ congrArg HardState.vote hhs.symm
      rw [hsameVote, hkeeps.vote, hsame, hsameTerm]
      exact ⟨rfl, hkeeps.term.trans hlaterTerm⟩
  refine ⟨w₁, b₁, h.set hw₁ hnode₁ hnet₁ (htakes.messages ▸ hqueued) ?_, hb₁.voted⟩
  · refine ⟨hx, ⟨hconf, ?_, ?_⟩, hself, ?_, ?_, ?_⟩
    · rw [hself]
      exact hstored.1.trans hvote.symm
    · rw [hself]
      exact hterm.le.trans hstored.2
    · exact (congrArg HardState.term hhs).trans hterm.symm
    · exact (congrArg HardState.vote hhs).trans hvote.symm
    · intro record hrecord
      rw [show (n₁.setStore store).records = n₁.records from rfl, htakes.record] at hrecord
      have hunstable : (n₁.setStore store).raft.raftLog.unstable = n.raft.raftLog.unstable :=
        (show _ = n₁.raft.raftLog.unstable from rfl).trans (congrArg RaftLog.unstable hlog₁)
      rw [← some.inj hrecord, hunstable]
      exact ⟨by rw [htakes.entries], by rw [htakes.snapshot]⟩

omit [LawfulStorage σ] in
theorem RawNode.Advances.store_eq {log : RaftLog σ} {reported : Raft σ}
    (h : Advances env n n' rd log reported messages) :
    n'.raft.raftLog.store = n.raft.raftLog.store := by
  have hlog : n'.raft.raftLog = reported.raftLog := congrArg NodeCore.log h.core
  have hstore : reported.raftLog.store = log.store := h.steps.store_eq
  rw [hlog, hstore, h.settled.same]

/-- The world follows a node that advances up to the report of what is persisted. -/
theorem Follows.reported [ConfStorage σ] {log : RaftLog σ} {reported : Raft σ}
    (h : Follows cs c w b) (hn : c.servers x = .ready n rd) (hproper : env.proper)
    (hsent : ∀ m, env.sent m → w.net m) (hadvances : Advances env n n' rd log reported messages) :
    Moves (Relogs cs) w.net (w.node x) { n.raft.core with log } ∧
      Moves (Relogs cs) w.net (w.node x) reported.core := by
  obtain ⟨-, hkeeps, hcurrent, -⟩ := h.at hn
  have hshares : log.SharesConf cs := by
    refine .of_view ?_ fun s hs => ?_
    · rw [hadvances.settled.same]
      exact hkeeps.conf
    · rw [hadvances.settled.snapshot] at hs
      cases hs
  have hstart : Moves (Relogs cs) w.net (w.node x) { n.raft.core with log } := by
    rw [hcurrent]
    exact .single (.relog _ log hshares)
  exact ⟨hstart, hstart.trans (Steps.moves hadvances.steps hproper hsent)⟩

theorem Follows.advance [ConfStorage σ] {light : LightReady} (h : Follows cs c w b)
    (hn : c.servers x = .ready n rd) (hfinish : n.finishReady rd = some (n', light)) :
    Followed cs b ((c.set x (.idle n')).send light.messages) := by
  obtain ⟨hx, hkeeps, hcurrent, hprevTerm, hprevVote, hrecord⟩ := h.at hn
  obtain ⟨n₁, log, reported, hadvances, hsteps, hn'⟩ := @finishReady_eq σ _ _
    (.free w.net) _ _ _ _ (fun _ _ _ => trivial) (fun _ _ => trivial) hrecord hfinish
  obtain ⟨-, hmoves⟩ := h.reported hn trivial (fun _ => id) hadvances
  have hcore := hadvances.core
  obtain ⟨w₁, b₁, hw₁, hb₁, hnode₁, hnet₁, hqueued⟩ :=
    h.elects.settle hx hmoves (h.elects.moves_sharesConf hx hmoves) hcore
  have hself : w₁.node x = n₁.raft.core := by rw [hnode₁, Function.update_self]
  have hterm : n₁.raft.term = n.raft.term :=
    (congrArg NodeCore.term hcore).trans (hadvances.term.trans hprevTerm)
  have hvote : n₁.raft.vote = n.raft.vote :=
    (congrArg NodeCore.vote hcore).trans (hadvances.vote.trans hprevVote)
  have hkeeps₁ : Keeps cs n₁.raft.core n₁.raft.raftLog.store := by
    rw [hcurrent] at hkeeps
    rw [hadvances.store_eq]
    exact ⟨hkeeps.conf, hkeeps.vote.trans hvote.symm, hterm.le.trans hkeeps.term⟩
  have hprev₁ : n₁.prevHs = n₁.raft.hardState := by
    rw [hadvances.prevHs]
    simp only [Raft.hardState]
    rw [show n₁.raft.term = reported.term from congrArg NodeCore.term hcore,
      show n₁.raft.vote = reported.vote from congrArg NodeCore.vote hcore,
      show n₁.raft.raftLog = reported.raftLog from congrArg NodeCore.log hcore]
  have hprev' : n'.prevHs = n₁.prevHs := by rw [hn']
  refine ⟨w₁, b₁, h.set hw₁ hnode₁ hnet₁ (hadvances.messages ▸ hqueued) ?_, hb₁.voted⟩
  · simp only [ServerElects, hself]
    -- what the node does when it applies entries is not persisted yet
    refine ⟨hx, ?_, hsteps.moves trivial hnet₁, congrArg HardState.term (hprev'.trans hprev₁),
      congrArg HardState.vote (hprev'.trans hprev₁)⟩
    exact (show n'.raft.raftLog.store = n₁.raft.raftLog.store from hsteps.store_eq) ▸ hkeeps₁

theorem Follows.snapshot [ConfStorage σ] {data : Bytes} {index : ℕ} (h : Follows cs c w b)
    (hn : c.servers x = .idle n) (hsnapshot : n.takeSnapshot data index = some n') :
    Follows cs (c.set x (.idle n')) w b := by
  obtain ⟨hx, hkeeps, hmoves, hprev⟩ := h.at hn
  have hshares : n.raft.raftLog.SharesConf cs := h.elects.moves_sharesConf hx hmoves
  simp only [takeSnapshot] at hsnapshot
  split at hsnapshot
  · simp only [bind_eq_bind] at hsnapshot
    obtain ⟨state, hstate, hsnapshot⟩ := of_bind hsnapshot
    obtain ⟨term, -, hsnapshot⟩ := of_bind hsnapshot
    obtain ⟨store, hwrite, hsnapshot⟩ := of_bind hsnapshot
    cases hsnapshot
    rw [unwrap_eq_some, initialState_eq] at hstate
    obtain ⟨hok, rfl⟩ := accepted_eq hwrite
    obtain ⟨hhard, hconf⟩ := applyLocalSnapshot_state _ _ hok
    have hconf' : state.confState = cs := by
      rw [← Except.ok.inj hstate]
      exact hkeeps.conf
    refine h.set_server ⟨hx, ⟨hconf.trans hconf', ?_, ?_⟩, ?_, hprev⟩
    · exact (congrArg HardState.vote hhard).trans hkeeps.vote
    · exact hkeeps.term.trans ((le_max_left _ _).trans_eq (congrArg HardState.term hhard).symm)
    · refine hmoves.tail (.relog _ _ ?_)
      exact .of_view (hconf.trans hconf') fun s hs => hshares.unstable s hs
  · cases hsnapshot

theorem Follows.restart [ConfStorage σ] {store : σ} {config : Config} {rng : ℕ → ℕ}
    (h : Follows cs c w b) (hs : c.servers x = .down store) (hid : config.id = x)
    (hload : config.loadStateOnStartup = true) (hnew : RawNode.new config store rng = some n) :
    Followed cs b (c.set x (.idle n)) := by
  have hkeeps : Keeps cs (w.node x) store := h.at hs
  obtain ⟨hx, hprev, -, -, state, hstate, hboot⟩ := new_booted hnew
  obtain ⟨hterm, hvote⟩ := hboot.hard hload
  rw [initialState_eq] at hstate
  obtain rfl := (Except.ok.inj hstate).symm
  obtain ⟨tracker, next, htracker, halike⟩ := hboot.conf
  rw [show (view store).confState = cs from hkeeps.conf] at htracker
  have hconf' : n.raft.tracker.conf = restoredConf cs :=
    halike.conf.trans (restoreTracker_eq_restoredConf htracker)
  obtain ⟨first, last, -, -, hstore, hunstable, -⟩ := hboot.log
  have hstarts : Starts cs x n.raft.core := by
    refine ⟨hboot.id.trans hid, hboot.role, hconf', ?_, hboot.messages, ?_⟩
    · intro hpromotable
      rw [ConfState.IsVoter, ← hconf', ← hid, ← hboot.id]
      exact hboot.promotable ▸ hpromotable
    · refine .of_view ?_ fun s hsnap => ?_
      · simp only [Raft.core_log, hstore]
        exact hkeeps.conf
      · simp only [Raft.core_log, hunstable] at hsnap
        cases hsnap
  obtain ⟨b', hb', hw'⟩ := h.elects.restart hstarts (hkeeps.term.trans_eq hterm.symm)
    (hvote.trans hkeeps.vote)
  have hset : Follows cs ((c.set x (.idle n)).send []) (w.act x n.raft.core) b' := by
    refine h.set hw' rfl (fun m hm => Or.inl hm) (by simp) ?_
    simp only [ServerElects, World.act_node_self]
    refine ⟨hid ▸ hx, ?_, .refl, by rw [hprev]; rfl, by rw [hprev]; rfl⟩
    rw [hstore]
    exact ⟨hkeeps.conf, hvote.symm, hterm.le⟩
  refine ⟨w.act x n.raft.core, b', ?_, hb'.voted⟩
  simpa [Cluster.send] using hset

/-! ## Runs -/

theorem Follows.exec [ConfStorage σ] {a : Action} (h : Follows cs c w b)
    (hexec : c.exec a = some c') :
    Followed cs b c' := by
  have hsame : ∀ {c' : Cluster σ}, Follows cs c' w b → Followed cs b c' :=
    fun h => ⟨w, b, h, fun _ _ _ hvoted => hvoted⟩
  cases Cluster.Executes.of_exec hexec with
  | input hn hcall hinput => exact hsame (h.input hn hcall hinput)
  | ready hn hready => exact h.ready hn hready
  | advance hn hfinish => exact h.advance hn hfinish
  | snapshot hn hsnapshot => exact hsame (h.snapshot hn hsnapshot)
  | crash => exact hsame (h.set_server (h.server _).keeps)
  | restart hs hid hload hnew => exact h.restart hs hid hload hnew

theorem Follows.run [ConfStorage σ] : ∀ {actions : List Action} {c : Cluster σ} {w : World σ}
    {b : Ballots ℕ},
    Follows cs c w b → c.run actions = some c' → Followed cs b c' := by
  intro actions
  induction actions with
  | nil =>
      intro c w b h hrun
      cases hrun
      exact ⟨w, b, h, fun _ _ _ hvoted => hvoted⟩
  | cons a actions ih =>
      intro c w b h hrun
      rw [Cluster.run, List.foldlM_cons] at hrun
      obtain ⟨c₁, hexec, hrest⟩ := of_bind hrun
      obtain ⟨w₁, b₁, h₁, hb₁⟩ := h.exec hexec
      obtain ⟨w₂, b₂, h₂, hb₂⟩ := ih h₁ hrest
      exact ⟨w₂, b₂, h₂, fun v T y hvoted => hb₂ v T y (hb₁ v T y hvoted)⟩

/-- A node that has never run. -/
def NodeCore.blank (cs : ConfState) (x : ℕ) (store : σ) : NodeCore σ where
  id := x
  term := 0
  vote := kInvalidId
  state := .follower
  promotable := false
  conf := restoredConf cs
  groupCommit := false
  votes := []
  log :=
    { store, unstable := { offset := 0 }, committed := 0, persisted := 0, applied := 0
      maxApplyUnpersistedLogLimit := 0 }
  tracks _ := none
  messages := []
  pendingConf := 0
  preVote := false
  uncommitted := { maxUncommittedSize := 0 }

theorem Follows.initial [ConfStorage σ] (h : c.Initial cs) : ∃ w b, Follows cs c w b := by
  obtain ⟨hnet, hdown⟩ := h
  choose store hserver hview using hdown
  refine ⟨⟨fun x => .blank cs x (store x), fun _ => False⟩,
    ⟨fun _ => 0, fun _ => none, fun _ => .follower, fun _ _ _ => False, fun _ => none⟩,
    ⟨⟨by simp, by simp, by simp, by simp, by simp, by simp, by simp, by simp, by simp⟩, ?_, ?_,
      ?_, ?_⟩, ?_, ?_⟩
  · intro x
    refine ⟨rfl, rfl, rfl, rfl, rfl, by simp [NodeCore.blank], by simp [NodeCore.blank],
      by simp [NodeCore.blank, StateRole.election], by simp [NodeCore.blank], ?_⟩
    exact .of_view (congrArg Stable.confState (hview x)) (by simp [NodeCore.blank])
  · simp
  · simp [NodeCore.blank]
  · simp
  · simp [hnet]
  · intro x
    rw [hserver x]
    refine ⟨?_, ?_, Nat.zero_le _⟩
    · rw [hview x]
    · rw [hview x]
      rfl

/-- A leader has a quorum of recorded votes behind it, or is one by itself. -/
theorem Follows.backed (h : Follows cs c w b) {T : ℕ} (hleader : c.LeaderAt x T) :
    Backed cs b x T := by
  obtain ⟨n, hnode, hstate, rfl⟩ := hleader
  have hserver := h.server x
  have hid := (h.elects.node x).id
  cases hs : c.servers x with
  | down store =>
      rw [hs] at hnode
      exact absurd hnode (by simp [Server.node?])
  | idle n' =>
      rw [hs] at hnode hserver
      cases hnode
      obtain ⟨hx, -, hmoves, -⟩ := hserver
      obtain ⟨-, -, -, -, -, -, hgrounded⟩ := h.elects.moves hx hmoves
      have hbacked := hgrounded.leader hstate
      rw [hmoves.id_eq, hid] at hbacked
      exact hbacked
  | ready n' rd =>
      rw [hs] at hnode hserver
      cases hnode
      obtain ⟨-, -, hcurrent, -⟩ := hserver
      have hbacked := (h.elects.grounded x).leader (by rw [hcurrent]; exact hstate)
      rw [hid, hcurrent] at hbacked
      exact hbacked

/-- **Election safety.**  In no run of a cluster with a fixed configuration are two different
servers leaders of one term, neither at once nor one after the other. -/
theorem election_safety [ConfStorage σ] {c₀ c₁ c₂ : Cluster σ} {actions actions' : List Action}
    {y T : ℕ} (hinitial : c₀.Initial cs) (hrun : c₀.run actions = some c₁)
    (hrun' : c₁.run actions' = some c₂) (hx : c₁.LeaderAt x T) (hy : c₂.LeaderAt y T) : x = y := by
  obtain ⟨w₀, b₀, h₀⟩ := Follows.initial hinitial
  obtain ⟨w₁, b₁, h₁, -⟩ := h₀.run hrun
  obtain ⟨w₂, b₂, h₂, hb⟩ := h₁.run hrun'
  exact h₂.elects.backed_unique ((h₁.backed hx).mono hb) (h₂.backed hy)

end Safety

/-! ## A run of three servers -/

/-- Three voters that have not started. -/
def trio : Cluster MemoryStorage :=
  ⟨fun _ => .down { confState := { voters := [1, 2, 3] } }, []⟩

def Action.start (id : ℕ) : Action :=
  .restart id { id, loadStateOnStartup := true } fun _ => 0

/-- Server 1 campaigns and gets the vote of server 2. -/
def trioElection : List Action :=
  [.start 1, .start 2, .input 1 .campaign, .ready 1, .advance 1,
    .input 2 (.step { msgType := .msgRequestVote, sender := 1, receiver := 2, term := 1 }),
    .ready 2, .advance 2,
    .input 1 (.step { msgType := .msgRequestVoteResponse, sender := 2, receiver := 1, term := 1 })]

/-- Server 2 crashes and restarts, server 3 starts and campaigns in the same term, and
server 2 sees both candidates' requests. -/
def trioRivalry : List Action :=
  [.ready 1, .advance 1, .crash 2, .start 2, .start 3, .input 3 .campaign, .ready 3, .advance 3,
    .input 2 (.step { msgType := .msgRequestVote, sender := 3, receiver := 2, term := 1 }),
    .input 2 (.step { msgType := .msgRequestVote, sender := 1, receiver := 2, term := 1 }),
    .ready 2, .advance 2]

theorem election_safety_trio :
    letI := Codec.plain
    ∃ c₁ c₂, trio.run trioElection = some c₁ ∧ c₁.run trioRivalry = some c₂ ∧
      c₁.LeaderAt 1 1 ∧ c₂.LeaderAt 1 1 ∧ ∀ y, c₂.LeaderAt y 1 → 1 = y := by
  obtain ⟨c₁, hrun, hleader, c₂, hrun', hleader'⟩ : letI := Codec.plain
      ∃ c₁, trio.run trioElection = some c₁ ∧ c₁.LeaderAt 1 1 ∧
        ∃ c₂, c₁.run trioRivalry = some c₂ ∧ c₂.LeaderAt 1 1 := by
    decide +kernel
  let _ := Codec.plain
  have hinitial : trio.Initial { voters := [1, 2, 3] } := ⟨rfl, fun _ => ⟨_, rfl, rfl⟩⟩
  exact ⟨c₁, c₂, hrun, hrun', hleader, hleader',
    fun y hy => election_safety hinitial hrun hrun' hleader hy⟩

end Raftpp
