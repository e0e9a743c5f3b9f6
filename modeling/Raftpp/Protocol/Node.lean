import Raftpp.Protocol.Calls

/-!
# The raw node

What the calls of a `RawNode` do to the protocol state of its node: an input is
a chain of elementary steps, and taking out a `Ready` and reporting it as
persisted changes nothing but the queue of messages and the log's record of what
is stable.
-/

namespace Raftpp

open Option

/-! ## Start -/

namespace Raft

variable {σ : Type} [Storage σ] [Codec] {r : Raft σ} {config : Config} {r' : Raft σ}

/-- A node as its constructor builds it from a storage. -/
structure Booted (config : Config) (store : σ) (state : RaftState) (r : Raft σ) : Prop where
  id : r.id = config.id
  role : r.state = .follower
  hard : config.loadStateOnStartup = true →
    r.term = state.hardState.term ∧ r.vote = state.hardState.vote
  conf : ∃ tracker next, restoreTracker (.new config.maxInflightMessages) next state.confState =
    .ok tracker ∧ tracker.Alike r.tracker
  promotable : r.promotable = r.tracker.conf.voters.contains r.id
  groupCommit : r.tracker.groupCommit = false
  messages : r.messages = []
  preVote : r.preVote = config.preVote
  limit : r.raftLog.maxApplyUnpersistedLogLimit = 0
  log : ∃ first last, Storage.firstIndex store = .ok first ∧ Storage.lastIndex store = .ok last ∧
    r.raftLog.store = store ∧ r.raftLog.unstable = { offset := last + 1 } ∧
    r.raftLog.persisted = last ∧ (r.raftLog.committed = first - 1 ∨
      first - 1 ≤ r.raftLog.committed ∧ r.raftLog.committed ≤ last)

omit [Codec] in
theorem raftLog_new_eq {limit : ℕ} {store : σ} {l : RaftLog σ}
    (h : RaftLog.new limit store = some l) :
    ∃ first last, Storage.firstIndex store = .ok first ∧ Storage.lastIndex store = .ok last ∧
      l = { store, unstable := { offset := last + 1 }, committed := first - 1
            persisted := last, applied := first - 1, maxApplyUnpersistedLogLimit := limit } := by
  simp only [RaftLog.new, bind_eq_bind, bind_eq_some_iff, some.injEq, unwrap_eq_some] at h
  obtain ⟨first, hfirst, last, hlast, rfl⟩ := h
  exact ⟨first, last, hfirst, hlast, rfl⟩

omit [Codec] in
/-- The hard state of the storage may move the commit index inside the log. -/
theorem loadInitialState_eq {hs : HardState} (hzero : r.term = 0 ∧ r.vote = 0)
    (h : r.loadInitialState config hs = some r') :
    ∃ term vote committed, r' = { r with
        raftLog := { r.raftLog with committed }, term, vote } ∧
      (config.loadStateOnStartup = true → term = hs.term ∧ vote = hs.vote) ∧
      (committed = r.raftLog.committed ∨ r.raftLog.committed ≤ committed ∧
        ∃ last, r.raftLog.lastIndex = some last ∧ committed ≤ last) := by
  unfold loadInitialState at h
  split at h
  · unfold loadState at h
    obtain ⟨last, hlast, h⟩ := of_bind h
    split at h
    · cases h
    next hrange =>
      refine ⟨hs.term, hs.vote, hs.commit, (some.inj h).symm, fun _ => ⟨rfl, rfl⟩,
        Or.inr ⟨?_, last, hlast, ?_⟩⟩
      · omega
      · omega
  next hempty =>
    cases h
    refine ⟨r.term, r.vote, r.raftLog.committed, rfl, fun hload => ?_, Or.inl rfl⟩
    obtain rfl : hs = {} := by
      by_contra hne
      exact hempty ⟨hload, hne⟩
    exact hzero

theorem loadApplied_eq (hstate : r.state = .follower) (h : r.loadApplied config = some r') :
    ∃ log, RaftLog.SameData r.raftLog log ∧ r' = { r with raftLog := log } := by
  unfold loadApplied at h
  split at h
  · unfold commitApplyInternal at h
    obtain ⟨log, hlog, h⟩ := of_bind h
    rw [if_neg (by simp [hstate])] at h
    exact ⟨log, setApplied_sameData hlog, (some.inj h).symm⟩
  · cases h
    exact ⟨r.raftLog, ⟨rfl, rfl, rfl, rfl⟩, rfl⟩

omit [Codec] in
theorem becomeFollower_alike {term leaderId : ℕ} (h : r.becomeFollower term leaderId = some r') :
    r.tracker.Alike r'.tracker := by
  simp only [becomeFollower, bind_eq_bind, bind_eq_some_iff, some.injEq] at h
  obtain ⟨r₁, hreset, rfl⟩ := h
  simp only [reset, bind_eq_bind, bind_eq_some_iff, some.injEq] at hreset
  obtain ⟨last, hlast, rfl⟩ := hreset
  refine ⟨rfl, fun id => ?_⟩
  simp [ProgressTracker.mapProgress, ProgressTracker.resetVotes, ListMap.contains]

/-- What the constructor builds. -/
theorem new_booted {store : σ} {rng : ℕ → ℕ} (h : Raft.new config store rng = some r) :
    ∃ state, Storage.initialState store = .ok state ∧ Booted config store state r := by
  simp only [Raft.new, init, bind_eq_bind, bind_eq_some_iff, some.injEq, unwrap_eq_some] at h
  obtain ⟨r₀, ⟨log, hlog, rfl⟩, -, -, state, hstate, next, -, tracker, htracker,
    ⟨r₁, newCs⟩, hpost, h⟩ := h
  obtain ⟨first, last, hfirst, hlast, rfl⟩ := raftLog_new_eq hlog
  obtain rfl := postConfChange_follower rfl hpost
  split at h
  · obtain ⟨r₂, hload, h⟩ := of_bind h
    obtain ⟨r₃, happlied, hfollow⟩ := of_bind h
    obtain ⟨term, vote, committed, rfl, hhard, hcommitted⟩ :=
      loadInitialState_eq ⟨rfl, rfl⟩ hload
    obtain ⟨log, hsame, rfl⟩ := loadApplied_eq rfl happlied
    have halike := becomeFollower_alike hfollow
    obtain ⟨tracks, hcore⟩ := becomeFollower_core hfollow
    have hfinal : r.raftLog = { log with maxApplyUnpersistedLogLimit := 0 } :=
      congrArg NodeCore.log hcore
    have hid : r.id = config.id := congrArg NodeCore.id hcore
    refine ⟨state, hstate, hid, congrArg NodeCore.state hcore, fun hload => ?_,
      ⟨tracker, next, htracker, halike⟩, ?_, ?_, congrArg NodeCore.messages hcore,
      congrArg NodeCore.preVote hcore, by rw [hfinal], first, last, hfirst, hlast, ?_⟩
    · refine ⟨(congrArg NodeCore.term hcore).trans (hhard hload).1, ?_⟩
      exact ((congrArg NodeCore.vote hcore).trans (if_pos rfl)).trans (hhard hload).2
    · rw [hid, halike.conf]
      exact congrArg NodeCore.promotable hcore
    · exact (congrArg NodeCore.groupCommit hcore).trans (restoreTracker_rest htracker).2
    · rw [hfinal]
      refine ⟨hsame.store, hsame.unstable, hsame.persisted, ?_⟩
      simp only [hsame.committed]
      refine hcommitted.imp_right (And.imp_right ?_)
      rintro ⟨last', hlast', hle⟩
      simp only [RaftLog.lastIndex, Unstable.maybeLastIndex, if_true, map_none,
        unwrap_eq_some, hlast] at hlast'
      cases hlast'
      exact hle
  · cases h

end Raft

namespace RawNode

variable {σ : Type} [Storage σ] [Codec] {env : Env} {n n' : RawNode σ} {r : Raft σ}

variable {term index snapIndex : ℕ} {light : LightReady} {log log' : RaftLog σ} {r' : Raft σ}
  {rd : Ready}

theorem new_booted {config : Config} {store : σ} {rng : ℕ → ℕ}
    (h : RawNode.new config store rng = some n) :
    config.id ≠ 0 ∧ n.prevHs = n.raft.hardState ∧ n.commitSinceIndex = config.applied ∧
      n.records = [] ∧ ∃ state, Storage.initialState store = .ok state ∧
        Raft.Booted config store state n.raft := by
  unfold new at h
  obtain ⟨raft, hraft, h⟩ := of_bind h
  split at h
  · cases h
  next hid =>
    cases h
    exact ⟨hid, rfl, rfl, rfl, Raft.new_booted hraft⟩

/-! ## Inputs -/

omit [Storage σ] [Codec] in
theorem of_withRaft {α : Type} {call : Option (Raft σ × α)}
    (h : (n.withRaft call).map Prod.fst = some n') :
    ∃ raft a, call = some (raft, a) ∧ n' = { n with raft } := by
  rw [map_eq_some_iff] at h
  obtain ⟨⟨n₁, a⟩, h, rfl⟩ := h
  unfold withRaft at h
  obtain ⟨⟨raft, a⟩, hcall, h⟩ := of_bind h
  simp only [some.injEq, Prod.mk.injEq] at h
  exact ⟨raft, a, hcall, h.1.symm⟩

theorem onEntriesFetched_eq {ctx : GetEntriesContext} (h : n.onEntriesFetched ctx = some n') :
    ∃ raft, Steps env n.raft.core raft.core ∧ n' = { n with raft } := by
  unfold onEntriesFetched at h
  split at h
  · split at h
    · exact ⟨n.raft, .refl, (some.inj h).symm⟩
    next hleader =>
      have hstate : n.raft.state = .leader := by
        by_contra hne
        exact hleader (Or.inr (Or.inl hne))
      split at h
      all_goals
        obtain ⟨raft, hsend, h⟩ := of_bind h
        refine ⟨raft, ?_, (some.inj h).symm⟩
      · exact (Raft.sendAppendAggressively_run hstate hsend).steps
      · exact (Raft.sendAppend_run hstate hsend).steps
  · exact ⟨n.raft, .refl, (some.inj h).symm⟩
  · cases h

/-- The inputs that may make a node count votes. -/
def Input.elects : Input → Bool
  | .step m => m.msgType.elects
  | .tick | .campaign => true
  | _ => false

/-- The entries that an input proposes. -/
def Input.Proposes : Input → Entry → Prop
  | .step m, e => m.msgType = .msgPropose ∧ e ∈ m.entries
  | .propose ctx data, e => e = setEntryChecksum { data, context := ctx }
  | _, _ => False

/-- An input is a chain of elementary steps of the node. -/
theorem input_eq {call : Input} (h : n.input call = some n')
    (hm : ∀ m, call = .step m → m.msgType.isProtocol = true → Delivered env n.raft.id m)
    (hexpected : ∀ m, call = .step m → Raft.Expected env n.raft m)
    (helect : call.elects = true → env.elect)
    (houtdate : n.raft.checkQuorum = true ∨ n.raft.preVote = true → env.outdate)
    (hpropose : ∀ e, call.Proposes e → env.propose e) :
    ∃ raft, Steps env n.raft.core raft.core ∧ n' = { n with raft } := by
  -- every call but a delivery steps a message that the protocol does not rest on
  have hlocal : ∀ m : Message, Raft.Local env m →
      (n.withRaft (n.raft.step m)).map Prod.fst = some n' →
      ∃ raft, Steps env n.raft.core raft.core ∧ n' = { n with raft } := by
    intro m hm h
    obtain ⟨raft, result, hcall, rfl⟩ := of_withRaft h
    exact ⟨raft, Raft.step_local_steps hm hcall, rfl⟩
  cases call with
  | step m =>
      simp only [input, step] at h
      split at h
      · exact ⟨n.raft, .refl, (some.inj h).symm⟩
      split at h
      · obtain ⟨raft, result, hcall, rfl⟩ := of_withRaft h
        exact ⟨raft, Raft.step_steps (hm m rfl) (hexpected m rfl)
          ⟨helect, fun _ => houtdate, fun hkind e he => hpropose e ⟨hkind, he⟩⟩ hcall, rfl⟩
      · exact ⟨n.raft, .refl, (some.inj h).symm⟩
  | tick =>
      obtain ⟨raft, result, hcall, rfl⟩ := of_withRaft h
      exact ⟨raft, Raft.tick_steps (helect rfl) hcall, rfl⟩
  | campaign => exact hlocal _ ⟨rfl, by simp, fun _ => helect rfl, by simp⟩ h
  | propose ctx data =>
      exact hlocal _ ⟨rfl, by simp, by simp [MessageType.elects],
        fun _ e he => hpropose e (List.mem_singleton.mp he)⟩ h
  | transferLeader transferee => exact hlocal _ (.plain (by simp)) h
  | readIndex ctx => exact hlocal _ ⟨rfl, by simp, by simp [MessageType.elects], by simp⟩ h
  | reportUnreachable id => exact hlocal _ (.plain (by simp)) h
  | reportSnapshot id failure => exact hlocal _ (.plain (by simp)) h
  | requestSnapshot =>
      obtain ⟨raft, result, hcall, rfl⟩ := of_withRaft h
      exact ⟨raft, Raft.requestSnapshot_steps hcall, rfl⟩
  | ping =>
      simp only [input, ping] at h
      obtain ⟨raft, hcall, h⟩ := of_bind h
      exact ⟨raft, Raft.ping_steps hcall, (some.inj h).symm⟩
  | setPriority priority =>
      exact ⟨{ n.raft with priority }, .refl, (some.inj h).symm⟩
  | onEntriesFetched ctx => exact onEntriesFetched_eq h

/-! ## Ready -/

omit [Storage σ] [Codec] in
theorem reduceUncommittedSize_core (r : Raft σ) (ents : List Entry) :
    (r.reduceUncommittedSize ents).core =
      { r.core with uncommitted := (r.reduceUncommittedSize ents).uncommittedState } := by
  unfold Raft.reduceUncommittedSize
  split <;> rfl

/-- The queue is handed out, and nothing else of the protocol state changes but that committed
entries no longer count as uncommitted. -/
structure Flushes (n n' : RawNode σ) (messages : List Message) : Prop where
  core : n'.raft.core =
    { n.raft.core with messages := [], uncommitted := n'.raft.uncommittedState }
  messages : messages = n.raft.messages
  prevHs : n'.prevHs = n.prevHs

omit [Storage σ] [Codec] in
theorem Flushes.raftLog {messages : List Message} (h : Flushes n n' messages) :
    n'.raft.raftLog = n.raft.raftLog :=
  congrArg NodeCore.log h.core

theorem getLightReady_flushes (h : n.getLightReady = some (n', light)) :
    Flushes n n' light.messages := by
  unfold getLightReady at h
  obtain ⟨entries, -, h⟩ := of_bind h
  obtain ⟨since, -, h⟩ := of_bind h
  cases h
  have hcore := reduceUncommittedSize_core n.raft (entries.getD [])
  refine ⟨?_, congrArg NodeCore.messages hcore, rfl⟩
  unfold Raft.reduceUncommittedSize
  split <;> rfl

omit [Codec] in
theorem readySnapshot_eq (h : n.readySnapshot = some n') :
    ∃ since, n' = { n with commitSinceIndex := since } := by
  unfold readySnapshot at h
  split at h
  · exact ⟨_, (some.inj h).symm⟩
  · split at h
    · simp only [bind_eq_bind] at h
      obtain ⟨more, -, h⟩ := of_bind h
      split at h
      · cases h
      · exact ⟨_, (some.inj h).symm⟩
    · cases h

/-- What a `Ready` contains. -/
structure Takes (n n' : RawNode σ) (rd : Ready) : Prop extends Flushes n n' rd.light.messages where
  snapshot : rd.snapshot = n.raft.raftLog.unstable.snapshot
  entries : rd.entries = n.raft.raftLog.unstable.entries
  hs : rd.hs = if n.raft.hardState ≠ n.prevHs then some n.raft.hardState else none
  record : n'.records.getLast? = some
    { number := rd.number
      lastEntry := rd.entries.getLast?.map fun e => (e.index, e.term)
      snapshot := rd.snapshot.map fun s => (s.metadata.index, s.metadata.term) }

theorem getReady_takes (h : n.getReady = some (n', rd)) : Takes n n' rd := by
  unfold getReady at h
  obtain ⟨records, -, h⟩ := of_bind h
  obtain ⟨n₁, hsnapshot, h⟩ := of_bind h
  obtain ⟨since, rfl⟩ := readySnapshot_eq hsnapshot
  obtain ⟨⟨n₂, light⟩, hlight, h⟩ := of_bind h
  cases h
  obtain ⟨hcore, hmessages, hprev⟩ := getLightReady_flushes hlight
  exact ⟨⟨hcore, hmessages, hprev⟩, rfl, rfl, rfl, by simp⟩

/-! ## Advance -/

/-- A record of what the log's memory held. -/
structure Records (record : ReadyRecord) (u : Unstable) : Prop where
  lastEntry : record.lastEntry = u.entries.getLast?.map fun e => (e.index, e.term)
  snapshot : record.snapshot = u.snapshot.map fun s => (s.metadata.index, s.metadata.term)

/-- The log after everything in its memory is stable. -/
structure Settled (log log' : RaftLog σ) : Prop where
  same : log' = { log with unstable := log'.unstable }
  snapshot : log'.unstable.snapshot = none
  entries : log'.unstable.entries = []
  offset : log'.unstable.offset =
    (log.unstable.entries.getLast?.map fun e => e.index + 1).getD log.unstable.offset

section

omit [Storage σ] [Codec]

theorem stableEntries_settled (h : log.stableEntries index term = some log') :
    Settled log log' := by
  obtain ⟨hsnapshot, last, hlast, rfl, -, rfl⟩ := RaftLog.stableEntries_eq h
  exact ⟨rfl, hsnapshot, rfl, by simp [hlast]⟩

theorem stableRecord_settled {record : ReadyRecord} (hrecord : Records record log.unstable)
    (h : stableRecord record log = some log') : Settled log log' := by
  have hentries : record.lastEntry = none → log.unstable.entries = [] := by
    intro hnone
    simpa [hrecord.lastEntry] using hnone
  unfold stableRecord at h
  split at h
  next hsnapshot hnone =>
    cases h
    refine ⟨rfl, ?_, hentries hnone, by simp [hentries hnone]⟩
    simpa [hrecord.snapshot] using hsnapshot
  next hnone =>
    rw [(RaftLog.stableSnapshot_eq h).2]
    exact ⟨rfl, rfl, hentries hnone, by simp [hentries hnone]⟩
  · exact stableEntries_settled h
  · simp only [bind_eq_bind] at h
    obtain ⟨log₁, hfirst, h⟩ := of_bind h
    rw [(RaftLog.stableSnapshot_eq hfirst).2] at h
    obtain ⟨hsame, hsnapshot, hempty, hoffset⟩ := stableEntries_settled h
    exact ⟨hsame, hsnapshot, hempty, hoffset⟩

theorem commitReady_eq (h : n.commitReady rd = some n') :
    ∃ record log, n.records.getLast? = some record ∧
      stableRecord record n.raft.raftLog = some log ∧
      n' = { n with
        prevSs := rd.ss.getD n.prevSs, prevHs := rd.hs.getD n.prevHs
        raft := { n.raft with raftLog := log } } := by
  unfold commitReady at h
  obtain ⟨record, hrecord, h⟩ := of_bind h
  split at h
  · cases h
  · obtain ⟨log, hlog, h⟩ := of_bind h
    exact ⟨record, log, hrecord, hlog, (some.inj h).symm⟩

end

/-- The log after a persisted snapshot is reported; zero stands for none. -/
def reportedSnapshot (log : RaftLog σ) (snapIndex : ℕ) : Option (RaftLog σ) :=
  if snapIndex = 0 then some log else (log.maybePersistSnapshot snapIndex).map Prod.fst

/-- The log after a persisted last entry is reported; zero stands for none. -/
def reportedEntries (log : RaftLog σ) (index term : ℕ) : RaftLog σ :=
  if index = 0 then log else (log.maybePersist index term).1

omit [Storage σ] [Codec] in
theorem reportedSnapshot_eq (h : reportedSnapshot log snapIndex = some log') :
    log' = log ∨ (snapIndex ≠ 0 ∧ log.persisted < snapIndex ∧ snapIndex < log.unstable.offset ∧
      log' = { log with persisted := snapIndex }) := by
  unfold reportedSnapshot at h
  split at h
  · exact Or.inl (some.inj h).symm
  next hne =>
    obtain ⟨⟨log₁, updated⟩, hpersist, rfl⟩ := map_eq_some_iff.mp h
    exact (RaftLog.maybePersistSnapshot_eq hpersist).imp_right fun hmoved => ⟨hne, hmoved⟩

omit [Codec] in
theorem reportedEntries_eq (log : RaftLog σ) (index term : ℕ) :
    reportedEntries log index term = log ∨ (index ≠ 0 ∧ log.persisted < index ∧
      index < log.firstUpdateIndex ∧ Storage.term log.store index = .ok term ∧
      reportedEntries log index term = { log with persisted := index }) := by
  unfold reportedEntries
  split
  · exact Or.inl rfl
  next hne =>
    rcases log.maybePersist_eq index term with hsame | ⟨hlt, hlimit, hterm, hmoved⟩
    · exact Or.inl (by rw [hsame])
    · exact Or.inr ⟨hne, hlt, hlimit, hterm, by rw [hmoved]⟩

omit [Codec] in
/-- Only the persisted index moves. -/
theorem reported_eq (h : reportedSnapshot log snapIndex = some log') (index term : ℕ) :
    reportedEntries log' index term =
      { log with persisted := (reportedEntries log' index term).persisted } := by
  have hfirst : log' = { log with persisted := log'.persisted } := by
    rcases reportedSnapshot_eq h with rfl | ⟨-, -, -, rfl⟩ <;> rfl
  rcases reportedEntries_eq log' index term with hsame | ⟨-, -, -, -, hmoved⟩
  · rw [hsame]
    exact hfirst
  · rw [hmoved, hfirst]

/-- The log takes note of what is persisted, and the node acts on it. -/
theorem reportPersisted_reacts (h : reportPersisted r index term snapIndex = some r') :
    ∃ log, reportedSnapshot r.raftLog snapIndex = some log ∧
      Reacts env { r with raftLog := reportedEntries log index term } r' := by
  have hentries : ∀ {r₁ : Raft σ},
      (if index = 0 then some r₁ else r₁.onPersistEntries index term) = some r' →
      Reacts env { r₁ with raftLog := reportedEntries r₁.raftLog index term } r' := by
    intro r₁ h
    unfold reportedEntries
    split at h
    next hzero =>
      rw [if_pos hzero, ← some.inj h]
      exact .refl _
    next hzero =>
      rw [if_neg hzero]
      exact Raft.onPersistEntries_reacts h
  unfold reportPersisted at h
  split at h
  next hzero => exact ⟨r.raftLog, if_pos hzero, hentries h⟩
  next hzero =>
    obtain ⟨r₁, hpersist, h⟩ := of_bind h
    unfold Raft.onPersistSnapshot at hpersist
    obtain ⟨⟨log, updated⟩, hlog, hpersist⟩ := of_bind hpersist
    cases hpersist
    refine ⟨log, ?_, hentries h⟩
    rw [reportedSnapshot, if_neg hzero, hlog, map_some]

theorem reportPersisted_steps (henv : env.persist r.raftLog.unstable)
    (h : reportPersisted r index term snapIndex = some r') : Steps env r.core r'.core := by
  obtain ⟨log, hlog, hreacts⟩ := reportPersisted_reacts h
  have hunstable : log.unstable = r.raftLog.unstable := by
    rcases reportedSnapshot_eq hlog with rfl | ⟨-, -, -, rfl⟩ <;> rfl
  have hsnapshot : Steps env r.core { r.core with log } := by
    unfold reportedSnapshot at hlog
    split at hlog
    · cases hlog
      exact .refl
    · obtain ⟨⟨log, updated⟩, hpersist, rfl⟩ := map_eq_some_iff.mp hlog
      exact .single (.persistSnapshot r.core _ log updated henv hpersist)
  have hentries : Steps env { r.core with log }
      { r.core with log := reportedEntries log index term } := by
    unfold reportedEntries
    split
    · exact .refl
    · exact .single (.persist { r.core with log } index term (hunstable ▸ henv))
  exact (hsnapshot.trans hentries).trans hreacts.steps

theorem reportPersisted_undisturbed (h : reportPersisted r index term snapIndex = some r') :
    r.Undisturbed r' := by
  obtain ⟨log, hlog, hreacts⟩ := reportPersisted_reacts h
  have hsame := reported_eq hlog index term
  obtain ⟨hterm, hvote, hstate, hunstable, hcommitted, hmessages⟩ := hreacts.undisturbed
  rw [hsame] at hunstable hcommitted
  exact ⟨hterm, hvote, hstate, hunstable, hcommitted, hmessages⟩

theorem advanceApplyTo_eq {applied : ℕ} (hown : ∀ e : Entry, e.OfLeader → env.propose e)
    (h : n.advanceApplyTo applied = some n') :
    ∃ raft, Steps env n.raft.core raft.core ∧ n' = { n with raft } := by
  unfold advanceApplyTo at h
  obtain ⟨raft, hcall, h⟩ := of_bind h
  exact ⟨raft, Raft.commitApply_steps hown hcall, (some.inj h).symm⟩

/-- The calls that `AdvanceAppend` is made of. -/
theorem advanceAppend_eq (h : n.advanceAppend rd = some (n', light)) :
    ∃ n₁ n₂ n₃ light₃, n.commitReady rd = some n₁ ∧ n₁.onPersistReady n₁.maxNumber = some n₂ ∧
      n₂.getLightReady = some (n₃, light₃) ∧
      n₃.raft.hardState =
        { n₃.prevHs with commit := max n₃.raft.hardState.commit n₃.prevHs.commit } ∧
      n' = { n₃ with prevHs := n₃.raft.hardState } ∧ light.messages = light₃.messages ∧
      light.committedEntries = light₃.committedEntries := by
  simp only [advanceAppend] at h
  obtain ⟨n₁, hcommit, h⟩ := of_bind h
  obtain ⟨n₂, hpersist, h⟩ := of_bind h
  obtain ⟨⟨n₃, light₃⟩, hlight, h⟩ := of_bind h
  split at h
  · cases h
  split at h
  next hhard =>
    cases h
    exact ⟨n₁, n₂, n₃, light₃, hcommit, hpersist, hlight, hhard,
      congrArg (fun prevHs => { n₃ with prevHs }) hhard.symm, rfl, rfl⟩
  · cases h

/-- `AdvanceAppend`: the log's memory is cleared, the node takes note of what is persisted, and
the messages it queues then are handed out.  Term and vote are still the persisted ones. -/
structure Advances (env : Env) (n n' : RawNode σ) (rd : Ready) (log : RaftLog σ)
    (reported : Raft σ) (messages : List Message) : Prop where
  settled : Settled n.raft.raftLog log
  steps : Steps env { n.raft.core with log } reported.core
  unstable : reported.raftLog.unstable = log.unstable
  core : n'.raft.core =
    { reported.core with messages := [], uncommitted := n'.raft.uncommittedState }
  messages : messages = reported.messages
  term : reported.term = (rd.hs.getD n.prevHs).term
  vote : reported.vote = (rd.hs.getD n.prevHs).vote
  prevHs : n'.prevHs = reported.hardState

theorem advanceAppend_advances
    (henv : ∀ u : Unstable, u.snapshot = none → u.entries = [] → env.persist u)
    (hrecord : ∀ record, n.records.getLast? = some record →
      Records record n.raft.raftLog.unstable) (h : n.advanceAppend rd = some (n', light)) :
    ∃ log reported, Advances env n n' rd log reported light.messages := by
  obtain ⟨n₁, n₂, n₃, light₃, hcommit, hpersist, hlight, hhard, rfl, hsent, -⟩ :=
    advanceAppend_eq h
  obtain ⟨record, log, hlast, hstable, rfl⟩ := commitReady_eq hcommit
  have hsettled := stableRecord_settled (hrecord record hlast) hstable
  unfold onPersistReady at hpersist
  obtain ⟨reported, hreport, hpersist⟩ := of_bind hpersist
  cases hpersist
  obtain ⟨hcore, hmessages, hprev⟩ := getLightReady_flushes hlight
  have hterm : n₃.raft.term = reported.term := congrArg NodeCore.term hcore
  have hvote : n₃.raft.vote = reported.vote := congrArg NodeCore.vote hcore
  have hlog : n₃.raft.raftLog = reported.raftLog := congrArg NodeCore.log hcore
  refine ⟨log, reported, hsettled, reportPersisted_steps
    (henv _ hsettled.snapshot hsettled.entries) hreport,
    (reportPersisted_undisturbed hreport).unstable, hcore, hsent.trans hmessages, ?_, ?_, ?_⟩
  · rw [← hterm]
    exact (congrArg HardState.term hhard).trans
      (show n₃.prevHs.term = (rd.hs.getD n.prevHs).term from congrArg HardState.term hprev)
  · rw [← hvote]
    exact (congrArg HardState.vote hhard).trans
      (show n₃.prevHs.vote = (rd.hs.getD n.prevHs).vote from congrArg HardState.vote hprev)
  · simp [Raft.hardState, hterm, hvote, hlog]

end RawNode

end Raftpp
