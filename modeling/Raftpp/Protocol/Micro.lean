import Mathlib.Logic.Relation
import Raftpp.Core.RawNode

/-!
# Elementary steps of a node

Every call of the Raft code is a chain of a small number of elementary steps: a
role change, one vote counted, one message queued, the log cut and extended by
one append message, the commit index moved for one of its five reasons, and so
on.  `Micro env` lists them over the part of a node's state that the protocol is
about (`NodeCore`); `env` holds the messages that may be delivered, and which of
the less ordinary steps are to be expected.

The modules that follow show that each handler refines to such a chain, so that
an invariant of the protocol has to be checked against the elementary steps
only, and never against the code.
-/

namespace Raftpp

/-- The part of a node that the protocol is about; `tracks` are the indexes that its peers have
acknowledged. -/
structure NodeCore (σ : Type) where
  id : ℕ
  term : ℕ
  vote : ℕ
  state : StateRole
  promotable : Bool
  conf : TrackerConfiguration
  groupCommit : Bool
  votes : ListMap ℕ Bool
  log : RaftLog σ
  tracks : ℕ → Option ℕ
  messages : List Message
  pendingConf : ℕ
  preVote : Bool
  uncommitted : UncommittedState

namespace Raft

variable {σ : Type}

/-- The protocol part of a node. -/
@[simps]
def core (r : Raft σ) : NodeCore σ where
  id := r.id
  term := r.term
  vote := r.vote
  state := r.state
  promotable := r.promotable
  conf := r.tracker.conf
  groupCommit := r.tracker.groupCommit
  votes := r.tracker.votes
  log := r.raftLog
  tracks id := (r.tracker.get id).map Progress.matched
  messages := r.messages
  pendingConf := r.pendingConfIndex
  preVote := r.preVote
  uncommitted := r.uncommittedState

end Raft

namespace RaftLog

/-- Two logs that differ only in the application's cursors. -/
structure SameData {σ : Type} (l l' : RaftLog σ) : Prop where
  store : l'.store = l.store
  unstable : l'.unstable = l.unstable
  committed : l'.committed = l.committed
  persisted : l'.persisted = l.persisted

/-- Two logs that differ only in the application's cursors, which move as they should: the
applied index forward, and the limit of unpersisted entries down. -/
structure Same {σ : Type} (l l' : RaftLog σ) : Prop extends SameData l l' where
  applied : l.applied ≤ l'.applied
  limit : l'.maxApplyUnpersistedLogLimit ≤ l.maxApplyUnpersistedLogLimit

theorem Same.refl {σ : Type} (l : RaftLog σ) : Same l l :=
  ⟨⟨rfl, rfl, rfl, rfl⟩, le_rfl, le_rfl⟩

/-- What `HasUnappliedConfChanges` looks for in a page of entries. -/
def holdsConfChange (entries : List Entry) : Bool :=
  entries.any fun e => e.entryType = .entryConfChangeV2

/-- `HasUnappliedConfChanges` finds nothing in `[low, high)`. -/
def ConfClear {σ : Type} [Storage σ] [Codec] (l : RaftLog σ) (low high : ℕ) : Prop :=
  l.committed ≤ l.applied ∨ ∃ pageSize ctx,
    l.scan pageSize ctx holdsConfChange high (high - low + 1) low = some (.ok false)

/-- `HasUnappliedConfChanges` finds nothing among the committed entries. -/
def CommittedClear {σ : Type} [Storage σ] [Codec] (l : RaftLog σ) : Prop :=
  l.ConfClear (l.unstable.maybeFirstIndex.getD (l.applied + 1)) (l.committed + 1)

end RaftLog

/-- What the configuration changes of a proposal do to the index of the pending one: without a
change nothing, and one change is taken when none is pending. -/
inductive ConfProposal (pending applied last : ℕ) (entries : List Entry) : ℕ → Prop
  | none (hrest : ∀ e ∈ entries, e.entryType ≠ .entryConfChangeV2) :
      ConfProposal pending applied last entries pending
  | one (before after : List Entry) (e : Entry) (hsplit : entries = before ++ e :: after)
      (hrest : ∀ f ∈ before ++ after, f.entryType ≠ .entryConfChangeV2)
      (hpending : pending ≤ applied) :
      ConfProposal pending applied last entries (last + before.length + 1)

/-- The kinds of messages whose content the safety of the protocol rests on. -/
def MessageType.isProtocol : MessageType → Bool
  | .msgAppend | .msgAppendResponse | .msgRequestVote | .msgRequestVoteResponse | .msgSnapshot
  | .msgHeartbeat | .msgReadIndexResp | .msgRequestPreVote | .msgRequestPreVoteResponse => true
  | _ => false

namespace NodeCore

variable {σ : Type}

def push (c : NodeCore σ) (m : Message) : NodeCore σ := { c with messages := c.messages ++ [m] }

def setTrack (c : NodeCore σ) (v t : ℕ) : NodeCore σ :=
  { c with tracks := Function.update c.tracks v (some t) }

end NodeCore

/-- The kinds of messages that may make a node count votes. -/
def MessageType.elects : MessageType → Bool
  | .msgHup | .msgTimeoutNow | .msgRequestVoteResponse | .msgRequestPreVoteResponse => true
  | _ => false

/-- A rejecting append response: it only slows the leader down. -/
def Message.Rejects (m : Message) : Prop := m.msgType = .msgAppendResponse ∧ m.reject = true

/-- What a node meets: the messages that may reach it, whether these are addressed to it and
carry their sender's term, with what in the log's memory it may hear that something is
persisted, whether it may take part in an election, whether it answers a leader of an earlier
term, which entries may be proposed to it, whether it may be told to campaign at once, and
whether it may count a pre-vote that was granted for its own term. -/
structure Env where
  sent : Message → Prop
  proper : Prop
  persist : Unstable → Prop
  elect : Prop
  outdate : Prop
  propose : Entry → Prop
  transfer : Prop
  stale : Prop

namespace Env

/-- Everything is to be expected of proper messages out of `net`. -/
def free (net : Message → Prop) : Env where
  sent := net
  proper := True
  persist _ := True
  elect := True
  outdate := True
  propose _ := True
  transfer := True
  stale := True

/-- Nothing happens to the node. -/
def calm : Env :=
  { free fun _ => False with persist := fun _ => False, elect := False, propose := fun _ => False }

end Env

/-- `m` was delivered to the node `id`. -/
structure Delivered (env : Env) (id : ℕ) (m : Message) : Prop where
  sent : env.sent m
  receiver : env.proper → m.receiver = id
  term_ne : env.proper → ¬m.Rejects → m.term ≠ 0

/-- The messages a node may queue. -/
inductive SendOk {σ : Type} [Storage σ] [Codec] (env : Env) (c : NodeCore σ) (m : Message) :
    Prop
  | requestVote (hkind : m.msgType = .msgRequestVote) (hstate : c.state = .candidate)
      (hsender : m.sender = c.id) (hterm : m.term = c.term)
  | requestPreVote (hkind : m.msgType = .msgRequestPreVote) (hsender : m.sender = c.id)
      (hterm : m.term = c.term + 1)
  | preVoteReject (hkind : m.msgType = .msgRequestPreVoteResponse) (hterm : m.term ≠ 0)
      (hreject : m.reject = true)
  | voteReject (hkind : m.msgType = .msgRequestVoteResponse) (hterm : m.term = c.term)
      (hne : c.term ≠ 0) (hreject : m.reject = true)
  | grant (q : Message) (hq : Delivered env c.id q) (hask : q.msgType = .msgRequestVote)
      (hsame : env.proper → q.term = c.term) (hvote : c.vote = q.sender)
      (hkind : m.msgType = .msgRequestVoteResponse) (hsender : m.sender = c.id)
      (hreceiver : m.receiver = q.sender) (hterm : m.term = q.term)
  | grantPre (q : Message) (hq : Delivered env c.id q) (hask : q.msgType = .msgRequestPreVote)
      (hkind : m.msgType = .msgRequestPreVoteResponse) (hsender : m.sender = c.id)
      (hreceiver : m.receiver = q.sender) (hterm : m.term = q.term)
  | heartbeat (hkind : m.msgType = .msgHeartbeat) (hstate : c.state = .leader)
      (hterm : m.term = c.term)
  | append (i : ℕ) (maxSize : Option ℕ) (ctx : GetEntriesContext)
      (hkind : m.msgType = .msgAppend) (hstate : c.state = .leader) (hterm : m.term = c.term)
      (hentries : c.log.getEntries i maxSize ctx = some (.ok m.entries))
  | snapshot (request v : ℕ) (hkind : m.msgType = .msgSnapshot) (hstate : c.state = .leader)
      (hterm : m.term = c.term) (hsnapshot : c.log.getSnapshot request v = some (.ok m.snapshot))
  | answerRead (hkind : m.msgType = .msgReadIndexResp) (hstate : c.state = .leader)
      (hterm : m.term = c.term)
  | accept (q : Message) (hq : Delivered env c.id q)
      (hask : q.msgType = .msgAppend ∨ q.msgType = .msgSnapshot)
      (hsame : env.proper → q.term = c.term) (hstate : c.state = .follower)
      (hkind : m.msgType = .msgAppendResponse) (hterm : m.term = c.term)
  | outdate (q : Message) (henv : env.outdate) (hq : Delivered env c.id q)
      (hask : q.msgType = .msgAppend ∨ q.msgType = .msgHeartbeat) (hlate : q.term < c.term)
      (hkind : m.msgType = .msgAppendResponse) (hterm : m.term = c.term) (hindex : m.index = 0)
  | appendReject (hkind : m.msgType = .msgAppendResponse) (hreject : m.reject = true)
  | forward (hkind : m.msgType = .msgPropose) (hentries : ∀ e ∈ m.entries, env.propose e)
  | other (hkind : m.msgType.isProtocol = false) (hpropose : m.msgType ≠ .msgPropose)

/-- An entry that a leader appends of its own accord: the empty entry of its term, or the one
that leaves a joint configuration. -/
def Entry.OfLeader [Codec] (e : Entry) : Prop :=
  e = {} ∨ e =
    { entryType := .entryConfChangeV2, data := Codec.confChangeV2Bytes {}
      checksum := Codec.entryChecksum
        { entryType := .entryConfChangeV2, data := Codec.confChangeV2Bytes {} } }

/-- A vote for the node that it may count: its own, or one that was delivered.  A candidate
counts votes of its term, a pre-candidate those for a later one, and for its own where the
environment allows it. -/
def Counted {σ : Type} (env : Env) (c : NodeCore σ) (v : ℕ) : Prop :=
  v = c.id ∨ ∃ m, Delivered env c.id m ∧ m.reject = false ∧ m.sender = v ∧
    ((c.state = .candidate ∧ m.msgType = .msgRequestVoteResponse ∧
        (env.proper → m.term = c.term)) ∨
      (c.state = .preCandidate ∧ m.msgType = .msgRequestPreVoteResponse ∧
        (env.proper → c.term ≤ m.term) ∧
        (m.term = c.term → ListMap.get c.votes v = none → env.stale)))

/-- What a leader learns of the peer `v`: its own progress follows what is persisted, that of
others what they acknowledge. -/
def Retracks {σ : Type} (env : Env) (c : NodeCore σ) (v t t' : ℕ) : Prop :=
  t' = t ∨ (v = c.id ∧ ∃ i ≤ c.log.persisted, t' = max t i) ∨
    ∃ m, Delivered env c.id m ∧ m.sender = v ∧ t' = max t m.index

/-- The elementary steps of a node. -/
inductive Micro {σ : Type} [Storage σ] [Codec] (env : Env) :
    NodeCore σ → NodeCore σ → Prop
  | follow (c : NodeCore σ) (term : ℕ) (tracks : ℕ → Option ℕ) (log : RaftLog σ)
      (hterm : env.proper → c.term ≤ term) (hlog : RaftLog.Same c.log log) :
      Micro env c
        { c with
          term, vote := if term = c.term then c.vote else kInvalidId, state := .follower
          votes := [], tracks, log, pendingConf := 0 }
  | preCampaign (c : NodeCore σ) (henv : env.elect) (hvoter : c.promotable = true)
      (hclear : c.log.CommittedClear) :
      Micro env c { c with state := .preCandidate, votes := [] }
  | campaign (c : NodeCore σ) (tracks : ℕ → Option ℕ) (henv : env.elect)
      (hvoter : (c.promotable = true ∧ c.log.CommittedClear ∧ (c.preVote = true → env.transfer)) ∨
        (c.state = .preCandidate ∧
          c.conf.voters.getVoteResult (ListMap.get c.votes) = .won)) :
      Micro env c
        { c with
          term := c.term + 1, vote := c.id, state := .candidate
          promotable := c.conf.voters.contains c.id, votes := [], tracks, pendingConf := 0 }
  | poll (c : NodeCore σ) (v : ℕ) (granted : Bool) (hgrant : granted = true → Counted env c v) :
      Micro env c { c with votes := ListMap.emplace c.votes v granted }
  | win (c : NodeCore σ) (last index : ℕ) (log : RaftLog σ) (tracks : ℕ → Option ℕ)
      (henv : env.elect) (hstate : c.state = .candidate)
      (hwon : c.conf.voters.getVoteResult (ListMap.get c.votes) = .won)
      (hlast : c.log.lastIndex = some last)
      (happend : c.log.append (Raft.numberEntries c.term (last + 1) [{}]) = some (log, index))
      (htracks : ∀ v t, tracks v = some t → t = if v = c.id then c.log.persisted else 0) :
      Micro env c
        { c with
          state := .leader, votes := [], tracks, log, pendingConf := last
          uncommitted := { c.uncommitted with uncommittedSize := 0, lastLogTailIndex := last } }
  | propose (c : NodeCore σ) (last : ℕ) (entries : List Entry) (log : RaftLog σ)
      (index pendingConf : ℕ) (hstate : c.state = .leader) (hlast : c.log.lastIndex = some last)
      (happend : c.log.append (Raft.numberEntries c.term (last + 1) entries) =
        some (log, index))
      (hconf : ConfProposal c.pendingConf c.log.applied last entries pendingConf)
      (hentries : ∀ e ∈ entries, env.propose e)
      (hroom : (c.uncommitted.maybeIncreaseUncommittedSize entries).2 = true) :
      Micro env c
        { c with
          log, pendingConf
          uncommitted := (c.uncommitted.maybeIncreaseUncommittedSize entries).1 }
  | send (c : NodeCore σ) (m : Message) (hok : SendOk env c m) : Micro env c (c.push m)
  | amend (c : NodeCore σ) (i : ℕ) (maxSize : Option ℕ) (ctx : GetEntriesContext)
      (entries : List Entry) (before after : List Message) (m : Message)
      (hentries : c.log.getEntries i maxSize ctx = some (.ok entries))
      (hmessages : c.messages = before ++ m :: after) (hkind : m.msgType = .msgAppend) :
      Micro env c
        { c with
          messages := before ++
            { m with entries := m.entries ++ entries, commit := c.log.committed } :: after }
  | vote (c : NodeCore σ) (q : Message) (hq : Delivered env c.id q)
      (hask : q.msgType = .msgRequestVote) (hsame : env.proper → q.term = c.term)
      (hvote : c.vote = q.sender ∨ c.vote = kInvalidId) :
      Micro env c { c with vote := q.sender }
  | accept (c : NodeCore σ) (m : Message) (log : RaftLog σ) (conflict last : ℕ)
      (hm : Delivered env c.id m) (hkind : m.msgType = .msgAppend) (hstate : c.state = .follower)
      (happend : c.log.maybeAppend m.index m.logTerm m.commit m.entries =
        some (log, .ok ⟨true, conflict, last⟩)) :
      Micro env c { c with log }
  | install (c : NodeCore σ) (m : Message) (log : RaftLog σ) (tracker : ProgressTracker)
      (maxInflight : ℕ) (hm : Delivered env c.id m) (hkind : m.msgType = .msgSnapshot)
      (hstate : c.state = .follower) (hcommitted : c.log.committed ≤ m.snapshot.metadata.index)
      (htracker : restoreTracker (.new maxInflight) (m.snapshot.metadata.index + 1)
        m.snapshot.metadata.confState = .ok tracker)
      (hlog : c.log.restore m.snapshot = (log, .ok ())) :
      Micro env c
        { c with
          log, conf := tracker.conf, groupCommit := false, votes := []
          promotable := tracker.conf.voters.contains c.id
          tracks := fun id => (tracker.get id).map Progress.matched }
  | commitTo (c : NodeCore σ) (i : ℕ) (log : RaftLog σ) (result : Result Unit)
      (hstate : c.state = .follower) (hcommit : c.log.commitTo i = some (log, result)) :
      Micro env c { c with log }
  | commitTold (c : NodeCore σ) (i term : ℕ) (log : RaftLog σ) (committed : Bool)
      (hstate : c.state ≠ .leader) (hcommit : c.log.maybeCommit i term = some (log, committed))
      (hclear : c.state ≠ .follower → log = c.log ∨
        log.ConfClear (c.log.committed + 1) (log.committed + 1)) :
      Micro env c { c with log }
  | commitByQuorum (c : NodeCore σ) (i : ℕ) (log : RaftLog σ) (committed : Bool)
      (hstate : c.state = .leader)
      (hcommit : c.log.maybeCommit i c.term = some (log, committed)) :
      Micro env c { c with log }
  | retrack (c : NodeCore σ) (v t t' : ℕ) (hstate : c.state = .leader)
      (htrack : c.tracks v = some t) (h : Retracks env c v t t') :
      Micro env c (c.setTrack v t')
  | persist (c : NodeCore σ) (index term : ℕ) (henv : env.persist c.log.unstable) :
      Micro env c { c with log := (c.log.maybePersist index term).1 }
  | persistSnapshot (c : NodeCore σ) (index : ℕ) (log : RaftLog σ) (updated : Bool)
      (henv : env.persist c.log.unstable)
      (hpersist : c.log.maybePersistSnapshot index = some (log, updated)) :
      Micro env c { c with log }
  | bookkeep (c : NodeCore σ) (log : RaftLog σ) (hlog : RaftLog.Same c.log log) :
      Micro env c { c with log }

/-- A chain of elementary steps. -/
abbrev Steps {σ : Type} [Storage σ] [Codec] (env : Env) :
    NodeCore σ → NodeCore σ → Prop :=
  Relation.ReflTransGen (Micro env)

section Steps

variable {σ : Type} [Storage σ] [Codec] {env : Env} {c c' : NodeCore σ}

omit [Storage σ] [Codec] in
/-- The votes that a candidate counts. -/
theorem Counted.vote {v : ℕ} (h : Counted env c v) (hstate : c.state = .candidate) :
    v = c.id ∨ ∃ m, Delivered env c.id m ∧ m.msgType = .msgRequestVoteResponse ∧
      m.reject = false ∧ m.sender = v ∧ (env.proper → m.term = c.term) := by
  refine h.imp_right ?_
  rintro ⟨m, hm, hreject, hsender, ⟨-, hkind, hterm⟩ | ⟨hpre, -⟩⟩
  · exact ⟨m, hm, hkind, hreject, hsender, hterm⟩
  · exact absurd (hstate.symm.trans hpre) (by simp)

theorem Micro.id_eq (h : Micro env c c') : c'.id = c.id := by cases h <;> rfl

theorem Micro.preVote_eq (h : Micro env c c') : c'.preVote = c.preVote := by cases h <;> rfl

theorem Micro.term_le (hproper : env.proper) (h : Micro env c c') : c.term ≤ c'.term := by
  cases h with
  | follow term tracks log hterm hlog => exact hterm hproper
  | campaign tracks henv hvoter => exact Nat.le_succ _
  | _ => exact le_rfl

/-- A step after which the node leads leaves its term as it is. -/
theorem Micro.leader_term (h : Micro env c c') (hleader : c'.state = .leader) :
    c'.term = c.term := by
  cases h with
  | follow term tracks log hterm hlog => cases hleader
  | campaign tracks henv hvoter => cases hleader
  | _ => rfl

/-- Outside an election, who is no follower keeps its role. -/
theorem Micro.state_before (helect : ¬env.elect) (h : Micro env c c')
    (hne : c'.state ≠ .follower) : c'.state = c.state ∧ c'.term = c.term := by
  cases h with
  | follow term tracks log hterm hlog => exact absurd rfl hne
  | preCampaign henv hvoter hclear => exact absurd henv helect
  | campaign tracks henv hvoter => exact absurd henv helect
  | win last index log tracks henv hstate hwon hlast happend htracks => exact absurd henv helect
  | _ => exact ⟨rfl, rfl⟩

/-- A message in the queue was there before, or a step may queue it, or it is an append that
took in more entries of the log. -/
theorem Micro.mem_messages (h : Micro env c c') {m : Message} (hm : m ∈ c'.messages) :
    m ∈ c.messages ∨ SendOk env c m ∨ ∃ m₀ ∈ c.messages, ∃ i maxSize ctx entries,
      c.log.getEntries i maxSize ctx = some (.ok entries) ∧ m₀.msgType = .msgAppend ∧
      m = { m₀ with entries := m₀.entries ++ entries, commit := c.log.committed } := by
  cases h with
  | send m' hok =>
      rcases List.mem_append.mp hm with hold | hnew
      · exact Or.inl hold
      · exact Or.inr (Or.inl (List.mem_singleton.mp hnew ▸ hok))
  | amend i maxSize ctx entries before after m₀ hentries hmessages hkind =>
      rw [hmessages]
      rcases List.mem_append.mp hm with hold | hrest
      · exact Or.inl (List.mem_append_left _ hold)
      rcases List.mem_cons.mp hrest with rfl | hrest
      · exact Or.inr (Or.inr ⟨m₀, by simp, i, maxSize, ctx, entries, hentries, hkind, rfl⟩)
      · exact Or.inl (by simp [hrest])
  | _ => exact Or.inl hm

theorem Steps.id_eq (h : Steps env c c') : c'.id = c.id := by
  induction h with
  | refl => rfl
  | tail _ hstep ih => exact hstep.id_eq.trans ih

/-- Without an election only a leader can be one in the end. -/
theorem Steps.leader_before (helect : ¬env.elect) (hsteps : Steps env c c')
    (hleader : c'.state = .leader) : c.state = .leader := by
  induction hsteps with
  | refl => exact hleader
  | tail _ hstep ih =>
      exact ih ((hstep.state_before helect (by simp [hleader])).1.symm.trans hleader)

theorem Steps.term_le (hproper : env.proper) (h : Steps env c c') : c.term ≤ c'.term := by
  induction h with
  | refl => exact le_rfl
  | tail _ hstep ih => exact ih.trans (hstep.term_le hproper)

/-- A fold whose rounds are chains of elementary steps is one, and keeps what each round keeps. -/
theorem steps_foldlM {α : Type*} {f : Raft σ → α → Option (Raft σ)} {I : Raft σ → Prop}
    (hf : ∀ r r' a, I r → f r a = some r' → Steps env r.core r'.core ∧ I r') :
    ∀ (l : List α) {r r' : Raft σ}, I r → l.foldlM f r = some r' →
      Steps env r.core r'.core ∧ I r' := by
  intro l
  induction l with
  | nil =>
      intro r r' hinv h
      cases h
      exact ⟨.refl, hinv⟩
  | cons a l ih =>
      intro r r' hinv h
      rw [List.foldlM_cons] at h
      obtain ⟨r₁, hfirst, hrest⟩ := of_bind h
      obtain ⟨hsteps, hinv₁⟩ := hf r r₁ a hinv hfirst
      obtain ⟨hsteps', hinv'⟩ := ih hinv₁ hrest
      exact ⟨hsteps.trans hsteps', hinv'⟩

end Steps

/-! ## Changes of the log underneath

The application writes to the storage under a node's log, and the node's log
forgets what is stable.  `Moves R` adds these changes, as far as `R` allows them,
to the elementary steps. -/

/-- An elementary step with proper messages out of `net`, or a change of the log from outside. -/
inductive Move {σ : Type} [Storage σ] [Codec] (R : RaftLog σ → RaftLog σ → Prop)
    (net : Message → Prop) : NodeCore σ → NodeCore σ → Prop
  | micro {c c' : NodeCore σ} {env : Env} (hproper : env.proper)
      (hsent : ∀ m, env.sent m → net m) (h : Micro env c c') : Move R net c c'
  | relog (c : NodeCore σ) (log : RaftLog σ) (h : R c.log log) : Move R net c { c with log }

abbrev Moves {σ : Type} [Storage σ] [Codec] (R : RaftLog σ → RaftLog σ → Prop)
    (net : Message → Prop) : NodeCore σ → NodeCore σ → Prop :=
  Relation.ReflTransGen (Move R net)

section Moves

variable {σ : Type} [Storage σ] [Codec] {R : RaftLog σ → RaftLog σ → Prop}
  {net net' : Message → Prop} {c c' : NodeCore σ}

theorem Steps.moves {env : Env} (h : Steps env c c') (hproper : env.proper)
    (hsent : ∀ m, env.sent m → net m) : Moves R net c c' :=
  Relation.ReflTransGen.mono (fun _ _ => .micro hproper hsent) _ _ h

theorem Moves.mono (h : Moves R net c c') (hnet : ∀ m, net m → net' m) : Moves R net' c c' := by
  refine Relation.ReflTransGen.mono (fun _ _ hmove => ?_) _ _ h
  cases hmove with
  | micro hproper hsent h => exact .micro hproper (fun m hm => hnet m (hsent m hm)) h
  | relog log h => exact .relog _ log h

theorem Moves.id_eq (h : Moves R net c c') : c'.id = c.id := by
  induction h with
  | refl => rfl
  | tail _ hmove ih =>
      refine Eq.trans ?_ ih
      cases hmove with
      | micro _ _ h => exact h.id_eq
      | relog log h => rfl

end Moves

end Raftpp
