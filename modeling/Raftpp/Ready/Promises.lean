import Raftpp.Protocol.Traced
import Raftpp.Ready.Durable

/-!
# Promises are durable before they are released

A `Ready` taken by a leader lets its messages go before it is persisted, whatever role
the node had when it queued them.  A message that promises a vote or acknowledges
entries may then be among them only if what it promises is already on disk (`Kept`).

A leader itself promises nothing that is not, except that it answers a leader of an
earlier term with its own term, which may be new.  What it queued before it was
elected is another matter, so a run has to be `Honest`: a node is elected only while
the promises in its queue are durable.
-/

namespace Raftpp

open Option RawNode

/-- A message that grants a vote or acknowledges entries. -/
def Message.Promises (m : Message) : Prop :=
  (m.msgType = .msgRequestVoteResponse ∨ m.msgType = .msgAppendResponse) ∧ m.reject = false

instance (m : Message) : Decidable m.Promises :=
  inferInstanceAs (Decidable
    ((m.msgType = .msgRequestVoteResponse ∨ m.msgType = .msgAppendResponse) ∧ m.reject = false))

/-! ## Where promises come from -/

section Micro

variable {σ : Type} [Storage σ] [Codec] {env : Env} {c c' : NodeCore σ} {m : Message}

/-- Where a promise in the queue of a node comes from. -/
inductive Promised (env : Env) (c : NodeCore σ) (m : Message) : Prop
  | queued (h : m ∈ c.messages)
  | granted (q : Message) (hq : env.sent q) (hkind : q.msgType = .msgRequestVote)
      (hvote : c.vote = q.sender)
  | accepted (q : Message) (hq : env.sent q)
      (hkind : q.msgType = .msgAppend ∨ q.msgType = .msgSnapshot) (hstate : c.state = .follower)
  | outdated (q : Message) (henv : env.outdate) (hq : env.sent q)
      (hkind : q.msgType = .msgAppend ∨ q.msgType = .msgHeartbeat) (hterm : q.term < c.term)
      (hm : m.msgType = .msgAppendResponse ∧ m.index = 0 ∧ m.term = c.term)

theorem Micro.promised (h : Micro env c c') (hm : m ∈ c'.messages) (hpromise : m.Promises) :
    Promised env c m := by
  obtain ⟨hkind, hreject⟩ := hpromise
  rcases h.mem_messages hm with hold | hok | ⟨m₀, -, -, -, -, entries, -, happend, rfl⟩
  · exact .queued hold
  · cases hok with
    | grant q hq hask hsame hvote => exact .granted q hq.sent hask hvote
    | accept q hq hask hsame hstate => exact .accepted q hq.sent hask hstate
    | outdate q henv hq hask hlate hresp hterm hindex =>
        exact .outdated q henv hq.sent hask hlate ⟨hresp, hindex, hterm⟩
    | other hother => rcases hkind with hk | hk <;> simp [hk, MessageType.isProtocol] at hother
    | _ => simp_all
  · -- the message that changes is an append
    simp [happend] at hkind

omit [Storage σ] [Codec] in
/-- An election message brings no promise. -/
theorem Promised.queued_of_elects (h : Promised env c m)
    (hsent : ∀ q, env.sent q → q.msgType.elects = true) : m ∈ c.messages := by
  cases h with
  | queued h => exact h
  | granted q hq hkind hvote =>
      have helects := hsent q hq
      rw [hkind] at helects
      cases helects
  | accepted q hq hkind hstate =>
      have helects := hsent q hq
      rcases hkind with hkind | hkind <;> rw [hkind] at helects <;> cases helects
  | outdated q henv hq hkind hterm hm =>
      have helects := hsent q hq
      rcases hkind with hkind | hkind <;> rw [hkind] at helects <;> cases helects

theorem Steps.promised_of_elects (hsent : ∀ q, env.sent q → q.msgType.elects = true)
    (h : Steps env c c') (hm : m ∈ c'.messages) (hpromise : m.Promises) : m ∈ c.messages := by
  induction h with
  | refl => exact hm
  | tail _ hstep ih => exact ih ((hstep.promised hm hpromise).queued_of_elects hsent)

/-- Who stands for election has voted for itself. -/
def NodeCore.VotesForSelf (c : NodeCore σ) : Prop :=
  c.state = .candidate ∨ c.state = .leader → c.vote = c.id

theorem Micro.votesForSelf (hid : c.id ≠ kInvalidId) (hc : c.VotesForSelf) (h : Micro env c c') :
    c'.VotesForSelf := by
  cases h with
  | follow term tracks log hterm hlog => simp [NodeCore.VotesForSelf]
  | preCampaign henv hvoter hclear => simp [NodeCore.VotesForSelf]
  | campaign tracks henv hvoter => exact fun _ => rfl
  | win last index log tracks henv hstate hwon hlast happend htracks =>
      exact fun _ => hc (Or.inl hstate)
  | vote q hq hask hsame hvote =>
      intro hstate
      rw [hc hstate] at hvote
      rcases hvote with hself | hnone
      · exact hself.symm
      · exact absurd hnone hid
  | _ => exact hc

theorem Steps.votesForSelf (hid : c.id ≠ kInvalidId) (hc : c.VotesForSelf) (h : Steps env c c') :
    c'.VotesForSelf := by
  induction h with
  | refl => exact hc
  | tail hsteps hstep ih =>
      rw [← Steps.id_eq hsteps] at hid
      exact hstep.votesForSelf hid ih

/-- The promises of a node that has been leader all along: those it had, and answers to leaders
of earlier terms. -/
theorem Steps.promised_of_leader (hid : c.id ≠ kInvalidId)
    (hsent : ∀ q, env.sent q → q.sender ≠ c.id) (hc : c.VotesForSelf) (helect : ¬env.elect)
    (h : Steps env c c') (hleader : c'.state = .leader) :
    c.state = .leader ∧ c'.term = c.term ∧ ∀ m ∈ c'.messages, m.Promises →
      m ∈ c.messages ∨ env.outdate ∧ (∃ q, env.sent q ∧
        (q.msgType = .msgAppend ∨ q.msgType = .msgHeartbeat) ∧ q.term < c.term) ∧
        m.msgType = .msgAppendResponse ∧ m.index = 0 ∧ m.term = c.term := by
  induction h with
  | refl => exact ⟨hleader, rfl, fun m hm _ => Or.inl hm⟩
  | tail hsteps hstep ih =>
      obtain ⟨hstate₁, hterm₁⟩ := hstep.state_before helect (by rw [hleader]; simp)
      have hleader₁ := hstate₁.symm.trans hleader
      obtain ⟨hstate, hterm, hpromises⟩ := ih hleader₁
      have hvote := Steps.votesForSelf hid hc hsteps (Or.inr hleader₁)
      rw [Steps.id_eq hsteps] at hvote
      refine ⟨hstate, hterm₁.trans hterm, fun m hm hpromise => ?_⟩
      cases hstep.promised hm hpromise with
      | queued hold => exact hpromises m hold hpromise
      | granted q hq hkind hgranted =>
          exact absurd (hgranted.symm.trans hvote) (hsent q hq)
      | accepted q hq hkind hfollower => cases hleader₁.symm.trans hfollower
      | outdated q henv hq hkind hlower hm' =>
          rw [hterm] at hlower hm'
          exact Or.inr ⟨henv, ⟨q, hq, hkind, hlower⟩, hm'⟩

end Micro

namespace Driven

variable {σ : Type} {pages : List (Page σ)}

/-! ## What is on disk -/

/-- The hard states on disk: the one the node started from and those of the `Ready`s reported as
persisted. -/
def durableStates (start : HardState) (d : Driven σ) : List HardState :=
  start :: d.taken.filterMap fun rd => if rd.number ≤ d.acked then rd.hs else none

/-- The log is on disk up to an index. -/
def OnDisk (d : Driven σ) (index : ℕ) : Prop :=
  index = 0 ∨ d.node.raft.raftLog.unstable.snapshot = none ∧
    index < d.node.raft.raftLog.unstable.offset ∧ ∀ i < index + 1, 1 ≤ i → d.Durable i

/-- What a message promises is on disk: the vote it grants, or the term and the entries it
acknowledges. -/
def Kept (start : HardState) (d : Driven σ) (m : Message) : Prop :=
  (m.msgType = .msgRequestVoteResponse →
    ∃ hs ∈ d.durableStates start, hs.term = m.term ∧ hs.vote = m.receiver) ∧
  (m.msgType = .msgAppendResponse →
    (∃ hs ∈ d.durableStates start, hs.term = m.term) ∧ d.OnDisk m.index)

/-- The call makes a leader answer the leader of an earlier term. -/
def outdates (d : Driven σ) : Input → Bool
  | .step m =>
      d.node.raft.state = .leader ∧ m.term < d.node.raft.term ∧
        (d.node.raft.checkQuorum ∨ d.node.raft.preVote) ∧
        (m.msgType = .msgAppend ∨ m.msgType = .msgHeartbeat)
  | _ => false

/-- A node is elected only while the promises in its queue are durable, and it answers an
earlier leader only when its term is. -/
def Honest [Storage σ] [Codec] (start : HardState) (d : Driven σ) (op : Drive) : Prop :=
  d.Legal op ∧ ∀ call, op = .input call →
    (d.node.elected call → ∀ m ∈ d.node.raft.messages, m.Promises → d.Kept start m) ∧
    (d.outdates call = true → ∃ hs ∈ d.durableStates start, hs.term = d.node.raft.term)

section Decidable

instance (d : Driven σ) (index : ℕ) : Decidable (d.OnDisk index) :=
  inferInstanceAs (Decidable (index = 0 ∨ d.node.raft.raftLog.unstable.snapshot = none ∧
    index < d.node.raft.raftLog.unstable.offset ∧ ∀ i < index + 1, 1 ≤ i → d.Durable i))

instance (start : HardState) (d : Driven σ) (m : Message) : Decidable (d.Kept start m) :=
  inferInstanceAs (Decidable
    ((m.msgType = .msgRequestVoteResponse →
      ∃ hs ∈ d.durableStates start, hs.term = m.term ∧ hs.vote = m.receiver) ∧
    (m.msgType = .msgAppendResponse →
      (∃ hs ∈ d.durableStates start, hs.term = m.term) ∧ d.OnDisk m.index)))

instance [Storage σ] [Codec] (start : HardState) (d : Driven σ) (op : Drive) :
    Decidable (d.Honest start op) :=
  match op with
  | .input call =>
      decidable_of_iff (d.Legal (.input call) ∧
        (d.node.elected call → ∀ m ∈ d.node.raft.messages, m.Promises → d.Kept start m) ∧
        (d.outdates call = true → ∃ hs ∈ d.durableStates start, hs.term = d.node.raft.term))
        ⟨fun h => ⟨h.1, fun _ hcall => by cases hcall; exact h.2⟩, fun h => ⟨h.1, h.2 call rfl⟩⟩
  | .proposeConfChange .. | .applyConfChange _ | .ready | .advance | .advanceAppend
  | .advanceAppendAsync | .onPersistReady _ | .advanceApplyTo _ =>
      decidable_of_iff (d.Legal _) ⟨fun h => ⟨h, by simp⟩, And.left⟩

end Decidable

/-! ## The invariant -/

section Invariant

variable [WritableStorage σ] [Codec] [LawfulStorage σ] {start : HardState} {d d' : Driven σ}
  {a a' : AbstractLog} {m : Message}

omit [WritableStorage σ] [Codec] [LawfulStorage σ] in
/-- What is on disk stays there until the next `Ready`. -/
theorem Kept.mono (h : d.Kept start m) (htaken : d'.taken = d.taken) (hacked : d.acked ≤ d'.acked)
    (hsnapshot : d.node.raft.raftLog.unstable.snapshot = none →
      d'.node.raft.raftLog.unstable.snapshot = none)
    (hoffset : d.node.raft.raftLog.unstable.offset ≤ d'.node.raft.raftLog.unstable.offset) :
    d'.Kept start m := by
  have hstates : ∀ hs ∈ d.durableStates start, hs ∈ d'.durableStates start := by
    intro hs hhs
    simp only [durableStates, List.mem_cons, List.mem_filterMap, htaken] at hhs ⊢
    refine hhs.imp_right ?_
    rintro ⟨rd, hrd, hif⟩
    refine ⟨rd, hrd, ?_⟩
    split at hif
    next hle => rw [if_pos (hle.trans hacked), hif]
    · cases hif
  refine ⟨fun hkind => ?_, fun hkind => ?_⟩
  · obtain ⟨hs, hhs, hvote⟩ := h.1 hkind
    exact ⟨hs, hstates hs hhs, hvote⟩
  · obtain ⟨⟨hs, hhs, hterm⟩, hdisk⟩ := h.2 hkind
    refine ⟨⟨hs, hstates hs hhs, hterm⟩, hdisk.imp_right ?_⟩
    rintro ⟨hnone, hlt, hdurable⟩
    exact ⟨hsnapshot hnone, hlt.trans_le hoffset,
      fun i hi hpos => (hdurable i hi hpos).of_taken htaken hacked⟩

/-- The promises in the queue of a leader are durable. -/
structure Sworn (start : HardState) (d : Driven σ) : Prop where
  id_ne : d.node.raft.id ≠ kInvalidId
  votes : d.node.raft.core.VotesForSelf
  kept : d.node.raft.state = .leader → ∀ m ∈ d.node.raft.messages, m.Promises → d.Kept start m

omit [Codec] [LawfulStorage σ] in
/-- A log that has only been appended to is on disk as far as it was. -/
theorem offset_of_grows [Codec] [LawfulStorage σ] {l l' : RaftLog σ} (h : l.Represents a)
    (h' : l'.Represents a') (hgrows : l.Grows a l' a') :
    l'.unstable.offset = l.unstable.offset := by
  obtain ⟨-, -, extra, hentries, rfl⟩ := hgrows
  have hsum := h.offset_add
  have hsum' := h'.offset_add
  rw [hentries] at hsum'
  simp only [AbstractLog.lastIndex, List.length_append] at hsum hsum'
  omega

/-- A leader's log only grows. -/
theorem leader_grows {env : Env} {c c' : NodeCore σ} (h : c.log.Sound a)
    (hpersist : ∀ u, ¬env.persist u) (helect : ¬env.elect) (hsteps : Steps env c c')
    (hleader : c'.state = .leader) :
    c.state = .leader ∧ ∃ a', c'.log.Sound a' ∧ c.log.Grows a c'.log a' := by
  induction hsteps with
  | refl => exact ⟨hleader, a, h, .refl _ _⟩
  | tail _ hstep ih =>
      obtain ⟨hstate₁, -⟩ := hstep.state_before helect (by rw [hleader]; simp)
      have hleader₁ := hstate₁.symm.trans hleader
      obtain ⟨hstate, a₁, h₁, hgrows⟩ := ih hleader₁
      obtain ⟨a₂, h₂, -, hgrows'⟩ := h₁.grow (hstep.change.growth hpersist (Or.inl hleader₁))
      exact ⟨hstate, a₂, h₂, hgrows.trans hgrows'⟩

/-- A run of elementary steps. -/
theorem Sworn.run (h : d.Sworn start) (hsound : d.Sound a) {env : Env}
    {tracker : ProgressTracker} {promotable : Bool} {raft : Raft σ}
    (hsent : ∀ m, env.sent m → m.Arrives d.node.raft.id)
    (henv : env = quietEnv ∨ ∃ call, env = inputEnv d.node.raft call ∧
      Honest start d (.input call) ∧ d.node.input call = some { d.node with raft })
    (hsteps : Steps env ({ d.node.raft with tracker, promotable } : Raft σ).core raft.core) :
    Sworn start { d with node := { d.node with raft } } := by
  have hlog : ({ d.node.raft with tracker, promotable } : Raft σ).core.log.Sound a := hsound.log
  have hid₀ : ({ d.node.raft with tracker, promotable } : Raft σ).core.id ≠ kInvalidId := h.id_ne
  have hvotes : ({ d.node.raft with tracker, promotable } : Raft σ).core.VotesForSelf := h.votes
  have hsender : ∀ m, env.sent m → m.sender ≠ d.node.raft.id := fun m hm => (hsent m hm).sender
  have hpersist : ∀ u, ¬env.persist u := by
    rcases henv with rfl | ⟨call, rfl, -, -⟩ <;> exact fun _ => id
  have hid : raft.id = d.node.raft.id := Steps.id_eq hsteps
  refine ⟨hid ▸ h.id_ne, hsteps.votesForSelf hid₀ hvotes, fun hleader m hm hpromise => ?_⟩
  -- what was durable before is so after, since the log has only grown
  have hkept : d.Kept start m → ∀ {a'}, raft.raftLog.Sound a' →
      d.node.raft.raftLog.Grows a raft.raftLog a' →
      Kept start { d with node := { d.node with raft } } m := by
    intro hold a' hsound' hgrows
    refine hold.mono rfl le_rfl (fun hnone => hgrows.snapshot.trans hnone) ?_
    exact (offset_of_grows hsound.log.represents hsound'.represents hgrows).ge
  by_cases helect : env.elect
  · rcases henv with rfl | ⟨call, rfl, hhonest, hcall⟩
    · exact helect.elim
    · have hkinds : ∀ q, (inputEnv d.node.raft call : Env).sent q → q.msgType.elects = true := by
        rintro q rfl
        exact helect
      have hold : m ∈ d.node.raft.messages := hsteps.promised_of_elects hkinds hm hpromise
      have hplain : ∀ q, (inputEnv d.node.raft call : Env).sent q →
          q.msgType ≠ .msgAppend ∧ q.msgType ≠ .msgSnapshot := by
        intro q hq
        have helects := hkinds q hq
        constructor <;> intro hkind <;> rw [hkind] at helects <;> cases helects
      obtain ⟨a', hsound', -, hgrows⟩ := hlog.grow_steps hplain hpersist hsteps
      refine hkept ?_ hsound' hgrows
      by_cases hbefore : d.node.raft.state = .leader
      · exact h.kept hbefore m hold hpromise
      · exact (hhonest.2 call rfl).1 ((RawNode.elected_iff hcall).mpr ⟨hbefore, hleader⟩) m hold
          hpromise
  · obtain ⟨hbefore, hterm, hpromises⟩ := hsteps.promised_of_leader hid₀ hsender hvotes
      helect hleader
    obtain ⟨-, a', hsound', hgrows⟩ := leader_grows hlog hpersist helect hsteps hleader
    refine hkept ?_ hsound' hgrows
    rcases hpromises m hm hpromise with hold | ⟨hout, ⟨q, hq, hkind, hlower⟩, hresp, hindex, hmterm⟩
    · exact h.kept hbefore m hold hpromise
    · rcases henv with rfl | ⟨call, rfl, hhonest, hcall⟩
      · exact hout.elim
      · obtain rfl : call = .step q := hq
        obtain ⟨hs, hhs, hsterm⟩ := (hhonest.2 _ rfl).2 (by
          simp only [outdates, decide_eq_true_eq]
          exact ⟨hbefore, hlower, hout, hkind⟩)
        refine ⟨fun hvote => ?_, fun _ => ⟨⟨hs, hhs, hsterm.trans hmterm.symm⟩, Or.inl hindex⟩⟩
        rw [hresp] at hvote
        cases hvote

omit [WritableStorage σ] [Codec] [LawfulStorage σ] in
/-- An empty queue holds no promise. -/
theorem Sworn.flush (h : d.Sworn start) (node : RawNode σ) {pending : Option Ready}
    {taken : List Ready} (hid : node.raft.id = d.node.raft.id)
    (hvote : node.raft.vote = d.node.raft.vote) (hstate : node.raft.state = d.node.raft.state)
    (hmessages : node.raft.messages = []) :
    Sworn start { node, pending, taken, acked := d.acked } := by
  refine ⟨hid ▸ h.id_ne, fun hwhen => ?_, fun _ m hm => ?_⟩
  · simp only [Raft.core_state, Raft.core_vote, Raft.core_id, hstate, hvote, hid] at hwhen ⊢
    exact h.votes hwhen
  · simp only [hmessages] at hm
    cases hm

/-- One move. -/
theorem Move.sworn (hsound : d.Sound a) (h : d.Sworn start)
    (hmove : Move (Honest start) d a d' a' pages) : d'.Sworn start := by
  cases hmove with
  | run env tracker promotable raft a' hsent henv htracker hsteps hlog hlater hindex =>
      exact h.run hsound hsent henv hsteps
  | ready node store rd hop hidle htakes hoffers hstored =>
      exact h.flush (node.setStore store) (congrArg NodeCore.id htakes.core)
        (congrArg NodeCore.vote htakes.core) (congrArg NodeCore.state htakes.core)
        (congrArg NodeCore.messages htakes.core)
  | settle rd log hpending hsame hsnapshot hoffset =>
      refine ⟨h.id_ne, h.votes, fun hleader m hm hpromise => ?_⟩
      exact (h.kept hleader m hm hpromise).mono rfl le_rfl (fun _ => hsnapshot) hoffset
  | report number index term snapIndex records log hnumber hrecords hlog =>
      have hsame := reported_eq hlog index term
      have hunstable : (reportedEntries log index term).unstable =
          d.node.raft.raftLog.unstable := by
        rw [hsame]
      refine ⟨h.id_ne, h.votes, fun hleader m hm hpromise => ?_⟩
      refine (h.kept hleader m hm hpromise).mono rfl (le_max_left _ _) ?_ ?_ <;>
        simp only [hunstable]
      · exact id
      · exact le_rfl
  | hand node messages entries hsnapshot hflushes hhands =>
      exact h.flush node (congrArg NodeCore.id hflushes.core)
        (congrArg NodeCore.vote hflushes.core) (congrArg NodeCore.state hflushes.core)
        (congrArg NodeCore.messages hflushes.core)
  | note prevHs hhard => exact ⟨h.id_ne, h.votes, h.kept⟩

/-- A chain of moves. -/
theorem Moves.sworn (h : d.Sworn start) (hmoves : Moves (Honest start) d a d' a' pages) :
    d'.Sworn start := by
  induction hmoves with
  | refl d a => exact h
  | head hsound hmove _ ih => exact ih (hmove.sworn hsound h)

omit [WritableStorage σ] [LawfulStorage σ] in
/-- Only a leader's `Ready` lets messages go early. -/
theorem getReady_messages [Storage σ] {n n' : RawNode σ} {rd : Ready}
    (h : n.getReady = some (n', rd)) (hm : m ∈ rd.messages) :
    n.raft.state = .leader ∧ m ∈ n.raft.messages := by
  have hqueue := (getReady_takes h).messages
  have hearly : rd.isPersistedMsg = decide (n.raft.state ≠ .leader) := by
    unfold getReady at h
    obtain ⟨records, -, h⟩ := of_bind h
    obtain ⟨n₁, hsnapshot, h⟩ := of_bind h
    obtain ⟨since, -, rfl⟩ := readySnapshot_since hsnapshot
    obtain ⟨⟨n₂, light⟩, -, h⟩ := of_bind h
    simp only [some.injEq, Prod.mk.injEq] at h
    obtain ⟨-, rfl⟩ := h
    rfl
  unfold Ready.messages at hm
  split at hm
  next hearly' =>
    rw [hearly] at hearly'
    exact ⟨by simpa using hearly', hqueue ▸ hm⟩
  · cases hm

/-- In every honest run, what a `Ready` lets go before it is persisted promises nothing that is
not on disk. -/
theorem promises_durable {config : Config} {store : σ} {rng : ℕ → ℕ} {n node : RawNode σ}
    {ops : List Drive} {pages : List (Page σ)} {rd : Ready}
    (hstore : (LawfulStorage.view store).Contiguous)
    (hnew : RawNode.new config store rng = some n)
    (hrun : Run (Honest n.raft.hardState) { node := n } ops d pages)
    (hready : d.node.getReady = some (node, rd)) :
    ∀ m ∈ rd.messages, m.Promises → d.Kept n.raft.hardState m := by
  obtain ⟨hsound, -, hstate, -, -, hid⟩ := Sound.new hstore hnew
  have hsworn : Sworn n.raft.hardState { node := n } := by
    refine ⟨hid, ?_, ?_⟩ <;> simp [NodeCore.VotesForSelf, hstate]
  obtain ⟨a, -, hmoves⟩ := hsound.run (fun _ _ hop => hop.1) hrun
  intro m hm
  obtain ⟨hleader, hqueued⟩ := getReady_messages hready hm
  exact (hmoves.sworn hsworn).kept hleader m hqueued

end Invariant

end Driven

namespace Driven

/-- Another node asks for a vote. -/
def voteRequest : Drive :=
  .input (.step
    { msgType := .msgRequestVote, receiver := 1, sender := 2, term := 5, logTerm := 4, index := 9 })

/-- The vote is granted and persisted before the node elects itself. -/
def grantThenElect : List Drive := [voteRequest, .ready, .advance, voteRequest, .input .campaign]

theorem promises_durable_granted :
    letI := Codec.plain
    ∃ n d pages node rd, RawNode.new { id := 1 } soloStore (fun _ => 0) = some n ∧
      Run (Honest n.raft.hardState) { node := n } grantThenElect d pages ∧
      d.node.getReady = some (node, rd) ∧
      rd.messages.map Message.msgType = [.msgRequestVoteResponse] ∧
      ∀ m ∈ rd.messages, m.Promises → d.Kept n.raft.hardState m := by
  obtain ⟨n, hnew, d, pages, hrun, node, rd, hready, hkinds⟩ : letI := Codec.plain
      ∃ n, RawNode.new { id := 1 } soloStore (fun _ => 0) = some n ∧
        ∃ d pages, Run (Honest n.raft.hardState) { node := n } grantThenElect d pages ∧
          ∃ node rd, d.node.getReady = some (node, rd) ∧
            rd.messages.map Message.msgType = [.msgRequestVoteResponse] := by
    decide +kernel
  let _ := Codec.plain
  exact ⟨n, d, pages, node, rd, hnew, hrun, hready, hkinds,
    promises_durable soloStore_contiguous hnew hrun hready⟩

/-- A node that grants a vote and elects itself before the next `Ready` releases the grant with
it, although neither its term nor its vote is on disk. -/
theorem promise_not_durable :
    letI := Codec.plain
    ∃ n d pages node rd, RawNode.new { id := 1 } soloStore (fun _ => 0) = some n ∧
      Run Legal { node := n } [voteRequest, .input .campaign] d pages ∧
      d.node.getReady = some (node, rd) ∧
      ∃ m ∈ rd.messages, m.Promises ∧ ¬d.Kept n.raft.hardState m := by
  simp only [exists_and_left]
  decide +kernel

end Driven

end Raftpp
