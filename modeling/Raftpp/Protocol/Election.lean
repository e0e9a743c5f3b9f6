import Raftpp.Lib.Election
import Raftpp.Protocol.LogFrame
import Raftpp.Protocol.Membership

/-!
# The elections of the nodes

The elementary steps of the nodes refine the elections of `Ballots`, for nodes
that share one `ConfState`.  A `World` holds the nodes' protocol states and
every message that may be delivered; `Elects` relates it to the history of votes.
Nothing is assumed about the logs, except that snapshots carry the shared
configuration.
-/

namespace Raftpp

open StateRole

variable {cs : ConfState}

/-! ## Quorums of a configuration -/

/-- The configuration that a `ConfState` restores to. -/
def restoredConf (cs : ConfState) : TrackerConfiguration :=
  match restoreTracker (.new 0) 0 cs with
  | .ok t => t.conf
  | .error _ => {}

theorem restoreTracker_eq_restoredConf {size next : ℕ} {t : ProgressTracker}
    (h : restoreTracker (.new size) next cs = .ok t) : t.conf = restoredConf cs := by
  have hnew : (ProgressTracker.new size).Alike (.new 0) := ⟨rfl, fun _ => rfl⟩
  obtain ⟨t', ht', halike⟩ := @restoreTracker_alike _ _ _ _ 0 hnew _ h
  rw [restoredConf, ht']
  exact halike.conf.symm

namespace JointConfiguration

variable {j : JointConfiguration}

/-- The sets of nodes that win a vote. -/
def quorums (j : JointConfiguration) : QuorumSystem ℕ where
  IsQuorum A := (∃ v, j.contains v = true) ∧
    ∃ check, j.getVoteResult check = .won ∧ ∀ v, check v = some true → v ∈ A
  inter := by
    rintro A B ⟨⟨w, hw⟩, check, hwon, hA⟩ ⟨-, check', hwon', hB⟩
    obtain ⟨v, -, hv, hv'⟩ := won_inter hw hwon hwon'
    exact ⟨v, hA v hv, hB v hv'⟩

theorem isQuorum_of_won {check : ℕ → Option Bool} {id : ℕ} (hvoter : j.contains id = true)
    (hwon : j.getVoteResult check = .won) : j.quorums.IsQuorum {v | check v = some true} :=
  ⟨⟨id, hvoter⟩, check, hwon, fun _ hv => hv⟩

/-- If one node alone is a quorum, it is the only voter. -/
theorem eq_of_isQuorum_singleton {x y : ℕ} {A : Set ℕ} (hquorum : j.quorums.IsQuorum A)
    (hA : ∀ v ∈ A, v = x) (hy : j.contains y = true) : y = x := by
  obtain ⟨-, check, hwon, hcheck⟩ := hquorum
  -- a half of the configuration that `x` wins alone has no other member
  have hhalf : ∀ c : MajorityConfig, MajorityConfig.getVoteResult c check = .won → y ∈ c →
      y = x := by
    intro c hc hmem
    rw [MajorityConfig.getVoteResult_eq_won, or_iff_right (List.ne_nil_of_mem hmem)] at hc
    have hone : (c.elems.countP fun v => check v = some true) ≤ c.elems.count x := by
      rw [List.count]
      refine List.countP_mono_left fun v _ hv => ?_
      simpa using hA v (hcheck v (by simpa using hv))
    have hcount : c.elems.count x ≤ 1 := List.nodup_iff_count_le_one.mp c.nodup x
    have hsize : c.elems.length ≤ 1 := by
      have hmajority : c.elems.length / 2 + 1 ≤ 1 := le_trans hc (le_trans hone hcount)
      omega
    have hx : x ∈ c.elems := by
      refine List.count_pos_iff.mp (lt_of_lt_of_le ?_ hone)
      exact lt_of_lt_of_le (Nat.succ_pos _) hc
    have hlen : c.elems = [y] := by
      obtain ⟨a, ha⟩ := List.length_eq_one_iff.mp
        (le_antisymm hsize (List.length_pos_of_mem hmem))
      have hya : y ∈ c.elems := hmem
      rw [ha, List.mem_singleton] at hya
      rw [ha, hya]
    rw [hlen, List.mem_singleton] at hx
    exact hx.symm
  rw [getVoteResult_eq_won] at hwon
  rcases contains_iff.mp hy with hin | hout
  · exact hhalf _ hwon.1 hin
  · exact hhalf _ hwon.2 hout

end JointConfiguration

/-! ## Worlds -/

/-- The protocol states of all nodes, and every message that may be delivered. -/
structure World (σ : Type) where
  node : ℕ → NodeCore σ
  net : Message → Prop

namespace World

variable {σ : Type}

/-- The node `x` moves to the state `c`; what it has queued may be delivered. -/
def act (w : World σ) (x : ℕ) (c : NodeCore σ) : World σ where
  node := Function.update w.node x c
  net m := w.net m ∨ m ∈ c.messages

@[simp] theorem act_node_self (w : World σ) (x : ℕ) (c : NodeCore σ) : (w.act x c).node x = c := by
  simp [act]

@[simp] theorem act_node_of_ne (w : World σ) {x y : ℕ} (c : NodeCore σ) (hy : y ≠ x) :
    (w.act x c).node y = w.node y := by
  simp [act, hy]

end World

/-- The role of a node in elections; a pre-candidate has not campaigned yet. -/
def StateRole.election : StateRole → ElectionRole
  | .follower | .preCandidate => .follower
  | .candidate => .candidate
  | .leader => .leader

/-- A vote as stored: zero is none. -/
def voteOf (vote : ℕ) : Option ℕ := if vote = kInvalidId then none else some vote

/-- Every snapshot a log can hand out carries the configuration `cs`. -/
structure RaftLog.SharesConf {σ : Type} [Storage σ] (cs : ConfState) (l : RaftLog σ) : Prop where
  unstable : ∀ s, l.unstable.snapshot = some s → s.metadata.confState = cs
  store : ∀ request peer s, Storage.getSnapshot l.store request peer = some (.ok s) →
    s.metadata.confState = cs

theorem RaftLog.SharesConf.of_sameBase {σ : Type} [Storage σ] {l l' : RaftLog σ}
    (h : l.SharesConf cs) (hsame : SameBase l l') : l'.SharesConf cs where
  unstable s hs := h.unstable s (hsame.snapshot ▸ hs)
  store request peer s hs := h.store request peer s (hsame.store ▸ hs)

theorem RaftLog.SharesConf.getSnapshot {σ : Type} [Storage σ] {l : RaftLog σ} (h : l.SharesConf cs)
    {request peer : ℕ} {s : Snapshot} (hs : l.getSnapshot request peer = some (.ok s)) :
    s.metadata.confState = cs := by
  unfold RaftLog.getSnapshot at hs
  split at hs
  next pending hpending =>
    split at hs
    · simp only [Option.some.injEq, Except.ok.injEq] at hs
      exact hs ▸ h.unstable pending hpending
    · exact h.store request peer s hs
  · exact h.store request peer s hs

/-- The quorums of the voters of `cs`. -/
abbrev ConfState.quorums (cs : ConfState) : QuorumSystem ℕ := (restoredConf cs).voters.quorums

/-- `x` votes in the configuration `cs`. -/
def ConfState.IsVoter (cs : ConfState) (x : ℕ) : Prop :=
  (restoredConf cs).voters.contains x = true

/-- A node's state and the votes it has given and received. -/
structure NodeElects {σ : Type} [Storage σ] (cs : ConfState) (b : Ballots ℕ) (x : ℕ)
    (c : NodeCore σ) : Prop where
  id : c.id = x
  term : c.term = b.term x
  vote : voteOf c.vote = b.vote x
  role : c.state.election = b.role x
  conf : c.conf = restoredConf cs
  promotable : c.promotable = true → cs.IsVoter x
  voter : c.state ≠ .follower → cs.IsVoter x
  term_ne : c.state.election ≠ .follower → c.term ≠ 0
  recorded : c.state = .candidate → ∀ v, ListMap.get c.votes v = some true → b.voted v c.term x
  log : c.log.SharesConf cs

/-- What a message says about votes. -/
structure MessageElects (cs : ConfState) (b : Ballots ℕ) (m : Message) : Prop where
  term_ne : m.msgType.isProtocol = true → ¬m.Rejects → m.term ≠ 0
  grant : m.msgType = .msgRequestVoteResponse → m.reject = false →
    b.voted m.sender m.term m.receiver ∧ b.voted m.receiver m.term m.receiver
  request : m.msgType = .msgRequestVote → b.voted m.sender m.term m.sender ∧ m.sender ≠ 0
  snapshot : m.msgType = .msgSnapshot → m.snapshot.metadata.confState = cs

/-- The world and the history of its votes. -/
structure Elects {σ : Type} [Storage σ] (cs : ConfState) (w : World σ) (b : Ballots ℕ) :
    Prop where
  inv : b.Inv cs.quorums
  node : ∀ x, NodeElects cs b x (w.node x)
  message : ∀ m, w.net m → MessageElects cs b m
  queued : ∀ x, ∀ m ∈ (w.node x).messages, w.net m
  voter : ∀ v T x, b.voted v T x → cs.IsVoter x

/-! ## Frames -/

/-- A change of the history by the node `x` alone. -/
structure Ballots.ChangesOnly (b b' : Ballots ℕ) (x : ℕ) : Prop where
  voted : ∀ v T y, b.voted v T y → b'.voted v T y
  rest : ∀ y, y ≠ x → b'.term y = b.term y ∧ b'.vote y = b.vote y ∧ b'.role y = b.role y

namespace Ballots.ChangesOnly

variable (b : Ballots ℕ) (x : ℕ)

theorem refl : ChangesOnly b b x := ⟨fun _ _ _ h => h, fun _ _ => ⟨rfl, rfl, rfl⟩⟩

variable {b x} in
theorem trans {b' b'' : Ballots ℕ} (h : ChangesOnly b b' x) (h' : ChangesOnly b' b'' x) :
    ChangesOnly b b'' x where
  voted v T y hvoted := h'.voted v T y (h.voted v T y hvoted)
  rest y hy := by
    obtain ⟨hterm, hvote, hrole⟩ := h.rest y hy
    obtain ⟨hterm', hvote', hrole'⟩ := h'.rest y hy
    exact ⟨hterm'.trans hterm, hvote'.trans hvote, hrole'.trans hrole⟩

theorem observe (t : ℕ) : ChangesOnly b (b.observe x t) x :=
  ⟨fun _ _ _ h => h, fun y hy => by simp [Ballots.observe, hy]⟩

theorem yield : ChangesOnly b (b.yield x) x :=
  ⟨fun _ _ _ h => h, fun y hy => by simp [Ballots.yield, hy]⟩

theorem follow (t : ℕ) : ChangesOnly b (b.follow x t) x := by
  unfold Ballots.follow
  split
  · exact yield b x
  · exact observe b x t

theorem campaign : ChangesOnly b (b.campaign x) x :=
  ⟨fun _ _ _ h => Or.inl h, fun y hy => by simp [Ballots.campaign, hy]⟩

theorem grant (z : ℕ) : ChangesOnly b (b.grant x z) x :=
  ⟨fun _ _ _ h => Or.inl h, fun y hy => by simp [Ballots.grant, hy]⟩

theorem win : ChangesOnly b (b.win x) x :=
  ⟨fun _ _ _ h => h, fun y hy => by simp [Ballots.win, hy]⟩

end Ballots.ChangesOnly

section Frames

variable {σ : Type} [Storage σ] {cs : ConfState} {b b' : Ballots ℕ} {w : World σ} {x : ℕ}
  {c c' : NodeCore σ}

variable {m : Message} {tracks : ℕ → Option ℕ}

theorem MessageElects.mono (h : MessageElects cs b m) (hb : b.ChangesOnly b' x) :
    MessageElects cs b' m where
  term_ne := h.term_ne
  grant hkind hreject := (h.grant hkind hreject).imp (hb.voted _ _ _) (hb.voted _ _ _)
  request hkind := (h.request hkind).imp_left (hb.voted _ _ _)
  snapshot := h.snapshot

/-- The other nodes do not notice a step of `x`. -/
theorem NodeElects.of_changesOnly {y : ℕ} (h : NodeElects cs b y c) (hb : b.ChangesOnly b' x)
    (hy : y ≠ x) : NodeElects cs b' y c := by
  obtain ⟨hterm, hvote, hrole⟩ := hb.rest y hy
  exact { h with
    term := h.term.trans hterm.symm
    vote := h.vote.trans hvote.symm
    role := h.role.trans hrole.symm
    recorded := fun hstate v hv => hb.voted _ _ _ (h.recorded hstate v hv) }

/-- A step that changes neither term, vote and role nor the configuration. -/
theorem NodeElects.frame (h : NodeElects cs b x c) (hid : c'.id = c.id) (hterm : c'.term = c.term)
    (hvote : c'.vote = c.vote) (hstate : c'.state = c.state) (hconf : c'.conf = c.conf)
    (hpromotable : c'.promotable = c.promotable) (hvotes : c'.votes = c.votes)
    (hlog : c'.log.SharesConf cs) : NodeElects cs b x c' where
  id := hid.trans h.id
  term := hterm.trans h.term
  vote := hvote ▸ h.vote
  role := hstate ▸ h.role
  conf := hconf.trans h.conf
  promotable := hpromotable ▸ h.promotable
  voter := hstate ▸ h.voter
  term_ne := by rw [hstate, hterm]; exact h.term_ne
  recorded := by rw [hstate, hvotes, hterm]; exact h.recorded
  log := hlog

/-- A step of the node `x`, put together. -/
theorem Elects.act (hw : Elects cs w b) (hinv : b'.Inv cs.quorums) (hb : b.ChangesOnly b' x)
    (hvoter : ∀ v T y, b'.voted v T y → cs.IsVoter y) (hnode : NodeElects cs b' x c')
    (hmessages : ∀ m ∈ c'.messages, m ∈ (w.node x).messages ∨ MessageElects cs b' m) :
    Elects cs (w.act x c') b' where
  inv := hinv
  node y := by
    by_cases hy : y = x
    · subst hy
      rw [World.act_node_self]
      exact hnode
    · rw [World.act_node_of_ne w c' hy]
      exact (hw.node y).of_changesOnly hb hy
  message m hm := by
    rcases hm with hm | hm
    · exact (hw.message m hm).mono hb
    · rcases hmessages m hm with hm | hm
      · exact (hw.message m (hw.queued x m hm)).mono hb
      · exact hm
  queued y m hm := by
    by_cases hy : y = x
    · subst hy
      rw [World.act_node_self] at hm
      exact Or.inr hm
    · rw [World.act_node_of_ne w c' hy] at hm
      exact Or.inl (hw.queued y m hm)
  voter := hvoter

/-- A step of the node `x` that does not show in the history. -/
theorem Elects.act_frame (hw : Elects cs w b) (hnode : NodeElects cs b x c')
    (hmessages : ∀ m ∈ c'.messages, m ∈ (w.node x).messages ∨ MessageElects cs b m) :
    Elects cs (w.act x c') b :=
  hw.act hw.inv (.refl b x) hw.voter hnode hmessages

/-! ## Steps that change a role -/

theorem NodeElects.follow (h : NodeElects cs b x c) {term : ℕ} {log : RaftLog σ}
    (hlog : log.SharesConf cs) :
    NodeElects cs (b.follow x term) x
      { c with
        term, vote := if term = c.term then c.vote else kInvalidId, state := .follower
        votes := [], tracks, log, pendingConf := 0 } := by
  rw [h.term]
  unfold Ballots.follow
  split
  next heq =>
    exact { h with
      term := heq
      role := by simp [Ballots.yield, election]
      voter := by simp
      term_ne := by simp [election]
      recorded := by simp
      log := hlog }
  · exact { h with
      term := by simp [Ballots.observe]
      vote := by simp [Ballots.observe, voteOf]
      role := by simp [Ballots.observe, election]
      voter := by simp
      term_ne := by simp [election]
      recorded := by simp
      log := hlog }

theorem NodeElects.preCampaign (h : NodeElects cs b x c) (hvoter : c.promotable = true) :
    NodeElects cs (b.yield x) x { c with state := .preCandidate, votes := [] } :=
  { h with
    role := by simp [Ballots.yield, election]
    voter := fun _ => h.promotable hvoter
    term_ne := by simp [election]
    recorded := by simp }

theorem NodeElects.campaign (h : NodeElects cs b x c) (hx : x ≠ 0) (hvoter : cs.IsVoter x) :
    NodeElects cs (b.campaign x) x
      { c with
        term := c.term + 1, vote := c.id, state := .candidate
        promotable := c.conf.voters.contains c.id, votes := [], tracks, pendingConf := 0 } :=
  { h with
    term := by simp [Ballots.campaign, h.term]
    vote := by simp [Ballots.campaign, h.id, voteOf, kInvalidId, hx]
    role := by simp [Ballots.campaign, election]
    promotable := fun _ => hvoter
    voter := fun _ => hvoter
    term_ne := fun _ => Nat.succ_ne_zero _
    recorded := by simp }

theorem NodeElects.win (h : NodeElects cs b x c) {log : RaftLog σ} {pendingConf : ℕ}
    {uncommitted : UncommittedState} (hstate : c.state = .candidate) (hlog : log.SharesConf cs) :
    NodeElects cs (b.win x) x
      { c with state := .leader, votes := [], tracks, log, pendingConf, uncommitted } :=
  { h with
    role := by simp [Ballots.win, election]
    voter := fun _ => h.voter (by simp [hstate])
    term_ne := fun _ => h.term_ne (by simp [hstate, election])
    recorded := by simp
    log := hlog }

/-- A candidate has recorded the votes of a quorum when it wins. -/
theorem Elects.inv_win (hw : Elects cs w b) (hstate : (w.node x).state = .candidate)
    (hwon : (w.node x).conf.voters.getVoteResult (ListMap.get (w.node x).votes) = .won) :
    (b.win x).Inv cs.quorums := by
  have hnode := hw.node x
  have hisVoter : cs.IsVoter x := hnode.voter (by simp [hstate])
  rw [hnode.conf] at hwon
  have hrole : b.role x = .candidate := by
    rw [← hnode.role, hstate]
    rfl
  have hvoted : ∀ u ∈ {v | ListMap.get (w.node x).votes v = some true},
      b.voted u (b.term x) x := by
    intro u hu
    rw [← hnode.term]
    exact hnode.recorded hstate u hu
  exact hw.inv.win (JointConfiguration.isQuorum_of_won hisVoter hwon) hrole hvoted

/-! ## Messages and snapshots -/

/-- Only the kinds with a claim about votes or configurations need care. -/
theorem MessageElects.of_kind (hterm : m.msgType.isProtocol = true → ¬m.Rejects →
    m.term ≠ 0) (hgrant : m.msgType = .msgRequestVoteResponse → m.reject = true)
    (hrequest : m.msgType ≠ .msgRequestVote) (hsnapshot : m.msgType ≠ .msgSnapshot) :
    MessageElects cs b m where
  term_ne := hterm
  grant hkind hreject := absurd (hgrant hkind) (by simp [hreject])
  request hkind := absurd hkind hrequest
  snapshot hkind := absurd hkind hsnapshot

theorem MessageElects.of_term (hterm : m.term ≠ 0)
    (hkind : m.msgType ≠ .msgRequestVoteResponse ∧ m.msgType ≠ .msgRequestVote ∧
      m.msgType ≠ .msgSnapshot) : MessageElects cs b m :=
  .of_kind (fun _ _ => hterm) (fun hgrant => absurd hgrant hkind.1) hkind.2.1 hkind.2.2

theorem NodeElects.leader_term_ne (h : NodeElects cs b x c) (hstate : c.state = .leader) :
    c.term ≠ 0 :=
  h.term_ne (by simp [hstate, election])

section Steps

variable [Codec] {env : Env}

/-- What a node may queue is true. -/
theorem Elects.messageElects_of_sendOk (hw : Elects cs w b) (hx : x ≠ 0) (hproper : env.proper)
    (hsent : ∀ m, env.sent m → w.net m) (hok : SendOk env (w.node x) m) : MessageElects cs b m := by
  have h := hw.node x
  cases hok with
  | requestVote hkind hstate hsender hterm =>
      have hrole : b.role x ≠ .follower := by
        rw [← h.role, hstate]
        simp [election]
      refine ⟨fun _ _ => ?_, by simp [hkind], fun _ => ⟨?_, ?_⟩, by simp [hkind]⟩
      · rw [hterm]
        exact h.term_ne (by simp [hstate, election])
      · rw [hsender, hterm, h.id, h.term]
        exact hw.inv.voted_self hrole
      · rwa [hsender, h.id]
  | requestPreVote hkind hsender hterm => exact .of_term (by omega) (by simp [hkind])
  | preVoteReject hkind hterm hreject => exact .of_term hterm (by simp [hkind])
  | voteReject hkind hterm hne hreject =>
      exact .of_kind (fun _ _ => hterm ▸ hne) (fun _ => hreject) (by simp [hkind]) (by simp [hkind])
  | grant q hq hask hsame hvote hkind hsender hreceiver hterm =>
      obtain ⟨hrequested, hne⟩ := (hw.message q (hsent q hq.sent)).request hask
      have hvoted : b.voted x (b.term x) q.sender := by
        refine hw.inv.vote_voted ?_
        rw [← h.vote, hvote]
        simp [voteOf, kInvalidId, hne]
      refine ⟨fun _ _ => ?_, fun _ _ => ⟨?_, ?_⟩, by simp [hkind], by simp [hkind]⟩
      · rw [hterm]
        exact hq.term_ne hproper (by simp [Message.Rejects, hask])
      · rw [hsender, hreceiver, hterm, hsame hproper, h.id, h.term]
        exact hvoted
      · rw [hreceiver, hterm]
        exact hrequested
  | grantPre q hq hask hkind hsender hreceiver hterm =>
      refine .of_term ?_ (by simp [hkind])
      rw [hterm]
      exact hq.term_ne hproper (by simp [Message.Rejects, hask])
  | heartbeat hkind hstate hterm =>
      exact .of_term (hterm ▸ h.leader_term_ne hstate) (by simp [hkind])
  | append i maxSize ctx hkind hstate hterm hentries =>
      exact .of_term (hterm ▸ h.leader_term_ne hstate) (by simp [hkind])
  | snapshot request v hkind hstate hterm hsnapshot =>
      exact ⟨fun _ _ => hterm ▸ h.leader_term_ne hstate, by simp [hkind], by simp [hkind],
        fun _ => h.log.getSnapshot hsnapshot⟩
  | answerRead hkind hstate hterm =>
      exact .of_term (hterm ▸ h.leader_term_ne hstate) (by simp [hkind])
  | accept q hq hask hsame hstate hkind hterm =>
      refine .of_term ?_ (by simp [hkind])
      rw [hterm, ← hsame hproper]
      refine hq.term_ne hproper ?_
      rcases hask with hask | hask <;> simp [Message.Rejects, hask]
  | outdate q henv hq hask hlate hkind hterm hindex => exact .of_term (by omega) (by simp [hkind])
  | appendReject hkind hreject =>
      exact .of_kind (fun _ hno => absurd ⟨hkind, hreject⟩ hno) (by simp [hkind]) (by simp [hkind])
        (by simp [hkind])
  | forward hkind hentries =>
      exact .of_kind (by simp [hkind, MessageType.isProtocol]) (by simp [hkind]) (by simp [hkind])
        (by simp [hkind])
  | other hkind hpropose =>
      refine .of_kind (fun hprotocol => absurd hprotocol (by simp [hkind])) ?_ ?_ ?_
      all_goals
        intro htype
        rw [htype] at hkind
        exact absurd hkind (by decide)

/-- So the queue after a step holds only what was there or is true. -/
theorem Elects.messageElects (hw : Elects cs w b) (hx : x ≠ 0) (hproper : env.proper)
    (hsent : ∀ m, env.sent m → w.net m) (h : Micro env (w.node x) c') (hm : m ∈ c'.messages) :
    m ∈ (w.node x).messages ∨ MessageElects cs b m := by
  refine (h.mem_messages hm).imp_right ?_
  rintro (hok | ⟨m₀, hm₀, -, -, -, entries, -, hkind, rfl⟩)
  · exact hw.messageElects_of_sendOk hx hproper hsent hok
  · have hqueued := hw.message m₀ (hw.queued x m₀ hm₀)
    refine .of_term ?_ (by simp [hkind])
    exact hqueued.term_ne (by rw [hkind]; rfl) (by simp [Message.Rejects, hkind])

/-- A step keeps to the shared configuration. -/
theorem Elects.sharesConf (hw : Elects cs w b) (hsent : ∀ m, env.sent m → w.net m)
    (h : Micro env (w.node x) c') : c'.log.SharesConf cs := by
  have hlog := (hw.node x).log
  rcases h.sameBase_or_install with hbase | ⟨m, hm, hkind, hrestore⟩
  · exact hlog.of_sameBase hbase
  · obtain ⟨-, hrestored⟩ := RaftLog.restore_eq hrestore
    rw [hrestored]
    refine ⟨fun s hs => ?_, hlog.store⟩
    obtain rfl : m.snapshot = s := Option.some.inj hs
    exact (hw.message m (hsent m hm)).snapshot hkind

/-! ## Every step -/

omit [Codec] in
/-- A vote that a candidate counts was given to it. -/
theorem Elects.poll (hw : Elects cs w b) (hproper : env.proper)
    (hsent : ∀ m, env.sent m → w.net m) {v : ℕ} {granted : Bool}
    (hgrant : granted = true → Counted env (w.node x) v) :
    NodeElects cs b x
      { w.node x with votes := ListMap.emplace (w.node x).votes v granted } := by
  have hnode := hw.node x
  refine { hnode with recorded := ?_ }
  intro hstate u hu
  rw [ListMap.get_emplace, Option.or_eq_some_iff] at hu
  rcases hu with hu | ⟨-, hu⟩
  · exact hnode.recorded hstate u hu
  · split at hu
    next heq =>
      subst heq
      rcases (hgrant (Option.some.inj hu)).vote hstate with hself | ⟨m, hm, hkind, hreject, rfl,
        hterm⟩
      · rw [hself, hnode.id]
        have hrole : b.role x ≠ .follower := by
          rw [← hnode.role, hstate]
          simp [election]
        have hvoted := hw.inv.voted_self hrole
        rwa [← hnode.term] at hvoted
      · have hvoted := ((hw.message m (hsent m hm.sent)).grant hkind hreject).1
        rwa [hm.receiver hproper, hnode.id, hterm hproper] at hvoted
    · cases hu

/-- An elementary step of a node is an election step, or does not show in the elections. -/
theorem Elects.micro (hw : Elects cs w b) (hx : x ≠ 0) (hproper : env.proper)
    (hsent : ∀ m, env.sent m → w.net m) (h : Micro env (w.node x) c') :
    ∃ b', b.ChangesOnly b' x ∧ Elects cs (w.act x c') b' := by
  have hnode := hw.node x
  have hlog := hw.sharesConf hsent h
  have hstep : ∀ {b' : Ballots ℕ}, b'.Inv cs.quorums → b.ChangesOnly b' x →
      (∀ v T y, b'.voted v T y → cs.IsVoter y) → NodeElects cs b' x c' →
      ∃ b', b.ChangesOnly b' x ∧ Elects cs (w.act x c') b' := fun hinv hb hvoter hnode' =>
    ⟨_, hb, hw.act hinv hb hvoter hnode' fun m hm =>
      (hw.messageElects hx hproper hsent h hm).imp_right fun hm => hm.mono hb⟩
  have hframe : NodeElects cs b x c' → ∃ b', b.ChangesOnly b' x ∧ Elects cs (w.act x c') b' :=
    hstep hw.inv (.refl b x) hw.voter
  cases h with
  | follow term tracks log hterm hsame =>
      refine hstep (hw.inv.follow (hnode.term ▸ hterm hproper)) (.follow b x term) ?_
        (hnode.follow hlog)
      unfold Ballots.follow
      split <;> exact hw.voter
  | preCampaign henv hvoter hclear =>
      exact hstep (hw.inv.yield x) (.yield b x) hw.voter (hnode.preCampaign hvoter)
  | campaign tracks henv hvoter =>
      have hisVoter : cs.IsVoter x := hvoter.elim (fun hvoter => hnode.promotable hvoter.1)
        fun hvoter => hnode.voter (by simp [hvoter.1])
      refine hstep (hw.inv.campaign x) (.campaign b x) ?_ (hnode.campaign hx hisVoter)
      rintro v T y (hvoted | ⟨-, -, rfl⟩)
      · exact hw.voter v T y hvoted
      · exact hisVoter
  | poll v granted hgrant => exact hframe (hw.poll hproper hsent hgrant)
  | win last index log tracks henv hstate hwon hlast happend htracks =>
      exact hstep (hw.inv_win hstate hwon) (.win b x) hw.voter (hnode.win hstate hlog)
  | vote q hq hask hsame hvote =>
      obtain ⟨hrequested, hne⟩ := (hw.message q (hsent q hq.sent)).request hask
      have hvote' : b.vote x = none ∨ b.vote x = some q.sender := by
        rw [← hnode.vote]
        rcases hvote with hvote | hvote
        · exact Or.inr (by simp [voteOf, hvote, kInvalidId, hne])
        · exact Or.inl (by simp [voteOf, hvote])
      refine hstep (hw.inv.grant hvote') (.grant b x q.sender) ?_ ?_
      · rintro v T y (hvoted | ⟨-, -, rfl⟩)
        · exact hw.voter v T y hvoted
        · exact hw.voter _ _ _ hrequested
      · exact { hnode with
          vote := by simp [Ballots.grant, voteOf, kInvalidId, hne]
          recorded := fun hstate v hv => Or.inl (hnode.recorded hstate v hv) }
  | install m log tracker maxInflight hm hkind hstate hcommitted htracker hrestore =>
      rw [(hw.message m (hsent m hm.sent)).snapshot hkind] at htracker
      have hconf := restoreTracker_eq_restoredConf htracker
      exact hframe { hnode with
        conf := hconf
        promotable := fun hpromotable => by
          rw [ConfState.IsVoter, ← hconf, ← hnode.id]
          exact hpromotable
        recorded := by simp [hstate]
        log := hlog }
  | _ => exact hframe (hnode.frame rfl rfl rfl rfl rfl rfl rfl hlog)

end Steps

end Frames

end Raftpp
