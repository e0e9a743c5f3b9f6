import Raftpp.Cluster.PreVote

/-!
# Votes in the network

What the messages of a cluster say about votes, in every run with crashes and
restarts.  A vote that was sent is on disk, so that nobody votes twice in a term,
and a quorum that has made a leader makes no other.
-/

namespace Raftpp

open Option

/-- `v` has voted for `x` in the term `T`: it grants its vote, or asks for the votes of others. -/
def Message.VotesFor (m : Message) (v T x : ℕ) : Prop :=
  m.sender = v ∧ m.term = T ∧
    ((m.msgType = .msgRequestVoteResponse ∧ m.reject = false ∧ m.receiver = x) ∨
      (m.msgType = .msgRequestVote ∧ v = x))

instance (m : Message) (v T x : ℕ) : Decidable (m.VotesFor v T x) := by
  unfold Message.VotesFor
  infer_instance

section Votes

variable {σ : Type} [WritableStorage σ] [Codec] [LawfulStorage σ] {cs : ConfState}
  {c₀ c c' : Cluster σ} {actions actions' : List Action} {m m' : Message} {v T x y : ℕ}

open LawfulStorage (view)

theorem Follows.voted {w : World σ} {b : Ballots ℕ} (h : Follows cs c w b) (hm : m ∈ c.net)
    (hvotes : m.VotesFor v T x) : b.voted v T x := by
  have helects := h.elects.message m (h.net m hm)
  obtain ⟨rfl, rfl, ⟨hkind, hreject, rfl⟩ | ⟨hkind, rfl⟩⟩ := hvotes
  · exact (helects.grant hkind hreject).1
  · exact (helects.request hkind).1

theorem Follows.of_run [ConfStorage σ] (hinitial : c₀.Initial cs) (hrun : c₀.run actions = some c) :
    ∃ w b, Follows cs c w b := by
  obtain ⟨w₀, b₀, h₀⟩ := Follows.initial hinitial
  obtain ⟨w, b, h, -⟩ := h₀.run hrun
  exact ⟨w, b, h⟩

/-- Whoever has voted in a term, across crashes and restarts, has voted for one candidate. -/
theorem one_vote_per_term [ConfStorage σ] (hinitial : c₀.Initial cs)
    (hrun : c₀.run actions = some c)
    (hm : m ∈ c.net) (hm' : m' ∈ c.net) (hx : m.VotesFor v T x) (hy : m'.VotesFor v T y) :
    x = y := by
  obtain ⟨w, b, h⟩ := Follows.of_run hinitial hrun
  exact h.elects.inv.voted_unique (h.voted hm hx) (h.voted hm' hy)

/-- A vote that was sent is on disk, until a later term is. -/
theorem votes_on_disk [ConfStorage σ] (hinitial : c₀.Initial cs) (hrun : c₀.run actions = some c)
    (hm : m ∈ c.net) (hx : m.VotesFor v T x) :
    T ≤ (view (c.servers v).store).hardState.term ∧
      ((view (c.servers v).store).hardState.term = T →
        (view (c.servers v).store).hardState.vote = x) := by
  obtain ⟨w, b, h⟩ := Follows.of_run hinitial hrun
  have hvoted := h.voted hm hx
  have hkeeps := (h.server v).keeps
  have hnode := h.elects.node v
  have hterm : T ≤ (w.node v).term := hnode.term ▸ h.elects.inv.voted_term hvoted
  refine ⟨hterm.trans hkeeps.term, fun hstored => ?_⟩
  obtain rfl : T = b.term v := by
    rw [← hnode.term]
    exact hterm.antisymm (hstored ▸ hkeeps.term)
  have hvote := hnode.vote.trans (h.elects.inv.voted_current hvoted)
  rw [hkeeps.vote]
  unfold voteOf at hvote
  split at hvote
  · cases hvote
  · exact some.inj hvote

/-- A server that campaigns or leads is a voter. -/
theorem only_voters_campaign [ConfStorage σ] {n : RawNode σ} (hinitial : c₀.Initial cs)
    (hrun : c₀.run actions = some c) (hn : (c.servers x).node? = some n)
    (hstate : n.raft.state ≠ .follower) : cs.IsVoter x := by
  obtain ⟨w, b, h⟩ := Follows.of_run hinitial hrun
  cases hs : c.servers x with
  | down store =>
      rw [hs] at hn
      cases hn
  | idle n' =>
      rw [hs] at hn
      cases hn
      obtain ⟨hx, -, hmoves, -⟩ := h.at hs
      obtain ⟨w', b', hw', -, hnode, -, -⟩ := h.elects.moves hx hmoves
      have hvoter := (hw'.node x).voter
      rw [hnode, Function.update_self] at hvoter
      exact hvoter hstate
  | ready n' rd =>
      rw [hs] at hn
      cases hn
      obtain ⟨-, -, hcurrent, -⟩ := h.at hs
      exact (h.elects.node x).voter (hcurrent ▸ hstate)

/-- A quorum behind a leader never votes for another one in its term. -/
theorem quorum_stays [ConfStorage σ] (hinitial : c₀.Initial cs) (hrun : c₀.run actions = some c)
    (hleader : c.LeaderAt x T) (hrun' : c.run actions' = some c') :
    ∃ A, cs.quorums.IsQuorum A ∧ ∀ v ∈ A, ∀ m ∈ c'.net, ∀ y, m.VotesFor v T y → y = x := by
  obtain ⟨w, b, h⟩ := Follows.of_run hinitial hrun
  obtain ⟨w', b', h', hb⟩ := h.run hrun'
  obtain ⟨A, hA, hvotes | halone⟩ := h.backed hleader
  · exact ⟨A, hA, fun v hv m hm y hy =>
      h'.elects.inv.voted_unique (h'.voted hm hy) (hb v T x (hvotes v hv))⟩
  · refine ⟨A, hA, fun v hv m hm y hy => ?_⟩
    exact JointConfiguration.eq_of_isQuorum_singleton hA halone
      (h'.elects.voter _ _ _ (h'.voted hm hy))

end Votes

/-! ## Runs of three servers -/

theorem trio_initial [Codec] : trio.Initial { voters := [1, 2, 3] } :=
  ⟨rfl, fun _ => ⟨_, rfl, rfl⟩⟩

/-- Server 1 asks the others for their votes and is elected by server 2; then there is a rival. -/
theorem trio_votes :
    letI := Codec.plain
    ∃ c c' m m' q, trio.run trioElection = some c ∧ c.LeaderAt 1 1 ∧
      c.run trioRivalry = some c' ∧ m ∈ c.net ∧ m' ∈ c.net ∧ q ∈ c'.net ∧
      m.VotesFor 1 1 1 ∧ m'.VotesFor 1 1 1 ∧ m.receiver ≠ m'.receiver ∧ q.VotesFor 2 1 1 := by
  obtain ⟨c, hrun, hleader, ⟨m, hm, m', hm', hvotes, hvotes', hne⟩, c', hrun', q, hq, hrival⟩ :
      letI := Codec.plain
      ∃ c, trio.run trioElection = some c ∧ c.LeaderAt 1 1 ∧
        (∃ m ∈ c.net, ∃ m' ∈ c.net, m.VotesFor 1 1 1 ∧ m'.VotesFor 1 1 1 ∧
          m.receiver ≠ m'.receiver) ∧
        ∃ c', c.run trioRivalry = some c' ∧ ∃ q ∈ c'.net, q.VotesFor 2 1 1 := by
    decide +kernel
  exact ⟨c, c', m, m', q, hrun, hleader, hrun', hm, hm', hq, hvotes, hvotes', hne, hrival⟩

theorem one_vote_per_term_trio :
    letI := Codec.plain
    ∃ c m m' x y, trio.run trioElection = some c ∧ m ∈ c.net ∧ m' ∈ c.net ∧
      m.receiver ≠ m'.receiver ∧ m.VotesFor 1 1 x ∧ m'.VotesFor 1 1 y ∧ x = y := by
  let _ := Codec.plain
  obtain ⟨c, c', m, m', q, hrun, -, -, hm, hm', -, hx, hy, hne, -⟩ := trio_votes
  exact ⟨c, m, m', 1, 1, hrun, hm, hm', hne, hx, hy,
    one_vote_per_term trio_initial hrun hm hm' hx hy⟩

theorem votes_on_disk_trio :
    letI := Codec.plain
    ∃ c, trio.run trioElection = some c ∧
      1 ≤ (LawfulStorage.view (c.servers 1).store).hardState.term := by
  let _ := Codec.plain
  obtain ⟨c, c', m, m', q, hrun, -, -, hm, -, -, hx, -⟩ := trio_votes
  exact ⟨c, hrun, (votes_on_disk trio_initial hrun hm hx).1⟩

theorem only_voters_campaign_trio :
    letI := Codec.plain
    ∃ c n, trio.run trioElection = some c ∧ (c.servers 1).node? = some n ∧
      n.raft.state = .leader ∧ ConfState.IsVoter { voters := [1, 2, 3] } 1 := by
  let _ := Codec.plain
  obtain ⟨c, c', m, m', q, hrun, ⟨n, hn, hstate, -⟩, -⟩ := trio_votes
  exact ⟨c, n, hrun, hn, hstate, only_voters_campaign trio_initial hrun hn (by simp [hstate])⟩

theorem quorum_stays_trio :
    letI := Codec.plain
    ∃ c c', trio.run trioElection = some c ∧ c.LeaderAt 1 1 ∧ c.run trioRivalry = some c' ∧
      ∃ A, (ConfState.quorums { voters := [1, 2, 3] }).IsQuorum A ∧
        ∀ v ∈ A, ∀ m ∈ c'.net, ∀ y, m.VotesFor v 1 y → y = 1 := by
  let _ := Codec.plain
  obtain ⟨c, c', m, m', q, hrun, hleader, hrun', -⟩ := trio_votes
  exact ⟨c, c', hrun, hleader, hrun', quorum_stays trio_initial hrun hleader hrun'⟩

end Raftpp
