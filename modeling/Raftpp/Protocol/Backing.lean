import Raftpp.Protocol.Election

/-!
# Runs of a node and the votes behind a leader

A node runs ahead of what it has persisted.  `Elects.moves` lets the world of
recorded votes follow such a run once it is persisted, and shows that even
before, a leader has a quorum of recorded votes behind it (`Backed`), or is a
quorum by itself.  `Elects.restart` drops what a crash has lost.
-/

namespace Raftpp

open Ballots

variable {σ : Type} [Storage σ] {cs : ConfState} {b b' : Ballots ℕ} {w : World σ} {x : ℕ}
  {c c' : NodeCore σ}

/-! ## Backing -/

/-- The node `x` has a quorum behind it in the term `T`: the votes of a quorum, or it is one
alone. -/
def Backed (cs : ConfState) (b : Ballots ℕ) (x T : ℕ) : Prop :=
  ∃ A, cs.quorums.IsQuorum A ∧ ((∀ v ∈ A, b.voted v T x) ∨ ∀ v ∈ A, v = x)

theorem Backed.mono {T : ℕ} (h : Backed cs b x T)
    (hb : ∀ v T y, b.voted v T y → b'.voted v T y) : Backed cs b' x T := by
  obtain ⟨A, hA, hvotes⟩ := h
  exact ⟨A, hA, hvotes.imp_left fun hvoted v hv => hb v T x (hvoted v hv)⟩

/-- One term backs one node. -/
theorem Elects.backed_unique (hw : Elects cs w b) {y T : ℕ} (hx : Backed cs b x T)
    (hy : Backed cs b y T) : x = y := by
  obtain ⟨A, hA, hvotesA⟩ := hx
  obtain ⟨B, hB, hvotesB⟩ := hy
  obtain ⟨v, hvA, hvB⟩ := cs.quorums.inter hA hB
  rcases hvotesA with hvotesA | hvotesA
  · rcases hvotesB with hvotesB | hvotesB
    · exact hw.inv.elected_unique hA hB hvotesA hvotesB
    · exact JointConfiguration.eq_of_isQuorum_singleton hB hvotesB
        (hw.voter _ _ _ (hvotesA v hvA))
  · rcases hvotesB with hvotesB | hvotesB
    · exact (JointConfiguration.eq_of_isQuorum_singleton hA hvotesA
        (hw.voter _ _ _ (hvotesB v hvB))).symm
    · rw [← hvotesA v hvA, hvotesB v hvB]

/-- What a node that runs ahead of the recorded history owes to it. -/
structure Grounded (cs : ConfState) (b : Ballots ℕ) (c : NodeCore σ) : Prop where
  candidate : c.state = .candidate → ∀ v, ListMap.get c.votes v = some true →
    v = c.id ∨ (b.voted v c.term c.id ∧ b.voted c.id c.term c.id)
  leader : c.state = .leader → Backed cs b c.id c.term

theorem Elects.grounded (hw : Elects cs w b) (x : ℕ) : Grounded cs b (w.node x) := by
  have hnode := hw.node x
  refine ⟨fun hstate v hv => ?_, fun hstate => ?_⟩
  · have hrole : b.role x ≠ .follower := by
      rw [← hnode.role, hstate]
      simp [StateRole.election]
    have hself := hw.inv.voted_self hrole
    rw [← hnode.term] at hself
    rw [hnode.id]
    exact Or.inr ⟨hnode.recorded hstate v hv, hself⟩
  · have hrole : b.role x = .leader := by
      rw [← hnode.role, hstate]
      rfl
    have hwinner := hw.inv.winner_leader hrole
    obtain ⟨A, hA, hvoted⟩ := hw.inv.winner_quorum hwinner
    refine ⟨A, hA, Or.inl ?_⟩
    rw [hnode.id, hnode.term]
    exact hvoted

section

omit [Storage σ]

theorem Grounded.frame (h : Grounded cs b c) (hid : c'.id = c.id) (hterm : c'.term = c.term)
    (hstate : c'.state = c.state) (hvotes : c'.votes = c.votes) : Grounded cs b c' where
  candidate := by rw [hstate, hvotes, hid, hterm]; exact h.candidate
  leader := by rw [hstate, hid, hterm]; exact h.leader

theorem Grounded.of_state (hcandidate : c.state ≠ .candidate) (hleader : c.state ≠ .leader) :
    Grounded cs b c :=
  ⟨fun hstate => absurd hstate hcandidate, fun hstate => absurd hstate hleader⟩

theorem Grounded.backed (h : Grounded cs b c) (hstate : c.state = .candidate)
    (hconf : c.conf = restoredConf cs) (hvoter : cs.IsVoter c.id)
    (hwon : c.conf.voters.getVoteResult (ListMap.get c.votes) = .won) :
    Backed cs b c.id c.term := by
  rw [hconf] at hwon
  refine ⟨_, JointConfiguration.isQuorum_of_won hvoter hwon, ?_⟩
  by_cases hother : ∃ v, ListMap.get c.votes v = some true ∧ v ≠ c.id
  · obtain ⟨v, hv, hne⟩ := hother
    obtain ⟨-, hself⟩ := (h.candidate hstate v hv).resolve_left hne
    left
    intro u hu
    rcases h.candidate hstate u hu with rfl | ⟨hvoted, -⟩
    · exact hself
    · exact hvoted
  · right
    intro v hv
    by_contra hne
    exact hother ⟨v, hv, hne⟩

end

theorem Grounded.micro [Codec] {env : Env}
    (hproper : env.proper) (hsent : ∀ m, env.sent m → MessageElects cs b m) (h : Grounded cs b c)
    (hconf : c.conf = restoredConf cs) (hvoter : c.state ≠ .follower → cs.IsVoter c.id)
    (hmicro : Micro env c c') : Grounded cs b c' := by
  cases hmicro with
  | follow => exact .of_state (by simp) (by simp)
  | preCampaign => exact .of_state (by simp) (by simp)
  | campaign => exact ⟨fun _ v hv => absurd hv (by simp), by simp⟩
  | poll v granted hgrant =>
      refine ⟨fun hcandidate u hu => ?_, h.leader⟩
      rw [ListMap.get_emplace, Option.or_eq_some_iff] at hu
      rcases hu with hu | ⟨-, hu⟩
      · exact h.candidate hcandidate u hu
      · split at hu
        next heq =>
          subst heq
          refine ((hgrant (Option.some.inj hu)).vote hcandidate).imp_right ?_
          rintro ⟨m, hm, hkind, hreject, rfl, hterm⟩
          have hvoted := (hsent m hm.sent).grant hkind hreject
          rwa [hm.receiver hproper, hterm hproper] at hvoted
        · cases hu
  | win last index log tracks henv hstate hwon =>
      exact ⟨by simp, fun _ => h.backed hstate hconf (hvoter (by simp [hstate])) hwon⟩
  | install m log tracker maxInflight hm hkind hstate =>
      exact .of_state (by simp [hstate]) (by simp [hstate])
  | _ => exact h.frame rfl rfl rfl rfl

/-! ## Runs -/

/-- The log of a node may be replaced by one that hands out the same configuration. -/
abbrev Relogs (cs : ConfState) (_ log : RaftLog σ) : Prop := log.SharesConf cs

theorem Elects.relog (hw : Elects cs w b) {log : RaftLog σ} (hlog : log.SharesConf cs) :
    Elects cs (w.act x { w.node x with log }) b :=
  hw.act_frame { hw.node x with log := hlog } fun _ hm => Or.inl hm

/-- A run of one node: the world can follow it, and what it owes to the recorded history is
still recorded. -/
theorem Elects.moves [Codec] (hw : Elects cs w b) (hx : x ≠ 0)
    (h : Moves (Relogs cs) w.net (w.node x) c) :
    ∃ w' b', Elects cs w' b' ∧ b.ChangesOnly b' x ∧ w'.node = Function.update w.node x c ∧
      (∀ m, w.net m → w'.net m) ∧ Grounded cs b c := by
  induction h with
  | refl =>
      exact ⟨w, b, hw, .refl b x, (Function.update_eq_self x w.node).symm, fun _ hm => hm,
        hw.grounded x⟩
  | @tail c₁ c₂ _ hmove ih =>
      obtain ⟨w₁, b₁, hw₁, hb₁, hnode₁, hnet₁, hgrounded⟩ := ih
      have hself : w₁.node x = c₁ := by rw [hnode₁, Function.update_self]
      have hnode₂ : ∀ c, (w₁.act x c).node = Function.update w.node x c := by
        intro c
        simp [World.act, hnode₁]
      cases hmove with
      | micro hproper hsent hstep =>
          have helects := hw₁.node x
          rw [hself] at helects
          obtain ⟨b₂, hb₂, hw₂⟩ := hw₁.micro hx hproper
            (fun m hm => hnet₁ m (hsent m hm)) (hself ▸ hstep)
          refine ⟨_, b₂, hw₂, hb₁.trans hb₂, hnode₂ c₂, fun m hm => Or.inl (hnet₁ m hm), ?_⟩
          refine hgrounded.micro hproper (fun m hm => hw.message m (hsent m hm)) helects.conf ?_
            hstep
          intro hstate
          rw [helects.id]
          exact helects.voter hstate
      | relog log hlog =>
          have hw₂ := @Elects.relog _ _ _ _ _ x hw₁ log hlog
          rw [hself] at hw₂
          exact ⟨_, b₁, hw₂, hb₁, hnode₂ _, fun m hm => Or.inl (hnet₁ m hm),
            hgrounded.frame rfl rfl rfl rfl⟩

theorem Elects.moves_sharesConf [Codec] (hw : Elects cs w b) (hx : x ≠ 0)
    (h : Moves (Relogs cs) w.net (w.node x) c) : c.log.SharesConf cs := by
  obtain ⟨w', b', hw', -, hnode, -, -⟩ := hw.moves hx h
  have hlog := (hw'.node x).log
  rwa [hnode, Function.update_self] at hlog

/-- After a run the queue is handed out, and the log is replaced. -/
theorem Elects.settle [Codec] (hw : Elects cs w b) (hx : x ≠ 0)
    (h : Moves (Relogs cs) w.net (w.node x) c) {uncommitted : UncommittedState}
    {log : RaftLog σ} (hlog : log.SharesConf cs)
    (hc' : c' = { c with log, messages := [], uncommitted }) :
    ∃ w' b', Elects cs w' b' ∧ b.ChangesOnly b' x ∧ w'.node = Function.update w.node x c' ∧
      (∀ m, w.net m → w'.net m) ∧ ∀ m ∈ c.messages, w'.net m := by
  obtain ⟨w₁, b₁, hw₁, hb₁, hnode₁, hnet₁, -⟩ := hw.moves hx h
  have hself : w₁.node x = c := by rw [hnode₁, Function.update_self]
  refine ⟨w₁.act x c', b₁, ?_, hb₁, by simp [World.act, hnode₁], fun m hm => Or.inl (hnet₁ m hm),
    fun m hm => Or.inl (hw₁.queued x m (hself ▸ hm))⟩
  subst hc' hself
  exact hw₁.act_frame { hw₁.node x with log := hlog } fun _ hm => absurd hm (by simp)

/-! ## Restarts -/

/-- A node as it starts from its storage. -/
structure Starts (cs : ConfState) (x : ℕ) (c : NodeCore σ) : Prop where
  id : c.id = x
  state : c.state = .follower
  conf : c.conf = restoredConf cs
  promotable : c.promotable = true → cs.IsVoter x
  messages : c.messages = []
  log : c.log.SharesConf cs

/-- A node restarts in its last term with its last vote.  If its storage has seen a later term,
the vote counts for that term. -/
theorem Elects.restart (hw : Elects cs w b) (hc : Starts cs x c) (hterm : (w.node x).term ≤ c.term)
    (hvote : c.vote = (w.node x).vote) :
    ∃ b', b.ChangesOnly b' x ∧ Elects cs (w.act x c) b' := by
  have hnode := hw.node x
  have hqueue : ∀ b' : Ballots ℕ, ∀ m ∈ c.messages, m ∈ (w.node x).messages ∨
      MessageElects cs b' m := by
    intro b' m hm
    rw [hc.messages] at hm
    cases hm
  have hstarts : ∀ b' : Ballots ℕ, c.term = b'.term x → voteOf c.vote = b'.vote x →
      b'.role x = .follower → NodeElects cs b' x c := by
    intro b' hterm hvote hrole
    refine ⟨hc.id, hterm, hvote, ?_, hc.conf, hc.promotable, ?_, ?_, ?_, hc.log⟩
    · rw [hrole, hc.state]
      rfl
    · exact fun hstate => absurd hc.state hstate
    · simp [hc.state, StateRole.election]
    · simp [hc.state]
  have hvote' : voteOf c.vote = b.vote x := by rw [hvote, hnode.vote]
  rcases eq_or_lt_of_le hterm with heq | hlt
  · refine ⟨b.yield x, .yield b x, hw.act (hw.inv.yield x) (.yield b x) hw.voter ?_ (hqueue _)⟩
    refine hstarts _ ?_ hvote' (by simp [yield])
    rw [← heq, hnode.term]
    rfl
  · rw [hnode.term] at hlt
    have hobserve := hw.inv.observe hlt
    cases hold : b.vote x with
    | none =>
        refine ⟨_, .observe b x c.term, hw.act hobserve (.observe b x c.term) hw.voter ?_
          (hqueue _)⟩
        refine hstarts _ (by simp [observe]) ?_ (by simp [observe])
        rw [hvote', hold]
        simp [observe]
    | some y =>
        have hchanges := (ChangesOnly.observe b x c.term).trans
          (.grant (b.observe x c.term) x y)
        refine ⟨_, hchanges, hw.act (hobserve.grant ?_) hchanges ?_ ?_ (hqueue _)⟩
        · simp [observe]
        · rintro v T z (hvoted | ⟨-, -, rfl⟩)
          · exact hw.voter v T z hvoted
          · exact hw.voter _ _ _ (hw.inv.vote_voted hold)
        · refine hstarts _ (by simp [grant, observe]) ?_
            (by simp [grant, observe])
          rw [hvote', hold]
          simp [grant]

end Raftpp
