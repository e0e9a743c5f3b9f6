import Raftpp.Protocol.Handlers

/-!
# The calls of a node refine to elementary steps

`Step`, `Tick` and the other calls of `Raft` and `RawNode`.  A call that takes a
message assumes that a message whose content matters was delivered.
-/

namespace Raftpp

open Option

namespace Raft

variable {σ : Type} [Storage σ] [Codec] {env : Env} {r r' : Raft σ} {m : Message}

variable {hasReady : Bool} {result : Result Unit}

/-! ## Step -/

theorem stepCurrentTerm_steps (hm : Handled env r m) (h : r.stepCurrentTerm m = some (r', result)) :
    Steps env r.core r'.core := by
  unfold stepCurrentTerm at h
  split at h
  next hkind =>
    split at h
    next hpromotable =>
      exact hup_steps (hm.elect (by rw [hkind]; rfl)) hpromotable (by simp) (of_bind_pair h)
    · exact steps_of_pair h
  next hkind => exact stepVote_steps (Or.inl hkind) hm (of_bind_pair h)
  next hkind => exact stepVote_steps (Or.inr hkind) hm (of_bind_pair h)
  · split at h
    next hstate => exact stepCandidate_steps hm (Or.inr hstate) h
    next hstate => exact stepCandidate_steps hm (Or.inl hstate) h
    next hstate => exact stepFollower_steps hm hstate h
    next hstate => exact stepLeader_steps hm hstate h

/-- What a message asks of the environment besides its delivery. -/
structure Permits (env : Env) (r : Raft σ) (m : Message) : Prop where
  elect : m.msgType.elects = true → env.elect
  outdate : m.msgType = .msgHeartbeat ∨ m.msgType = .msgAppend →
    r.checkQuorum = true ∨ r.preVote = true → env.outdate
  propose : m.msgType = .msgPropose → ∀ e ∈ m.entries, env.propose e

theorem stepLowerTerm_steps (hm : m.msgType.isProtocol = true → Delivered env r.id m)
    (hpermits : Permits env r m) (hterm : m.term < r.term) (h : r.stepLowerTerm m = some r') :
    Steps env r.core r'.core := by
  have hne : r.term ≠ 0 := by omega
  unfold stepLowerTerm at h
  split at h
  next hkind =>
    have hprotocol : m.msgType.isProtocol = true := by
      rcases hkind.2 with hkind | hkind <;> rw [hkind] <;> rfl
    exact send_steps h (.outdate m (hpermits.outdate hkind.2 hkind.1) (hm hprotocol) hkind.2.symm
      hterm rfl rfl rfl)
  split at h
  · exact send_steps h (.preVoteReject rfl hne rfl)
  · exact steps_of_some h

/-- A message of a later term either is a pre-vote message or makes the node a follower of
that term. -/
theorem stepHigherTerm_steps (hm : m.msgType.isProtocol = true → Delivered env r.id m)
    (hexpected : Expected env r m) (hpermits : Permits env r m) (hterm : r.term < m.term)
    (h : r.stepHigherTerm m = some r') :
    Steps env r.core r'.core ∧ Handled env r' m := by
  have hfollow : ∀ {leader : ℕ}, r.becomeFollower m.term leader = some r' →
      Steps env r.core r'.core ∧ Handled env r' m := by
    intro leader h
    obtain ⟨hsteps, hstate, hterm', hid⟩ :=
      @becomeFollower_steps σ _ _ env r r' m.term leader (fun _ => le_of_lt hterm) h
    exact ⟨hsteps, fun hprotocol => hid ▸ hm hprotocol, fun _ _ _ => Or.inl hterm'.symm,
      fun _ _ _ => hterm'.le, hexpected.of_follower hstate, hpermits.elect, hpermits.propose⟩
  unfold stepHigherTerm at h
  split at h
  next hkind =>
    cases h
    exact ⟨.refl, hm, fun _ _ _ => Or.inr hkind, fun _ _ _ => hterm.le, hexpected, hpermits.elect,
      hpermits.propose⟩
  · split at h <;> exact hfollow h

theorem step_steps (hm : m.msgType.isProtocol = true → Delivered env r.id m)
    (hexpected : Expected env r m) (hpermits : Permits env r m) (h : r.step m = some (r', result)) :
    Steps env r.core r'.core := by
  unfold step at h
  split at h
  next hzero =>
    refine stepCurrentTerm_steps
      ⟨hm, fun hproper hprotocol hreject => ?_, fun hproper hkind hgranted => ?_, hexpected,
        hpermits.elect, hpermits.propose⟩ h
    · exact absurd hzero ((hm hprotocol).term_ne hproper hreject)
    · refine absurd hzero ((hm (by rw [hkind]; rfl)).term_ne hproper ?_)
      simp [Message.Rejects, hgranted]
  split at h
  next hlater =>
    split at h
    · exact steps_of_pair h
    · obtain ⟨r₁, hhigher, h⟩ := of_bind h
      obtain ⟨hsteps, hhandled⟩ := stepHigherTerm_steps hm hexpected hpermits hlater hhigher
      exact hsteps.trans (stepCurrentTerm_steps hhandled h)
  split at h
  next hearlier => exact stepLowerTerm_steps hm hpermits hearlier (of_bind_pair h)
  next hlater hearlier =>
    exact stepCurrentTerm_steps
      ⟨hm, fun _ _ _ => Or.inl (by omega), fun _ _ _ => by omega, hexpected, hpermits.elect,
        hpermits.propose⟩ h

/-- A message that a node gives itself. -/
structure Local (env : Env) (m : Message) : Prop where
  kind : m.msgType.isProtocol = false
  timeout : m.msgType ≠ .msgTimeoutNow
  elect : m.msgType.elects = true → env.elect
  propose : m.msgType = .msgPropose → ∀ e ∈ m.entries, env.propose e

omit [Storage σ] [Codec] in
/-- Most local messages ask nothing of the environment. -/
theorem Local.plain (hkind : m.msgType = .msgBeat ∨ m.msgType = .msgCheckQuorum ∨
    m.msgType = .msgTransferLeader ∨ m.msgType = .msgUnreachable ∨
    m.msgType = .msgSnapStatus) : Local env m := by
  rcases hkind with hkind | hkind | hkind | hkind | hkind <;>
    exact ⟨by rw [hkind]; rfl, by simp [hkind], by simp [hkind, MessageType.elects],
      by simp [hkind]⟩

/-- A local message of `Step` needs no delivery. -/
theorem step_local_steps (hm : Local env m) (h : r.step m = some (r', result)) :
    Steps env r.core r'.core := by
  have hkind := hm.kind
  refine step_steps (fun hprotocol => absurd hprotocol (by rw [hkind]; decide))
    (.of_kind hm.timeout ?_) ⟨hm.elect, ?_, hm.propose⟩ h
  · intro htype
    rw [htype] at hkind
    exact absurd hkind (by decide)
  · rintro (htype | htype) _ <;> rw [htype] at hkind <;> exact absurd hkind (by decide)

/-! ## Ticks and requests -/

theorem tickBeat_steps {hasReady' : Bool} (h : r.tickBeat hasReady = some (r', hasReady')) :
    Steps env r.core r'.core := by
  unfold tickBeat at h
  split at h
  · exact steps_of_pair h
  split at h
  · obtain ⟨⟨r₁, result⟩, hstep, h⟩ := of_bind h
    obtain rfl := of_some_pair h
    have hsteps : Steps env ({ r with heartbeatElapsed := 0 } : Raft σ).core r₁.core :=
      step_local_steps (.plain (by simp)) hstep
    exact hsteps
  · exact steps_of_pair h

theorem tickElection_steps (helect : env.elect) (h : r.tickElection = some (r', hasReady)) :
    Steps env r.core r'.core := by
  simp only [tickElection] at h
  split at h
  · obtain ⟨⟨r₁, result⟩, hstep, h⟩ := of_bind h
    have hsteps : Steps env _ r₁.core :=
      step_local_steps ⟨rfl, by simp, fun _ => helect, by simp⟩ hstep
    exact hsteps.trans (tickBeat_steps h)
  · have hsteps : Steps env _ r'.core := tickBeat_steps h
    exact hsteps

theorem tickCheckQuorum_steps (h : r.tickCheckQuorum = some r') : Steps env r.core r'.core := by
  unfold tickCheckQuorum at h
  split at h
  · simp only [bind_eq_bind] at h
    obtain ⟨⟨r₁, result⟩, hstep, h⟩ := of_bind h
    cases h
    exact step_local_steps (.plain (by simp)) hstep
  · exact steps_of_some h

theorem tickHeartbeat_steps (h : r.tickHeartbeat = some (r', hasReady)) :
    Steps env r.core r'.core := by
  simp only [tickHeartbeat] at h
  split at h
  · obtain ⟨r₁, hcheck, h⟩ := of_bind h
    have hsteps : Steps env _ r₁.core := tickCheckQuorum_steps hcheck
    split at h
    · have hbeat : Steps env r₁.abortLeaderTransfer.core r'.core := tickBeat_steps h
      exact hsteps.trans hbeat
    · exact hsteps.trans (tickBeat_steps h)
  · have hsteps : Steps env _ r'.core := tickBeat_steps h
    exact hsteps

theorem tick_steps (helect : env.elect) (h : r.tick = some (r', hasReady)) :
    Steps env r.core r'.core := by
  unfold tick at h
  split at h
  · exact tickHeartbeat_steps h
  · exact tickElection_steps helect h

theorem ping_steps (h : r.ping = some r') : Steps env r.core r'.core := by
  unfold ping at h
  split at h
  next hstate => exact (broadcastHeartbeat_run hstate h).steps
  · exact steps_of_some h

theorem requestSnapshot_steps (h : r.requestSnapshot = some (r', result)) :
    Steps env r.core r'.core := by
  unfold requestSnapshot at h
  split at h
  · exact steps_of_pair h
  · obtain ⟨last, -, h⟩ := of_bind h
    obtain ⟨result, -, h⟩ := of_bind h
    obtain ⟨lastTerm, -, h⟩ := of_bind h
    split at h
    · have hsteps : Steps env ({ r with pendingRequestSnapshot := last } : Raft σ).core r'.core :=
        sendRequestSnapshot_steps (of_bind_pair h)
      exact hsteps
    · exact steps_of_pair h

end Raft

end Raftpp
