import Raftpp.Log.Operations
import Raftpp.Protocol.Tracks

/-!
# Queueing messages refines to elementary steps

`Send`, `MaybeSendAppend` and the broadcasts built from it, as chains of
elementary steps.  A leader that only sends stays a leader, which is what
`LeaderRun` records besides the chain.
-/

namespace Raftpp

open Option

/-- A leader's run of elementary steps that ends as a leader. -/
structure LeaderRun {σ : Type} [Storage σ] [Codec] (env : Env) (r r' : Raft σ) :
    Prop where
  steps : Steps env r.core r'.core
  state : r'.state = .leader
  term : r'.term = r.term

namespace LeaderRun

variable {σ : Type} [Storage σ] [Codec] {env : Env} {r r' r'' : Raft σ}

theorem refl (hstate : r.state = .leader) : LeaderRun env r r := ⟨.refl, hstate, rfl⟩

theorem of_some (hstate : r.state = .leader) (h : some r = some r') : LeaderRun env r r' :=
  some.inj h ▸ refl hstate

theorem trans (h : LeaderRun env r r') (h' : LeaderRun env r' r'') : LeaderRun env r r'' :=
  ⟨h.steps.trans h'.steps, h'.state, h'.term.trans h.term⟩

theorem single (h : Micro env r.core r'.core) (hstate : r'.state = .leader) :
    LeaderRun env r r' := ⟨.single h, hstate, h.leader_term hstate⟩

/-- A fold of leader runs over a list is a leader run. -/
theorem foldlM {α : Type*} {f : Raft σ → α → Option (Raft σ)}
    (hf : ∀ r r' a, r.state = .leader → f r a = some r' → LeaderRun env r r') :
    ∀ (l : List α) {r r' : Raft σ}, r.state = .leader → l.foldlM f r = some r' →
      LeaderRun env r r' := by
  intro l r r' hstate h
  obtain ⟨hsteps, hstate', hterm⟩ := steps_foldlM
    (I := fun r' => r'.state = .leader ∧ r'.term = r.term)
    (fun r₁ r₂ a hinv h => by
      obtain ⟨hsteps, hstate, hterm⟩ := hf r₁ r₂ a hinv.1 h
      exact ⟨hsteps, hstate, hterm.trans hinv.2⟩) l ⟨hstate, rfl⟩ h
  exact ⟨hsteps, hstate', hterm⟩

end LeaderRun

/-- What a node does of its own accord: a leader commits and sends, and no other does
anything. -/
structure Reacts {σ : Type} [Storage σ] [Codec] (env : Env) (r r' : Raft σ) : Prop where
  steps : Steps env r.core r'.core
  state : r'.state = r.state
  idle : r.state ≠ .leader → r'.core = r.core

/-- The node is where it was: its term, its vote, its role and what is in the memory of its log.
A leader may have committed and sent something. -/
structure Raft.Undisturbed {σ : Type} (r r' : Raft σ) : Prop where
  term : r'.term = r.term
  vote : r'.vote = r.vote
  state : r'.state = r.state
  unstable : r'.raftLog.unstable = r.raftLog.unstable
  committed : r.raftLog.committed ≤ r'.raftLog.committed
  messages : r.state ≠ .leader → r'.messages = r.messages

section Reacts

variable {σ : Type} [Storage σ] [Codec] {env : Env} {r r' : Raft σ} {c c' : NodeCore σ}

theorem Raft.steps_of_some (h : some r = some r') : Steps env r.core r'.core :=
  some.inj h ▸ .refl

theorem Raft.steps_of_pair {α : Type} {a b : α} (h : some (r, a) = some (r', b)) :
    Steps env r.core r'.core :=
  (Prod.mk.inj (some.inj h)).1 ▸ .refl

theorem Reacts.refl (r : Raft σ) : Reacts env r r := ⟨.refl, rfl, fun _ => rfl⟩

theorem LeaderRun.reacts (h : LeaderRun env r r') (hstate : r.state = .leader) : Reacts env r r' :=
  ⟨h.steps, h.state.trans hstate.symm, fun hne => absurd hstate hne⟩

/-- A leader that nothing happens to keeps its vote and adds nothing to its log. -/
theorem Micro.undisturbed (h : Micro .calm c c') (hleader : c'.state = .leader) :
    c'.term = c.term ∧ c'.vote = c.vote ∧ c'.log.unstable = c.log.unstable ∧
      c.log.committed ≤ c'.log.committed := by
  cases h with
  | follow => cases hleader
  | preCampaign => cases hleader
  | campaign => cases hleader
  | win last index log tracks henv => exact henv.elim
  | propose last entries log index pendingConf hstate hlast happend hconf hentries hroom =>
      obtain rfl : entries = [] := List.eq_nil_iff_forall_not_mem.mpr hentries
      obtain ⟨-, rfl⟩ | ⟨first, rest, u, hcons, -⟩ := RaftLog.append_eq happend
      · exact ⟨rfl, rfl, rfl, le_rfl⟩
      · cases hcons
  | vote q hq => exact hq.sent.elim
  | accept m log conflict last hm => exact hm.sent.elim
  | install m log tracker maxInflight hm => exact hm.sent.elim
  | commitTo i log result hstate hcommit => cases hstate.symm.trans hleader
  | commitTold i term log committed hstate => exact absurd hleader hstate
  | commitByQuorum i log committed hstate hcommit =>
      rcases RaftLog.maybeCommit_eq hcommit with rfl | ⟨hlt, -, -, rfl⟩
      · exact ⟨rfl, rfl, rfl, le_rfl⟩
      · exact ⟨rfl, rfl, rfl, hlt.le⟩
  | persist index term henv => exact henv.elim
  | persistSnapshot index log updated henv => exact henv.elim
  | bookkeep log hlog => exact ⟨rfl, rfl, hlog.unstable, hlog.committed.ge⟩
  | _ => exact ⟨rfl, rfl, rfl, le_rfl⟩

theorem Reacts.undisturbed (h : Reacts .calm r r') : r.Undisturbed r' := by
  by_cases hstate : r.state = .leader
  · have hsteps : ∀ {c' : NodeCore σ}, Steps .calm r.core c' → c'.state = .leader →
        c'.term = r.term ∧ c'.vote = r.vote ∧ c'.log.unstable = r.raftLog.unstable ∧
          r.raftLog.committed ≤ c'.log.committed := by
      intro c' hsteps
      induction hsteps with
      | refl => exact fun _ => ⟨rfl, rfl, rfl, le_rfl⟩
      | tail _ hstep ih =>
          intro hleader
          obtain ⟨hterm, hvote, hunstable, hcommitted⟩ := hstep.undisturbed hleader
          obtain ⟨hterm', hvote', hunstable', hcommitted'⟩ :=
            ih (Steps.leader_before id (.single hstep) hleader)
          exact ⟨hterm.trans hterm', hvote.trans hvote', hunstable.trans hunstable',
            hcommitted'.trans hcommitted⟩
    obtain ⟨hterm, hvote, hunstable, hcommitted⟩ := hsteps h.steps (h.state.trans hstate)
    exact ⟨hterm, hvote, h.state, hunstable, hcommitted, fun hne => absurd hstate hne⟩
  · have hcore := h.idle hstate
    have hlog : r'.raftLog = r.raftLog := congrArg NodeCore.log hcore
    exact ⟨congrArg NodeCore.term hcore, congrArg NodeCore.vote hcore, h.state, by rw [hlog],
      by rw [hlog], fun _ => congrArg NodeCore.messages hcore⟩

end Reacts

namespace Raft

variable {σ : Type} [Storage σ] [Codec] {env : Env} {r r' : Raft σ}

variable {sent allowEmpty : Bool} {m : Message} {peer : ℕ} {pr pr' : Progress}

section

omit [Storage σ] [Codec]

theorem send_eq (h : r.send m = some r') :
    r' = { r with messages := r.messages ++ [r.stamp m] } ∧
      (m.msgType.isVote = true → m.term ≠ 0) := by
  unfold send at h
  split at h
  · cases h
  next hterm =>
    exact ⟨(some.inj h).symm, fun hvote hzero => hterm (Or.inl ⟨hvote, hzero⟩)⟩

theorem send_core (h : r.send m = some r') : r'.core = r.core.push (r.stamp m) := by
  rw [(send_eq h).1]
  rfl

theorem setProgress_core (hget : r.tracker.get peer = some pr) :
    (r.setProgress peer pr').core = r.core.setTrack peer pr'.matched := by
  have htracks : (fun id => ((r.setProgress peer pr').tracker.get id).map Progress.matched) =
      Function.update r.core.tracks peer (some pr'.matched) := by
    funext id
    by_cases hid : id = peer
    · subst hid
      have hget' : ListMap.get r.tracker.progress id = some pr := hget
      simp [setProgress, ProgressTracker.modify, ProgressTracker.get, hget']
    · simp [setProgress, ProgressTracker.modify, ProgressTracker.get, hid, core]
  unfold NodeCore.setTrack
  rw [← htracks]
  rfl

theorem get_setProgress (hget : (r.tracker.get peer).isSome = true) (pr : Progress) :
    (r.setProgress peer pr).tracker.get peer = some pr := by
  obtain ⟨old, hold⟩ := isSome_iff_exists.mp hget
  simp only [ProgressTracker.get] at hold
  simp [setProgress, ProgressTracker.modify, ProgressTracker.get, ListMap.get_modify, hold]

theorem isSome_get_setProgress (r : Raft σ) (peer v : ℕ) (pr : Progress) :
    ((r.setProgress peer pr).tracker.get v).isSome = (r.tracker.get v).isSome := by
  simp only [setProgress, ProgressTracker.modify, ProgressTracker.get, ListMap.get_modify]
  split <;> simp

theorem track_of_get (hget : r.tracker.get peer = some pr) :
    r.core.tracks peer = some pr.matched := by
  simp [core, hget]

end

theorem send_steps (h : r.send m = some r') (hok : SendOk env r.core (r.stamp m)) :
    Steps env r.core r'.core := by
  rw [send_core h]
  exact .single (.send _ _ hok)

theorem send_leaderRun (hstate : r.state = .leader) (h : r.send m = some r')
    (hok : SendOk env r.core (r.stamp m)) : LeaderRun env r r' := by
  have hsteps : Steps env r.core r'.core := send_steps h hok
  obtain ⟨rfl, -⟩ := send_eq h
  exact ⟨hsteps, hstate, rfl⟩

theorem retrack_run {v : ℕ} (hstate : r.state = .leader) (hget : r.tracker.get v = some pr)
    (h : Retracks env r.core v pr.matched pr'.matched) :
    LeaderRun env r (r.setProgress v pr') := by
  refine .single ?_ hstate
  rw [setProgress_core hget]
  exact .retrack r.core v pr.matched pr'.matched hstate (track_of_get hget) h

/-! ## Append messages -/

/-- What a call of `MaybeSendAppend` for a peer with progress `pr` can do. -/
inductive Sent (r : Raft σ) (peer : ℕ) (pr : Progress) (allowEmpty : Bool) : Raft σ → Bool → Prop
  | nothing : Sent r peer pr allowEmpty r false
  | snapshot (snapshot : Snapshot) (hpaused : pr.isPaused = false)
      (hget : r.raftLog.getSnapshot pr.pendingRequestSnapshot peer = some (.ok snapshot))
      (hne : snapshot.metadata.index ≠ 0) :
      Sent r peer pr allowEmpty
        { r.setProgress peer (pr.becomeSnapshot snapshot.metadata.index) with
          messages := r.messages ++
            [r.stamp { msgType := .msgSnapshot, receiver := peer, snapshot }] } true
  | entries (ents : List Entry) (term : ℕ) (pr' : Progress) (hpaused : pr.isPaused = false)
      (hents : r.raftLog.getEntries pr.nextIdx (some r.maxMessageSize)
        (.sendAppend peer r.term (!allowEmpty)) = some (.ok ents))
      (hterm : r.raftLog.term (predIndex pr.nextIdx) = some (.ok term))
      (hne : allowEmpty = false → ents ≠ []) (hnote : pr.noteSent ents = some pr') :
      Sent r peer pr allowEmpty
        { r.setProgress peer pr' with
          messages := r.messages ++
            [r.stamp
              { msgType := .msgAppend, receiver := peer, index := predIndex pr.nextIdx
                logTerm := term, entries := ents, commit := r.raftLog.committed }] } true
  | batched (ents : List Entry) (before : List Message) (m : Message) (after : List Message)
      (pr' : Progress) (hpaused : pr.isPaused = false) (hbatch : r.batchAppend = true)
      (hents : r.raftLog.getEntries pr.nextIdx (some r.maxMessageSize)
        (.sendAppend peer r.term (!allowEmpty)) = some (.ok ents))
      (hne : allowEmpty = false → ents ≠ []) (hmessages : r.messages = before ++ m :: after)
      (hkind : m.msgType = .msgAppend ∧ m.receiver = peer)
      (hfirst : ∀ m' ∈ before, ¬(m'.msgType = .msgAppend ∧ m'.receiver = peer))
      (hcontinuous : isContinuousEntries m ents = true) (hnote : pr.noteSent ents = some pr') :
      Sent r peer pr allowEmpty
        { r.setProgress peer pr' with
          messages := before ++
            { m with entries := m.entries ++ ents, commit := r.raftLog.committed } :: after } true

omit [Storage σ] [Codec] in
/-- What a successful `TryBatching` did to the queue. -/
theorem tryBatching_eq {entries : List Entry} :
    ∀ {messages messages' : List Message},
      r.tryBatching peer entries pr messages = some (true, messages', pr') →
      ∃ before m after, messages = before ++ m :: after ∧
        messages' = before ++
          { m with entries := m.entries ++ entries, commit := r.raftLog.committed } :: after ∧
        (m.msgType = .msgAppend ∧ m.receiver = peer) ∧
        (∀ m' ∈ before, ¬(m'.msgType = .msgAppend ∧ m'.receiver = peer)) ∧
        isContinuousEntries m entries = true ∧ pr.noteSent entries = some pr' := by
  intro messages
  induction messages with
  | nil => intro messages' h; simp [tryBatching] at h
  | cons m rest ih =>
      intro messages' h
      unfold tryBatching at h
      split at h
      next hkind =>
        split at h
        next hempty =>
          subst hempty
          simp only [some.injEq, Prod.mk.injEq, true_and] at h
          obtain ⟨rfl, rfl⟩ := h
          refine ⟨[], m, rest, rfl, by simp, hkind, by simp, ?_, rfl⟩
          unfold isContinuousEntries
          split <;> simp_all
        next hne =>
          split at h
          next hcontinuous =>
            simp only [bind_eq_bind, bind_eq_some_iff, some.injEq, Prod.mk.injEq, true_and] at h
            obtain ⟨pr₁, hupdate, rfl, rfl⟩ := h
            refine ⟨[], m, rest, rfl, rfl, hkind, by simp, hcontinuous, ?_⟩
            obtain ⟨last, hlast⟩ := ne_none_iff_exists'.mp
              (List.getLast?_eq_none_iff.not.mpr hne)
            simpa [Progress.noteSent, List.getLast?_append, hlast] using hupdate
          · simp at h
      next hkind =>
        simp only [bind_eq_bind, bind_eq_some_iff] at h
        obtain ⟨⟨batched, rest', pr₁⟩, hrest, h⟩ := h
        simp only [some.injEq, Prod.mk.injEq] at h
        obtain ⟨rfl, rfl, rfl⟩ := h
        obtain ⟨before, m₁, after, rfl, rfl, hm₁, hbefore, hrest⟩ := ih hrest
        refine ⟨m :: before, m₁, after, rfl, rfl, hm₁, ?_, hrest⟩
        intro m' hm'
        rcases List.mem_cons.mp hm' with rfl | hm'
        · exact hkind
        · exact hbefore m' hm'

omit [Storage σ] [Codec] in
theorem prepareSendEntries_eq {term : ℕ} {ents : List Entry}
    (h : r.prepareSendEntries peer pr term ents = some (m, pr')) :
    m = { msgType := .msgAppend, receiver := peer, index := predIndex pr.nextIdx
          logTerm := term, entries := ents, commit := r.raftLog.committed } ∧
      pr.noteSent ents = some pr' := by
  unfold prepareSendEntries at h
  split at h
  next hlast =>
    simp only [some.injEq, Prod.mk.injEq] at h
    exact ⟨h.1.symm, by rw [Progress.noteSent, hlast]; exact congrArg some h.2⟩
  next last hlast =>
    simp only [bind_eq_bind, bind_eq_some_iff, some.injEq, Prod.mk.injEq] at h
    obtain ⟨pr₁, hupdate, rfl, rfl⟩ := h
    exact ⟨rfl, by rw [Progress.noteSent, hlast]; exact hupdate⟩

theorem maybeSendSnapshot_sent (hpaused : pr.isPaused = false)
    (h : r.maybeSendSnapshot peer pr = some (r', sent)) : Sent r peer pr allowEmpty r' sent := by
  simp only [maybeSendSnapshot, bind_eq_bind, bind_eq_some_iff] at h
  obtain ⟨prepared, hprepare, h⟩ := h
  cases prepared with
  | none =>
      obtain ⟨rfl, rfl⟩ := by simpa using h
      exact .nothing
  | some mp =>
      obtain ⟨m, pr'⟩ := mp
      simp only [bind_eq_some_iff, some.injEq, Prod.mk.injEq] at h
      obtain ⟨r₁, hsend, rfl, rfl⟩ := h
      unfold prepareSendSnapshot at hprepare
      split at hprepare
      · cases hprepare
      simp only [bind_eq_bind, bind_eq_some_iff] at hprepare
      obtain ⟨result, hsnapshot, hprepare⟩ := hprepare
      split at hprepare
      · cases hprepare
      · cases hprepare
      next snapshot =>
        split at hprepare
        · cases hprepare
        next hne =>
          cases hprepare
          rw [(send_eq hsend).1]
          exact .snapshot snapshot hpaused hsnapshot hne

/-- `MaybeSendAppend` does nothing else. -/
theorem maybeSendAppend_sent (h : r.maybeSendAppend peer allowEmpty = some (r', sent)) :
    ∃ pr, r.tracker.get peer = some pr ∧ Sent r peer pr allowEmpty r' sent := by
  simp only [maybeSendAppend, bind_eq_bind, bind_eq_some_iff] at h
  obtain ⟨pr, hget, h⟩ := h
  refine ⟨pr, hget, ?_⟩
  have hsame : some (r, false) = some (r', sent) → Sent r peer pr allowEmpty r' sent := by
    intro h
    obtain ⟨rfl, rfl⟩ := by simpa using h
    exact .nothing
  split at h
  · exact hsame h
  next hpaused =>
    have hpaused : pr.isPaused = false := by simpa using hpaused
    split at h
    · exact maybeSendSnapshot_sent hpaused h
    obtain ⟨ents, hents, h⟩ := of_bind h
    cases ents with
    | error e =>
        simp only at h
        split at h
        · exact hsame h
        obtain ⟨-, -, h⟩ := of_bind h
        split at h
        · exact hsame h
        · exact maybeSendSnapshot_sent hpaused h
    | ok ents =>
        simp only at h
        split at h
        · exact hsame h
        next hempty =>
          have hne : allowEmpty = false → ents ≠ [] := fun hallow hents => hempty ⟨hallow, hents⟩
          obtain ⟨term, hterm, h⟩ := of_bind h
          cases term with
          | error e => exact maybeSendSnapshot_sent hpaused h
          | ok term =>
              simp only [maybeSendEntries, bind_eq_bind, bind_eq_some_iff] at h
              obtain ⟨⟨batched, messages, batchedPr⟩, hbatching, h⟩ := h
              cases batched with
              | true =>
                  simp only [if_true, some.injEq, Prod.mk.injEq] at h
                  obtain ⟨rfl, rfl⟩ := h
                  unfold batchEntries at hbatching
                  split at hbatching
                  next hbatch =>
                    obtain ⟨before, m, after, hmessages, rfl, hkind, hfirst, hcontinuous, hnote⟩ :=
                      tryBatching_eq hbatching
                    exact .batched ents before m after batchedPr hpaused hbatch hents hne hmessages
                      hkind hfirst hcontinuous hnote
                  · simp at hbatching
              | false =>
                  simp only [Bool.false_eq_true, if_false, bind_eq_some_iff] at h
                  obtain ⟨⟨m, pr'⟩, hprepare, r₁, hsend, h⟩ := h
                  cases h
                  obtain ⟨rfl, hnote⟩ := prepareSendEntries_eq hprepare
                  rw [(send_eq hsend).1]
                  exact .entries ents term pr' hpaused hents hterm hne hnote

theorem maybeSendAppend_run {peer : ℕ} {allowEmpty sent : Bool} (hstate : r.state = .leader)
    (h : r.maybeSendAppend peer allowEmpty = some (r', sent)) : LeaderRun env r r' := by
  obtain ⟨pr, hget, hsent⟩ := maybeSendAppend_sent h
  cases hsent with
  | nothing => exact .refl hstate
  | snapshot snapshot hpaused hsnapshot hne =>
      have hrun : LeaderRun env r
          (r.setProgress peer (pr.becomeSnapshot snapshot.metadata.index)) :=
        retrack_run hstate hget (Or.inl rfl)
      exact hrun.trans (.single (.send _ _ (.snapshot _ _ rfl hstate rfl hsnapshot)) hstate)
  | entries ents term pr' hpaused hents hterm hne hnote =>
      have hrun : LeaderRun env r (r.setProgress peer pr') :=
        retrack_run hstate hget (Or.inl (Progress.matched_noteSent hnote))
      exact hrun.trans (.single (.send _ _ (.append _ _ _ rfl hstate rfl hents)) hstate)
  | batched ents before m after pr' hpaused hbatch hents hne hmessages hkind hfirst hcontinuous
      hnote =>
      have hrun : LeaderRun env r (r.setProgress peer pr') :=
        retrack_run hstate hget (Or.inl (Progress.matched_noteSent hnote))
      exact hrun.trans
        (.single (.amend _ _ _ _ ents before after m hents hmessages hkind.1) hstate)

theorem sendAppend_run (hstate : r.state = .leader) (h : r.sendAppend peer = some r') :
    LeaderRun env r r' := by
  simp only [sendAppend, bind_eq_bind, bind_eq_some_iff] at h
  obtain ⟨⟨r₁, sent⟩, hsend, h⟩ := h
  cases h
  exact maybeSendAppend_run hstate hsend

theorem sendAppendLoop_run :
    ∀ {fuel : ℕ} {r r' : Raft σ}, r.state = .leader → sendAppendLoop peer fuel r = some r' →
      LeaderRun env r r' := by
  intro fuel
  induction fuel with
  | zero =>
      intro r r' hstate h
      exact .of_some hstate h
  | succ fuel ih =>
      intro r r' hstate h
      simp only [sendAppendLoop, bind_eq_bind, bind_eq_some_iff] at h
      obtain ⟨⟨r₁, sent⟩, hsend, h⟩ := h
      have hrun : LeaderRun env r r₁ := maybeSendAppend_run hstate hsend
      cases sent with
      | true => exact hrun.trans (ih hrun.state h)
      | false =>
          cases h
          exact hrun

theorem sendAppendAggressively_run (hstate : r.state = .leader)
    (h : r.sendAppendAggressively peer = some r') : LeaderRun env r r' := by
  simp only [sendAppendAggressively, bind_eq_bind, bind_eq_some_iff] at h
  obtain ⟨last, -, h⟩ := h
  exact sendAppendLoop_run hstate h

theorem broadcastAppend_run (hstate : r.state = .leader) (h : r.broadcastAppend = some r') :
    LeaderRun env r r' := by
  refine LeaderRun.foldlM ?_ _ hstate h
  intro r r' id hstate h
  split at h
  · exact .of_some hstate h
  · exact sendAppend_run hstate h

/-! ## Sends do not touch the log -/

end Raft

end Raftpp
