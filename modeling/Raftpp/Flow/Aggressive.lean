import Raftpp.Log.Paging
import Raftpp.Protocol.Backtrack

/-!
# Aggressive sending ends

`SendAppendAggressively` calls `MaybeSendAppend` until a call has nothing to send.
The loop has no counter.  What ends it is the progress of the peer: a call that
sends moves `next_idx` behind the entries it sent, or pauses the peer, and the log
does not grow meanwhile.  `roundsLeft` bounds the calls that can still send.

The entries that the calls put into the queue, in messages of their own or into one
that was queued before, are the next entries of the log, each of them once.
-/

namespace Raftpp

open Option

namespace RaftLog.Represents

variable {σ : Type} [WritableStorage σ] [Codec] [LawfulStorage σ] {l : RaftLog σ}
  {a : AbstractLog}

/-- Entries that are read from an index on are the next entries of the log. -/
theorem getEntries_page [PagingStorage σ] (h : Represents l a) {idx : ℕ} {maxSize : Option ℕ}
    {ctx : GetEntriesContext} {ents : List Entry}
    (hents : l.getEntries idx maxSize ctx = some (.ok ents)) (hne : ents ≠ []) :
    a.index < idx ∧ idx + ents.length ≤ a.lastIndex + 1 ∧ NumberedFrom idx ents ∧
      ∀ e ∈ ents, e ∈ a.entries := by
  simp only [RaftLog.getEntries, h.lastIndex, bind_eq_bind, bind_some] at hents
  split at hents
  · exact absurd (by simpa using hents) hne
  next hidx =>
    have hslice := h.slice_eq_ok hents
    unfold AbstractLog.slice at hslice
    rw [if_neg (by omega)] at hslice
    split at hslice
    · cases hslice
    next hfirst =>
      rw [if_neg (lt_irrefl _), Except.ok.injEq] at hslice
      have hlow : a.index < idx := by
        unfold AbstractLog.firstIndex at hfirst
        omega
      obtain ⟨hle, -⟩ := AbstractLog.limitSize_append_between maxSize hlow
        (show idx ≤ a.lastIndex + 1 by omega) le_rfl
      rw [hslice] at hle
      refine ⟨hlow, hle, ?_, fun e he => h.mem_of_slice hents he⟩
      obtain ⟨k, hk⟩ := limitSize_eq_take (a.between idx (a.lastIndex + 1)) maxSize
      rw [← hslice, hk]
      exact (h.contiguous.between hlow _).take _

end RaftLog.Represents

/-! ## Progress of the peer -/

namespace Progress

variable {pr pr' : Progress} {ents : List Entry}

/-- How many more calls can send something to a peer, in a log that ends at `last`. -/
def roundsLeft (last : ℕ) (pr : Progress) : ℕ :=
  if pr.isPaused then 0 else if pr.nextIdx = 0 then 1 else last + 2 - pr.nextIdx

theorem roundsLeft_le (last : ℕ) (pr : Progress) : pr.roundsLeft last ≤ last + 1 := by
  unfold roundsLeft
  split
  · omega
  · split <;> omega

/-- Entries that were sent pause the peer, or are behind its next index. -/
theorem noteSent_advances {last : Entry} (hlast : ents.getLast? = some last)
    (h : pr.noteSent ents = some pr') :
    pr'.pendingRequestSnapshot = pr.pendingRequestSnapshot ∧
      (pr'.nextIdx = pr.nextIdx ∧ pr'.isPaused = true ∨ pr'.nextIdx = last.index + 1) := by
  simp only [noteSent, hlast, updateState] at h
  split at h
  next hprobe =>
    cases h
    exact ⟨rfl, Or.inl ⟨rfl, by simp [isPaused, pause, hprobe]⟩⟩
  next hreplicate =>
    obtain ⟨inflights, -, h⟩ := of_bind h
    cases h
    exact ⟨rfl, Or.inr rfl⟩
  · cases h

theorem roundsLeft_of_active (last : ℕ) (hpaused : pr.isPaused = false) (hnext : 0 < pr.nextIdx) :
    pr.roundsLeft last = last + 2 - pr.nextIdx := by
  unfold roundsLeft
  rw [hpaused, if_neg Bool.false_ne_true, if_neg (by omega)]

/-- After a page of the log was sent, fewer calls can send something. -/
theorem noteSent_page {a : AbstractLog} (hpaused : pr.isPaused = false)
    (hlow : a.index < pr.nextIdx) (hhigh : pr.nextIdx + ents.length ≤ a.lastIndex + 1)
    (hne : ents ≠ []) (hnumbered : NumberedFrom pr.nextIdx ents)
    (h : pr.noteSent ents = some pr') :
    pr'.pendingRequestSnapshot = pr.pendingRequestSnapshot ∧
      pr'.roundsLeft a.lastIndex < pr.roundsLeft a.lastIndex ∧
      pr'.nextIdx ≤ a.lastIndex + 1 ∧
      (pr'.isPaused = true ∨ pr'.nextIdx = pr.nextIdx + ents.length) := by
  obtain ⟨last, hlast⟩ := ne_none_iff_exists'.mp (List.getLast?_eq_none_iff.not.mpr hne)
  have hlength : 0 < ents.length := List.length_pos_iff.mpr hne
  have hindex := hnumbered _ last (List.getLast?_eq_getElem? ▸ hlast)
  have hleft := roundsLeft_of_active a.lastIndex hpaused (by omega)
  obtain ⟨hpending, ⟨hsame, hpaused'⟩ | hnext⟩ := noteSent_advances hlast h
  · have hnone : pr'.roundsLeft a.lastIndex = 0 := by simp [roundsLeft, hpaused']
    exact ⟨hpending, by omega, by omega, Or.inl hpaused'⟩
  · refine ⟨hpending, ?_, by omega, Or.inr (by omega)⟩
    cases hpaused' : pr'.isPaused with
    | true =>
        have hnone : pr'.roundsLeft a.lastIndex = 0 := by simp [roundsLeft, hpaused']
        omega
    | false =>
        have hleft' := roundsLeft_of_active a.lastIndex hpaused' (by omega)
        omega

end Progress

namespace Raft

/-- The entries queued in append messages for a peer. -/
def queuedFor (peer : ℕ) (messages : List Message) : List Entry :=
  (messages.filter fun m => m.msgType = .msgAppend ∧ m.receiver = peer).flatMap Message.entries

theorem queuedFor_append (peer : ℕ) (messages messages' : List Message) :
    queuedFor peer (messages ++ messages') =
      queuedFor peer messages ++ queuedFor peer messages' := by
  simp [queuedFor]

theorem queuedFor_cons_append {peer : ℕ} {m : Message}
    (h : m.msgType = .msgAppend ∧ m.receiver = peer) (messages : List Message) :
    queuedFor peer (m :: messages) = m.entries ++ queuedFor peer messages := by
  simp [queuedFor, h]

variable {σ : Type} [WritableStorage σ] [Codec] [LawfulStorage σ] {r r' r'' : Raft σ}
  {a : AbstractLog} {peer : ℕ} {pr : Progress}

/-! ## The loop -/

/-- `n` calls of `MaybeSendAppend`, each of which has sent something. -/
inductive Rounds (peer : ℕ) : ℕ → Raft σ → Raft σ → Prop
  | zero (r : Raft σ) : Rounds peer 0 r r
  | succ {r r₁ r' : Raft σ} {n : ℕ} (hsend : r.maybeSendAppend peer false = some (r₁, true))
      (hrest : Rounds peer n r₁ r') : Rounds peer (n + 1) r r'

omit [LawfulStorage σ] in
/-- The loop goes on where the calls that have sent something end. -/
theorem sendAppendLoop_of_rounds {n fuel : ℕ} (h : Rounds peer n r r') (hfuel : n ≤ fuel) :
    sendAppendLoop peer fuel r = sendAppendLoop peer (fuel - n) r' := by
  induction h generalizing fuel with
  | zero r => rfl
  | succ hsend hrest ih =>
      obtain ⟨fuel, rfl⟩ := Nat.exists_eq_add_one_of_ne_zero (Nat.ne_zero_of_lt hfuel)
      rw [sendAppendLoop, hsend, Nat.add_sub_add_right, ← ih (Nat.le_of_succ_le_succ hfuel)]
      rfl

/-- What a call that sends something does. -/
theorem Sent.advances [PagingStorage σ] (hlog : r.raftLog.Represents a)
    (hget : r.tracker.get peer = some pr)
    (hnext : pr.nextIdx ≤ a.lastIndex + 1) (h : Sent r peer pr false r' true) :
    ∃ pr' ents, r'.tracker.get peer = some pr' ∧ r'.raftLog = r.raftLog ∧
      pr'.pendingRequestSnapshot = pr.pendingRequestSnapshot ∧
      pr'.roundsLeft a.lastIndex < pr.roundsLeft a.lastIndex ∧
      pr'.nextIdx ≤ a.lastIndex + 1 ∧
      (queuedFor peer r'.messages).Perm (queuedFor peer r.messages ++ ents) ∧
      NumberedFrom pr.nextIdx ents ∧ (∀ e ∈ ents, e ∈ a.entries) ∧
      (pr'.isPaused = true ∨ pr'.nextIdx = pr.nextIdx + ents.length) := by
  have hpeer : (r.tracker.get peer).isSome = true := by rw [hget]; rfl
  cases h with
  | snapshot snapshot hpaused hsnapshot hne =>
      refine ⟨_, [], get_setProgress hpeer _, rfl, rfl, ?_, hnext, ?_, .nil _, by simp, Or.inl rfl⟩
      · have hdone : (pr.becomeSnapshot snapshot.metadata.index).roundsLeft a.lastIndex = 0 := rfl
        rw [hdone]
        unfold Progress.roundsLeft
        rw [hpaused, if_neg (by simp)]
        split <;> omega
      · simp [queuedFor, stamp]
  | entries ents term pr' hpaused hents hterm hne hnote =>
      obtain ⟨hlow, hhigh, hnumbered, hmem⟩ := hlog.getEntries_page hents (hne rfl)
      obtain ⟨hpending, hless, hle, hmoved⟩ :=
        Progress.noteSent_page hpaused hlow hhigh (hne rfl) hnumbered hnote
      refine ⟨pr', ents, get_setProgress hpeer pr', rfl, hpending, hless, hle, ?_, hnumbered, hmem,
        hmoved⟩
      simp [queuedFor, stamp]
  | batched ents before m after pr' hpaused hbatch hents hne hmessages hkind _ _ hnote =>
      obtain ⟨hlow, hhigh, hnumbered, hmem⟩ := hlog.getEntries_page hents (hne rfl)
      obtain ⟨hpending, hless, hle, hmoved⟩ :=
        Progress.noteSent_page hpaused hlow hhigh (hne rfl) hnumbered hnote
      refine ⟨pr', ents, get_setProgress hpeer pr', rfl, hpending, hless, hle, ?_, hnumbered, hmem,
        hmoved⟩
      have hamended : queuedFor peer
          ({ m with entries := m.entries ++ ents, commit := r.raftLog.committed } :: after) =
            m.entries ++ ents ++ queuedFor peer after :=
        queuedFor_cons_append
          (m := { m with entries := m.entries ++ ents, commit := r.raftLog.committed }) hkind after
      rw [hmessages, queuedFor_append, queuedFor_append, queuedFor_cons_append hkind, hamended]
      simp only [List.append_assoc]
      exact (List.perm_append_comm.append_left _).append_left _

/-- The storage answers what `MaybeSendAppend` asks for: entries, and a snapshot if the peer has
requested one. -/
def Answers (r : Raft σ) (peer request : ℕ) : Prop :=
  AnswersEntries r.raftLog.store ∧
    (request ≠ kInvalidIndex → AnswersSnapshot (r.raftLog.getSnapshot request peer))

/-- The calls up to the first that sends nothing or aborts. -/
theorem exists_rounds [PagingStorage σ] (hlog : r.raftLog.Represents a)
    (hget : r.tracker.get peer = some pr) (hnext : pr.nextIdx ≤ a.lastIndex + 1) :
    ∃ n r' sent, n ≤ pr.roundsLeft a.lastIndex ∧ Rounds peer n r r' ∧
      (queuedFor peer r'.messages).Perm (queuedFor peer r.messages ++ sent) ∧
      NumberedFrom pr.nextIdx sent ∧ (∀ e ∈ sent, e ∈ a.entries) ∧
      (pr.isPaused = true → sent = []) ∧
      (r'.maybeSendAppend peer false = some (r', false) ∨
        r'.maybeSendAppend peer false = none ∧ ¬r.Answers peer pr.pendingRequestSnapshot) := by
  -- strong induction on the number of calls that can still send
  induction hrounds : pr.roundsLeft a.lastIndex using Nat.strong_induction_on
    generalizing r pr with
  | _ rounds ih =>
      cases hcall : r.maybeSendAppend peer false with
      | none =>
          refine ⟨0, r, [], Nat.zero_le _, .zero r, by simp, .nil _, by simp, fun _ => rfl,
            Or.inr ⟨hcall, fun hanswers => ?_⟩⟩
          obtain ⟨result, hsome⟩ : ∃ result, r.maybeSendAppend peer false = some result :=
            maybeSendAppend_returns hlog hanswers.1 hget fun hneed =>
              hanswers.2 (hneed.resolve_right fun hnone => by cases hnone.1)
          rw [hcall] at hsome
          cases hsome
      | some result =>
          obtain ⟨r₁, sent⟩ := result
          obtain ⟨pr₁, hget₁, hsent⟩ := maybeSendAppend_sent hcall
          obtain rfl := some.inj (hget.symm.trans hget₁)
          cases sent with
          | false =>
              cases hsent
              exact ⟨0, r, [], Nat.zero_le _, .zero r, by simp, .nil _, by simp, fun _ => rfl,
                Or.inl hcall⟩
          | true =>
              obtain ⟨pr', ents, hget', hsame, hpending, hless, hnext', hperm, hnumbered, hmem,
                hmoved⟩ := hsent.advances hlog hget hnext
              obtain ⟨n, r', rest, hn, hrest, hperm', hnumbered', hmem', hpaused, hend⟩ :=
                ih _ (hrounds ▸ hless) (hsame ▸ hlog) hget' hnext' rfl
              refine ⟨n + 1, r', ents ++ rest, by omega, .succ hcall hrest, ?_, ?_, ?_, ?_, ?_⟩
              · rw [← List.append_assoc]
                exact hperm'.trans (hperm.append_right rest)
              · refine hnumbered.append ?_
                rcases hmoved with hstop | hmoved
                · rw [hpaused hstop]
                  exact .nil _
                · exact hmoved ▸ hnumbered'
              · intro e he
                exact (List.mem_append.mp he).elim (hmem e) (hmem' e)
              · intro hstopped
                simp [Progress.roundsLeft, hstopped] at hless
              · unfold Answers at hend ⊢
                rwa [hsame, hpending] at hend

/-- Aggressive sending ends: at most as many calls send something as the log has indexes from
zero on, and the call after them sends nothing; it can only abort on a storage that does not
answer.  In between the next entries of the log were queued for the peer, in new messages or in
one that was queued before, and no index twice. -/
theorem sendAppendAggressively_ends [PagingStorage σ] (hlog : r.raftLog.Represents a)
    (hget : r.tracker.get peer = some pr) (hnext : pr.nextIdx ≤ a.lastIndex + 1) :
    ∃ n r' sent, n ≤ a.lastIndex + 1 ∧ Rounds peer n r r' ∧
      (r'.maybeSendAppend peer false = some (r', false) ∧
          r.sendAppendAggressively peer = some r' ∨
        r'.maybeSendAppend peer false = none ∧ r.sendAppendAggressively peer = none ∧
          ¬r.Answers peer pr.pendingRequestSnapshot) ∧
      (queuedFor peer r'.messages).Perm (queuedFor peer r.messages ++ sent) ∧
      NumberedFrom pr.nextIdx sent ∧ (∀ e ∈ sent, e ∈ a.entries) ∧
      (sent.map Entry.index).Nodup := by
  obtain ⟨n, r', sent, hn, hrounds, hperm, hnumbered, hmem, -, hend⟩ :=
    exists_rounds hlog hget hnext
  have hle : n ≤ a.lastIndex + 1 := hn.trans (Progress.roundsLeft_le _ _)
  -- the model of the loop has fuel for one call more
  have hloop : r.sendAppendAggressively peer =
      (r'.maybeSendAppend peer false).bind fun result =>
        if result.2 then sendAppendLoop peer (a.lastIndex + 1 - n) result.1
        else some result.1 := by
    unfold sendAppendAggressively
    rw [hlog.lastIndex, bind_eq_bind, bind_some, sendAppendLoop_of_rounds hrounds (by omega),
      show a.lastIndex + 2 - n = a.lastIndex + 1 - n + 1 by omega]
    rfl
  refine ⟨n, r', sent, hle, hrounds, ?_, hperm, hnumbered, hmem, hnumbered.nodup_index⟩
  rcases hend with hstop | ⟨habort, hanswers⟩
  · exact Or.inl ⟨hstop, by rw [hloop, hstop]; rfl⟩
  · exact Or.inr ⟨habort, by rw [hloop, habort]; rfl, hanswers⟩

/-- A leader that batches, with room for one entry a message and a peer that replicates. -/
def batchingLeader : Raft MemoryStorage :=
  { probingLeader with
    batchAppend := true
    tracker :=
      { progress := [(2, { nextIdx := 3, state := .replicate, inflights := .new 8 })]
        maxInflight := 8 } }

omit [Codec] in
theorem sendAppendAggressively_ends_batched :
    letI := Codec.plain
    ∃ n r' sent, n ≤ 6 ∧ Rounds 2 n batchingLeader r' ∧
      batchingLeader.sendAppendAggressively 2 = some r' ∧
      (queuedFor 2 r'.messages).Perm sent ∧ NumberedFrom 3 sent := by
  let _ := Codec.plain
  have heval : (batchingLeader.sendAppendAggressively 2).isSome = true := by decide +kernel
  have hget : batchingLeader.tracker.get 2 =
      some { nextIdx := 3, state := .replicate, inflights := .new 8 } := rfl
  obtain ⟨n, r', sent, hn, hrounds, hend, hperm, hnumbered, -, -⟩ :=
    sendAppendAggressively_ends (r := batchingLeader) probingLeader_represents hget (by decide)
  refine ⟨n, r', sent, hn, hrounds, ?_, hperm, hnumbered⟩
  rcases hend with ⟨-, hsome⟩ | ⟨-, hnone, -⟩
  · exact hsome
  · rw [hnone] at heval
    cases heval

end Raft

end Raftpp
