import Raftpp.Log.Split
import Raftpp.Protocol.LogFrame
import Raftpp.Protocol.Sends

/-!
# What a leader sends does not abort

`MaybeSendAppend` reads the log and the storage for a peer and notes what is in
flight; each of these may abort.  Over a log that represents an abstract one, on a
storage that answers, none of them does, and neither do the broadcast and the
commit that a leader runs when it hears that its own entries are persisted.
-/

namespace Raftpp

open Option

/-- A fold whose steps return as long as they keep an invariant returns. -/
theorem foldlM_isSome {α β : Type*} {f : β → α → Option β} {I : β → Prop} {l : List α} {b : β}
    (hf : ∀ a ∈ l, ∀ b, I b → ∃ b', f b a = some b' ∧ I b') (hb : I b) :
    ∃ b', l.foldlM f b = some b' ∧ I b' := by
  induction l generalizing b with
  | nil => exact ⟨b, rfl, hb⟩
  | cons a l ih =>
      obtain ⟨b₁, hfirst, hb₁⟩ := hf a List.mem_cons_self b hb
      obtain ⟨b₂, hrest, hb₂⟩ := ih (fun a' ha' => hf a' (List.mem_cons_of_mem a ha')) hb₁
      exact ⟨b₂, by simp only [List.foldlM_cons, hfirst, bind_eq_bind, bind_some, hrest], hb₂⟩

namespace RaftLog.Represents

variable {σ : Type} [WritableStorage σ] [Codec] [LawfulStorage σ] {l : RaftLog σ}
  {a : AbstractLog}

/-- Inside the log `Slice` returns entries, or asks to try again later. -/
theorem slice_answers [PagingStorage σ] (h : Represents l a) (hanswers : AnswersEntries l.store)
    {low high : ℕ} (maxSize : Option ℕ) (ctx : GetEntriesContext) (hlow : a.index < low)
    (hlt : low < high) (hhigh : high ≤ a.lastIndex + 1) :
    l.slice low high maxSize ctx = some (.ok (limitSize (a.between low high) maxSize)) ∨
      l.slice low high maxSize ctx = some (.error (.storage .logTemporarilyUnavailable)) := by
  by_cases hbelow : low < l.unstable.offset
  · obtain ⟨hindex, hne, hlast⟩ := h.stored_range hlow hbelow hlt
    rcases hanswers low _ maxSize ctx h.stored_contiguous hindex hne hlast with ⟨es, hes⟩ | hlater
    · refine Or.inl (h.slice_of_stored hlow hlt.le hhigh fun _ _ => ?_)
      rw [hes, h.stored_entries hlow hbelow hlt hes]
    · right
      simp only [RaftLog.slice, bind_eq_bind, h.mustCheckOutOfBounds, bind_some]
      rw [if_neg (by omega), if_neg (by unfold AbstractLog.firstIndex; omega), if_neg (by omega)]
      simp only [hlt.ne, if_false, hbelow, if_true, hlater, bind_some]
  · exact Or.inl (h.slice_of_stored hlow hlt.le hhigh fun hin => absurd hin hbelow)

/-- A read from an index on is answered; it fails for good only below the first index. -/
theorem getEntries_returns [PagingStorage σ] (h : Represents l a)
    (hanswers : AnswersEntries l.store) (idx : ℕ) (maxSize : Option ℕ) (ctx : GetEntriesContext) :
    ∃ ents, l.getEntries idx maxSize ctx = some ents ∧
      ∀ e, ents = .error e → e = .storage .logTemporarilyUnavailable ∨ idx ≤ a.index := by
  simp only [RaftLog.getEntries, h.lastIndex, bind_eq_bind, bind_some]
  split
  · exact ⟨_, rfl, fun e he => by cases he⟩
  next hle =>
    by_cases hlow : idx ≤ a.index
    · refine ⟨.error (.storage .compacted), ?_, fun _ _ => Or.inr hlow⟩
      simp [RaftLog.slice, h.mustCheckOutOfBounds, AbstractLog.firstIndex, Nat.lt_succ_of_le hlow,
        show ¬a.lastIndex + 1 < idx by omega]
    · rcases h.slice_answers hanswers maxSize ctx (show a.index < idx by omega)
        (show idx < a.lastIndex + 1 by omega) le_rfl with hok | hlater
      · exact ⟨_, hok, fun e he => by cases he⟩
      · exact ⟨_, hlater, fun e he => Or.inl (Except.error.inj he).symm⟩

theorem maybeCommit_isSome (h : Represents l a) (i term : ℕ) :
    (l.maybeCommit i term).isSome = true := by
  simp only [RaftLog.maybeCommit, h.term, bind_eq_bind, bind_some, commitTo, h.lastIndex]
  split
  · split
    · split
      · rfl
      · split <;> rfl
    · rfl
  · rfl

end RaftLog.Represents

/-- The answer to a request for a snapshot: one that is not empty, or to try again later. -/
def AnswersSnapshot : Option (Result Snapshot) → Prop
  | some (.ok snap) => snap.metadata.index ≠ 0
  | some (.error e) => e = .storage .snapshotTemporarilyUnavailable
  | none => False

instance (answer : Option (Result Snapshot)) : Decidable (AnswersSnapshot answer) := by
  unfold AnswersSnapshot
  split <;> infer_instance

theorem RaftLog.answersSnapshot {σ : Type} [Storage σ] {l : RaftLog σ} {request peer : ℕ}
    (h : AnswersSnapshot (Storage.getSnapshot l.store request peer))
    (hpending : ∀ snapshot, l.unstable.snapshot = some snapshot → snapshot.metadata.index ≠ 0) :
    AnswersSnapshot (l.getSnapshot request peer) := by
  unfold getSnapshot
  split
  next snapshot hsnapshot =>
    split
    · exact hpending snapshot hsnapshot
    · exact h
  · exact h

namespace Progress

/-- A peer that is not paused has room for one more message. -/
theorem updateState_isSome {pr : Progress} (h : pr.isPaused = false) (last : ℕ) :
    (pr.updateState last).isSome = true := by
  unfold isPaused at h
  unfold updateState
  split at h
  next => rfl
  next =>
    obtain ⟨inflights, hadd⟩ := isSome_iff_exists.mp
      (Inflights.add_isSome (f := pr.inflights) (by simp [h]) last)
    simp [optimisticUpdate, hadd]
  · cases h

end Progress

namespace Raft

section Frame

variable {σ : Type} {r r' : Raft σ} {peer : ℕ} {pr pr' : Progress}

theorem send_returns {m : Message} (hvote : m.msgType.isVote = false) (hterm : m.term = 0) :
    ∃ r', r.send m = some r' := by
  unfold send
  rw [if_neg (by simp [hvote, hterm])]
  exact ⟨_, rfl⟩

theorem tryBatching_isSome {entries : List Entry} (h : pr.isPaused = false) :
    ∀ messages : List Message, (r.tryBatching peer entries pr messages).isSome = true := by
  intro messages
  induction messages with
  | nil => rfl
  | cons m rest ih =>
      unfold tryBatching
      split
      · split
        · rfl
        · split
          · obtain ⟨pr', hpr'⟩ := isSome_iff_exists.mp (Progress.updateState_isSome h
              (((m.entries ++ entries).getLast?.map Entry.index).getD 0))
            simp only [hpr', bind_eq_bind, bind_some, isSome_some]
          · rfl
      · obtain ⟨result, hresult⟩ := isSome_iff_exists.mp ih
        simp only [hresult, bind_eq_bind, bind_some, isSome_some]

theorem maybeSendEntries_returns {term : ℕ} {ents : List Entry} (h : pr.isPaused = false) :
    ∃ result, r.maybeSendEntries peer pr term ents = some result := by
  have hbatch : (r.batchEntries peer pr ents).isSome = true := by
    unfold batchEntries
    split
    · exact tryBatching_isSome h _
    · rfl
  obtain ⟨⟨batched, messages, batchedPr⟩, hbatch⟩ := isSome_iff_exists.mp hbatch
  obtain ⟨m, pr', hprepare, hvote, hterm⟩ : ∃ m pr',
      r.prepareSendEntries peer pr term ents = some (m, pr') ∧ m.msgType.isVote = false ∧
        m.term = 0 := by
    unfold prepareSendEntries
    cases ents.getLast? with
    | none => exact ⟨_, _, rfl, rfl, rfl⟩
    | some last =>
        obtain ⟨pr', hpr'⟩ := isSome_iff_exists.mp (Progress.updateState_isSome h last.index)
        simp only [hpr']
        exact ⟨_, _, rfl, rfl, rfl⟩
  obtain ⟨r', hsend⟩ := send_returns (r := r.setProgress peer pr') hvote hterm
  simp only [maybeSendEntries, hbatch, bind_eq_bind, bind_some, hprepare, hsend]
  split <;> exact ⟨_, rfl⟩

theorem maybeSendSnapshot_returns [Storage σ]
    (hget : AnswersSnapshot (r.raftLog.getSnapshot pr.pendingRequestSnapshot peer)) :
    ∃ result, r.maybeSendSnapshot peer pr = some result := by
  simp only [maybeSendSnapshot, prepareSendSnapshot, bind_eq_bind]
  split
  · exact ⟨_, rfl⟩
  generalize r.raftLog.getSnapshot pr.pendingRequestSnapshot peer = answer at hget ⊢
  rcases answer with _ | e | snap
  · exact hget.elim
  · obtain rfl := hget
    exact ⟨_, rfl⟩
  · obtain ⟨r', hsend⟩ := send_returns
      (r := r.setProgress peer (pr.becomeSnapshot snap.metadata.index))
      (m := { msgType := .msgSnapshot, receiver := peer, snapshot := snap }) rfl rfl
    simp only [bind_some, show snap.metadata.index ≠ 0 from hget, if_false, hsend]
    exact ⟨_, rfl⟩

/-- The storage has a snapshot, or asks to try again later, for a peer that asked for one; once
the log is compacted, for every peer. -/
def ServesSnapshots [Storage σ] (r : Raft σ) : Prop :=
  ∀ b ∈ r.tracker.progress, b.2.pendingRequestSnapshot ≠ kInvalidIndex ∨ b.2.nextIdx = 0 ∨
    r.raftLog.firstIndex ≠ some 1 →
      AnswersSnapshot (Storage.getSnapshot r.raftLog.store b.2.pendingRequestSnapshot b.1)

/-- A leader may commit: it is in its own configuration and has the snapshots to send. -/
def CanCommit [Storage σ] (r : Raft σ) : Prop :=
  r.state = .leader → (r.tracker.get r.id).isSome = true ∧ r.ServesSnapshots

instance [Storage σ] (r : Raft σ) : Decidable r.ServesSnapshots :=
  inferInstanceAs (Decidable (∀ b ∈ _, _))

instance [Storage σ] (r : Raft σ) : Decidable r.CanCommit :=
  inferInstanceAs (Decidable (_ → _))

theorem ServesSnapshots.modify [Storage σ] {f : Progress → Progress} (h : r.ServesSnapshots)
    (hf : ∀ b ∈ r.tracker.progress, b.1 = peer → ∃ pr, (b.1, pr) ∈ r.tracker.progress ∧
      (f b.2).pendingRequestSnapshot = pr.pendingRequestSnapshot ∧
      ((f b.2).nextIdx = 0 → pr.nextIdx = 0)) :
    ({ r with tracker := r.tracker.modify peer f } : Raft σ).ServesSnapshots := by
  intro b hb hneeds
  obtain ⟨c, hc, rfl⟩ := List.mem_map.mp hb
  split at hneeds
  next hpeer =>
    obtain ⟨pr, hpr, hrequest, hnext⟩ := hf c hc hpeer
    rw [if_pos hpeer]
    simp only [hrequest] at hneeds ⊢
    exact h _ hpr (hneeds.imp_right (Or.imp_left hnext))
  next hother =>
    rw [if_neg hother]
    exact h c hc hneeds

theorem ServesSnapshots.setProgress [Storage σ] (h : r.ServesSnapshots)
    (hget : r.tracker.get peer = some pr)
    (hrequest : pr'.pendingRequestSnapshot = pr.pendingRequestSnapshot)
    (hnext : pr'.nextIdx = 0 → pr.nextIdx = 0) : (r.setProgress peer pr').ServesSnapshots :=
  h.modify fun _ _ hpeer => ⟨pr, hpeer ▸ ListMap.get_mem hget, hrequest, hnext⟩

theorem ServesSnapshots.setLog [Storage σ] {l : RaftLog σ} (h : r.ServesSnapshots)
    (hstore : l.store = r.raftLog.store) (hfirst : l.firstIndex = r.raftLog.firstIndex) :
    ({ r with raftLog := l } : Raft σ).ServesSnapshots := by
  intro b hb hneeds
  simp only [hfirst, hstore] at hneeds ⊢
  exact h b hb hneeds

theorem CanCommit.setLog [Storage σ] {l : RaftLog σ} (h : r.CanCommit)
    (hstore : l.store = r.raftLog.store) (hfirst : l.firstIndex = r.raftLog.firstIndex) :
    ({ r with raftLog := l } : Raft σ).CanCommit :=
  fun hleader => ⟨(h hleader).1, (h hleader).2.setLog hstore hfirst⟩

/-- What a message to a peer leaves alone. -/
theorem Sent.frames [Storage σ] [Codec] {allowEmpty sent : Bool}
    (h : Sent r peer pr allowEmpty r' sent) (hget : r.tracker.get peer = some pr)
    (hserves : r.ServesSnapshots) :
    r'.raftLog = r.raftLog ∧ (∀ v, (r'.tracker.get v).isSome = (r.tracker.get v).isSome) ∧
      r'.ServesSnapshots := by
  have hnoted : ∀ {ents pr'}, pr.noteSent ents = some pr' →
      (r.setProgress peer pr').ServesSnapshots := by
    intro ents pr' hnote
    unfold Progress.noteSent Progress.updateState at hnote
    split at hnote
    · cases hnote
      exact hserves.setProgress hget rfl fun hzero => hzero
    split at hnote
    · cases hnote
      exact hserves.setProgress hget rfl fun hzero => hzero
    · obtain ⟨inflights, -, hnote⟩ := of_bind hnote
      cases hnote
      exact hserves.setProgress hget rfl fun hzero => by cases hzero
    · cases hnote
  cases h with
  | nothing => exact ⟨rfl, fun _ => rfl, hserves⟩
  | snapshot snapshot hpaused hsnap hne =>
      exact ⟨rfl, fun v => isSome_get_setProgress r peer v _,
        hserves.setProgress hget rfl fun hzero => hzero⟩
  | entries ents term pr' hpaused hents hterm hne hnote =>
      exact ⟨rfl, fun v => isSome_get_setProgress r peer v _, hnoted hnote⟩
  | batched ents before m after pr' hpaused hbatch hents hne hmessages hkind hfirst hcont hnote =>
      exact ⟨rfl, fun v => isSome_get_setProgress r peer v _, hnoted hnote⟩

end Frame

variable {σ : Type} [WritableStorage σ] [Codec] [LawfulStorage σ] {r r' : Raft σ}
  {a : AbstractLog}

/-- An append is sent if the storage answers, and also has a snapshot when the peer has asked
for one, or may be sent an empty message and the entries for it are compacted. -/
theorem maybeSendAppend_returns [PagingStorage σ] {peer : ℕ} {allowEmpty : Bool} {pr : Progress}
    (hlog : r.raftLog.Represents a) (hanswers : AnswersEntries r.raftLog.store)
    (hpr : r.tracker.get peer = some pr)
    (hget : pr.pendingRequestSnapshot ≠ kInvalidIndex ∨ allowEmpty = true ∧ pr.nextIdx ≤ a.index →
      AnswersSnapshot (r.raftLog.getSnapshot pr.pendingRequestSnapshot peer)) :
    ∃ result, r.maybeSendAppend peer allowEmpty = some result := by
  obtain ⟨ents, hents, hrefused⟩ := hlog.getEntries_returns hanswers pr.nextIdx
    (some r.maxMessageSize) (.sendAppend peer r.term (!allowEmpty))
  simp only [maybeSendAppend, hpr, hents, hlog.term, bind_eq_bind, bind_some]
  split
  · exact ⟨_, rfl⟩
  next hpaused =>
    split
    next hrequest => exact maybeSendSnapshot_returns (hget (Or.inl hrequest))
    cases ents with
    | error e =>
        simp only
        split
        · exact ⟨_, rfl⟩
        next hallow =>
          split
          · exact ⟨_, rfl⟩
          next hlater =>
            exact maybeSendSnapshot_returns
              (hget (Or.inr ⟨by simpa using hallow, (hrefused e rfl).resolve_left hlater⟩))
    | ok ents =>
        simp only
        split
        · exact ⟨_, rfl⟩
        · exact maybeSendEntries_returns (by simpa using hpaused)

theorem broadcastAppend_returns [AnsweringStorage σ] (hlog : r.raftLog.Represents a)
    (hpending : ∀ snapshot, r.raftLog.unstable.snapshot = some snapshot →
      snapshot.metadata.index ≠ 0) (hserves : r.ServesSnapshots) :
    ∃ r', r.broadcastAppend = some r' := by
  unfold broadcastAppend
  refine (foldlM_isSome (I := fun r₁ => r₁.raftLog = r.raftLog ∧
    (∀ v, (r₁.tracker.get v).isSome = (r.tracker.get v).isSome) ∧ r₁.ServesSnapshots)
    (fun id hid r₁ hr₁ => ?_) ⟨rfl, fun _ => rfl, hserves⟩).imp fun _ => And.left
  obtain ⟨hsame, htracked, hserves₁⟩ := hr₁
  split
  · exact ⟨r₁, rfl, hsame, htracked, hserves₁⟩
  · obtain ⟨pr, hpr⟩ := isSome_iff_exists.mp
      ((htracked id).trans (ListMap.isSome_get_of_mem_keys hid))
    have hlog₁ : r₁.raftLog.Represents a := hsame ▸ hlog
    obtain ⟨⟨r₂, sent⟩, hsend⟩ : ∃ result, r₁.maybeSendAppend id true = some result :=
      maybeSendAppend_returns hlog₁ (AnsweringStorage.entries_answer _) hpr fun hneeds =>
        RaftLog.answersSnapshot (hserves₁ _ (ListMap.get_mem hpr) (hneeds.imp_right fun hnext => by
          have hle := hnext.2
          rw [hlog₁.firstIndex, AbstractLog.firstIndex, ne_eq, some.injEq]
          dsimp only
          omega)) (hsame ▸ hpending)
    obtain ⟨pr', hpr', hsent⟩ := maybeSendAppend_sent hsend
    obtain ⟨hsame₂, htracked₂, hserves₂⟩ := hsent.frames hpr' hserves₁
    exact ⟨r₂, by simp [sendAppend, hsend], hsame₂.trans hsame,
      fun v => (htracked₂ v).trans (htracked v), hserves₂⟩

/-- A leader that is in its own configuration commits without aborting. -/
theorem maybeCommit_returns (hlog : r.raftLog.Represents a)
    (hself : (r.tracker.get r.id).isSome = true) (hserves : r.ServesSnapshots) :
    ∃ r' committed, r.maybeCommit = some (r', committed) ∧ r'.raftLog.Represents a ∧
      r'.raftLog.unstable = r.raftLog.unstable ∧ r'.ServesSnapshots := by
  obtain ⟨⟨log, committed⟩, hcommit⟩ := isSome_iff_exists.mp
    (hlog.maybeCommit_isSome r.tracker.maxCommittedIndex.1 r.term)
  obtain ⟨pr, hpr⟩ := isSome_iff_exists.mp hself
  have hsame : log.store = r.raftLog.store ∧ log.unstable = r.raftLog.unstable := by
    rcases RaftLog.maybeCommit_eq hcommit with rfl | ⟨-, -, -, rfl⟩ <;> exact ⟨rfl, rfl⟩
  have hlog' := hlog.congr hsame.1 hsame.2
  simp only [maybeCommit, hcommit, hpr, bind_eq_bind, bind_some]
  split
  · refine ⟨_, _, rfl, hlog', hsame.2, ?_⟩
    refine (hserves.setLog hsame.1 (hlog'.firstIndex.trans hlog.firstIndex.symm)).modify
      fun b hb _ => ⟨b.2, hb, ?_⟩
    unfold Progress.updateCommitted
    split <;> exact ⟨rfl, fun hzero => hzero⟩
  · exact ⟨_, _, rfl, hlog, rfl, hserves⟩

/-- So it does when it hears that entries of its own are persisted. -/
theorem onPersistEntries_isSome [AnsweringStorage σ] (hlog : r.raftLog.Represents a)
    (hcan : r.CanCommit) (index term : ℕ) : (r.onPersistEntries index term).isSome = true := by
  simp only [onPersistEntries, bind_eq_bind]
  split
  next hupdate =>
    obtain ⟨hpersist, hleader⟩ := hupdate
    obtain ⟨hself, hserves⟩ := hcan hleader
    obtain ⟨pr, hpr⟩ := isSome_iff_exists.mp hself
    simp only [hpr, bind_some]
    split
    · obtain ⟨hbelow, hsame⟩ : index < r.raftLog.firstUpdateIndex ∧
          (r.raftLog.maybePersist index term).1 =
            { r.raftLog with persisted := index } := by
        rcases r.raftLog.maybePersist_eq index term with h | ⟨-, hlt, -, h⟩
        · rw [h] at hpersist
          cases hpersist
        · exact ⟨hlt, congrArg Prod.fst h⟩
      -- what is persisted lies below a pending snapshot
      have hpending : ∀ snapshot, r.raftLog.unstable.snapshot = some snapshot →
          snapshot.metadata.index ≠ 0 := by
        intro snapshot hsnapshot
        simp only [RaftLog.firstUpdateIndex, hsnapshot] at hbelow
        omega
      rw [hsame]
      obtain ⟨r₂, committed, hcommit, hlog₂, hunstable, hserves₂⟩ := maybeCommit_returns
        (r := { r with raftLog := { r.raftLog with persisted := index } }.setProgress r.id
          (pr.maybeUpdate index).1) (hlog.congr rfl rfl)
        ((isSome_get_setProgress _ r.id r.id _).trans hself) (by
          refine (hserves.setLog rfl rfl).setProgress hpr ?_ ?_ <;>
            simp only [Progress.maybeUpdate] <;> split <;> split <;> simp)
      simp only [hcommit, bind_some]
      split
      · obtain ⟨r₃, hbroadcast⟩ := broadcastAppend_returns hlog₂
          (fun snapshot hsnapshot => hpending snapshot (hunstable ▸ hsnapshot)) hserves₂
        rw [hbroadcast]
        rfl
      · rfl
    · rfl
  · rfl

end Raft

end Raftpp
