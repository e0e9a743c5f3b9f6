import Mathlib.Order.Bounds.Basic
import Mathlib.Tactic.IntervalCases
import Raftpp.Protocol.Answers

/-!
# Backing off after a rejected append

A follower that rejects an append looks for the last of its entries whose term is not
above the term it was asked for, and the leader then looks in its own log for the last
entry whose term is not above the one the follower reported.  Terms do not decrease
along a log, so neither search passes the last index on which the two logs agree: the
term there is below both bounds.  What a leader has compacted has term zero for it, and
stops its search as well.

The logs are compared as they were before any compaction: `es` and `fs` are all the
entries that a leader and a follower ever held up to now, and `compactedAt` is what is
left of them.
-/

namespace Raftpp

open Option AbstractLog

variable {m resp : Message} {pr : Progress}

/-! ## Two logs -/

/-- The term at an index of a log that was never compacted. -/
def termAt (es : List Entry) (i : ℕ) : ℕ := termOf ⟨0, 0, es⟩ i

/-- What is left of a log that was compacted up to `d`. -/
def compactedAt (es : List Entry) (d : ℕ) : AbstractLog := ⟨d, termAt es d, es.drop d⟩

/-- Two logs have an entry of the same term at `i`. -/
def AgreeAt (es fs : List Entry) (i : ℕ) : Prop :=
  i ≤ es.length ∧ i ≤ fs.length ∧ termAt es i = termAt fs i

/-- Logs that agree at an index are the same up to there. -/
def Matching (es fs : List Entry) : Prop := ∀ i, AgreeAt es fs i → es.take i = fs.take i

/-- Terms do not decrease along a log. -/
def TermsSorted (es : List Entry) : Prop := es.Pairwise fun e f => e.term ≤ f.term

section Terms

variable {es fs : List Entry} {d i j : ℕ}

theorem termAt_succ (es : List Entry) (i : ℕ) :
    termAt es (i + 1) = (es[i]?.map Entry.term).getD 0 := by
  rw [termAt, termOf_of_gt (Nat.succ_pos i)]
  rfl

theorem termOf_compactedAt (h : d ≤ i) : (compactedAt es d).termOf i = termAt es i := by
  rcases Nat.eq_or_lt_of_le h with rfl | hlt
  · exact termOf_index _
  · rw [termOf_of_gt (show (compactedAt es d).index < i from hlt)]
    obtain ⟨i, rfl⟩ := Nat.exists_eq_add_of_lt hlt
    simp only [termAt_succ, compactedAt, List.getElem?_drop,
      show d + (d + i + 1 - (d + 1)) = d + i by omega]

/-- A compacted log has the term zero for what it has lost. -/
theorem termOf_compactedAt_le (es : List Entry) (d i : ℕ) :
    (compactedAt es d).termOf i ≤ termAt es i := by
  by_cases h : d ≤ i
  · rw [termOf_compactedAt h]
  · rw [termOf_of_lt (show i < d by omega)]
    exact Nat.zero_le _

theorem lastIndex_compactedAt (h : d ≤ es.length) : (compactedAt es d).lastIndex = es.length := by
  simp only [lastIndex, compactedAt, List.length_drop]
  omega

theorem TermsSorted.termAt_le (h : TermsSorted es) (hij : i ≤ j) (hj : j ≤ es.length) :
    termAt es i ≤ termAt es j := by
  cases i with
  | zero => exact Nat.zero_le _
  | succ i =>
      obtain ⟨j, rfl⟩ : ∃ k, j = k + 1 := ⟨j - 1, by omega⟩
      rw [termAt_succ, termAt_succ, List.getElem?_eq_getElem (by omega),
        List.getElem?_eq_getElem (by omega)]
      rcases Nat.eq_or_lt_of_le (show i ≤ j by omega) with rfl | hlt
      · exact le_rfl
      · exact List.pairwise_iff_getElem.mp h i j (by omega) (by omega) hlt

theorem Matching.agreeAt (h : Matching es fs) (hj : AgreeAt es fs j) (hij : i ≤ j) :
    AgreeAt es fs i := by
  refine ⟨hij.trans hj.1, hij.trans hj.2.1, ?_⟩
  cases i with
  | zero => rfl
  | succ i =>
      have hsame := congrArg (·[i]?) (h j hj)
      simp only [List.getElem?_take, if_pos (show i < j by omega)] at hsame
      rw [termAt_succ, termAt_succ, hsame]

/-- The follower rejects only above the last index on which the logs agree. -/
theorem lt_of_rejected {m p committed : ℕ} (hmatching : Matching es fs)
    (hm : IsGreatest {i | AgreeAt es fs i} m) (hd : d ≤ committed)
    (hcommitted : committed ≤ p)
    (hterm : (compactedAt fs d).termOf p ≠ termAt es p) : m < p := by
  by_contra hge
  have hagree := hmatching.agreeAt hm.1 (not_lt.mp hge)
  exact hterm ((termOf_compactedAt (hd.trans hcommitted)).trans hagree.2.2.symm)

end Terms

/-! ## The search for a term -/

namespace RaftLog.Represents

variable {σ : Type} [WritableStorage σ] [Codec] [LawfulStorage σ] {l : RaftLog σ}
  {a : AbstractLog}

theorem findConflictByTermLoop (h : Represents l a) {k t : ℕ} (hterm : a.termOf k ≤ t) :
    ∀ index, k ≤ index →
      ∃ i, l.findConflictByTermLoop t index = some (i, some (a.termOf i)) ∧ k ≤ i ∧ i ≤ index := by
  intro index
  induction index with
  | zero =>
      intro hk
      obtain rfl : k = 0 := by omega
      simp only [RaftLog.findConflictByTermLoop, h.term, bind_eq_bind, bind_some,
        if_neg (not_lt.mpr hterm)]
      exact ⟨0, rfl, le_rfl, le_rfl⟩
  | succ index ih =>
      intro hk
      simp only [RaftLog.findConflictByTermLoop, h.term, bind_eq_bind, bind_some]
      split
      next hgt =>
        have hne : k ≠ index + 1 := by
          rintro rfl
          omega
        obtain ⟨i, hi, hki, hle⟩ := ih (by omega)
        exact ⟨i, hi, hki, by omega⟩
      · exact ⟨index + 1, rfl, hk, le_rfl⟩

/-- `FindConflictByTerm` does not pass an index whose term is not above the one asked for. -/
theorem findConflictByTerm (h : Represents l a) {k t index : ℕ} (hterm : a.termOf k ≤ t)
    (hk : k ≤ index) (hlast : index ≤ a.lastIndex) :
    ∃ i, l.findConflictByTerm index t = some (i, some (a.termOf i)) ∧ k ≤ i ∧ i ≤ index := by
  simp only [RaftLog.findConflictByTerm, h.lastIndex, bind_eq_bind, bind_some]
  rw [if_neg (by omega)]
  exact h.findConflictByTermLoop hterm index hk

/-- A log that is offered entries after a term it does not have stays as it is. -/
theorem maybeAppend_refused (h : Represents l a) {l' : RaftLog σ} {idx term committed : ℕ}
    {es : List Entry} {result : MaybeAppendResult}
    (hrun : l.maybeAppend idx term committed es = some (l', .ok result))
    (hmatched : result.termMatched = false) : a.termOf idx ≠ term ∧ l' = l := by
  simp only [RaftLog.maybeAppend, bind_eq_bind, h.matchTerm, bind_some, decide_eq_true_eq] at hrun
  split at hrun
  · obtain ⟨c, -, hrun⟩ := of_bind hrun
    split at hrun
    · obtain ⟨_, -, hrun⟩ := of_bind hrun
      cases hrun
      cases hmatched
    · split at hrun
      · cases hrun
      · obtain ⟨_, -, hrun⟩ := of_bind hrun
        obtain ⟨_, -, hrun⟩ := of_bind hrun
        obtain ⟨_, -, hrun⟩ := of_bind hrun
        cases hrun
        cases hmatched
  next hterm =>
    cases hrun
    exact ⟨hterm, rfl⟩

end RaftLog.Represents

namespace Raft

variable {σ : Type} [WritableStorage σ] [Codec] [LawfulStorage σ] {r r' : Raft σ}

/-! ## The follower's hint -/

omit [WritableStorage σ] [Codec] [LawfulStorage σ] in
/-- The message that a `Send` has added to the queue. -/
theorem sent_eq (hsend : r.send m = some r') (hmessages : r'.messages = r.messages ++ [resp]) :
    resp = r.stamp m := by
  obtain ⟨rfl, -⟩ := send_eq hsend
  exact (List.cons.inj (List.append_cancel_left hmessages)).1.symm

/-- A rejection, which is not a request for a snapshot, carries the result of the search. -/
theorem handleAppendEntries_reject {a : AbstractLog} (hlog : r.raftLog.Represents a)
    (hrun : r.handleAppendEntries m = some r') (hmessages : r'.messages = r.messages ++ [resp])
    (hreject : resp.reject = true) (hrequest : resp.requestSnapshot = kInvalidIndex) :
    r.raftLog.committed ≤ m.index ∧ a.termOf m.index ≠ m.logTerm ∧
      resp.sender = r.id ∧ resp.index = m.index ∧
      r.raftLog.findConflictByTerm (min m.index a.lastIndex) m.logTerm =
        some (resp.rejectHint, some resp.logTerm) := by
  simp only [handleAppendEntries, bind_eq_bind] at hrun
  split at hrun
  next hpending =>
    -- a request for a snapshot names the index it wants
    unfold sendRequestSnapshot at hrun
    obtain ⟨last, -, hrun⟩ := of_bind hrun
    obtain ⟨logTerm, -, hrun⟩ := of_bind hrun
    obtain rfl := sent_eq hrun hmessages
    exact absurd hrequest hpending
  split at hrun
  · obtain rfl := sent_eq hrun hmessages
    exact absurd hreject (by simp [stamp])
  next hcommitted =>
    obtain ⟨⟨log, result⟩, happend, hrun⟩ := of_bind hrun
    cases result with
    | error e => cases hrun
    | ok result =>
        simp only at hrun
        split at hrun
        · obtain rfl := sent_eq hrun hmessages
          exact absurd hreject (by simp [stamp])
        next hmatched =>
          obtain ⟨hterm, rfl⟩ := hlog.maybeAppend_refused happend (by simpa using hmatched)
          simp only [hlog.lastIndex, bind_some] at hrun
          obtain ⟨⟨hint, hintTerm⟩, hfind, hrun⟩ := of_bind hrun
          obtain ⟨term, rfl, hrun⟩ := of_bind hrun
          obtain rfl := sent_eq hrun hmessages
          exact ⟨by omega, hterm, rfl, rfl, hfind⟩

/-! ## The leader's probe -/

omit [WritableStorage σ] [Codec] [LawfulStorage σ] in
theorem noteSent_probe {pr' : Progress} {ents : List Entry} (hprobe : pr.state = .probe)
    (h : pr.noteSent ents = some pr') : pr'.nextIdx = pr.nextIdx := by
  unfold Progress.noteSent at h
  split at h
  · cases h
    rfl
  · simp only [Progress.updateState, hprobe, some.injEq] at h
    rw [← h]
    rfl

omit [LawfulStorage σ] in
/-- An append to a peer in `Probe` leaves its next index as it is. -/
theorem sendAppend_nextIdx {peer : ℕ} (hget : r.tracker.get peer = some pr)
    (hprobe : pr.state = .probe) (hrun : r.sendAppend peer = some r') :
    ∃ pr', r'.tracker.get peer = some pr' ∧ pr'.nextIdx = pr.nextIdx := by
  have hpeer : (r.tracker.get peer).isSome = true := by rw [hget]; rfl
  unfold sendAppend at hrun
  obtain ⟨⟨r₁, sent⟩, hsend, hsame⟩ := of_bind hrun
  cases hsame
  obtain ⟨pr₁, hget₁, hsent⟩ := maybeSendAppend_sent hsend
  obtain rfl := some.inj (hget.symm.trans hget₁)
  cases hsent with
  | nothing => exact ⟨pr, hget, rfl⟩
  | snapshot => exact ⟨_, get_setProgress hpeer _, rfl⟩
  | entries _ _ pr' _ _ _ _ hnote =>
      exact ⟨pr', get_setProgress hpeer pr', noteSent_probe hprobe hnote⟩
  | batched _ _ _ _ pr' _ _ _ _ _ _ _ _ hnote =>
      exact ⟨pr', get_setProgress hpeer pr', noteSent_probe hprobe hnote⟩

omit [LawfulStorage σ] in
/-- A peer in `Probe` that rejects the append it was sent is probed at the hint next, or after
what it has acknowledged. -/
theorem handleAppendResponse_reject {hint : ℕ} (hget : r.tracker.get m.sender = some pr)
    (hprobe : pr.state = .probe) (hnext : pr.nextIdx = m.index + 1) (hreject : m.reject = true)
    (hrequest : m.requestSnapshot = kInvalidIndex) (hhint : r.nextProbeIndex m = some hint) :
    ∃ pr', r.handleAppendResponse m = (r.setProgress m.sender pr').sendAppend m.sender ∧
      pr'.state = .probe ∧ pr'.pendingRequestSnapshot = pr.pendingRequestSnapshot ∧
      pr'.nextIdx = max (min m.index (hint + 1)) (pr.matched + 1) := by
  have hseen : ∃ seen : Progress, { pr with recentActive := true }.updateCommitted m.commit = seen ∧
      seen.state = .probe ∧ seen.nextIdx = m.index + 1 ∧ seen.matched = pr.matched ∧
      seen.pendingRequestSnapshot = pr.pendingRequestSnapshot := by
    refine ⟨_, rfl, ?_⟩
    unfold Progress.updateCommitted
    split <;> exact ⟨hprobe, hnext, rfl, rfl⟩
  obtain ⟨seen, hseen, hstate, hindex, hmatched, hpending⟩ := hseen
  have hdec : seen.maybeDecTo m.index hint m.requestSnapshot =
      ({ seen with
          nextIdx := max (min m.index (hint + 1)) (seen.matched + 1), paused := false }, true) := by
    simp [Progress.maybeDecTo, hstate, hindex, hrequest]
  refine ⟨{ seen with
    nextIdx := max (min m.index (hint + 1)) (seen.matched + 1), paused := false }, ?_, hstate,
    hpending, by rw [hmatched]⟩
  simp [handleAppendResponse, handleAppendReject, hhint, hget, hseen, hreject, hdec, hstate]

end Raft

/-! ## Both searches together -/

section Backtrack

variable {σ τ : Type} [WritableStorage σ] [WritableStorage τ] [Codec] [LawfulStorage σ]
  [LawfulStorage τ] {es fs : List Entry} {dl df m p : ℕ}

/-- Neither search passes the last index on which the logs agree. -/
theorem nextProbeIndex_rejected {leader : Raft σ} {follower : Raft τ} {append : Message}
    (hes : TermsSorted es) (hfs : TermsSorted fs) (hm : AgreeAt es fs m) (hmp : m < p)
    (hleader : leader.raftLog.Represents (compactedAt es dl)) (hdl : dl ≤ es.length)
    (hfollower : follower.raftLog.Represents (compactedAt fs df)) (hdf : df ≤ m)
    (hp : p ≤ es.length) (hindex : append.index = p) (hterm : append.logTerm = termAt es p)
    (hfind : follower.raftLog.findConflictByTerm (min append.index fs.length) append.logTerm =
      some (resp.rejectHint, some resp.logTerm)) :
    ∃ hint, leader.nextProbeIndex resp = some hint ∧ m ≤ hint := by
  have hlast := lastIndex_compactedAt (show df ≤ fs.length from hdf.trans hm.2.1)
  -- on the follower the term at `m` is not above the term asked for
  have hbelow : (compactedAt fs df).termOf m ≤ append.logTerm := by
    rw [hterm, termOf_compactedAt hdf, ← hm.2.2]
    exact hes.termAt_le hmp.le hp
  obtain ⟨hint, hhint, hge, hle⟩ := hfollower.findConflictByTerm hbelow
    (show m ≤ min append.index fs.length by
      rw [hindex]
      exact le_min hmp.le hm.2.1)
    (by rw [hlast]; exact min_le_right _ _)
  have heq := hhint.symm.trans hfind
  simp only [some.injEq, Prod.mk.injEq] at heq
  obtain ⟨rfl, hhintTerm⟩ := heq
  unfold Raft.nextProbeIndex
  split
  · -- on the leader it is not above the term of the hint
    have hbound : (compactedAt es dl).termOf m ≤ resp.logTerm := by
      calc (compactedAt es dl).termOf m ≤ termAt es m := termOf_compactedAt_le es dl m
        _ = termAt fs m := hm.2.2
        _ ≤ termAt fs resp.rejectHint := hfs.termAt_le hge (hle.trans (min_le_right _ _))
        _ = (compactedAt fs df).termOf resp.rejectHint :=
            (termOf_compactedAt (hdf.trans hge)).symm
        _ = resp.logTerm := hhintTerm
    obtain ⟨i, hi, hmi, -⟩ := hleader.findConflictByTerm hbound hge (by
      rw [lastIndex_compactedAt hdl]
      have hbounds := hle.trans (min_le_left _ _)
      omega)
    exact ⟨i, by simp only [hi, bind_eq_bind, bind_some], hmi⟩
  · exact ⟨resp.rejectHint, rfl, hge⟩

/-- A leader that learns that its append at `p` was rejected moves its probe back, and not past
the last index `m` on which the two logs agree.  It can act on the rejection unless its storage
fails it, with a snapshot where the entries may be compacted or the peer asked for one. -/
theorem backtracking_exact [PagingStorage σ] {leader : Raft σ} {follower follower' : Raft τ}
    {append resp : Message} {pr : Progress} (hes : TermsSorted es) (hfs : TermsSorted fs)
    (hmatching : Matching es fs) (hm : IsGreatest {i | AgreeAt es fs i} m)
    (hleader : leader.raftLog.Represents (compactedAt es dl)) (hdl : dl ≤ es.length)
    (hfollower : follower.raftLog.Represents (compactedAt fs df))
    (hdf : df ≤ follower.raftLog.committed)
    (hcommitted : AgreeAt es fs follower.raftLog.committed)
    (hp : p ≤ es.length) (hindex : append.index = p) (hterm : append.logTerm = termAt es p)
    (hhandled : follower.handleAppendEntries append = some follower')
    (hsent : follower'.messages = follower.messages ++ [resp]) (hreject : resp.reject = true)
    (hrequest : resp.requestSnapshot = kInvalidIndex)
    (hpr : leader.tracker.get follower.id = some pr) (hprobe : pr.state = .probe)
    (hnext : pr.nextIdx = p + 1) (hmatched : pr.matched ≤ m) :
    (∀ leader', leader.handleAppendResponse resp = some leader' →
      ∃ pr' p', leader'.tracker.get follower.id = some pr' ∧ pr'.nextIdx = p' + 1 ∧
        m ≤ p' ∧ p' < p) ∧
      (AnswersEntries leader.raftLog.store →
        (dl ≠ 0 ∨ pr.pendingRequestSnapshot ≠ kInvalidIndex →
          AnswersSnapshot (leader.raftLog.getSnapshot pr.pendingRequestSnapshot follower.id)) →
        ∃ leader', leader.handleAppendResponse resp = some leader') := by
  obtain ⟨hcommittedLe, hmismatch, hsender, hrespIndex, hfind⟩ :=
    Raft.handleAppendEntries_reject hfollower hhandled hsent hreject hrequest
  have hdfm : df ≤ m := hdf.trans (hm.2 hcommitted)
  rw [lastIndex_compactedAt (hdfm.trans hm.1.2.1)] at hfind
  rw [hindex, hterm] at hmismatch
  have hmp : m < p := lt_of_rejected hmatching hm hdf (hindex ▸ hcommittedLe) hmismatch
  obtain ⟨hint, hhint, hge⟩ := nextProbeIndex_rejected hes hfs hm.1 hmp hleader hdl hfollower
    hdfm hp hindex hterm hfind
  rw [← hsender] at hpr ⊢
  rw [hindex] at hrespIndex
  obtain ⟨pr', hrun, hprobe', hpending, hnext'⟩ := Raft.handleAppendResponse_reject hpr hprobe
    (by rw [hnext, hrespIndex]) hreject hrequest hhint
  rw [hrespIndex] at hnext'
  have hget : (leader.setProgress resp.sender pr').tracker.get resp.sender = some pr' :=
    Raft.get_setProgress (by rw [hpr]; rfl) pr'
  rw [hrun]
  refine ⟨fun leader' hleader' => ?_, fun hanswers hsnapshot => ?_⟩
  · obtain ⟨pr'', hget'', hsame⟩ := Raft.sendAppend_nextIdx hget hprobe' hleader'
    refine ⟨pr'', pr''.nextIdx - 1, hget'', ?_, ?_, ?_⟩ <;> omega
  · have hready : pr'.pendingRequestSnapshot ≠ kInvalidIndex ∨ true = true ∧ pr'.nextIdx ≤ dl →
        AnswersSnapshot (leader.raftLog.getSnapshot pr'.pendingRequestSnapshot resp.sender) := by
      rw [hpending]
      rintro (hneed | ⟨-, hneed⟩)
      · exact hsnapshot (Or.inr hneed)
      · exact hsnapshot (Or.inl (by omega))
    obtain ⟨result, hsend⟩ : ∃ result,
        (leader.setProgress resp.sender pr').maybeSendAppend resp.sender true = some result :=
      Raft.maybeSendAppend_returns hleader hanswers hget hready
    exact ⟨result.1, by simp [Raft.sendAppend, hsend]⟩

end Backtrack

/-- A leader with the entries 3 to 5 of term 3 after a snapshot at 2, which probes node 2 at 5. -/
def probingLeader : Raft MemoryStorage where
  term := 3
  id := 1
  state := .leader
  raftLog :=
    { store :=
        { hardState := { term := 3, commit := 2 }
          snapshotMetadata := { index := 2, term := 1 }
          entries :=
            [{ term := 3, index := 3 }, { term := 3, index := 4 }, { term := 3, index := 5 }] }
      unstable := { offset := 6 }, committed := 2, persisted := 5, applied := 2
      maxApplyUnpersistedLogLimit := 0 }
  tracker := { progress := [(2, { nextIdx := 6, inflights := .new 1 })], maxInflight := 1 }
  maxMessageSize := 0
  readOnly := { option := .safe }
  checkQuorum := false
  preVote := false
  skipBroadcastCommit := false
  batchAppend := false
  disableProposalForwarding := false
  heartbeatTimeout := 1
  electionTimeout := 10
  minElectionTimeout := 10
  maxElectionTimeout := 20
  uncommittedState := { maxUncommittedSize := 0 }
  maxCommittedSizePerReady := 0
  maxInflightMessages := 1
  rng := fun _ => 0

/-- A follower that has the first two entries and three of its own from term 2. -/
def rejectingFollower : Raft MemoryStorage :=
  { probingLeader with
    id := 2
    state := .follower
    raftLog :=
      { store :=
          { entries := [{ term := 1, index := 1 }, { term := 1, index := 2 },
              { term := 2, index := 3 }, { term := 2, index := 4 }, { term := 2, index := 5 }] }
        unstable := { offset := 6 }, committed := 1, persisted := 5, applied := 0
        maxApplyUnpersistedLogLimit := 0 } }

/-- The leader's log before its compaction, and the follower's. -/
def leaderEntries : List Entry :=
  [{ term := 1, index := 1 }, { term := 1, index := 2 }, { term := 3, index := 3 },
    { term := 3, index := 4 }, { term := 3, index := 5 }]

def followerEntries : List Entry :=
  [{ term := 1, index := 1 }, { term := 1, index := 2 }, { term := 2, index := 3 },
    { term := 2, index := 4 }, { term := 2, index := 5 }]

theorem probingLeader_represents [Codec] :
    probingLeader.raftLog.Represents (compactedAt leaderEntries 2) :=
  ⟨show NumberedFrom 3 probingLeader.raftLog.store.entries by decide,
    show NumberedFrom 3 _ by decide, by decide, by decide, by decide, nofun,
    fun _ => ⟨rfl, rfl, rfl⟩, fun _ _ => rfl⟩

theorem rejectingFollower_represents [Codec] :
    rejectingFollower.raftLog.Represents ⟨0, 0, followerEntries⟩ :=
  ⟨show NumberedFrom 1 rejectingFollower.raftLog.store.entries by decide,
    show NumberedFrom 1 _ by decide, by decide, by decide, by decide, nofun,
    fun _ => ⟨rfl, rfl, rfl⟩, fun _ _ => rfl⟩

theorem diverged_agreeAt (i : ℕ) : AgreeAt leaderEntries followerEntries i ↔ i ≤ 2 := by
  constructor
  · rintro ⟨hi, -, hterm⟩
    change i ≤ 5 at hi
    interval_cases i <;> revert hterm <;> decide
  · intro hi
    refine ⟨show i ≤ 5 by omega, show i ≤ 5 by omega, ?_⟩
    interval_cases i <;> rfl

theorem backtracking_exact_diverged :
    letI := Codec.plain
    ∃ follower' resp leader' pr' p',
      rejectingFollower.handleAppendEntries { index := 5, logTerm := 3 } = some follower' ∧
        follower'.messages = [resp] ∧ probingLeader.handleAppendResponse resp = some leader' ∧
        leader'.tracker.get 2 = some pr' ∧ pr'.nextIdx = p' + 1 ∧ 2 ≤ p' ∧ p' < 5 := by
  obtain ⟨follower', hfollower', resp, -, hmessages, hreject, hrequest, leader', hleader', -⟩ :
      letI := Codec.plain
      ∃ follower', rejectingFollower.handleAppendEntries { index := 5, logTerm := 3 } =
          some follower' ∧
        ∃ resp ∈ follower'.messages, follower'.messages = [resp] ∧ resp.reject = true ∧
          resp.requestSnapshot = kInvalidIndex ∧
          ∃ leader', probingLeader.handleAppendResponse resp = some leader' ∧ True := by
    decide +kernel
  let _ := Codec.plain
  have hgreatest : IsGreatest {i | AgreeAt leaderEntries followerEntries i} 2 :=
    ⟨(diverged_agreeAt 2).mpr le_rfl, fun i hi => (diverged_agreeAt i).mp hi⟩
  have hmatching : Matching leaderEntries followerEntries := by
    intro i hi
    have hle := (diverged_agreeAt i).mp hi
    interval_cases i <;> rfl
  have hfollower : rejectingFollower.raftLog.Represents (compactedAt followerEntries 0) :=
    rejectingFollower_represents
  have hprobe := (backtracking_exact (by unfold TermsSorted; decide)
    (by unfold TermsSorted; decide) hmatching hgreatest probingLeader_represents (by decide)
    hfollower (by decide)
    ((diverged_agreeAt 1).mpr (by decide)) (show 5 ≤ 5 by decide) rfl rfl hfollower' hmessages
    hreject hrequest rfl rfl rfl (by decide)).1
  obtain ⟨pr', p', hget, hnext, hge, hlt⟩ := hprobe leader' hleader'
  exact ⟨follower', resp, leader', pr', p', hfollower', hmessages, hleader', hget, hnext, hge, hlt⟩

end Raftpp
