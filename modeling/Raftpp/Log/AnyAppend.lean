import Raftpp.Log.MaybeAppend
import Raftpp.Ready.Moves

/-!
# Append messages that no leader sends

`HandleAppendEntries` on any message: any index and term, and entries numbered in
any way.  The arithmetic of `MaybeAppend` takes the message at its word: the entry
at the position where the conflict ought to be is taken for the conflicting one, and
an index outside of the log has term zero.  `Fits` says for which messages that
does no harm.
-/

namespace Raftpp

open List Option AbstractLog

variable {first : Entry} {rest : List Entry}

namespace RaftLog

variable {σ : Type} [WritableStorage σ] [Codec] [LawfulStorage σ] {l : RaftLog σ}
  {a : AbstractLog}

/-! ## The log -/

omit [Codec] [LawfulStorage σ] in
theorem lastIndex_of_entries {kept : List Entry} (h : l.unstable.entries = kept ++ first :: rest) :
    l.lastIndex = some (l.unstable.offset + kept.length + rest.length) := by
  have hne : l.unstable.entries ≠ [] := by simp [h]
  unfold lastIndex Unstable.maybeLastIndex
  rw [if_neg hne, h]
  simp only [length_append, length_cons, some.injEq]
  omega

omit [Codec] [LawfulStorage σ] in
/-- `CommitTo` moves the committed index only, and not back. -/
theorem commitTo_any {n : ℕ} (hlast : l.lastIndex = some n) (i : ℕ) :
    ∃ l' result, l.commitTo i = some (l', result) ∧ l'.store = l.store ∧
      l'.unstable = l.unstable ∧
      ∀ k, k ≤ l'.committed ↔ k ≤ l.committed ∨ (k ≤ i ∧ i ≤ n) := by
  simp only [commitTo, bind_eq_bind, hlast, bind_some]
  split
  · exact ⟨_, _, rfl, rfl, rfl, fun k => by omega⟩
  split
  · exact ⟨_, _, rfl, rfl, rfl, fun k => by omega⟩
  · exact ⟨_, _, rfl, rfl, rfl, fun k => by simp only; omega⟩

/-- Entries just appended are the end of the log that is represented. -/
theorem Represents.drop_entries {kept : List Entry} (h : Represents l a)
    (hentries : l.unstable.entries = kept ++ first :: rest)
    (hfirst : l.unstable.offset + kept.length = first.index) :
    a.index < first.index ∧ a.entries.drop (first.index - (a.index + 1)) = first :: rest := by
  have hlt := h.lt_offset
  refine ⟨by omega, ?_⟩
  rw [show first.index - (a.index + 1) = l.unstable.offset - (a.index + 1) + kept.length by omega,
    ← drop_drop, ← h.entries, hentries, drop_left]

section MaybeAppend

variable {idx term committed : ℕ} {es : List Entry}

/-- What an accepted message that adds nothing leaves of the log. -/
structure Untouched (l l' : RaftLog σ) : Prop where
  store : l'.store = l.store
  unstable : l'.unstable = l.unstable
  committed_le : l.committed ≤ l'.committed

theorem Represents.maybeAppend_held (committed : ℕ) (h : Represents l a)
    (hterm : a.termOf idx = term)
    (hconflict : (a.conflict es).getD 0 = 0) :
    ∃ l', l.maybeAppend idx term committed es =
        some (l', .ok ⟨true, 0, wrappingAdd idx es.length⟩) ∧ Untouched l l' := by
  obtain ⟨l', result, hcommit, hstore, hunstable, hcommitted⟩ :=
    commitTo_any h.lastIndex (min committed (wrappingAdd idx es.length))
  simp only [RaftLog.maybeAppend, bind_eq_bind, h.matchTerm, bind_some,
    h.findConflict es, decide_eq_true_eq, if_pos hterm, hconflict, if_true, hcommit]
  exact ⟨l', rfl, hstore, hunstable, (hcommitted _).mpr (Or.inl le_rfl)⟩

/-- The conflict lies above the committed index, and `start` is where it ought to be. -/
structure ConflictAt (l : RaftLog σ) (a : AbstractLog) (idx : ℕ) (es : List Entry)
    (c start : ℕ) : Prop where
  conflict : (a.conflict es).getD 0 = c
  committed_lt : l.committed < c
  start_eq : wrappingSub c (idx + 1) = start
  start_le : start ≤ es.length

section Conflict

variable {c start : ℕ} {first : Entry} {rest : List Entry}
  (hat : ConflictAt l a idx es c start) (h : Represents l a) (hterm : a.termOf idx = term)

include hat h hterm

theorem ConflictAt.maybeAppend :
    l.maybeAppend idx term committed es =
      (l.append (es.drop start)).bind fun p =>
        ({ p.1 with persisted := min p.1.persisted (c - 1) }.commitTo
          (min committed (wrappingAdd idx es.length))).bind fun q =>
            some (q.1, .ok ⟨true, c, wrappingAdd idx es.length⟩) := by
  have hlt := hat.committed_lt
  simp only [RaftLog.maybeAppend, bind_eq_bind, h.matchTerm, bind_some,
    h.findConflict es, decide_eq_true_eq, if_pos hterm, hat.conflict,
    show ¬c = 0 by omega, show ¬c ≤ l.committed by omega, if_false, hat.start_eq, cloneFrom,
    if_pos (Or.inl hat.start_le)]

/-- No entry is left at the place of the conflict. -/
theorem ConflictAt.maybeAppend_nil (committed : ℕ) (hdrop : es.drop start = []) :
    ∃ l', l.maybeAppend idx term committed es =
        some (l', .ok ⟨true, c, wrappingAdd idx es.length⟩) ∧ Untouched l l' := by
  have hlast : ({ l with persisted := min l.persisted (c - 1) } : RaftLog σ).lastIndex =
      some a.lastIndex := h.lastIndex
  obtain ⟨l', result, hcommit, hstore, hunstable, hcommitted⟩ :=
    commitTo_any hlast (min committed (wrappingAdd idx es.length))
  rw [hat.maybeAppend h hterm, hdrop]
  simp only [RaftLog.append, bind_eq_bind, h.lastIndex, bind_some, hcommit]
  exact ⟨l', rfl, hstore, hunstable, (hcommitted _).mpr (Or.inl le_rfl)⟩

theorem ConflictAt.maybeAppend_gap (hdrop : es.drop start = first :: rest)
    (hgap : a.lastIndex + 1 < first.index) :
    l.maybeAppend idx term committed es = none := by
  have hnone : l.unstable.truncateAndAppend (first :: rest) = none := by
    rcases h.truncateAndAppend_any first rest with ⟨-, hnone⟩ | ⟨hle, -⟩
    · exact hnone
    · omega
  rw [hat.maybeAppend h hterm, hdrop, append_cons, hnone]
  rfl

theorem ConflictAt.maybeAppend_put (committed : ℕ) (hdrop : es.drop start = first :: rest)
    (hle : first.index ≤ a.lastIndex + 1) :
    ∃ l' kept, l.maybeAppend idx term committed es =
        some (l', .ok ⟨true, c, wrappingAdd idx es.length⟩) ∧ l'.store = l.store ∧
      l.unstable.truncateAndAppend (first :: rest) = some l'.unstable ∧
      l'.unstable.entries = kept ++ first :: rest ∧
      l'.unstable.offset + kept.length = first.index ∧
      (l.committed ≤ l'.committed ↔ l.committed ≤ wrappingSub first.index 1 ∨
        (l.committed ≤ min committed (wrappingAdd idx es.length) ∧
          min committed (wrappingAdd idx es.length) ≤ first.index + rest.length)) := by
  obtain ⟨-, u, kept, hu, hentries, hstart⟩ :=
    (h.truncateAndAppend_any first rest).resolve_left fun hgap => absurd hgap.1 (by omega)
  have happend := append_cons l first rest
  rw [hu, map_some] at happend
  have hlast := append_lastIndex happend
  obtain ⟨l', result, hcommit, hstore, hunstable, hcommitted⟩ :=
    commitTo_any (l := { l with
      unstable := u, committed := min l.committed (wrappingSub first.index 1)
      persisted := min l.persisted (c - 1) }) hlast (min committed (wrappingAdd idx es.length))
  rw [hat.maybeAppend h hterm, hdrop]
  simp only [happend, bind_some, hcommit]
  refine ⟨l', kept, rfl, hstore, by rw [hunstable]; exact hu, by rw [hunstable]; exact hentries,
    by rw [hunstable]; exact hstart, (hcommitted _).trans ?_⟩
  simp only [le_min_iff, le_refl, true_and]

end Conflict

end MaybeAppend

end RaftLog

namespace Raft

section Handler

variable {σ : Type} [WritableStorage σ] [Codec] [LawfulStorage σ] {r : Raft σ} {m : Message}
  {a : AbstractLog}

variable {r' : Raft σ} {s : LogSpec}

/-! ## The property -/

/-- The subtraction `conflict_idx - (idx + 1)` of `MaybeAppend`, where handling a message comes
to it, stays within the entries of the message. -/
def SubtractsWithin (r : Raft σ) (m : Message) : Prop :=
  r.pendingRequestSnapshot = kInvalidIndex → r.raftLog.committed ≤ m.index →
    r.raftLog.matchTerm m.index m.logTerm = some true →
    ∀ c, r.raftLog.findConflict m.entries = some c → r.raftLog.committed < c →
      wrappingSub c (m.index + 1) ≤ m.entries.length

/-- What a handled append message may do to a node whose log was `a`. -/
structure HandledSafely (a : AbstractLog) (r r' : Raft σ) : Prop where
  committed_le : r.raftLog.committed ≤ r'.raftLog.committed
  log : ∃ a', r'.raftLog.Represents a' ∧ a'.index = a.index ∧ a'.term = a.term ∧
    a'.between a.firstIndex (r.raftLog.committed + 1) =
      a.between a.firstIndex (r.raftLog.committed + 1) ∧
    ∃ resp, r'.messages = r.messages ++ [resp] ∧ (resp.reject = true ∨ resp.index ≤ a'.lastIndex)

/-- The entries that are put in from `first` on leave alone what is committed: they lie above it,
or they repeat it and the message commits it again. -/
def Spares (a : AbstractLog) (committed : ℕ) (m : Message) (first : Entry) (rest : List Entry) :
    Prop :=
  committed < first.index ∨
    committed ≤ min m.commit (wrappingAdd m.index m.entries.length) ∧
      (first :: rest).take (committed + 1 - first.index) = a.between first.index (committed + 1)

/-- The last entries of a message do no harm to a log: they are too far out, which stops the node,
or numbered, as far as the answer says, and spare what is committed.  Without such entries the log
has to reach as far as the answer. -/
def Lands (a : AbstractLog) (committed : ℕ) (m : Message) : List Entry → Prop
  | [] => wrappingAdd m.index m.entries.length ≤ a.lastIndex
  | first :: rest =>
      a.lastIndex + 1 < first.index ∨
        (NumberedFrom first.index (first :: rest) ∧ a.index < first.index ∧
          wrappingAdd m.index m.entries.length ≤ first.index + rest.length ∧
          Spares a committed m first rest)

instance (a : AbstractLog) (committed : ℕ) (m : Message) (first : Entry) (rest : List Entry) :
    Decidable (Spares a committed m first rest) := inferInstanceAs (Decidable (_ ∨ _))

instance (a : AbstractLog) (committed : ℕ) (m : Message) :
    ∀ es, Decidable (Lands a committed m es)
  | [] => inferInstanceAs (Decidable (_ ≤ _))
  | _ :: _ => inferInstanceAs (Decidable (_ ∨ _))

/-- A message does no harm to a log.  The first of its entries that the log does not hold has
index `c`, or zero if there is none; if `c` is above the committed index, the entry with that
index ought to be at position `c - (m.index + 1)` of the message. -/
def Fits (a : AbstractLog) (committed : ℕ) (m : Message) : Prop :=
  let c := (a.conflict m.entries).getD 0
  let start := wrappingSub c (m.index + 1)
  committed ≤ m.index → a.termOf m.index = m.logTerm →
    if c = 0 then wrappingAdd m.index m.entries.length ≤ a.lastIndex
    else committed < c →
      start ≤ m.entries.length ∧ Lands a committed m (m.entries.drop start)

instance (a : AbstractLog) (committed : ℕ) (m : Message) : Decidable (Fits a committed m) := by
  unfold Fits
  infer_instance

/-! ## The handler -/

omit [Codec] [LawfulStorage σ] in
theorem handleAppendEntries_accept {log : RaftLog σ} {c last : ℕ}
    (hpending : r.pendingRequestSnapshot = kInvalidIndex) (hindex : r.raftLog.committed ≤ m.index)
    (hrun : r.raftLog.maybeAppend m.index m.logTerm m.commit m.entries =
      some (log, .ok ⟨true, c, last⟩)) :
    ∃ r' resp, r.handleAppendEntries m = some r' ∧ r'.raftLog = log ∧
      r'.messages = r.messages ++ [resp] ∧ resp.reject = false ∧ resp.index = last := by
  simp only [handleAppendEntries, hpending, ne_eq, not_true_eq_false, if_false,
    show ¬m.index < r.raftLog.committed by omega, hrun]
  exact ⟨_, _, rfl, rfl, rfl, rfl, rfl⟩

theorem HandledSafely.of_untouched {resp : Message} (h : r.raftLog.Represents a)
    (hsame : r.raftLog.Untouched r'.raftLog) (hmessages : r'.messages = r.messages ++ [resp])
    (hresp : resp.reject = true ∨ resp.index ≤ a.lastIndex) : HandledSafely a r r' :=
  ⟨hsame.committed_le, a, h.congr hsame.store hsame.unstable, rfl, rfl, rfl, resp, hmessages, hresp⟩

/-- An accepting answer names an index of the log. -/
theorem HandledSafely.index_le {resp : Message} {n : ℕ} (h : HandledSafely a r r')
    (hlast : r'.raftLog.lastIndex = some n) (hmessages : r'.messages = r.messages ++ [resp])
    (hreject : resp.reject = false) : resp.index ≤ n := by
  obtain ⟨-, a', hrep, -, -, -, resp', hmessages', hresp⟩ := h
  have hsame : resp = resp' := by
    have heq := append_cancel_left (hmessages.symm.trans hmessages')
    exact (List.cons.inj heq).1
  subst hsame
  rw [hrep.lastIndex, some.injEq] at hlast
  rw [hreject] at hresp
  rcases hresp with hcontra | hle
  · cases hcontra
  · omega

/-- A message that is refused or answered from the committed index is handled safely. -/
theorem handleAppendEntries_refuse (h : r.raftLog.Follows s)
    (hskip : r.pendingRequestSnapshot ≠ kInvalidIndex ∨ m.index < s.committed ∨
      s.termOf m.index ≠ m.logTerm) (hrun : r.handleAppendEntries m = some r') :
    HandledSafely s.toAbstractLog r r' := by
  have hcommitted := h.committed_eq
  have hsame : r.raftLog.Untouched r.raftLog := ⟨rfl, rfl, le_rfl⟩
  simp only [handleAppendEntries, bind_eq_bind] at hrun
  split at hrun
  next hpending =>
    unfold sendRequestSnapshot at hrun
    obtain ⟨last, -, hrun⟩ := of_bind hrun
    obtain ⟨logTerm, -, hrun⟩ := of_bind hrun
    obtain rfl := (send_eq hrun).1
    exact .of_untouched h.toRepresents hsame rfl (Or.inl rfl)
  next hpending =>
    split at hrun
    next hlow =>
      obtain rfl := (send_eq hrun).1
      refine .of_untouched h.toRepresents hsame rfl (Or.inr ?_)
      show r.raftLog.committed ≤ _
      rw [hcommitted]
      exact h.committed_le
    next hlow =>
      have hterm := (hskip.resolve_left (by simpa using hpending)).resolve_left (by omega)
      rw [h.toRepresents.maybeAppend_mismatch hterm] at hrun
      simp only [bind_some, Bool.false_eq_true, if_false, h.lastIndex] at hrun
      obtain ⟨⟨hint, hintTerm⟩, -, hrun⟩ := of_bind hrun
      obtain ⟨hintTerm, -, hrun⟩ := of_bind hrun
      obtain rfl := (send_eq hrun).1
      exact .of_untouched h.toRepresents hsame rfl (Or.inl rfl)

/-- A message that adds nothing is handled safely if the log reaches as far as the answer. -/
theorem handled_untouched_iff {log : RaftLog σ} {c last : ℕ} (h : r.raftLog.Follows s)
    (hpending : r.pendingRequestSnapshot = kInvalidIndex) (hindex : r.raftLog.committed ≤ m.index)
    (hrun : r.raftLog.maybeAppend m.index m.logTerm m.commit m.entries =
      some (log, .ok ⟨true, c, last⟩)) (hsame : r.raftLog.Untouched log) :
    (∀ r', r.handleAppendEntries m = some r' → HandledSafely s.toAbstractLog r r') ↔
      last ≤ s.lastIndex := by
  obtain ⟨r', resp, hhandle, rfl, hmessages, hreject, rfl⟩ :=
    handleAppendEntries_accept hpending hindex hrun
  constructor
  · intro hall
    have hlast := (h.toRepresents.congr hsame.store hsame.unstable).lastIndex
    exact (hall r' hhandle).index_le hlast hmessages hreject
  · intro hle r'' hhandle'
    obtain rfl := some.inj (hhandle.symm.trans hhandle')
    exact .of_untouched h.toRepresents hsame hmessages (Or.inr hle)

omit [Codec] in
/-- Entries that spare what is committed leave it as it was. -/
theorem Spares.between_replaceFrom {committed : ℕ} (h : Spares a committed m first rest)
    (hlow : a.index < first.index) (hgap : first.index ≤ a.lastIndex + 1) :
    (a.replaceFrom first.index (first :: rest)).between a.firstIndex (committed + 1) =
      a.between a.firstIndex (committed + 1) := by
  simp only [between, replaceFrom, firstIndex,
    Nat.sub_self, drop_zero]
  unfold lastIndex at hgap
  rcases lt_or_ge committed first.index with hlt | hge
  · rw [take_append_of_le_length (by rw [length_take]; omega), take_take,
      Nat.min_eq_left (by omega)]
  · have hsame := (h.resolve_left (by omega)).2
    rw [between] at hsame
    rw [take_append, length_take, Nat.min_eq_left (by omega), take_take,
      Nat.min_eq_right (by omega),
      show committed + 1 - (a.index + 1) - (first.index - (a.index + 1)) =
        committed + 1 - first.index by omega, hsame, ← take_add]
    congr 1
    omega

/-- A message that puts entries into the log is handled safely if they are numbered, reach as far
as the answer and spare what is committed. -/
theorem handled_put_iff {c start : ℕ} (h : r.raftLog.Follows s)
    (hpending : r.pendingRequestSnapshot = kInvalidIndex) (hindex : r.raftLog.committed ≤ m.index)
    (hterm : s.termOf m.index = m.logTerm)
    (hat : r.raftLog.ConflictAt s.toAbstractLog m.index m.entries c start)
    (hdrop : m.entries.drop start = first :: rest) (hle : first.index ≤ s.lastIndex + 1) :
    (∀ r', r.handleAppendEntries m = some r' → HandledSafely s.toAbstractLog r r') ↔
      NumberedFrom first.index (first :: rest) ∧ s.index < first.index ∧
        wrappingAdd m.index m.entries.length ≤ first.index + rest.length ∧
        Spares s.toAbstractLog s.committed m first rest := by
  obtain ⟨log, kept, hrun, hstore, hput, hentries, hstart, hmono⟩ :=
    hat.maybeAppend_put h.toRepresents hterm m.commit hdrop hle
  obtain ⟨r', resp, hhandle, rfl, hmessages, hreject, hresp⟩ :=
    handleAppendEntries_accept hpending hindex hrun
  have hlast := RaftLog.lastIndex_of_entries hentries
  rw [hstart] at hlast
  have hcommitted := h.committed_eq
  rw [hcommitted] at hmono
  constructor
  · intro hall
    have hsafe := hall r' hhandle
    have hreach := hsafe.index_le hlast hmessages hreject
    have hkept := hsafe.committed_le
    obtain ⟨a', hrep, hbase, -, hbetween, -⟩ := hsafe.log
    obtain ⟨hlow, hsuffix⟩ := hrep.drop_entries hentries hstart
    have hnumbered := NumberedFrom.drop hrep.contiguous (first.index - (a'.index + 1))
    rw [hsuffix, show a'.index + 1 + (first.index - (a'.index + 1)) = first.index by omega]
      at hnumbered
    refine ⟨hnumbered, by omega, by omega, ?_⟩
    rw [hcommitted, hmono, wrappingSub_of_le (by omega)] at hkept
    refine hkept.imp (fun _ => by omega) fun hagain => ⟨hagain.1, ?_⟩
    -- what follows the first entry in the logs before and after is the same
    have hdropped := congrArg (List.drop (first.index - (s.index + 1))) hbetween
    simp only [between, firstIndex, hbase, Nat.sub_self, drop_zero,
      drop_take, hcommitted] at hdropped
    rw [hbase] at hsuffix
    rw [hsuffix, show s.committed + 1 - (s.index + 1) - (first.index - (s.index + 1)) =
      s.committed + 1 - first.index by omega] at hdropped
    exact hdropped
  · rintro ⟨hnumbered, hlow, hreach, hspares⟩ r'' hhandle'
    obtain rfl := some.inj (hhandle.symm.trans hhandle')
    obtain ⟨hgap, -, hrep⟩ := h.toRepresents.truncateAndAppend (by simp) hnumbered hlow hput
    refine ⟨?_, _, hrep.congr hstore rfl, rfl, rfl, ?_, resp, hmessages, Or.inr ?_⟩
    · rw [hcommitted, hmono, wrappingSub_of_le (by omega)]
      exact hspares.imp (fun _ => by omega) fun hagain => ⟨hagain.1, by omega⟩
    · rw [hcommitted]
      exact hspares.between_replaceFrom hlow hle
    · have hend : (s.toAbstractLog.replaceFrom first.index (first :: rest)).lastIndex + 1 =
          first.index + (first :: rest).length := lastIndex_replaceFrom hlow hgap
      rw [length_cons] at hend
      omega

/-- An append message, whatever it holds, is handled safely exactly if it fits the log, unless
a snapshot request is pending. -/
theorem handleAppendEntries_safe_iff {s : LogSpec} (h : r.raftLog.Follows s) (m : Message) :
    (r.SubtractsWithin m ∧
      ∀ r', r.handleAppendEntries m = some r' → HandledSafely s.toAbstractLog r r') ↔
    (r.pendingRequestSnapshot = kInvalidIndex → Fits s.toAbstractLog s.committed m) := by
  have hcommitted := h.committed_eq
  by_cases hpending : r.pendingRequestSnapshot = kInvalidIndex
  swap
  · exact ⟨fun _ hcontra => absurd hcontra hpending, fun _ =>
      ⟨fun hcontra => absurd hcontra hpending,
        fun r' => handleAppendEntries_refuse h (Or.inl hpending)⟩⟩
  by_cases hindex : s.committed ≤ m.index
  swap
  · exact ⟨fun _ _ hcontra => absurd hcontra hindex, fun _ =>
      ⟨fun _ hcontra => absurd hcontra (by omega), fun r' =>
        handleAppendEntries_refuse h (Or.inr (Or.inl (by omega)))⟩⟩
  by_cases hterm : s.termOf m.index = m.logTerm
  swap
  · refine ⟨fun _ _ _ hcontra => absurd hcontra hterm, fun _ => ⟨?_, fun r' =>
      handleAppendEntries_refuse h (Or.inr (Or.inr hterm))⟩⟩
    intro _ _ hmatch
    rw [h.matchTerm, some.injEq, decide_eq_true_eq] at hmatch
    exact absurd hmatch hterm
  -- the message is accepted
  have hfits : (r.pendingRequestSnapshot = kInvalidIndex → Fits s.toAbstractLog s.committed m) ↔
      Fits s.toAbstractLog s.committed m := ⟨fun hfits => hfits hpending, fun hfits _ => hfits⟩
  rw [hfits, Fits, imp_iff_right hindex, imp_iff_right hterm]
  obtain ⟨c, hc⟩ : ∃ c, (s.conflict m.entries).getD 0 = c := ⟨_, rfl⟩
  have hwithin : r.SubtractsWithin m ↔
      (s.committed < c → wrappingSub c (m.index + 1) ≤ m.entries.length) := by
    unfold SubtractsWithin
    rw [h.matchTerm, h.findConflict, hc, hcommitted]
    simp [hpending, hindex, hterm]
  rw [hwithin]
  simp only [hc]
  by_cases hzero : c = 0
  · obtain ⟨log, hrun, hsame⟩ := h.toRepresents.maybeAppend_held m.commit hterm
      (hc.trans hzero)
    rw [handled_untouched_iff h hpending (by omega) hrun hsame, if_pos hzero]
    exact and_iff_right fun hlt => absurd hlt (by omega)
  rw [if_neg hzero]
  by_cases hlt : s.committed < c
  swap
  · refine iff_of_true ⟨fun hcontra => absurd hcontra hlt, fun r' hhandle => ?_⟩
      fun hcontra => absurd hcontra hlt
    -- a conflict with a committed entry stops the node
    have hstop : r.handleAppendEntries m = none := by
      simp [handleAppendEntries, hpending, show ¬m.index < r.raftLog.committed by omega,
        RaftLog.maybeAppend, h.matchTerm, hterm, h.findConflict, hc, hzero,
        show c ≤ r.raftLog.committed by omega]
    exact absurd (hstop.symm.trans hhandle) (by simp)
  rw [imp_iff_right hlt, imp_iff_right hlt]
  refine and_congr_right fun hstart => ?_
  have hat : r.raftLog.ConflictAt s.toAbstractLog m.index m.entries c
      (wrappingSub c (m.index + 1)) := ⟨hc, by omega, rfl, hstart⟩
  cases hdrop : m.entries.drop (wrappingSub c (m.index + 1)) with
  | nil =>
      obtain ⟨log, hrun, hsame⟩ := hat.maybeAppend_nil h.toRepresents hterm m.commit hdrop
      exact handled_untouched_iff h hpending (by omega) hrun hsame
  | cons first rest =>
      by_cases hgap : s.lastIndex + 1 < first.index
      · refine iff_of_true (fun r' hhandle => ?_) (Or.inl hgap)
        have hstop : r.handleAppendEntries m = none := by
          simp [handleAppendEntries, hpending, show ¬m.index < r.raftLog.committed by omega,
            hat.maybeAppend_gap h.toRepresents hterm hdrop hgap]
        exact absurd (hstop.symm.trans hhandle) (by simp)
      · rw [handled_put_iff h hpending (by omega) hterm hat hdrop (by omega)]
        exact (or_iff_right hgap).symm

end Handler

section Follower

/-- One of three voters, with three entries of which two are committed. -/
def followerStore : MemoryStorage where
  confState := { voters := [1, 2, 3] }
  hardState := { term := 1, commit := 2 }
  entries := [{ term := 1, index := 1 }, { term := 1, index := 2 }, { term := 1, index := 3 }]

def followerConfig : Config := { id := 1, loadStateOnStartup := true }

/-- What the follower's log holds. -/
abbrev followerLog : LogSpec := ⟨⟨0, 0, followerStore.entries⟩, 2, 0⟩

theorem followerStore_follows [Codec] {r : Raft MemoryStorage}
    (h : Raft.new followerConfig followerStore (fun _ => 0) = some r)
    (hcommitted : r.raftLog.committed = 2) (happlied : r.raftLog.applied = 0) :
    r.raftLog.Follows followerLog := by
  have hstore : (LawfulStorage.view followerStore).Contiguous :=
    show NumberedFrom 1 followerStore.entries by decide
  have hsound := (Raft.new_sound hstore h).1.toFollows
  rw [hcommitted, happlied] at hsound
  exact hsound

theorem handleAppendEntries_safe_next :
    letI := Codec.plain
    ∃ r r', Raft.new followerConfig followerStore (fun _ => 0) = some r ∧
      r.handleAppendEntries
          { index := 3, logTerm := 1, entries := [{ term := 1, index := 4 }], commit := 3 } =
        some r' ∧
      HandledSafely followerLog.toAbstractLog r r' := by
  obtain ⟨r, hnew, hcommitted, happlied, r', hrun, -⟩ : letI := Codec.plain
      ∃ r, Raft.new followerConfig followerStore (fun _ => 0) = some r ∧
        r.raftLog.committed = 2 ∧ r.raftLog.applied = 0 ∧
        ∃ r', r.handleAppendEntries { index := 3, logTerm := 1
                                      entries := [{ term := 1, index := 4 }], commit := 3 } =
            some r' ∧ True := by
    decide +kernel
  let _ := Codec.plain
  have hfollows := followerStore_follows hnew hcommitted happlied
  exact ⟨r, r', hnew, hrun,
    ((handleAppendEntries_safe_iff hfollows _).mpr fun _ => by decide +kernel).2 r' hrun⟩

/-- The first entry conflicts two places after the message's index, so the second one is taken for
it: the committed entries are replaced by an entry with index one, the committed index moves back
and the answer names an index past the end of the log. -/
theorem handleAppendEntries_unsafe :
    letI := Codec.plain
    ∃ r r', Raft.new followerConfig followerStore (fun _ => 0) = some r ∧
      r.raftLog.Follows followerLog ∧
      r.handleAppendEntries
          { index := 2, logTerm := 1
            entries := [{ term := 2, index := 4 }, { term := 2, index := 1 }] } = some r' ∧
      r.raftLog.committed = 2 ∧ r'.raftLog.committed = 0 ∧ r'.raftLog.lastIndex = some 1 ∧
      r'.raftLog.term 1 = some (.ok 2) ∧
      (r'.messages.map fun resp => (resp.reject, resp.index)) = [(false, 4)] ∧
      ¬HandledSafely followerLog.toAbstractLog r r' := by
  obtain ⟨r, hnew, hcommitted, happlied, r', hrun, hmoved, hlast, hterm, hanswer⟩ :
      letI := Codec.plain
      ∃ r, Raft.new followerConfig followerStore (fun _ => 0) = some r ∧
        r.raftLog.committed = 2 ∧ r.raftLog.applied = 0 ∧
        ∃ r', r.handleAppendEntries
            { index := 2, logTerm := 1
              entries := [{ term := 2, index := 4 }, { term := 2, index := 1 }] } = some r' ∧
          r'.raftLog.committed = 0 ∧ r'.raftLog.lastIndex = some 1 ∧
          r'.raftLog.term 1 = some (.ok 2) ∧
          (r'.messages.map fun resp => (resp.reject, resp.index)) = [(false, 4)] := by
    decide +kernel
  let _ := Codec.plain
  refine ⟨r, r', hnew, followerStore_follows hnew hcommitted happlied, hrun, hcommitted, hmoved,
    hlast, hterm, hanswer, fun hsafe => ?_⟩
  have hle := hsafe.committed_le
  omega

end Follower

end Raft

end Raftpp
