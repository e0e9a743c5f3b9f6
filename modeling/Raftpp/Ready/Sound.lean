import Raftpp.Log.Split
import Raftpp.Protocol.LogFrame

/-!
# The log of a node along its elementary steps

`Sound l a` says that the log represents `a` with its cursors in order, that only
persisted entries may be applied, and that a pending snapshot is above everything
persisted.  Every `Change` keeps a log sound, and `Later` says what no change takes
back.
-/

namespace Raftpp

open List Option

/-- The entries of an append message follow its index. -/
def Message.Numbered (m : Message) : Prop :=
  m.msgType = .msgAppend → NumberedFrom (m.index + 1) m.entries

instance (m : Message) : Decidable m.Numbered :=
  inferInstanceAs (Decidable (m.msgType = .msgAppend → NumberedFrom (m.index + 1) m.entries))

theorem Raft.numberEntries_numbered (term : ℕ) :
    ∀ (i : ℕ) (entries : List Entry), NumberedFrom i (numberEntries term i entries)
  | i, [] => .nil i
  | i, _ :: es => numberedFrom_cons.mpr ⟨rfl, numberEntries_numbered term (i + 1) es⟩

namespace RaftLog

variable {σ : Type} {l l' l'' : RaftLog σ} {a a' a'' : AbstractLog} {es : List Entry}

/-- What the steps of a node do not take back: its storage and its committed index.  A snapshot
stays pending until the application has written it, without a new one the log starts where it
did, and a new one covers what was committed. -/
structure Later (l : RaftLog σ) (a : AbstractLog) (l' : RaftLog σ) (a' : AbstractLog) :
    Prop where
  store : l'.store = l.store
  plain : l'.unstable.snapshot = none → l.unstable.snapshot = none ∧ a'.index = a.index
  restored : l'.unstable.snapshot ≠ none → l.unstable.snapshot = none → l.committed ≤ a'.index
  index : a.index ≤ a'.index
  committed : l.committed ≤ l'.committed
  persisted : l'.persisted ≤ l.persisted

theorem Later.refl (l : RaftLog σ) (a : AbstractLog) : Later l a l a :=
  ⟨rfl, fun h => ⟨h, rfl⟩, fun h h' => absurd h' h, le_rfl, le_rfl, le_rfl⟩

theorem Later.trans (h : Later l a l' a') (h' : Later l' a' l'' a'') : Later l a l'' a'' where
  store := h'.store.trans h.store
  plain hnone :=
    have hplain := h'.plain hnone
    have hfirst := h.plain hplain.1
    ⟨hfirst.1, hplain.2.trans hfirst.2⟩
  restored hsome hnone := by
    by_cases hmiddle : l'.unstable.snapshot = none
    · exact h.committed.trans (h'.restored hsome hmiddle)
    · exact (h.restored hmiddle hnone).trans h'.index
  index := h.index.trans h'.index
  committed := h.committed.trans h'.committed
  persisted := h'.persisted.trans h.persisted

variable [WritableStorage σ] [Codec] [LawfulStorage σ]

/-- The log represents `a`, with its cursors in order. -/
structure Sound (l : RaftLog σ) (a : AbstractLog) : Prop extends
    Follows l ⟨a, l.committed, l.applied⟩ where
  limit : l.maxApplyUnpersistedLogLimit = 0
  persisted_le : l.unstable.snapshot ≠ none → l.persisted ≤ a.index

namespace Sound

variable {env : Env} {l l' : RaftLog σ} {a : AbstractLog}

theorem represents (h : Sound l a) : Represents l a := h.toRepresents

/-- A log that follows a specification state is sound for its log. -/
theorem of_follows {s : LogSpec} (h : Follows l' s) (hlimit : l'.maxApplyUnpersistedLogLimit = 0)
    (hpersisted : l'.unstable.snapshot ≠ none → l'.persisted ≤ s.index) :
    Sound l' s.toAbstractLog := by
  have hcommitted := h.committed_eq
  exact ⟨⟨h.toRepresents, rfl, hcommitted ▸ h.index_le, hcommitted ▸ h.committed_le,
    h.persisted_lt⟩, hlimit, hpersisted⟩

theorem same (h : Sound l a) (hsame : Same l l') : Sound l' a ∧ Later l a l' a := by
  have hlimit := hsame.limit
  have hbound := h.limit
  refine ⟨⟨?_, by omega, ?_⟩, hsame.store, ?_, ?_, le_rfl, hsame.committed.ge, hsame.persisted.le⟩
  · refine h.toFollows.of_cursors hsame.store hsame.unstable rfl rfl hsame.committed.ge ?_ ?_
    · simp only [hsame.committed]
      exact h.committed_le
    · rw [hsame.persisted]
      exact h.persisted_lt
  · rw [hsame.unstable, hsame.persisted]
    exact h.persisted_le
  · rw [hsame.unstable]
    exact fun hnone => ⟨hnone, rfl⟩
  · rw [hsame.unstable]
    exact fun hsome hnone => absurd hnone hsome

/-- What adds to the log, or replaces entries that are not committed. -/
theorem of_keeps (h : Sound l a) {s : LogSpec} (hfollows : Follows l' s) (hkeeps : Keeps l l')
    (hindex : s.index = a.index) (hcommitted : l.committed ≤ s.committed) :
    Sound l' s.toAbstractLog ∧ Later l a l' s.toAbstractLog := by
  have hsnapshot := hkeeps.snapshot
  refine ⟨of_follows hfollows (hkeeps.limit.trans h.limit) ?_, hkeeps.store, ?_, ?_, hindex.ge,
    hcommitted.trans hfollows.committed_eq.ge, hkeeps.persisted⟩
  · rw [hsnapshot, hindex]
    exact fun hpending => hkeeps.persisted.trans (h.persisted_le hpending)
  · rw [hsnapshot]
    exact fun hnone => ⟨hnone, hindex⟩
  · rw [hsnapshot]
    exact fun hsome hnone => absurd hnone hsome

theorem append (h : Sound l a) {term last index : ℕ} {entries : List Entry}
    (hlast : l.lastIndex = some last)
    (hrun : l.append (Raft.numberEntries term (last + 1) entries) = some (l', index)) :
    Sound l' { a with entries := a.entries ++ Raft.numberEntries term (last + 1) entries } ∧
      Later l a l'
        { a with entries := a.entries ++ Raft.numberEntries term (last + 1) entries } := by
  obtain rfl : a.lastIndex = last := some.inj (h.lastIndex.symm.trans hlast)
  exact h.of_keeps (h.toFollows.append (Raft.numberEntries_numbered term _ entries) hrun)
    (append_keeps hrun) rfl le_rfl

theorem maybeAppend (h : Sound l a) {idx term committed : ℕ} {result : Result MaybeAppendResult}
    (hes : NumberedFrom (idx + 1) es)
    (hrun : l.maybeAppend idx term committed es = some (l', result)) :
    ∃ a', Sound l' a' ∧ Later l a l' a' :=
  ⟨_, h.of_keeps (h.toFollows.maybeAppend hes hrun) (maybeAppend_keeps hrun)
    (LogSpec.index_maybeAppend ⟨a, l.committed, l.applied⟩ idx term committed es)
    (LogSpec.committed_le_maybeAppend ⟨a, l.committed, l.applied⟩ idx term committed es)⟩

theorem restore (h : Sound l a) {snapshot : Snapshot}
    (hcommitted : l.committed ≤ snapshot.metadata.index)
    (hrun : l.restore snapshot = (l', .ok ())) :
    Sound l' ⟨snapshot.metadata.index, snapshot.metadata.term, []⟩ ∧
      Later l a l' ⟨snapshot.metadata.index, snapshot.metadata.term, []⟩ := by
  have hfollows := h.toFollows.restore hrun
  have hindex : a.index ≤ l.committed := h.index_le
  have hspec : LogSpec.restore ⟨a, l.committed, l.applied⟩ snapshot =
      ⟨⟨snapshot.metadata.index, snapshot.metadata.term, []⟩, snapshot.metadata.index,
        l.applied⟩ := if_neg (not_lt.mpr hcommitted)
  rw [hspec] at hfollows
  obtain ⟨-, rfl⟩ := restore_eq hrun
  refine ⟨of_follows hfollows h.limit ?_, rfl, ?_, fun _ _ => hcommitted, hindex.trans hcommitted,
    hcommitted, ?_⟩
  · intro _
    simp only
    split <;> omega
  · intro hnone
    simp [Unstable.restore] at hnone
  · simp only
    split <;> omega

theorem commit (h : Sound l a) {i : ℕ} (hlt : l.committed < i) (hlast : i ≤ a.lastIndex) :
    Sound { l with committed := i } a ∧ Later l a { l with committed := i } a := by
  refine ⟨⟨?_, h.limit, h.persisted_le⟩, rfl, fun hnone => ⟨hnone, rfl⟩,
    fun hsome hnone => absurd hnone hsome, le_rfl, hlt.le, le_rfl⟩
  exact h.toFollows.of_cursors rfl rfl rfl rfl hlt.le hlast h.persisted_lt

/-- What takes nothing out of a log keeps it sound. -/
theorem growth (h : Sound l a) (hgrowth : Growth l l') :
    ∃ a', Sound l' a' ∧ Later l a l' a' := by
  cases hgrowth with
  | same hsame => exact ⟨a, h.same hsame⟩
  | append term last index entries hlast hrun => exact ⟨_, h.append hlast hrun⟩
  | commit i hlt hlast hrun =>
      obtain ⟨last, hlast, hle⟩ := hlast
      obtain rfl : a.lastIndex = last := some.inj (h.lastIndex.symm.trans hlast)
      subst hrun
      exact ⟨a, h.commit hlt hle⟩

/-- Every change of a log by a step that reports nothing persisted keeps it sound. -/
theorem change (h : Sound l a) {role : StateRole} (hsent : ∀ m, env.sent m → m.Numbered)
    (hpersist : ∀ u, ¬env.persist u) (hchange : Change env role l l') :
    ∃ a', Sound l' a' ∧ Later l a l' a' := by
  cases hchange with
  | grow hgrowth => exact h.growth hgrowth
  | maybeAppend m result hm hkind hrole hrun => exact h.maybeAppend (hsent m hm hkind) hrun
  | restore m hm hkind hrole hcommitted hrun => exact ⟨_, h.restore hcommitted hrun⟩
  | persist index term henv => exact absurd henv (hpersist _)
  | persistSnapshot index updated henv hrun => exact absurd henv (hpersist _)

/-- So does a chain of elementary steps. -/
theorem steps {c c' : NodeCore σ} (h : Sound c.log a) (hsent : ∀ m, env.sent m → m.Numbered)
    (hpersist : ∀ u, ¬env.persist u) (hsteps : Steps env c c') :
    ∃ a', Sound c'.log a' ∧ Later c.log a c'.log a' := by
  induction hsteps with
  | refl => exact ⟨a, h, .refl _ _⟩
  | tail _ hstep ih =>
      obtain ⟨a₁, h₁, hlater⟩ := ih
      obtain ⟨a₂, h₂, hlater'⟩ := h₁.change hsent hpersist hstep.change
      exact ⟨a₂, h₂, hlater.trans hlater'⟩

end Sound

/-! ## Committed entries on their way out -/

/-- `es` may be handed to the application next: the entries of the log from `next` on that are
committed and persisted, some of them if there are any. -/
structure Delivers (l : RaftLog σ) (a : AbstractLog) (next : ℕ) (es : List Entry) : Prop where
  numbered : NumberedFrom next es
  bound : es ≠ [] → next + es.length ≤ min l.committed l.persisted + 1
  held : es = a.between next (next + es.length)
  stops : es = [] → min l.committed l.persisted < next

namespace Sound

variable {l : RaftLog σ} {a : AbstractLog}

omit [WritableStorage σ] [Codec] [LawfulStorage σ] in
theorem numbered_between (h : a.Contiguous) {low high : ℕ} (hlow : a.index < low) :
    NumberedFrom low (a.between low high) := by
  have hdrop := (NumberedFrom.drop h (low - (a.index + 1))).take (high - low)
  rwa [show a.index + 1 + (low - (a.index + 1)) = low by omega] at hdrop

/-- The slice `NextEntriesSince` asks for. -/
theorem nextEntriesSince_bounds (h : Sound l a) (since : ℕ) :
    max (since + 1) a.firstIndex = max since a.index + 1 ∧
      l.appliedIndexUpperBound = min l.committed l.persisted := by
  rw [appliedIndexUpperBound, h.limit, Nat.add_zero]
  unfold AbstractLog.firstIndex
  omega

/-- What `NextEntriesSince` returns. -/
theorem nextEntriesSince [PagingStorage σ] (h : Sound l a) {since : ℕ} {maxSize : Option ℕ}
    {entries : Option (List Entry)}
    (hrun : l.nextEntriesSince since maxSize = some entries) :
    Delivers l a (max since a.index + 1) (entries.getD []) := by
  have hlast : l.committed ≤ a.lastIndex := h.committed_le
  obtain ⟨hstart, hbound⟩ := h.nextEntriesSince_bounds since
  simp only [RaftLog.nextEntriesSince, bind_eq_bind, h.firstIndex, bind_some,
    hstart, hbound] at hrun
  split at hrun
  next hmore =>
    obtain ⟨result, hslice, hrun⟩ := of_bind hrun
    cases result with
    | error e => cases hrun
    | ok es =>
        cases hrun
        have hes := h.represents.slice_eq_ok hslice
        unfold AbstractLog.slice AbstractLog.firstIndex at hes
        rw [if_neg (by omega), if_neg (by omega), if_neg (by omega), Except.ok.injEq] at hes
        obtain ⟨k, hk⟩ := limitSize_eq_take (a.between (max since a.index + 1)
          (min l.committed l.persisted + 1)) maxSize
        have hlength := AbstractLog.length_between
          (show a.index < max since a.index + 1 by omega)
          (show min l.committed l.persisted + 1 ≤ a.lastIndex + 1 by omega)
        rw [hk] at hes
        subst hes
        simp only [getD_some]
        refine ⟨(numbered_between h.represents.contiguous (by omega)).take _,
          fun _ => ?_, ?_, fun hnil => ?_⟩
        · simp only [length_take, hlength]
          omega
        · simp only [AbstractLog.between, take_take, length_take, length_drop]
          congr 1
          unfold AbstractLog.lastIndex at hlast
          omega
        · have hzero := congrArg List.length hnil
          simp only [length_take, hlength, length_nil] at hzero
          omega
  next hnone =>
    cases hrun
    refine ⟨.nil _, fun hne => absurd rfl hne, ?_, fun _ => by omega⟩
    simp [AbstractLog.between]

/-- `NextEntriesSince` does not abort. -/
theorem nextEntriesSince_isSome [ReliableStorage σ] (h : Sound l a) (since : ℕ)
    (maxSize : Option ℕ) : (l.nextEntriesSince since maxSize).isSome = true := by
  have hlast : l.committed ≤ a.lastIndex := h.committed_le
  obtain ⟨hstart, hbound⟩ := h.nextEntriesSince_bounds since
  simp only [RaftLog.nextEntriesSince, bind_eq_bind, h.firstIndex, bind_some, hstart, hbound]
  split
  next hmore =>
    rw [h.represents.slice _ _ _ (show GetEntriesContext.genReady.canAsync = false from rfl)]
    unfold AbstractLog.slice AbstractLog.firstIndex
    rw [if_neg (by omega), if_neg (by omega), if_neg (by omega)]
    rfl
  · rfl

end Sound

omit [WritableStorage σ] [Codec] [LawfulStorage σ] in
theorem Delivers.index_range {l : RaftLog σ} {next : ℕ} (h : Delivers l a next es) {e : Entry}
    (he : e ∈ es) :
    next ≤ e.index ∧ e.index < next + es.length ∧ e.index ≤ l.committed ∧
      e.index ≤ l.persisted := by
  have hbound := h.bound (ne_nil_of_mem he)
  obtain ⟨k, hk⟩ := mem_iff_getElem?.mp he
  have hindex := h.numbered k e hk
  have hlt : k < es.length := (List.getElem?_eq_some_iff.mp hk).1
  omega

/-- An entry handed out is what the log returns for its index. -/
theorem Delivers.read [ReliableStorage σ] {l : RaftLog σ} {next : ℕ} (h : Delivers l a next es)
    (hl : Sound l a) {e : Entry} (he : e ∈ es) :
    e.index ≤ l.committed ∧ e.index ≤ l.persisted ∧
      l.slice e.index (e.index + 1) none (.empty false) = some (.ok [e]) := by
  obtain ⟨-, -, hcommitted, hpersisted⟩ := h.index_range he
  rw [h.held] at he
  exact ⟨hcommitted, hpersisted, hl.represents.slice_mem (mem_of_mem_drop (mem_of_mem_take he))⟩

end RaftLog

end Raftpp
