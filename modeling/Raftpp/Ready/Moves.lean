import Raftpp.Ready.Driver

/-!
# The moves of a driven node

Every call of an application is a chain of moves: a run of elementary steps, a
`Ready` taken and written, a written `Ready` settled in the log, a report of what is
persisted, a page of committed entries handed out.  `Move` lists them with what each
does to the node and to the log it represents; an invariant of driven nodes has to
be checked against the moves only.
-/

namespace Raftpp

open List Option RawNode
open LawfulStorage (view)

namespace RaftLog

variable {σ : Type} {l l' : RaftLog σ} {a a' : AbstractLog} {rd : Ready} {store : σ}

theorem wrote_of_accepted {write : σ × Result Unit} (h : accepted write = some store) :
    l.wrote write = some { l with store } := by
  obtain ⟨hok, rfl⟩ := accepted_eq h
  unfold wrote
  rw [hok]

/-! ## Appends only -/

/-- A log that has only been appended to. -/
structure Grows (l : RaftLog σ) (a : AbstractLog) (l' : RaftLog σ) (a' : AbstractLog) :
    Prop where
  store : l'.store = l.store
  snapshot : l'.unstable.snapshot = l.unstable.snapshot
  entries : ∃ extra, l'.unstable.entries = l.unstable.entries ++ extra ∧
    a' = { a with entries := a.entries ++ extra }

theorem Grows.refl (l : RaftLog σ) (a : AbstractLog) : Grows l a l a :=
  ⟨rfl, rfl, [], by simp, by simp⟩

theorem Grows.trans {l'' : RaftLog σ} {a'' : AbstractLog} (h : Grows l a l' a')
    (h' : Grows l' a' l'' a'') : Grows l a l'' a'' := by
  obtain ⟨hstore, hsnapshot, extra, hentries, rfl⟩ := h
  obtain ⟨hstore', hsnapshot', extra', hentries', rfl⟩ := h'
  refine ⟨hstore'.trans hstore, hsnapshot'.trans hsnapshot, extra ++ extra', ?_, ?_⟩
  · rw [hentries', hentries, append_assoc]
  · simp only [append_assoc]

variable [WritableStorage σ] [Codec] [LawfulStorage σ]

/-- `Append` at the end of the log adds to the unstable entries. -/
theorem Represents.append_unstable (h : Represents l a) {es : List Entry} {last : ℕ}
    (hes : NumberedFrom (a.lastIndex + 1) es) (hrun : l.append es = some (l', last)) :
    l'.unstable.entries = l.unstable.entries ++ es := by
  obtain ⟨rfl, rfl⟩ | ⟨first, rest, u, rfl, -, hu, rfl⟩ := append_eq hrun
  · rw [append_nil]
  · obtain ⟨e, es, size, hcons, -, rfl⟩ := Unstable.truncateAndAppend_some hu
    cases hcons
    simp only
    rw [take_of_length_le]
    have hoffset := h.offset_add
    have hfirst := hes.head
    omega

theorem Sound.grow (h : Sound l a) (hgrowth : Growth l l') :
    ∃ a', Sound l' a' ∧ Later l a l' a' ∧ Grows l a l' a' := by
  cases hgrowth with
  | same hsame =>
      obtain ⟨hsound, hlater⟩ := h.same hsame
      exact ⟨a, hsound, hlater, hsame.store, by rw [hsame.unstable], [],
        by rw [hsame.unstable, append_nil], by simp⟩
  | append term last index entries hlast hrun =>
      obtain ⟨hsound, hlater⟩ := h.append hlast hrun
      obtain rfl : a.lastIndex = last := some.inj (h.lastIndex.symm.trans hlast)
      exact ⟨_, hsound, hlater, hlater.store, (append_keeps hrun).snapshot, _,
        h.represents.append_unstable (Raft.numberEntries_numbered term _ entries) hrun, rfl⟩
  | commit i hlt hlast hrun =>
      obtain ⟨last, hlast, hle⟩ := hlast
      obtain rfl : a.lastIndex = last := some.inj (h.lastIndex.symm.trans hlast)
      subst hrun
      obtain ⟨hsound, hlater⟩ := h.commit hlt hle
      exact ⟨a, hsound, hlater, rfl, rfl, [], by simp, by simp⟩

/-- Without a message of a leader the log only grows. -/
theorem Sound.grow_steps {env : Env} {c c' : NodeCore σ} (h : Sound c.log a)
    (hsent : ∀ m, env.sent m → m.msgType ≠ .msgAppend ∧ m.msgType ≠ .msgSnapshot)
    (hpersist : ∀ u, ¬env.persist u) (hsteps : Steps env c c') :
    ∃ a', Sound c'.log a' ∧ Later c.log a c'.log a' ∧ Grows c.log a c'.log a' := by
  induction hsteps with
  | refl => exact ⟨a, h, .refl _ _, .refl _ _⟩
  | tail _ hstep ih =>
      obtain ⟨a₁, h₁, hlater, hgrows⟩ := ih
      obtain ⟨a₂, h₂, hlater', hgrows'⟩ := h₁.grow (hstep.change.growth hpersist (Or.inr hsent))
      exact ⟨a₂, h₂, hlater.trans hlater', hgrows.trans hgrows'⟩

/-! ## A `Ready` in the log -/

/-- The log while `rd` is being worked on: the storage holds what `rd` asked for, and the log
has at most been appended to since. -/
structure Taken (l : RaftLog σ) (a : AbstractLog) (rd : Ready) : Prop where
  snapshot : rd.snapshot = l.unstable.snapshot
  index : l.stored.index = a.index
  term : l.stored.term = a.term
  entries : ∃ extra, l.unstable.entries = rd.entries ++ extra ∧
    a.entries = l.stored.entries ++ extra

theorem Taken.of_stored (h : Stored l a) (hsnapshot : rd.snapshot = l.unstable.snapshot)
    (hentries : rd.entries = l.unstable.entries) : Taken l a rd :=
  ⟨hsnapshot, h.1, h.2.1, [], by simp [hentries], by simp [h.2.2]⟩

theorem Taken.congr (h : Taken l a rd) (hstore : l'.store = l.store)
    (hunstable : l'.unstable = l.unstable) : Taken l' a rd := by
  obtain ⟨hsnapshot, hindex, hterm, hentries⟩ := h
  refine ⟨hunstable ▸ hsnapshot, ?_, ?_, ?_⟩ <;> simp only [stored, hstore, hunstable]
  · exact hindex
  · exact hterm
  · exact hentries

theorem Taken.grow (h : Taken l a rd) (hgrows : Grows l a l' a') : Taken l' a' rd := by
  obtain ⟨hstore, hsnapshot, extra, hentries, rfl⟩ := hgrows
  obtain ⟨before, hunstable, hlog⟩ := h.entries
  refine ⟨h.snapshot.trans hsnapshot.symm, ?_, ?_, before ++ extra, ?_, ?_⟩
  · rw [stored, hstore]
    exact h.index
  · rw [stored, hstore]
    exact h.term
  · rw [hentries, hunstable, append_assoc]
  · rw [stored, hstore, ← append_assoc, ← hlog]

omit [Codec] [LawfulStorage σ] in
theorem writeSnapshot_of_store (hsnapshot : rd.snapshot = l.unstable.snapshot)
    (h : RawNode.writeSnapshot l.store rd = some store) :
    l.writeSnapshot l.unstable.snapshot = some { l with store } := by
  unfold RawNode.writeSnapshot at h
  rw [← hsnapshot]
  cases hrd : rd.snapshot with
  | none =>
      rw [hrd] at h
      cases h
      rfl
  | some snapshot =>
      rw [hrd] at h
      exact wrote_of_accepted h

omit [Codec] [LawfulStorage σ] in
theorem writeEntries_of_store (hentries : rd.entries = l.unstable.entries)
    (h : RawNode.writeEntries l.store rd = some store) :
    l.writeEntries l.unstable.entries = some { l with store } := by
  unfold RawNode.writeEntries at h
  rw [hentries] at h
  unfold writeEntries
  split at h
  next hnil =>
    cases h
    rw [if_pos hnil]
  next hne =>
    rw [if_neg hne]
    exact wrote_of_accepted h

omit [Codec] in
/-- The hard state is no part of the stored log. -/
theorem view_writeHardState [Codec] [LawfulStorage σ] {store' : σ}
    (h : RawNode.writeHardState store rd = some store') :
    ∃ hs, view store' = { view store with hardState := hs } := by
  unfold RawNode.writeHardState at h
  split at h
  next hs _ =>
    simp only [accepted] at h
    split at h
    next hok =>
      cases h
      exact ⟨hs, LawfulStorage.setHardState_eq store hs hok⟩
    · cases h
  · cases h
    exact ⟨(view store).hardState, rfl⟩

/-- A written `Ready` completes the storage. -/
theorem Represents.persist (h : Represents l a) (hsnapshot : rd.snapshot = l.unstable.snapshot)
    (hentries : rd.entries = l.unstable.entries) (hrun : RawNode.persist l.store rd = some store) :
    Represents { l with store } a ∧ Stored { l with store } a := by
  unfold RawNode.persist at hrun
  obtain ⟨store₁, hfirst, hrun⟩ := of_bind hrun
  obtain ⟨store₂, hsecond, hthird⟩ := of_bind hrun
  obtain ⟨hrep₁, -, hpoint⟩ := h.writeSnapshot (writeSnapshot_of_store hsnapshot hfirst)
  obtain ⟨hrep₂, -, hstored⟩ := hrep₁.writeEntries hpoint
    (writeEntries_of_store (l := { l with store := store₁ }) hentries hsecond)
  obtain ⟨hs, hview⟩ := view_writeHardState hthird
  have hlog : Stored { l with store } a := by
    simp only [Stored, stored, hview]
    exact hstored
  refine ⟨⟨?_, h.contiguous, h.lt_offset, h.offset_add, h.entries, h.pending, ?_, ?_⟩, hlog⟩
  · simp only [stored, hview]
    exact hrep₂.stored_contiguous
  · exact fun _ => ⟨hlog.1, hlog.2.1, by rw [hlog.2.2]⟩
  · exact fun _ _ => hlog.2.2

theorem Represents.unstable_numbered (h : Represents l a) :
    NumberedFrom l.unstable.offset l.unstable.entries := by
  have hlt := h.lt_offset
  have hdrop := NumberedFrom.drop h.contiguous (l.unstable.offset - (a.index + 1))
  rw [← h.entries] at hdrop
  rwa [show a.index + 1 + (l.unstable.offset - (a.index + 1)) = l.unstable.offset by
    omega] at hdrop

/-- Nothing is appended after the entries that `StableEntries` accepts. -/
theorem Taken.stored (h : Taken l a rd) (hl : Represents l a) {i t : ℕ}
    (hrecord : rd.record.lastEntry = some (i, t)) (hrun : l.stableEntries i t = some l') :
    Stored l a := by
  obtain ⟨extra, hunstable, hlog⟩ := h.entries
  obtain ⟨last, hlast, hpair⟩ := map_eq_some_iff.mp hrecord
  obtain ⟨rfl, rfl⟩ := Prod.mk.inj hpair
  obtain ⟨-, entry, hentry, hindex, -, -⟩ := stableEntries_eq hrun
  -- both are the last of consecutively numbered entries, so nothing stands between them
  have hnumbered := hl.unstable_numbered
  rw [getLast?_eq_getElem?] at hlast hentry
  have hbefore : rd.entries.length - 1 < rd.entries.length :=
    (List.getElem?_eq_some_iff.mp hlast).1
  have hlast' : l.unstable.entries[rd.entries.length - 1]? = some last := by
    rw [hunstable, List.getElem?_append_left hbefore]
    exact hlast
  have hfirst := hnumbered _ last hlast'
  have hsecond := hnumbered _ entry hentry
  rw [hunstable, length_append] at hsecond
  have hnil : extra = [] := length_eq_zero_iff.mp (by omega)
  exact ⟨h.index, h.term, by rw [hlog, hnil, append_nil]⟩

/-- With the snapshot written, it can go. -/
theorem Taken.stableSnapshot (h : Taken l a rd) (hl : Represents l a) {i : ℕ}
    (hrun : l.stableSnapshot i = some l') :
    Represents l' a ∧ l' = { l with unstable := { l.unstable with snapshot := none } } := by
  obtain ⟨⟨snapshot, hsnapshot⟩, rfl⟩ := stableSnapshot_eq hrun
  obtain ⟨extra, hunstable, hlog⟩ := h.entries
  obtain ⟨hindex, -, hoffset⟩ := hl.pending snapshot hsnapshot
  refine ⟨⟨hl.stored_contiguous, hl.contiguous, hl.lt_offset, hl.offset_add, hl.entries, ?_,
    ?_, ?_⟩, rfl⟩
  · intro pending hpending
    cases hpending
  · intro _
    refine ⟨h.index, h.term, ?_⟩
    rw [show l.unstable.offset - (a.index + 1) = 0 by omega]
    rfl
  · intro _ hnil
    simp only at hnil
    rw [hnil] at hunstable
    obtain ⟨-, hextra⟩ := append_eq_nil_iff.mp hunstable.symm
    rw [hlog, hextra, append_nil]

/-- `CommitReady` in the log: what is written is dropped from the log's memory. -/
theorem Sound.settle (h : Sound l a) (htaken : Taken l a rd)
    (hrun : RawNode.stableRecord rd.record l = some l') :
    Sound l' a ∧ l' = { l with unstable := l'.unstable } ∧ l'.unstable.snapshot = none ∧
      l.unstable.offset ≤ l'.unstable.offset := by
  have hplain : ∀ {l' : RaftLog σ}, Represents l' a → l.unstable.offset ≤ l'.unstable.offset →
      l' = { l with unstable := l'.unstable } → l'.unstable.snapshot = none →
      Sound l' a ∧ l' = { l with unstable := l'.unstable } ∧ l'.unstable.snapshot = none ∧
        l.unstable.offset ≤ l'.unstable.offset := by
    intro l' hrep hoffset hsame hsnapshot
    refine ⟨of_follows (h.toFollows.of_marked hrep hoffset hsame) ?_ ?_, hsame, hsnapshot, hoffset⟩
    · rw [hsame]
      exact h.limit
    · exact fun hpending => absurd hsnapshot hpending
  have hnone : rd.record.snapshot = none → l.unstable.snapshot = none := by
    intro hnone
    rw [← htaken.snapshot]
    simpa [Ready.record] using hnone
  unfold RawNode.stableRecord at hrun
  split at hrun
  next hsnapshot _ =>
    cases hrun
    exact hplain h.represents le_rfl rfl (hnone hsnapshot)
  next =>
    obtain ⟨hrep, rfl⟩ := htaken.stableSnapshot h.represents hrun
    exact hplain hrep le_rfl rfl rfl
  next index term hsnapshot hentry =>
    have hstored := htaken.stored h.represents hentry hrun
    obtain ⟨hrep, hoffset, hsame⟩ := h.represents.stableEntries hstored hrun
    refine hplain hrep hoffset hsame ?_
    exact (stableEntries_settled hrun).snapshot
  next hentry =>
    obtain ⟨l₁, hfirst, hrun⟩ := of_bind hrun
    obtain ⟨hrep₁, rfl⟩ := htaken.stableSnapshot h.represents hfirst
    obtain ⟨extra, hunstable, hlog⟩ := htaken.entries
    have htaken₁ : Taken { l with unstable := { l.unstable with snapshot := none } } a
        { rd with snapshot := none } :=
      ⟨rfl, htaken.index, htaken.term, extra, hunstable, hlog⟩
    have hstored := htaken₁.stored hrep₁ hentry hrun
    obtain ⟨hrep, hoffset, hsame⟩ := hrep₁.stableEntries hstored hrun
    exact hplain hrep hoffset hsame (stableEntries_settled hrun).snapshot

/-- A report of something persisted keeps a log sound. -/
theorem Sound.persisted {persisted : ℕ} (h : Sound l a) (hlt : persisted < l.unstable.offset)
    (hle : l.unstable.snapshot ≠ none → persisted ≤ a.index) : Sound { l with persisted } a :=
  ⟨h.toFollows.persisted hlt, h.limit, hle⟩

theorem Sound.reportedSnapshot {snapIndex : ℕ} (h : Sound l a)
    (hrun : RawNode.reportedSnapshot l snapIndex = some l') : Sound l' a := by
  obtain rfl | ⟨-, -, hoffset, rfl⟩ := reportedSnapshot_eq hrun
  · exact h
  · refine h.persisted hoffset fun hpending => ?_
    obtain ⟨snapshot, hsnapshot⟩ := ne_none_iff_exists'.mp hpending
    obtain ⟨hindex, -, hat⟩ := h.represents.pending snapshot hsnapshot
    omega

theorem Sound.reportedEntries (h : Sound l a) (index term : ℕ) :
    Sound (RawNode.reportedEntries l index term) a := by
  rcases reportedEntries_eq l index term with hsame | ⟨-, -, hlimit, -, hmoved⟩
  · rw [hsame]
    exact h
  · have hoffset := h.represents.firstUpdateIndex_le
    rw [hmoved]
    refine h.persisted (by omega) fun hpending => ?_
    obtain ⟨snapshot, hsnapshot⟩ := ne_none_iff_exists'.mp hpending
    obtain ⟨hindex, -, hat⟩ := h.represents.pending snapshot hsnapshot
    omega

end RaftLog

namespace Driven

variable {σ : Type} [WritableStorage σ] [Codec] [LawfulStorage σ]

variable {rd : Ready} {pages : List (Page σ)} {a' : AbstractLog} {store : σ}

/-- The log of a driven node represents `a`, and while a `Ready` is being worked on, the storage
holds what it asked for. -/
structure Sound (d : Driven σ) (a : AbstractLog) : Prop where
  log : d.node.raft.raftLog.Sound a
  taken : ∀ rd, d.pending = some rd → d.node.raft.raftLog.Taken a rd
  recorded : ∀ rd, d.pending = some rd → d.node.records.getLast? = some rd.record
  number : ∀ rd, d.pending = some rd → rd.number = d.node.maxNumber

/-- What a node may meet between two cycles. -/
def inputEnv (r : Raft σ) (call : RawNode.Input) : Env where
  sent m := call = .step m
  proper := True
  persist _ := False
  elect := call.elects = true
  outdate := r.checkQuorum = true ∨ r.preVote = true
  propose e := e.entryType = .entryConfChange →
    ∃ m, call = .step m ∧ m.msgType = .msgPropose ∧ e ∈ m.entries
  transfer := True
  stale := True

/-- What a node may meet while nothing is delivered to it. -/
def quietEnv : Env where
  sent _ := False
  proper := True
  persist _ := False
  elect := False
  outdate := False
  propose e := e.entryType ≠ .entryConfChange
  transfer := False
  stale := False

omit [WritableStorage σ] [LawfulStorage σ] in
theorem quietEnv_propose (ctx : Bytes) (cc : ConfChangeV2) :
    quietEnv.propose (RawNode.confChangeEntry ctx cc) := by
  simp [quietEnv, RawNode.confChangeEntry, RawNode.setEntryChecksum]

omit [WritableStorage σ] [LawfulStorage σ] in
theorem quietEnv_ofLeader (e : Entry) (he : e.OfLeader) : quietEnv.propose e := by
  rcases he with rfl | rfl <;> simp [quietEnv]

/-- The moves of a driven node whose inputs and `Ready`s meet `P`, and what they do to the log
it represents. -/
inductive Move (P : Driven σ → Drive → Prop) (d : Driven σ) (a : AbstractLog) :
    Driven σ → AbstractLog → List (Page σ) → Prop
  | run (env : Env) (tracker : ProgressTracker) (promotable : Bool) (raft : Raft σ)
      (a' : AbstractLog) (hsent : ∀ m, env.sent m → m.Arrives d.node.raft.id)
      (henv : env = quietEnv ∨ ∃ call, env = inputEnv d.node.raft call ∧ P d (.input call) ∧
        d.node.input call = some { d.node with raft })
      (htracker : tracker = d.node.raft.tracker ∨
        ∃ cfg changes last, tracker = d.node.raft.tracker.applyConf cfg changes last)
      (hsteps : Steps env ({ d.node.raft with tracker, promotable } : Raft σ).core raft.core)
      (hlog : raft.raftLog.Sound a') (hlater : d.node.raft.raftLog.Later a raft.raftLog a')
      (hindex : d.pending ≠ none → a'.index = a.index) :
      Move P d a { d with node := { d.node with raft } } a' []
  | ready (node : RawNode σ) (store : σ) (rd : Ready) (hop : P d .ready)
      (hidle : d.pending = none)
      (htakes : RawNode.Takes d.node node rd) (hoffers : RawNode.Offers d.node node rd)
      (hstored : RaftLog.Stored { d.node.raft.raftLog with store } a) :
      Move P d a
        { d with node := node.setStore store, pending := some rd, taken := rd :: d.taken } a
        [{ log := d.node.raft.raftLog, snapshot := rd.snapshot.map fun s => s.metadata.index
           entries := rd.light.committedEntries }]
  | settle (rd : Ready) (log : RaftLog σ) (hpending : d.pending = some rd)
      (hsame : log = { d.node.raft.raftLog with unstable := log.unstable })
      (hsnapshot : log.unstable.snapshot = none)
      (hoffset : d.node.raft.raftLog.unstable.offset ≤ log.unstable.offset) :
      Move P d a
        { d with
          node := { d.node with
            prevSs := rd.ss.getD d.node.prevSs, prevHs := rd.hs.getD d.node.prevHs
            raft := { d.node.raft with raftLog := log } }
          pending := none } a []
  | report (number index term snapIndex : ℕ) (records : List ReadyRecord) (log : RaftLog σ)
      (hnumber : number ≤ d.node.maxNumber ∧ ∀ rd, d.pending = some rd → number < rd.number)
      (hrecords : RawNode.persistedUpTo number (0, 0, 0) d.node.records =
        ((index, term, snapIndex), records))
      (hlog : RawNode.reportedSnapshot d.node.raft.raftLog snapIndex = some log) :
      Move P d a
        { d with
          node := { d.node with
            raft := { d.node.raft with raftLog := RawNode.reportedEntries log index term }
            records }
          acked := max d.acked number } a []
  | hand (node : RawNode σ) (messages : List Message) (entries : List Entry)
      (hsnapshot : d.node.raft.raftLog.unstable.snapshot = none)
      (hflushes : RawNode.Flushes d.node node messages)
      (hhands : RawNode.Hands d.node node entries) :
      Move P d a { d with node } a [{ log := d.node.raft.raftLog, entries }]
  | note (prevHs : HardState) (h : d.node.raft.hardState = prevHs) :
      Move P d a { d with node := { d.node with prevHs } } a []

/-- A chain of moves through sound states. -/
inductive Moves (P : Driven σ → Drive → Prop) :
    Driven σ → AbstractLog → Driven σ → AbstractLog → List (Page σ) → Prop
  | refl (d : Driven σ) (a : AbstractLog) : Moves P d a d a []
  | head {d d₁ d₂ : Driven σ} {a a₁ a₂ : AbstractLog} {pages rest : List (Page σ)}
      (h : d.Sound a) (hmove : Move P d a d₁ a₁ pages) (hrest : Moves P d₁ a₁ d₂ a₂ rest) :
      Moves P d a d₂ a₂ (pages ++ rest)

variable {P : Driven σ → Drive → Prop}

theorem Moves.single {d d' : Driven σ} {a : AbstractLog} (h : d.Sound a)
    (hmove : Move P d a d' a' pages) : Moves P d a d' a' pages := by
  have hmoves := Moves.head h hmove (.refl d' a')
  rwa [append_nil] at hmoves

theorem Moves.trans {d d₁ d₂ : Driven σ} {a a₁ a₂ : AbstractLog} {rest : List (Page σ)}
    (h : Moves P d a d₁ a₁ pages) (h' : Moves P d₁ a₁ d₂ a₂ rest) :
    Moves P d a d₂ a₂ (pages ++ rest) := by
  induction h with
  | refl d a => exact h'
  | head hsound hmove _ ih =>
      rw [append_assoc]
      exact .head hsound hmove (ih h')

/-! ## Calls as moves -/

section Calls

variable {d d' : Driven σ} {a : AbstractLog} {node : RawNode σ}

/-- A run of elementary steps that are no input. -/
theorem Sound.run_quiet (h : d.Sound a) {tracker : ProgressTracker} {promotable : Bool}
    {raft : Raft σ} (htracker : tracker = d.node.raft.tracker ∨
      ∃ cfg changes last, tracker = d.node.raft.tracker.applyConf cfg changes last)
    (hsteps : Steps quietEnv ({ d.node.raft with tracker, promotable } : Raft σ).core raft.core) :
    ∃ a', Sound { d with node := { d.node with raft } } a' ∧
      Moves P d a { d with node := { d.node with raft } } a' [] := by
  have hlog : RaftLog.Sound ({ d.node.raft with tracker, promotable } : Raft σ).core.log a := h.log
  obtain ⟨a', hsound, hlater, hgrows⟩ := hlog.grow_steps (fun _ => False.elim) (fun _ => id) hsteps
  refine ⟨a', ⟨hsound, fun rd hrd => (h.taken rd hrd).grow hgrows, h.recorded, h.number⟩, ?_⟩
  refine .single h (.run quietEnv tracker promotable raft a' (fun _ => False.elim) (Or.inl rfl)
    htracker hsteps hsound hlater fun _ => ?_)
  obtain ⟨-, -, extra, -, rfl⟩ := hgrows
  rfl

/-- A run of elementary steps between two cycles. -/
theorem Sound.run_input (h : d.Sound a) (hidle : d.pending = none) {call : RawNode.Input}
    {raft : Raft σ} (hop : P d (.input call))
    (hcall : d.node.input call = some { d.node with raft })
    (hsent : ∀ m, call = .step m → m.Arrives d.node.raft.id)
    (hsteps : Steps (inputEnv d.node.raft call) d.node.raft.core raft.core) :
    ∃ a', Sound { d with node := { d.node with raft } } a' ∧
      Moves P d a { d with node := { d.node with raft } } a' [] := by
  have hlog : RaftLog.Sound d.node.raft.core.log a := h.log
  obtain ⟨a', hsound, hlater⟩ :=
    hlog.steps (fun m hm => (hsent m hm).numbered) (fun _ => id) hsteps
  have hnone : ∀ rd, d.pending ≠ some rd := fun rd hrd => by
    rw [hidle] at hrd
    cases hrd
  refine ⟨a', ⟨hsound, fun rd hrd => absurd hrd (hnone rd), fun rd hrd => absurd hrd (hnone rd),
    fun rd hrd => absurd hrd (hnone rd)⟩, ?_⟩
  exact .single h (.run (inputEnv d.node.raft call) d.node.raft.tracker d.node.raft.promotable raft
    a'
    hsent (Or.inr ⟨call, rfl, hop, hcall⟩) (Or.inl rfl) hsteps hsound hlater
    fun hpending => absurd hidle hpending)

/-- `GetReady`, and a storage that holds what it asked for. -/
theorem Sound.written (h : d.Sound a) (hop : P d .ready) (hidle : d.pending = none)
    (hready : d.node.getReady = some (node, rd))
    (hrep : RaftLog.Represents { d.node.raft.raftLog with store } a)
    (hstored : RaftLog.Stored { d.node.raft.raftLog with store } a) :
    Sound { d with node := node.setStore store, pending := some rd, taken := rd :: d.taken } a ∧
      Move P d a
        { d with node := node.setStore store, pending := some rd, taken := rd :: d.taken } a
        [{ log := d.node.raft.raftLog, snapshot := rd.snapshot.map fun s => s.metadata.index
           entries := rd.light.committedEntries }] := by
  have htakes := getReady_takes hready
  have hoffers := getReady_offers hready
  have hlog := htakes.raftLog
  refine ⟨⟨?_, ?_, ?_, ?_⟩, .ready node store rd hop hidle htakes hoffers hstored⟩
  · simp only [RawNode.setStore, hlog]
    exact ⟨h.log.toFollows.of_wrote hrep rfl, h.log.limit, h.log.persisted_le⟩
  · intro rd' hrd'
    cases hrd'
    simp only [RawNode.setStore, hlog]
    exact .of_stored hstored htakes.snapshot htakes.entries
  · intro rd' hrd'
    cases hrd'
    obtain ⟨rs, -, hrecords⟩ := hoffers.records
    simp [RawNode.setStore, hrecords]
  · intro rd' hrd'
    cases hrd'
    exact hoffers.maxNumber.symm

/-- `GetReady` and its writes. -/
theorem Sound.takeReady (h : d.Sound a) (hop : P d .ready) (hidle : d.pending = none)
    (hready : d.node.processReady = some (node, rd)) :
    Sound { d with node, pending := some rd, taken := rd :: d.taken } a ∧
      Move P d a { d with node, pending := some rd, taken := rd :: d.taken } a
        [{ log := d.node.raft.raftLog, snapshot := rd.snapshot.map fun s => s.metadata.index
           entries := rd.light.committedEntries }] := by
  obtain ⟨node, store, hget, hpersist, rfl⟩ := processReady_eq hready
  have htakes := getReady_takes hget
  obtain ⟨hrep, hstored⟩ := h.log.represents.persist htakes.snapshot htakes.entries hpersist
  exact h.written hop hidle hget hrep hstored

/-- `CommitReady`. -/
theorem Sound.commitReady (h : d.Sound a) (hpending : d.pending = some rd)
    (hrun : d.node.commitReady rd = some node) :
    Sound { d with node, pending := none } a ∧
      Moves P d a { d with node, pending := none } a [] ∧ node.maxNumber = d.node.maxNumber ∧
      node.raft.raftLog.unstable.snapshot = none := by
  obtain ⟨record, log, hrecord, hstable, rfl⟩ := commitReady_eq hrun
  obtain rfl : rd.record = record :=
    some.inj ((h.recorded rd hpending).symm.trans hrecord)
  obtain ⟨hsound, hsame, hsnapshot, hoffset⟩ := h.log.settle (h.taken rd hpending) hstable
  refine ⟨⟨hsound, ?_, ?_, ?_⟩, .single h (.settle rd log hpending hsame hsnapshot hoffset), rfl,
    hsnapshot⟩ <;>
    exact fun rd' hrd' => by cases hrd'

omit [WritableStorage σ] [Codec] [LawfulStorage σ] in
/-- The records that a report leaves are the last ones. -/
theorem persistedUpTo_suffix (number : ℕ) :
    ∀ (acc : ℕ × ℕ × ℕ) (records : List ReadyRecord),
      ∃ before, records = before ++ (RawNode.persistedUpTo number acc records).2 ∧
        ∀ record ∈ before, record.number ≤ number := by
  intro acc records
  induction records generalizing acc with
  | nil => exact ⟨[], rfl, by simp⟩
  | cons record records ih =>
      obtain ⟨index, term, snapIndex⟩ := acc
      unfold RawNode.persistedUpTo
      split
      · exact ⟨[], rfl, by simp⟩
      next hle =>
        simp only
        generalize hacc : (_, _, _) = acc'
        obtain ⟨before, hbefore, hnumbers⟩ := ih acc'
        refine ⟨record :: before, by rw [cons_append, ← hbefore], ?_⟩
        exact forall_mem_cons.mpr ⟨by omega, hnumbers⟩

omit [WritableStorage σ] [Codec] [LawfulStorage σ] in
/-- What `OnPersistReady` reports comes from one of the records. -/
theorem persistedUpTo_reports (number : ℕ) :
    ∀ (records : List ReadyRecord) {acc : ℕ × ℕ × ℕ} {index term snapIndex : ℕ}
      {rest : List ReadyRecord},
      RawNode.persistedUpTo number acc records = ((index, term, snapIndex), rest) →
      (index = 0 ∨ (acc.1 = index ∧ acc.2.1 = term) ∨
        ∃ record ∈ records, record.number ≤ number ∧ record.lastEntry = some (index, term)) ∧
      (acc.2.2 = snapIndex ∨ ∃ record ∈ records, ∃ t, record.snapshot = some (snapIndex, t)) := by
  intro records
  induction records with
  | nil =>
      intro acc index term snapIndex rest h
      cases h
      exact ⟨Or.inr (Or.inl ⟨rfl, rfl⟩), Or.inl rfl⟩
  | cons record records ih =>
      rintro ⟨i, t, s⟩ index term snapIndex rest h
      unfold RawNode.persistedUpTo at h
      split at h
      · cases h
        exact ⟨Or.inr (Or.inl ⟨rfl, rfl⟩), Or.inl rfl⟩
      next hle =>
        obtain ⟨hentry, hsnapshot⟩ := ih h
        constructor
        · rcases hentry with hzero | ⟨hindex, hterm⟩ | ⟨later, hlater, hnumber, hlast⟩
          · exact Or.inl hzero
          · cases hlast : record.lastEntry with
            | none =>
                cases hsnap : record.snapshot with
                | none =>
                    simp only [hlast, hsnap] at hindex hterm
                    exact Or.inr (Or.inl ⟨hindex, hterm⟩)
                | some snap =>
                    simp only [hlast, hsnap] at hindex
                    exact Or.inl hindex.symm
            | some entry =>
                simp only [hlast] at hindex hterm
                refine Or.inr (Or.inr ⟨record, mem_cons_self, by omega, ?_⟩)
                rw [hlast, ← hindex, ← hterm]
          · exact Or.inr (Or.inr ⟨later, mem_cons_of_mem _ hlater, hnumber, hlast⟩)
        · rcases hsnapshot with hacc | ⟨later, hlater, hsome⟩
          · cases hsnap : record.snapshot with
            | none =>
                simp only [hsnap] at hacc
                exact Or.inl hacc
            | some snap =>
                simp only [hsnap] at hacc
                exact Or.inr ⟨record, mem_cons_self, snap.2, by rw [hsnap, ← hacc]⟩
          · exact Or.inr ⟨later, mem_cons_of_mem _ hlater, hsome⟩

/-- `OnPersistReady`. -/
theorem Sound.onPersistReady (h : d.Sound a) {number : ℕ}
    (hnumber : number ≤ d.node.maxNumber ∧ ∀ rd, d.pending = some rd → number < rd.number)
    (hrun : d.node.onPersistReady number = some node) :
    ∃ a', Sound { d with node, acked := max d.acked number } a' ∧
      Moves P d a { d with node, acked := max d.acked number } a' [] ∧
      node.maxNumber = d.node.maxNumber ∧
      node.raft.raftLog.unstable = d.node.raft.raftLog.unstable := by
  unfold RawNode.onPersistReady at hrun
  obtain ⟨raft, hreport, hrun⟩ := of_bind hrun
  cases hrun
  obtain ⟨before, hbefore, hbelow⟩ := persistedUpTo_suffix number (0, 0, 0) d.node.records
  obtain ⟨⟨index, term, snapIndex⟩, records, hrecords⟩ : ∃ acc records,
      RawNode.persistedUpTo number (0, 0, 0) d.node.records = (acc, records) := ⟨_, _, rfl⟩
  rw [hrecords] at hreport hbefore ⊢
  obtain ⟨log, hlog, hreacts⟩ :=
    @RawNode.reportPersisted_reacts σ _ _ quietEnv _ _ _ _ _ hreport
  have hsame := reported_eq hlog index term
  -- the record of a pending `Ready` is not among those reported
  have hsound : Sound { d with
      node := { d.node with
        raft := { d.node.raft with raftLog := RawNode.reportedEntries log index term }, records }
      acked := max d.acked number } a := by
    refine ⟨(h.log.reportedSnapshot hlog).reportedEntries index term, fun rd hrd => ?_,
      fun rd hrd => ?_, h.number⟩
    · exact (h.taken rd hrd).congr (by rw [hsame]) (by rw [hsame])
    · have hlast := h.recorded rd hrd
      have hlt := hnumber.2 rd hrd
      rw [hbefore] at hlast
      cases hnil : records with
      | nil =>
          rw [hnil, append_nil] at hlast
          have hle := hbelow _ (mem_of_getLast? hlast)
          exact absurd hle (not_le.mpr hlt)
      | cons record rest =>
          rw [hnil, getLast?_append_of_ne_nil _ (by simp)] at hlast
          exact hlast
  obtain ⟨a', hfinal, hmoves⟩ := hsound.run_quiet (Or.inl rfl) hreacts.steps
  exact ⟨a', hfinal,
    .head h (.report number index term snapIndex records log hnumber hrecords hlog) hmoves,
    rfl, (reportPersisted_undisturbed hreport).unstable⟩

/-- `GetLightReady`. -/
theorem Sound.getLightReady (h : d.Sound a) {light : LightReady}
    (hsnapshot : d.node.raft.raftLog.unstable.snapshot = none)
    (hrun : d.node.getLightReady = some (node, light)) :
    Sound { d with node } a ∧
      Moves P d a { d with node } a
        [{ log := d.node.raft.raftLog, entries := light.committedEntries }] := by
  have hflushes := getLightReady_flushes hrun
  have hhands := getLightReady_hands hrun
  have hlog := hflushes.raftLog
  refine ⟨⟨?_, ?_, ?_, ?_⟩, .single h (.hand node light.messages _ hsnapshot hflushes hhands)⟩
  · simp only [hlog]
    exact h.log
  · simp only [hlog]
    exact h.taken
  · simp only [hhands.records]
    exact h.recorded
  · simp only [hhands.maxNumber]
    exact h.number

/-- `AdvanceAppend`. -/
theorem Sound.advanceAppend (h : d.Sound a) {light : LightReady} (hpending : d.pending = some rd)
    (hadvance : d.node.advanceAppend rd = some (node, light)) :
    ∃ a', Sound { d with node, pending := none, acked := max d.acked node.maxNumber } a' ∧
      Moves P d a { d with node, pending := none, acked := max d.acked node.maxNumber } a'
        [{ log := node.raft.raftLog, entries := light.committedEntries }] := by
  obtain ⟨node₁, node₂, node₃, light₃, hcommit, hpersist, hlight, hhard, rfl, -, hentries⟩ :=
    advanceAppend_eq hadvance
  obtain ⟨hsound₁, hmoves₁, -, hsnapshot⟩ := h.commitReady (P := P) hpending hcommit
  obtain ⟨a₂, hsound₂, hmoves₂, hmax₂, hunstable⟩ :=
    hsound₁.onPersistReady (P := P) ⟨le_rfl, fun rd hrd => by cases hrd⟩ hpersist
  obtain ⟨hsound₃, hmoves₃⟩ := hsound₂.getLightReady (P := P)
    ((congrArg Unstable.snapshot hunstable).trans hsnapshot) hlight
  have hmax₃ := (getLightReady_hands hlight).maxNumber
  have hlog := (getLightReady_flushes hlight).raftLog
  refine ⟨a₂, ⟨hsound₃.log, ?_, ?_, ?_⟩, ?_⟩
  · exact fun rd hrd => by cases hrd
  · exact fun rd hrd => by cases hrd
  · exact fun rd hrd => by cases hrd
  · have hmoves := (hmoves₁.trans (hmoves₂.trans hmoves₃)).trans
      (.single hsound₃ (.note _ rfl))
    have hacked : max d.acked node₃.maxNumber = max d.acked node₁.maxNumber :=
      congrArg (max d.acked) (hmax₃.trans hmax₂)
    simp only [hlog, hacked, hentries]
    simpa using hmoves

omit [LawfulStorage σ] in
/-- An input is a run of elementary steps between two cycles. -/
theorem input_steps {call : RawNode.Input} (hlegal : d.Legal (.input call))
    (hrun : d.step (.input call) = some (d', pages)) :
    d.pending = none ∧ pages = [] ∧ (∀ m, call = .step m → m.Arrives d.node.raft.id) ∧
      ∃ raft, d.node.input call = some { d.node with raft } ∧
        Steps (inputEnv d.node.raft call) d.node.raft.core raft.core ∧
        d' = { d with node := { d.node with raft } } := by
  have harrives : ∀ m, call = .step m → m.Arrives d.node.raft.id := by
    rintro m rfl
    exact hlegal
  have hpropose : ∀ e, call.Proposes e → (inputEnv d.node.raft call).propose e := by
    intro e he hconf
    cases call with
    | step m => exact ⟨m, rfl, he⟩
    | propose ctx data =>
        obtain rfl : e = _ := he
        cases hconf
    | _ => exact he.elim
  cases step_makes hrun with
  | input _ node hnone hcall =>
      obtain ⟨raft, hsteps, rfl⟩ := @RawNode.input_eq σ _ _ (inputEnv d.node.raft call) d.node node
        call hcall
        (fun m hm hprotocol => ⟨hm, fun _ => (harrives m hm).receiver,
          fun _ => (harrives m hm).term_ne hprotocol⟩)
        (fun m _ => ⟨fun _ => trivial, fun _ _ _ _ _ => trivial⟩) id id hpropose
      exact ⟨hnone, rfl, harrives, raft, hcall, hsteps, rfl⟩

/-- Every legal call of an application is a chain of moves. -/
theorem Sound.step (h : d.Sound a) {op : Drive} (hop : P d op) (hlegal : d.Legal op)
    (hrun : d.step op = some (d', pages)) : ∃ a', d'.Sound a' ∧ Moves P d a d' a' pages := by
  cases step_makes hrun with
  | input call node hidle hcall =>
      obtain ⟨hnone, -, harrives, raft, hcall, hsteps, hd'⟩ := input_steps hlegal hrun
      rw [hd']
      exact h.run_input hnone hop hcall harrives hsteps
  | proposeConfChange ctx cc node hidle hcall =>
      obtain ⟨raft, hsteps, rfl⟩ :=
        proposeConfChange_eq (quietEnv_propose ctx cc) hcall
      exact h.run_quiet (Or.inl rfl) hsteps
  | applyConfChange cc node hcall =>
      obtain ⟨tracker, promotable, raft, htracker, hreacts, rfl⟩ :=
        applyConfChange_eq hcall
      exact h.run_quiet htracker hreacts.steps
  | ready node rd hidle hready =>
      obtain ⟨hsound, hmove⟩ := h.takeReady hop hidle hready
      exact ⟨a, hsound, .single h hmove⟩
  | advance rd node node' light hpending happend happly =>
      obtain ⟨a₁, hsound₁, hmoves₁⟩ := h.advanceAppend hpending happend
      obtain ⟨raft, hsteps, rfl⟩ := advanceApplyTo_eq quietEnv_ofLeader happly
      obtain ⟨a₂, hsound₂, hmoves₂⟩ := hsound₁.run_quiet (Or.inl rfl) hsteps
      have hmoves := hmoves₁.trans hmoves₂
      rw [append_nil] at hmoves
      exact ⟨a₂, hsound₂, hmoves⟩
  | advanceAppend rd node light hpending happend =>
      exact h.advanceAppend hpending happend
  | advanceAppendAsync rd node hpending hcommit =>
      obtain ⟨hsound, hmoves, -⟩ := h.commitReady hpending hcommit
      exact ⟨a, hsound, hmoves⟩
  | onPersistReady number node hpersist =>
      obtain ⟨a', hsound, hmoves, -⟩ := h.onPersistReady hlegal hpersist
      exact ⟨a', hsound, hmoves⟩
  | advanceApplyTo applied node hcall =>
      obtain ⟨raft, hsteps, rfl⟩ := advanceApplyTo_eq quietEnv_ofLeader hcall
      exact h.run_quiet (Or.inl rfl) hsteps

/-- So is every run. -/
theorem Sound.run {ops : List Drive} (h : d.Sound a) (hP : ∀ d op, P d op → d.Legal op)
    (hrun : Run P d ops d' pages) : ∃ a', d'.Sound a' ∧ Moves P d a d' a' pages := by
  induction hrun generalizing a with
  | nil d => exact ⟨a, h, .refl d a⟩
  | cons hop hstep _ ih =>
      obtain ⟨a₁, hsound₁, hmoves₁⟩ := h.step hop (hP _ _ hop) hstep
      obtain ⟨a₂, hsound₂, hmoves₂⟩ := ih hsound₁
      exact ⟨a₂, hsound₂, hmoves₁.trans hmoves₂⟩

end Calls

end Driven

/-! ## A new node -/

namespace Raft

variable {σ : Type} [WritableStorage σ] [Codec] [LawfulStorage σ] {r r' : Raft σ}

/-- The log of a new node is the one its storage holds. -/
theorem new_sound {config : Config} {store : σ} {rng : ℕ → ℕ}
    (hstore : (view store).Contiguous) (h : Raft.new config store rng = some r) :
    r.raftLog.Sound (LogSpec.ofStable (view store)).toAbstractLog ∧
      r.raftLog.unstable.snapshot = none := by
  obtain ⟨state, -, hboot⟩ := new_booted h
  obtain ⟨first, last, hfirst, hlast, hraftStore, hunstable, hpersisted, hcommitted⟩ := hboot.log
  have hlog : RaftLog.new 0 store = some
      { store, unstable := { offset := last + 1 }, committed := first - 1
        persisted := last, applied := first - 1, maxApplyUnpersistedLogLimit := 0 } := by
    simp [RaftLog.new, hfirst, hlast]
  have hnew := (RaftLog.Refines.new hstore hlog).toFollows
  have hstart : first - 1 = _ := hnew.committed_eq
  have hbound := hnew.committed_le
  have hend : (LogSpec.ofStable (view store)).lastIndex = last := by
    have heq := hlast.symm.trans (LawfulStorage.lastIndex_eq store hstore)
    exact (Except.ok.inj heq).symm
  refine ⟨⟨hnew.of_cursors hraftStore hunstable rfl rfl ?_ ?_ ?_, hboot.limit, fun hpending => ?_⟩,
    by rw [hunstable]⟩
  · simp only
    omega
  · simp only
    omega
  · rw [hpersisted]
    exact Nat.lt_succ_self last
  · exact absurd (congrArg Unstable.snapshot hunstable) hpending

end Raft

/-- A driven node before its first call. -/
theorem Driven.Sound.new {σ : Type} [WritableStorage σ] [Codec] [LawfulStorage σ]
    {config : Config} {store : σ} {rng : ℕ → ℕ} {n : RawNode σ}
    (hstore : (view store).Contiguous)
    (h : RawNode.new config store rng = some n) :
    Driven.Sound { node := n } (LogSpec.ofStable (view store)).toAbstractLog ∧
      n.raft.raftLog.unstable.snapshot = none ∧ n.raft.state = .follower ∧
      n.commitSinceIndex = config.applied ∧ n.records = [] ∧ n.raft.id ≠ 0 := by
  obtain ⟨hid, -, hsince, hrecords, state, -, hboot⟩ := new_booted h
  unfold RawNode.new at h
  obtain ⟨raft, hraft, h⟩ := of_bind h
  split at h
  · cases h
  · cases h
    obtain ⟨hsound, hsnapshot⟩ := Raft.new_sound hstore hraft
    refine ⟨⟨hsound, ?_, ?_, ?_⟩, hsnapshot, hboot.role, hsince, hrecords, hboot.id ▸ hid⟩ <;>
      exact fun rd hrd => by cases hrd

end Raftpp
