import Raftpp.Ready.Moves

/-!
# What counts as persisted is durable

With `AdvanceAppendAsync` an application takes the next `Ready` while earlier ones are
still being written, and a later one may write an index again.  A log's `persisted`
index is to cover an index only after the last `Ready` that wrote it was reported.
`OnPersistReady` compares the last entry of the reported `Ready` with the storage,
so this holds as long as no `Ready` brings back the last entry of an earlier one
that is still outstanding (`Fresh`).
-/

namespace Raftpp

open RawNode RaftLog

variable {i nextIdx : ℕ} {pr : Progress} {rd : Ready}

open List Option
open LawfulStorage (view)

namespace ProgressTracker

theorem applyChange_matched {id : ℕ} {t : ProgressTracker} {change : ℕ × MapChangeType}
    (h : (t.applyChange nextIdx change).get id = some pr) :
    pr.matched = 0 ∨ t.get id = some pr := by
  unfold applyChange at h
  split at h <;> simp only [get, ListMap.get_emplace, ListMap.get_erase] at h ⊢
  · cases hget : ListMap.get t.progress id with
    | some pr' =>
        rw [hget, some_or] at h
        exact Or.inr h
    | none =>
        rw [hget, none_or] at h
        split at h <;> cases h
        exact Or.inl rfl
  · split at h
    · cases h
    · exact Or.inr h

theorem foldl_applyChange_matched {id : ℕ} :
    ∀ (changes : MapChange) (t : ProgressTracker),
      (changes.foldl (applyChange nextIdx) t).get id = some pr →
        pr.matched = 0 ∨ t.get id = some pr := by
  intro changes
  induction changes with
  | nil => exact fun t h => Or.inr h
  | cons change changes ih =>
      intro t h
      rcases ih _ h with hzero | hget
      · exact Or.inl hzero
      · exact applyChange_matched hget

/-- A configuration change leaves a peer's matched index alone or sets it to zero. -/
theorem applyConf_matched {id : ℕ} {conf : TrackerConfiguration} {changes : MapChange}
    {t : ProgressTracker} (h : (t.applyConf conf changes nextIdx).get id = some pr) :
    pr.matched = 0 ∨ t.get id = some pr :=
  foldl_applyChange_matched changes { t with conf } h

end ProgressTracker

/-! ## A leader counts itself for what is persisted -/

namespace NodeCore

variable {σ : Type}

/-- A leader counts itself for persisted entries only. -/
def CountsPersisted (c : NodeCore σ) : Prop :=
  c.state = .leader → ∀ t, c.tracks c.id = some t → t ≤ c.log.persisted

end NodeCore

section Counts

variable {σ : Type} [Storage σ] [Codec] {env : Env} {c c' : NodeCore σ}

theorem Micro.countsPersisted (hsent : ∀ m, env.sent m → m.sender ≠ c.id)
    (hpersist : ∀ u, ¬env.persist u) (hc : c.CountsPersisted) (h : Micro env c c') :
    c'.CountsPersisted := by
  intro hleader t htrack
  cases h with
  | follow => cases hleader
  | preCampaign => cases hleader
  | campaign => cases hleader
  | win last index log tracks henv hstate hwon hlast happend htracks =>
      rw [htracks _ t htrack, if_pos rfl]
      exact (append_persisted happend).ge
  | propose last entries log index pendingConf hstate hlast happend hconf hentries hroom =>
      exact (hc hstate t htrack).trans_eq (append_persisted happend).symm
  | accept m log conflict last hm hkind hstate => cases hstate.symm.trans hleader
  | install m log tracker maxInflight hm hkind hstate => cases hstate.symm.trans hleader
  | commitTo i log result hstate => cases hstate.symm.trans hleader
  | commitTold i term log committed hstate => exact absurd hleader hstate
  | commitByQuorum i log committed hstate hcommit =>
      rcases maybeCommit_eq hcommit with rfl | ⟨-, -, -, rfl⟩ <;> exact hc hleader t htrack
  | retrack v t₀ t' hstate htrack₀ hretracks =>
      by_cases hself : c.id = v
      · subst hself
        obtain rfl : t' = t := by simpa [NodeCore.setTrack] using htrack
        have hle := hc hstate t₀ htrack₀
        rcases hretracks with hsame | ⟨-, i, hi, hmax⟩ | ⟨m, hm, hsender, -⟩
        · exact hsame.trans_le hle
        · exact hmax.trans_le (max_le hle hi)
        · exact absurd hsender (hsent m hm.sent)
      · exact hc hleader t (by simpa [NodeCore.setTrack, hself] using htrack)
  | persist index term henv => exact absurd henv (hpersist _)
  | persistSnapshot index log updated henv hrun => exact absurd henv (hpersist _)
  | bookkeep log hlog => exact (hc hleader t htrack).trans_eq hlog.persisted.symm
  | _ => exact hc hleader t htrack

theorem Steps.countsPersisted (hsent : ∀ m, env.sent m → m.sender ≠ c.id)
    (hpersist : ∀ u, ¬env.persist u) (hc : c.CountsPersisted) (h : Steps env c c') :
    c'.CountsPersisted := by
  induction h with
  | refl => exact hc
  | tail hsteps hstep ih =>
      refine hstep.countsPersisted (fun m hm => ?_) hpersist ih
      rw [Steps.id_eq hsteps]
      exact hsent m hm

end Counts

/-! ## The last write of an index -/

/-- A `Ready` writes or truncates index `i`: a snapshot replaces the whole log, and entries
replace it from the first of them on. -/
def Ready.writes (rd : Ready) (i : ℕ) : Bool :=
  rd.snapshot.isSome || rd.entries.head?.any fun e => e.index ≤ i

theorem Ready.writes_mono {j : ℕ} (hle : i ≤ j) (h : rd.writes i = true) : rd.writes j = true := by
  simp only [writes, Bool.or_eq_true, Option.any_eq_true, decide_eq_true_eq] at h ⊢
  refine h.imp_right ?_
  rintro ⟨e, he, hindex⟩
  exact ⟨e, he, hindex.trans hle⟩

namespace Driven

variable {σ : Type}

/-- The last `Ready` that wrote or truncated index `i`. -/
def lastWriter (d : Driven σ) (i : ℕ) : Option Ready := d.taken.find? fun rd => rd.writes i

/-- The last write of index `i`, if there was one, is reported as persisted. -/
def Durable (d : Driven σ) (i : ℕ) : Prop := ∀ rd, d.lastWriter i = some rd → rd.number ≤ d.acked

instance (d : Driven σ) (i : ℕ) : Decidable (d.Durable i) :=
  inferInstanceAs (Decidable (∀ rd ∈ d.lastWriter i, rd.number ≤ d.acked))

/-- No entry that the next `Ready` writes is the last one of a `Ready` still outstanding. -/
def Fresh (d : Driven σ) : Prop :=
  ∀ e ∈ d.node.raft.raftLog.unstable.entries, ∀ record ∈ d.node.records,
    record.lastEntry ≠ some (e.index, e.term)

instance (d : Driven σ) : Decidable d.Fresh :=
  inferInstanceAs (Decidable (∀ e ∈ d.node.raft.raftLog.unstable.entries,
    ∀ record ∈ d.node.records, record.lastEntry ≠ some (e.index, e.term)))

/-- Legal calls that take no `Ready` which brings back the last entry of an outstanding one. -/
def Careful (d : Driven σ) (op : Drive) : Prop := d.Legal op ∧ (op = .ready → d.Fresh)

instance (d : Driven σ) (op : Drive) : Decidable (d.Careful op) :=
  inferInstanceAs (Decidable (d.Legal op ∧ (op = .ready → d.Fresh)))

/-- A later index has a later last write. -/
theorem find_writes_le {taken : List Ready} {j : ℕ}
    (hsorted : taken.Pairwise fun rd rd' => rd'.number < rd.number) (hle : i ≤ j)
    (h : taken.find? (fun rd => rd.writes i) = some rd) :
    ∃ rd', taken.find? (fun rd => rd.writes j) = some rd' ∧ rd.number ≤ rd'.number := by
  induction taken with
  | nil => cases h
  | cons first rest ih =>
      obtain ⟨hfirst, hrest⟩ := pairwise_cons.mp hsorted
      by_cases hj : first.writes j = true
      · refine ⟨first, by simp only [find?_cons, hj], ?_⟩
        by_cases hi : first.writes i = true
        · simp only [find?_cons, hi, some.injEq] at h
          exact h ▸ le_rfl
        · simp only [find?_cons, hi] at h
          exact (hfirst rd (mem_of_find?_eq_some h)).le
      · have hi : ¬first.writes i = true := fun hi => hj (Ready.writes_mono hle hi)
        simp only [find?_cons, hi] at h
        simp only [find?_cons, hj]
        exact ih hrest h

theorem Durable.mono {d : Driven σ} {j : ℕ}
    (hsorted : d.taken.Pairwise fun rd rd' => rd'.number < rd.number) (hle : i ≤ j)
    (h : d.Durable j) : d.Durable i := by
  intro rd hrd
  obtain ⟨rd', hrd', hnumber⟩ := find_writes_le hsorted hle hrd
  exact hnumber.trans (h rd' hrd')

/-! ## The invariant -/

section Invariant

variable [WritableStorage σ] [Codec] [LawfulStorage σ]

variable {P : Driven σ → Drive → Prop} {pages : List (Page σ)}

/-- What `persisted` covers is durable, and a record whose last entry the storage holds is
that of the last `Ready` that wrote it, or of a later one. -/
structure Written (d : Driven σ) (a : AbstractLog) : Prop where
  sorted : d.taken.Pairwise fun rd rd' => rd'.number < rd.number
  bound : ∀ rd ∈ d.taken, rd.number ≤ d.node.maxNumber
  durable : ∀ i, a.index < i → i ≤ d.node.raft.raftLog.persisted → d.Durable i
  current : ∀ record ∈ d.node.records, ∀ index term, record.lastEntry = some (index, term) →
    a.index < index → d.node.raft.raftLog.stored.termAt index = some term →
    ∀ rd, d.lastWriter index = some rd → rd.number ≤ record.number
  snapshots : ∀ record ∈ d.node.records, ∀ index term, record.snapshot = some (index, term) →
    index ≤ a.index
  counts : d.node.raft.core.CountsPersisted

variable {d d' : Driven σ} {a a' : AbstractLog}

/-- Elementary steps write nothing. -/
theorem Written.run (h : d.Written a) {env : Env} {tracker : ProgressTracker}
    {promotable : Bool} {raft : Raft σ} (hsent : ∀ m, env.sent m → m.Arrives d.node.raft.id)
    (hpersist : ∀ u, ¬env.persist u)
    (htracker : tracker = d.node.raft.tracker ∨
      ∃ cfg changes last, tracker = d.node.raft.tracker.applyConf cfg changes last)
    (hsteps : Steps env ({ d.node.raft with tracker, promotable } : Raft σ).core raft.core)
    (hlater : d.node.raft.raftLog.Later a raft.raftLog a') :
    Written { d with node := { d.node with raft } } a' := by
  have hindex := hlater.index
  refine ⟨h.sorted, h.bound, fun i hlow hle => ?_, ?_, ?_, ?_⟩
  · exact h.durable i (by omega) (le_trans hle hlater.persisted)
  · intro record hrecord index term hlast hlow hterm
    simp only [stored, hlater.store] at hterm
    exact h.current record hrecord index term hlast (by omega) hterm
  · intro record hrecord index term hsnapshot
    exact (h.snapshots record hrecord index term hsnapshot).trans hindex
  · refine hsteps.countsPersisted (fun m hm => (hsent m hm).sender) hpersist ?_
    intro hstate t htrack
    simp only [Raft.core_tracks, map_eq_some_iff] at htrack
    obtain ⟨pr, hget, rfl⟩ := htrack
    have hbefore : d.node.raft.tracker.get d.node.raft.id = some pr →
        pr.matched ≤ d.node.raft.raftLog.persisted := fun hget =>
      h.counts hstate pr.matched (by simp only [Raft.core_tracks, Raft.core_id, hget]; rfl)
    rcases htracker with rfl | ⟨cfg, changes, last, rfl⟩
    · exact hbefore hget
    · rcases ProgressTracker.applyConf_matched hget with hzero | hget
      · exact hzero.le.trans (Nat.zero_le _)
      · exact hbefore hget

/-- Without a snapshot, the storage holds the log below the unstable entries, and all of it if
there are none. -/
theorem stored_termAt {l : RaftLog σ} (h : l.Represents a) (hsnapshot : l.unstable.snapshot = none)
    (hlow : a.index < i) (hi : l.unstable.entries = [] ∨ i < l.unstable.offset) :
    l.stored.termAt i = a.entries[i - (a.index + 1)]?.map Entry.term := by
  have hindex := (h.plain hsnapshot).1
  rw [Stable.termAt_of_gt (by omega), hindex]
  rcases hi with hnil | hlt
  · rw [h.settled hsnapshot hnil]
  · rw [h.stored_getElem? hsnapshot (by omega)]

/-- An entry from the offset on is unstable. -/
theorem unstable_of_term {l : RaftLog σ} (h : l.Represents a) {term : ℕ}
    (hoffset : l.unstable.offset ≤ i)
    (hterm : a.entries[i - (a.index + 1)]?.map Entry.term = some term) :
    ∃ e ∈ l.unstable.entries, e.index = i ∧ e.term = term := by
  obtain ⟨e, he, hterm⟩ := map_eq_some_iff.mp hterm
  have hlt := h.lt_offset
  have hget : l.unstable.entries[i - l.unstable.offset]? = some e := by
    rw [h.entries, getElem?_drop, ← he]
    congr 1
    omega
  have hindex := h.unstable_numbered _ e hget
  exact ⟨e, mem_of_getElem? hget, by omega, hterm⟩

/-- What the next `Ready` writes. -/
theorem writes_iff (h : d.node.raft.raftLog.Represents a) {node : RawNode σ}
    (htakes : Takes d.node node rd) (i : ℕ) :
    rd.writes i = true ↔ d.node.raft.raftLog.unstable.snapshot ≠ none ∨
      d.node.raft.raftLog.unstable.entries ≠ [] ∧ d.node.raft.raftLog.unstable.offset ≤ i := by
  have hnumbered := h.unstable_numbered
  simp only [Ready.writes, Bool.or_eq_true, htakes.snapshot, htakes.entries]
  refine or_congr ?_ ?_
  · rw [isSome_iff_ne_none]
  · cases hes : d.node.raft.raftLog.unstable.entries with
    | nil => simp
    | cons e es =>
        rw [hes] at hnumbered
        simp [hnumbered.head]

/-- A fresh `Ready` is taken and written. -/
theorem Written.ready (h : d.Written a) (hsound : d.Sound a) (hfresh : d.Fresh) {node : RawNode σ}
    {store : σ} (htakes : Takes d.node node rd) (hoffers : Offers d.node node rd)
    (hstored : Stored { d.node.raft.raftLog with store } a) :
    Written { d with node := node.setStore store, pending := some rd, taken := rd :: d.taken }
      a := by
  have hrep := hsound.log.represents
  have hwrites := writes_iff hrep htakes
  have hlog := htakes.raftLog
  have hnumber : ∀ rd' ∈ d.taken, rd'.number < rd.number := by
    intro rd' hrd'
    have hle := h.bound rd' hrd'
    rw [hoffers.number]
    omega
  -- the storage now holds the whole log
  have hterm : ∀ i, a.index < i → (node.setStore store).raft.raftLog.stored.termAt i =
      a.entries[i - (a.index + 1)]?.map Entry.term := by
    intro i hlow
    obtain ⟨hindex, -, hentries⟩ := hstored
    simp only [stored] at hindex hentries
    simp only [setStore, stored]
    rw [Stable.termAt_of_gt (by omega), hindex, hentries]
  obtain ⟨rs, hrs, hrecords⟩ := hoffers.records
  have hmem : ∀ record ∈ (node.setStore store).records,
      record ∈ d.node.records ∨ record = rd.record := by
    intro record hrecord
    simp only [setStore, hrecords, mem_append, mem_singleton] at hrecord
    refine hrecord.imp_left fun hold => ?_
    unfold readyRecords at hrs
    split at hrs
    · split at hrs <;> cases hrs
      cases hold
    · cases hrs
      exact hold
  refine ⟨pairwise_cons.mpr ⟨hnumber, h.sorted⟩, ?_, ?_, ?_, ?_, ?_⟩
  · refine forall_mem_cons.mpr ⟨hoffers.maxNumber.ge, fun rd' hrd' => ?_⟩
    exact (hnumber rd' hrd').le.trans hoffers.maxNumber.ge
  · -- it writes nothing that is persisted
    intro i hlow hle rd' hrd'
    simp only [setStore, hlog] at hle
    have hlt := hsound.log.persisted_lt
    have hnot : ¬rd.writes i = true := by
      rw [hwrites]
      rintro (hpending | ⟨-, hoffset⟩)
      · have hbelow := hsound.log.persisted_le hpending
        omega
      · omega
    simp only [lastWriter, find?_cons, hnot] at hrd'
    exact h.durable i hlow hle rd' hrd'
  · intro record hrecord index term hlast hlow hat rd' hrd'
    rw [hterm index hlow] at hat
    by_cases hwrite : rd.writes index = true
    · simp only [lastWriter, find?_cons, hwrite, some.injEq] at hrd'
      subst hrd'
      rcases hmem record hrecord with hold | rfl
      · -- a fresh `Ready` does not bring back the last entry of the record
        have hoffset : d.node.raft.raftLog.unstable.offset ≤ index := by
          rcases (hwrites index).mp hwrite with hpending | ⟨-, hoffset⟩
          · obtain ⟨snapshot, hsome⟩ := ne_none_iff_exists'.mp hpending
            obtain ⟨hindex, -, hat⟩ := hrep.pending snapshot hsome
            omega
          · exact hoffset
        obtain ⟨e, he, hindex, rfl⟩ := unstable_of_term hrep hoffset hat
        exact absurd (hindex ▸ hlast) (hfresh e he record hold)
      · exact le_rfl
    · simp only [lastWriter, find?_cons, hwrite] at hrd'
      rcases hmem record hrecord with hold | rfl
      · simp only [hwrites, not_or, not_and, not_not, not_le] at hwrite
        refine h.current record hold index term hlast hlow ?_ rd' hrd'
        rw [stored_termAt hrep hwrite.1 hlow (or_iff_not_imp_left.mpr hwrite.2)]
        exact hat
      · exact (hnumber rd' (mem_of_find?_eq_some hrd')).le
  · intro record hrecord index term hsnapshot
    rcases hmem record hrecord with hold | rfl
    · exact h.snapshots record hold index term hsnapshot
    · simp only [Ready.record, map_eq_some_iff, Prod.mk.injEq, htakes.snapshot] at hsnapshot
      obtain ⟨snapshot, hsome, rfl, -⟩ := hsnapshot
      exact (hrep.pending snapshot hsome).1.ge
  · have hcore : (node.setStore store).raft.core =
        { node.raft.core with log := { node.raft.raftLog with store } } := rfl
    rw [hcore, htakes.core, hlog]
    exact h.counts

/-- A report raises the persisted index to a snapshot the log starts from at most, or to the
last entry of a record that the storage still holds. -/
theorem Written.report (h : d.Written a) (hsound : d.Sound a)
    {number index term snapIndex : ℕ} {records : List ReadyRecord} {log : RaftLog σ}
    (hrecords : persistedUpTo number (0, 0, 0) d.node.records =
      ((index, term, snapIndex), records))
    (hlog : reportedSnapshot d.node.raft.raftLog snapIndex = some log) :
    Written { d with
      node := { d.node with
        raft := { d.node.raft with raftLog := reportedEntries log index term }, records }
      acked := max d.acked number } a := by
  obtain ⟨before, hbefore, -⟩ := persistedUpTo_suffix number (0, 0, 0) d.node.records
  obtain ⟨hentry, hsnapshot⟩ := persistedUpTo_reports number d.node.records hrecords
  rw [hrecords] at hbefore
  have hmem : ∀ record ∈ records, record ∈ d.node.records := by
    intro record hrecord
    rw [hbefore]
    exact mem_append_right _ hrecord
  have hstore : (reportedEntries log index term).store = d.node.raft.raftLog.store := by
    rw [reported_eq hlog]
  have hstore₁ : log.store = d.node.raft.raftLog.store := by
    rcases reportedSnapshot_eq hlog with rfl | ⟨-, -, -, rfl⟩ <;> rfl
  have hcase₁ : log.persisted = d.node.raft.raftLog.persisted ∨ snapIndex ≠ 0 ∧
      d.node.raft.raftLog.persisted < snapIndex ∧ log.persisted = snapIndex := by
    rcases reportedSnapshot_eq hlog with rfl | ⟨hne, hlt, -, rfl⟩
    · exact Or.inl rfl
    · exact Or.inr ⟨hne, hlt, rfl⟩
  have hcase₂ : (reportedEntries log index term).persisted = log.persisted ∨
      index ≠ 0 ∧ log.persisted < index ∧
        (reportedEntries log index term).persisted = index ∧
        Storage.term log.store index = .ok term := by
    rcases reportedEntries_eq log index term with hsame | ⟨hne, hlt, -, hterm, hmoved⟩
    · exact Or.inl (by rw [hsame])
    · exact Or.inr ⟨hne, hlt, by rw [hmoved], hterm⟩
  have hmore : ∀ i, d.Durable i → Durable { d with
      node := { d.node with
        raft := { d.node.raft with raftLog := reportedEntries log index term }, records }
      acked := max d.acked number } i :=
    fun i hdurable rd hrd => (hdurable rd hrd).trans (le_max_left _ _)
  refine ⟨h.sorted, h.bound, ?_, ?_, ?_, ?_⟩
  · intro i hlow hle
    have hfirst : i ≤ log.persisted → d.Durable i := by
      intro hle
      rcases hcase₁ with hkept | ⟨hne, -, hraised⟩
      · exact h.durable i hlow (by omega)
      · rcases hsnapshot with hzero | ⟨record, hrecord, t, hsome⟩
        · exact absurd hzero.symm hne
        · have hbelow := h.snapshots record hrecord snapIndex t hsome
          omega
    rcases hcase₂ with hkept | ⟨hne, -, hraised, hterm⟩
    · exact hmore i (hfirst (by simpa only [hkept] using hle))
    · rcases hentry with hzero | ⟨hzero, -⟩ | ⟨record, hrecord, hnumber, hlast⟩
      · exact absurd hzero hne
      · exact absurd hzero.symm hne
      · have hindex : i ≤ index := by simpa only [hraised] using hle
        have hat : d.node.raft.raftLog.stored.termAt index = some term := by
          rw [stored, ← LawfulStorage.term_eq_ok _ _ _
              hsound.log.represents.stored_contiguous,
            ← hterm, hstore₁]
        refine Durable.mono h.sorted hindex fun rd hrd => ?_
        have hcurrent := h.current record hrecord index term hlast (by omega) hat rd hrd
        exact (hcurrent.trans hnumber).trans (le_max_right _ _)
  · intro record hrecord i t hlast hlow hterm
    simp only [stored, hstore] at hterm
    exact h.current record (hmem record hrecord) i t hlast hlow hterm
  · exact fun record hrecord => h.snapshots record (hmem record hrecord)
  · intro hstate t htrack
    refine (h.counts hstate t htrack).trans ?_
    simp only [Raft.core_log]
    omega

/-- One move. -/
theorem Move.written [PagingStorage σ] (hP : ∀ d, P d .ready → d.Fresh) (hsound : d.Sound a)
    (h : d.Written a) (hmove : Move P d a d' a' pages) :
    d'.Written a' ∧ ∀ page ∈ pages, ∀ e ∈ page.entries, d'.Durable e.index := by
  cases hmove with
  | run env tracker promotable raft a' hsent henv htracker hsteps hlog hlater hindex =>
      refine ⟨h.run hsent (fun u => ?_) htracker hsteps hlater, by simp⟩
      rcases henv with rfl | ⟨call, rfl, -, -⟩ <;> exact id
  | ready node store rd hop hidle htakes hoffers hstored =>
      have hwritten := h.ready hsound (hP d hop) htakes hoffers hstored
      obtain ⟨since, es, -, hes, hentries, -⟩ := hoffers.entries
      have hdelivers := hsound.log.nextEntriesSince hes
      rw [← hentries] at hdelivers
      have hlog := htakes.raftLog
      refine ⟨hwritten, forall_mem_singleton.mpr fun e he => ?_⟩
      obtain ⟨hlow, -, -, hpersisted⟩ := hdelivers.index_range he
      refine hwritten.durable e.index (by omega) ?_
      simp only [setStore, hlog]
      exact hpersisted
  | settle rd log hpending hsame hsnapshot hoffset =>
      have hstore : log.store = d.node.raft.raftLog.store := by rw [hsame]
      have hpersisted : log.persisted = d.node.raft.raftLog.persisted := by rw [hsame]
      refine ⟨⟨h.sorted, h.bound, ?_, ?_, h.snapshots, ?_⟩, by simp⟩
      · simp only [hpersisted]
        exact h.durable
      · simp only [stored, hstore]
        exact h.current
      · intro hstate t htrack
        simp only [Raft.core_log, hpersisted]
        exact h.counts hstate t htrack
  | report number index term snapIndex records log hnumber hrecords hlog =>
      exact ⟨h.report hsound hrecords hlog, by simp⟩
  | hand node messages entries hsnapshot hflushes hhands =>
      have hlog := hflushes.raftLog
      obtain ⟨es, hes, hentries⟩ := hhands.next
      have hdelivers := hsound.log.nextEntriesSince hes
      rw [← hentries] at hdelivers
      refine ⟨⟨h.sorted, ?_, ?_, ?_, ?_, ?_⟩, forall_mem_singleton.mpr fun e he => ?_⟩
      · simp only [hhands.maxNumber]
        exact h.bound
      · simp only [hlog]
        exact h.durable
      · simp only [hhands.records, hlog]
        exact h.current
      · simp only [hhands.records]
        exact h.snapshots
      · simp only [hflushes.core]
        exact h.counts
      · obtain ⟨hlow, -, -, hpersisted⟩ := hdelivers.index_range he
        exact h.durable e.index (by omega) hpersisted
  | note prevHs hhard =>
      exact ⟨⟨h.sorted, h.bound, h.durable, h.current, h.snapshots, h.counts⟩, by simp⟩

/-- A chain of moves. -/
theorem Moves.written [PagingStorage σ] (hP : ∀ d, P d .ready → d.Fresh) (h : d.Written a)
    (hmoves : Moves P d a d' a' pages) : d'.Written a' := by
  induction hmoves with
  | refl d a => exact h
  | head hsound hmove _ ih => exact ih (hmove.written hP hsound h).1

/-- A move that is no `Ready` takes no report back. -/
theorem Move.taken (hP : ∀ d, ¬P d .ready) (hmove : Move P d a d' a' pages) :
    d'.taken = d.taken ∧ d.acked ≤ d'.acked := by
  cases hmove with
  | ready node store rd hop => exact absurd hop (hP d)
  | report number index term snapIndex records log hnumber hrecords hlog =>
      exact ⟨rfl, le_max_left _ _⟩
  | _ => exact ⟨rfl, le_rfl⟩

theorem Moves.taken (hP : ∀ d, ¬P d .ready) (hmoves : Moves P d a d' a' pages) :
    d'.taken = d.taken ∧ d.acked ≤ d'.acked := by
  induction hmoves with
  | refl d a => exact ⟨rfl, le_rfl⟩
  | head _ hmove _ ih =>
      obtain ⟨hfirst, hacked⟩ := hmove.taken hP
      exact ⟨ih.1.trans hfirst, hacked.trans ih.2⟩

omit [WritableStorage σ] [Codec] [LawfulStorage σ] in
/-- What is durable stays so until the next `Ready`. -/
theorem Durable.of_taken (h : d.Durable i) (htaken : d'.taken = d.taken)
    (hacked : d.acked ≤ d'.acked) : d'.Durable i := by
  intro rd hrd
  rw [lastWriter, htaken] at hrd
  exact (h rd hrd).trans hacked

/-- What moves hand out that take no `Ready` is durable. -/
theorem Moves.pages_durable [PagingStorage σ] (hP : ∀ d, ¬P d .ready) (h : d.Written a)
    (hmoves : Moves P d a d' a' pages) :
    ∀ page ∈ pages, ∀ e ∈ page.entries, d'.Durable e.index := by
  induction hmoves with
  | refl d a => simp
  | head hsound hmove hrest ih =>
      obtain ⟨hwritten, hpages⟩ := hmove.written (fun d hop => absurd hop (hP d)) hsound h
      obtain ⟨htaken, hacked⟩ := hrest.taken hP
      exact forall_mem_append.mpr ⟨fun page hpage e he =>
        (hpages page hpage e he).of_taken htaken hacked, ih hwritten⟩

/-- What a careful call hands out is durable. -/
theorem Written.step_durable [PagingStorage σ] (h : d.Written a) (hsound : d.Sound a) {op : Drive}
    (hop : d.Careful op) (hstep : d.step op = some (d', pages)) :
    ∀ page ∈ pages, ∀ e ∈ page.entries, d'.Durable e.index := by
  have hfresh : ∀ d : Driven σ, d.Careful .ready → d.Fresh := fun d hop => hop.2 rfl
  by_cases hready : op = .ready
  · subst hready
    cases step_makes hstep with
    | ready node rd hidle hready =>
        obtain ⟨-, hmove⟩ := hsound.takeReady hop hidle hready
        exact (hmove.written hfresh hsound h).2
  · obtain ⟨a', -, hmoves⟩ :=
      hsound.step (P := fun _ op => op ≠ .ready) hready hop.1 hstep
    exact hmoves.pages_durable (fun _ hne => hne rfl) h

theorem Written.new {config : Config} {store : σ} {rng : ℕ → ℕ} {n : RawNode σ}
    (hstore : (view store).Contiguous)
    (hnew : RawNode.new config store rng = some n) :
    Written { node := n } (LogSpec.ofStable (view store)).toAbstractLog := by
  obtain ⟨-, -, hstate, -, hrecords, -⟩ := Sound.new hstore hnew
  refine ⟨.nil, by simp, fun i _ _ rd hrd => ?_, ?_, ?_, ?_⟩
  · cases hrd
  · simp [hrecords]
  · simp [hrecords]
  · intro hleader
    rw [Raft.core_state, hstate] at hleader
    cases hleader

/-- In every run whose `Ready`s are all fresh, what counts as persisted is durable: the indexes
of the log up to `persisted`, those a leader counts itself for, and those whose entries the next
call hands out. -/
theorem persisted_durable [PagingStorage σ] {config : Config} {store : σ} {rng : ℕ → ℕ}
    {n : RawNode σ} {ops : List Drive} {pages : List (Page σ)} (hstore : (view store).Contiguous)
    (hnew : RawNode.new config store rng = some n)
    (hrun : Run Careful { node := n } ops d pages) :
    (∀ first i, d.node.raft.raftLog.firstIndex = some first → first ≤ i →
      i ≤ d.node.raft.raftLog.persisted → d.Durable i) ∧
    (∀ first pr i, d.node.raft.state = .leader →
      d.node.raft.tracker.get d.node.raft.id = some pr →
      d.node.raft.raftLog.firstIndex = some first → first ≤ i → i ≤ pr.matched → d.Durable i) ∧
    ∀ op d' handed, d.Careful op → d.step op = some (d', handed) →
      ∀ page ∈ handed, ∀ e ∈ page.entries, d'.Durable e.index := by
  obtain ⟨hsound₀, -⟩ := Sound.new hstore hnew
  obtain ⟨a, hsound, hmoves⟩ := hsound₀.run (fun _ _ hop => hop.1) hrun
  have hwritten := hmoves.written (fun _ hop => hop.2 rfl) (.new hstore hnew)
  have hpersisted : ∀ first i, d.node.raft.raftLog.firstIndex = some first → first ≤ i →
      i ≤ d.node.raft.raftLog.persisted → d.Durable i := by
    intro first i hfirst hlow hle
    rw [hsound.log.represents.firstIndex, some.injEq] at hfirst
    unfold AbstractLog.firstIndex at hfirst
    exact hwritten.durable i (by omega) hle
  refine ⟨hpersisted, ?_, fun op d' handed => hwritten.step_durable hsound⟩
  intro first pr i hstate hget hfirst hlow hle
  have hcounts := hwritten.counts hstate pr.matched (by
    simp only [Raft.core_tracks, Raft.core_id, hget]
    rfl)
  exact hpersisted first i hfirst hlow (hle.trans hcounts)

end Invariant

end Driven

namespace Driven

/-- One of five nodes, with two entries in its storage. -/
def fifthStore : MemoryStorage where
  confState := { voters := [1, 2, 3, 4, 5] }
  entries := [{ term := 1, index := 1 }, { term := 1, index := 2 }]

/-- A leader's append after the stored entries. -/
def appendFrom (leader term : ℕ) (terms : List ℕ) : Drive :=
  .input (.step
    { msgType := .msgAppend, receiver := 1, sender := leader, term, logTerm := 1, index := 2
      entries := terms.zipIdx.map fun t => { term := t.1, index := t.2 + 3 } })

/-- A new leader replaces entries that are still being written, and they are reported late. -/
def replacedWhileWritten : List Drive :=
  [appendFrom 2 2 [2, 2, 2, 2], .ready, .advanceAppendAsync, appendFrom 3 3 [3, 3], .ready,
    .advanceAppendAsync, .onPersistReady 1, .onPersistReady 2]

theorem persisted_durable_replaced :
    letI := Codec.plain
    ∃ n d pages, RawNode.new { id := 1 } fifthStore (fun _ => 0) = some n ∧
      Run Careful { node := n } replacedWhileWritten d pages ∧
      d.node.raft.raftLog.firstIndex = some 1 ∧ d.node.raft.raftLog.persisted = 4 ∧
      d.Durable 4 := by
  obtain ⟨n, hnew, d, pages, hrun, hfirst, hpersisted⟩ : letI := Codec.plain
      ∃ n, RawNode.new { id := 1 } fifthStore (fun _ => 0) = some n ∧
        ∃ d pages, Run Careful { node := n } replacedWhileWritten d pages ∧
          d.node.raft.raftLog.firstIndex = some 1 ∧ d.node.raft.raftLog.persisted = 4 := by
    decide +kernel
  let _ := Codec.plain
  have hstore : (view fifthStore).Contiguous :=
    show NumberedFrom 1 fifthStore.entries by decide
  exact ⟨n, d, pages, hnew, hrun, hfirst, hpersisted,
    (persisted_durable hstore hnew hrun).1 1 4 hfirst (by decide) hpersisted.ge⟩

/-- A third leader brings the first entries back before any of the writes is reported. -/
def broughtBack : List Drive :=
  [appendFrom 2 2 [2, 2, 2, 2], .ready, .advanceAppendAsync, appendFrom 3 3 [3, 3], .ready,
    .advanceAppendAsync, appendFrom 2 4 [2, 2, 2, 2, 4], .ready, .advanceAppendAsync,
    .onPersistReady 1]

/-- The report of the first write covers entries whose last write is the third. -/
theorem persisted_not_durable :
    letI := Codec.plain
    ∃ n d pages, RawNode.new { id := 1 } fifthStore (fun _ => 0) = some n ∧
      Run Legal { node := n } broughtBack d pages ∧
      d.node.raft.raftLog.firstIndex = some 1 ∧ 6 ≤ d.node.raft.raftLog.persisted ∧
      (d.lastWriter 6).map Ready.number = some 3 ∧ d.acked = 1 ∧ ¬d.Durable 6 := by
  simp only [exists_and_left]
  decide +kernel

end Driven

end Raftpp
