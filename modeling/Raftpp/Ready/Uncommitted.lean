import Raftpp.Ready.Returns

/-!
# The size of uncommitted entries

A leader bounds the data of the entries that it has appended and not yet handed out.
It counts an entry when it appends it, and takes it off when a page hands it out,
unless it was in the log before the election.  So the counter is the data size of the
entries above both the tail of the log at the election and the last index handed out,
in every state of every run.
-/

namespace Raftpp

open UncommittedState RawNode

variable {es entries : List Entry} {i next : ℕ}

open List Option
open LawfulStorage (view)

/-- The total size of the data of some entries. -/
def dataSize (entries : List Entry) : ℕ := (entries.map fun e => e.data.length).sum

@[simp] theorem dataSize_nil : dataSize [] = 0 := rfl

@[simp] theorem dataSize_append (es fs : List Entry) :
    dataSize (es ++ fs) = dataSize es + dataSize fs := by
  simp [dataSize]

theorem dataSize_numberEntries (term i : ℕ) (entries : List Entry) :
    dataSize (Raft.numberEntries term i entries) = dataSize entries := by
  induction entries generalizing i with
  | nil => rfl
  | cons e es ih =>
      have hrest := ih (i + 1)
      simp only [dataSize, Raft.numberEntries, map_cons, sum_cons] at hrest ⊢
      rw [hrest]

/-- The entries above an index. -/
def entriesAbove (i : ℕ) (entries : List Entry) : List Entry :=
  entries.filter fun e => i < e.index

@[simp] theorem entriesAbove_append (i : ℕ) (es fs : List Entry) :
    entriesAbove i (es ++ fs) = entriesAbove i es ++ entriesAbove i fs := by
  simp [entriesAbove]

theorem entriesAbove_eq_nil (h : ∀ e ∈ entries, e.index ≤ i) :
    entriesAbove i entries = [] :=
  filter_eq_nil_iff.mpr fun e he => by simpa using h e he

theorem entriesAbove_eq_self (h : ∀ e ∈ entries, i < e.index) :
    entriesAbove i entries = entries :=
  filter_eq_self.mpr fun e he => by simpa using h e he

theorem entriesAbove_congr {j : ℕ}
    (h : ∀ e ∈ entries, i < e.index ↔ j < e.index) :
    entriesAbove i entries = entriesAbove j entries :=
  filter_congr fun e he => by simpa using h e he

/-- The index of the last entry handed out, in pages after `handed`. -/
def lastHanded (handed : ℕ) (entries : List Entry) : ℕ :=
  (entries.getLast?.map Entry.index).getD handed

@[simp]
theorem lastHanded_nil (handed : ℕ) : lastHanded handed [] = handed := rfl

theorem lastHanded_append (handed : ℕ) (es fs : List Entry) :
    lastHanded handed (es ++ fs) = lastHanded (lastHanded handed es) fs := by
  unfold lastHanded
  rw [getLast?_append]
  cases fs.getLast? with
  | none => rfl
  | some e => rfl

theorem NumberedFrom.lastHanded (h : NumberedFrom next es) (handed : ℕ) (hne : es ≠ []) :
    lastHanded handed es + 1 = next + es.length := by
  have hpos := length_pos_iff.mpr hne
  unfold Raftpp.lastHanded
  rw [getLast?_eq_getElem?, getElem?_eq_getElem (by omega), map_some,
    getD_some, h _ _ (getElem?_eq_getElem (by omega))]
  omega

namespace UncommittedState

variable {u : UncommittedState}

theorem maybeIncreaseUncommittedSize_eq (hlimit : u.maxUncommittedSize ≠ kNoLimit)
    (entries : List Entry) :
    u.maybeIncreaseUncommittedSize entries =
      if dataSize entries = 0 ∨ u.uncommittedSize = 0 ∨
          dataSize entries + u.uncommittedSize ≤ u.maxUncommittedSize then
        ({ u with uncommittedSize := u.uncommittedSize + dataSize entries }, true)
      else (u, false) :=
  if_neg (by simpa [isNoLimit] using hlimit)

theorem maybeIncreaseUncommittedSize_noLimit (hlimit : u.maxUncommittedSize = kNoLimit)
    (entries : List Entry) : u.maybeIncreaseUncommittedSize entries = (u, true) :=
  if_pos (by simpa [isNoLimit] using hlimit)

theorem maybeIncreaseUncommittedSize_tail (u : UncommittedState) (entries : List Entry) :
    (u.maybeIncreaseUncommittedSize entries).1.lastLogTailIndex = u.lastLogTailIndex := by
  by_cases hlimit : u.maxUncommittedSize = kNoLimit
  · rw [maybeIncreaseUncommittedSize_noLimit hlimit]
  · rw [maybeIncreaseUncommittedSize_eq hlimit]
    split <;> rfl

/-- The empty entry of a new leader costs nothing. -/
theorem maybeIncreaseUncommittedSize_empty (u : UncommittedState) :
    u.maybeIncreaseUncommittedSize [{}] = (u, true) := by
  by_cases hlimit : u.maxUncommittedSize = kNoLimit
  · exact maybeIncreaseUncommittedSize_noLimit hlimit _
  · have hsize : dataSize [{}] = 0 := rfl
    rw [maybeIncreaseUncommittedSize_eq hlimit, if_pos (Or.inl hsize)]
    rfl

theorem maybeReduceUncommittedSize_eq (hlimit : u.maxUncommittedSize ≠ kNoLimit)
    (hne : entries ≠ []) :
    u.maybeReduceUncommittedSize entries =
      { u with
        uncommittedSize :=
          u.uncommittedSize - dataSize (entriesAbove u.lastLogTailIndex entries) } :=
  if_neg (by simpa [isNoLimit, hne] using hlimit)

theorem maybeReduceUncommittedSize_same
    (h : u.maxUncommittedSize = kNoLimit ∨ entries = []) :
    u.maybeReduceUncommittedSize entries = u :=
  if_pos (by simpa [isNoLimit] using h)

end UncommittedState

/-! ## Charging entries -/

/-- The counter of a leader is the size of the entries above the tail of its log at the election
and the last index handed out. -/
structure Charged (u : UncommittedState) (handed : ℕ) (a : AbstractLog) : Prop where
  size : u.maxUncommittedSize ≠ kNoLimit →
    u.uncommittedSize = dataSize (entriesAbove (max u.lastLogTailIndex handed) a.entries)
  base : a.index ≤ u.lastLogTailIndex
  tail : u.lastLogTailIndex ≤ a.lastIndex

namespace Charged

variable {u : UncommittedState} {handed : ℕ} {a : AbstractLog}

omit u handed in
theorem index_gt_of_mem_numberEntries {term : ℕ} {e : Entry}
    (he : e ∈ Raft.numberEntries term (i + 1) entries) : i < e.index := by
  obtain ⟨k, hk⟩ := mem_iff_getElem?.mp he
  have hindex := Raft.numberEntries_numbered term (i + 1) entries k e hk
  omega

/-- Entries that are appended are counted. -/
theorem increase {term : ℕ} (h : Charged u handed a)
    (hhanded : handed ≤ a.lastIndex) (hroom : (u.maybeIncreaseUncommittedSize entries).2 = true) :
    Charged (u.maybeIncreaseUncommittedSize entries).1 handed
      { a with entries := a.entries ++ Raft.numberEntries term (a.lastIndex + 1) entries } := by
  have htail := h.tail
  have hlast : a.lastIndex ≤ AbstractLog.lastIndex
      { a with entries := a.entries ++ Raft.numberEntries term (a.lastIndex + 1) entries } := by
    simp [AbstractLog.lastIndex]
  by_cases hlimit : u.maxUncommittedSize = kNoLimit
  · rw [maybeIncreaseUncommittedSize_noLimit hlimit]
    exact ⟨fun hne => absurd hlimit hne, h.base, htail.trans hlast⟩
  · rw [maybeIncreaseUncommittedSize_eq hlimit] at hroom ⊢
    split at hroom
    next hfits =>
      rw [if_pos hfits]
      refine ⟨fun _ => ?_, h.base, htail.trans hlast⟩
      rw [entriesAbove_append, dataSize_append, ← h.size hlimit, entriesAbove_eq_self,
        dataSize_numberEntries]
      intro e he
      have hindex := index_gt_of_mem_numberEntries he
      simp only
      omega
    · cases hroom

/-- A page that goes on where the last one ended, as far as entries count. -/
structure Continues (u : UncommittedState) (handed : ℕ) (a : AbstractLog) (next : ℕ)
    (es : List Entry) : Prop where
  numbered : NumberedFrom next es
  held : es = a.between next (next + es.length)
  low : a.index < next
  after : handed < next
  gap : ∀ i, u.lastLogTailIndex < i → handed < i → a.index < i → next ≤ i

/-- What is charged is on the page or after it. -/
theorem split (hcontiguous : a.Contiguous) (h : Continues u handed a next es) (hne : es ≠ []) :
    dataSize (entriesAbove (max u.lastLogTailIndex handed) a.entries) =
      dataSize (entriesAbove u.lastLogTailIndex es) +
        dataSize (entriesAbove (max u.lastLogTailIndex (lastHanded handed es)) a.entries) := by
  have hlast := h.numbered.lastHanded handed hne
  obtain ⟨hnumbered, hheld, hlow, hafter, hgap⟩ := h
  have htake : (a.entries.drop (next - (a.index + 1))).take es.length = es := by
    have hbetween := hheld.symm
    rwa [AbstractLog.between, Nat.add_sub_cancel_left] at hbetween
  have hparts : a.entries = a.entries.take (next - (a.index + 1)) ++
      (es ++ a.entries.drop (next - (a.index + 1) + es.length)) := by
    have hsplit := (take_append_drop (next - (a.index + 1)) a.entries).symm
    rwa [← take_append_drop es.length (a.entries.drop (next - (a.index + 1))), htake,
      drop_drop] at hsplit
  have hbefore : ∀ e ∈ a.entries.take (next - (a.index + 1)),
      a.index < e.index ∧ e.index < next := by
    intro e he
    obtain ⟨k, hk⟩ := mem_iff_getElem?.mp he
    rw [getElem?_take] at hk
    split at hk
    · have hindex := hcontiguous k e hk
      omega
    · cases hk
  have hpage : ∀ e ∈ es, next ≤ e.index ∧ e.index ≤ lastHanded handed es := by
    intro e he
    obtain ⟨k, hk⟩ := mem_iff_getElem?.mp he
    have hindex := hnumbered k e hk
    have hlt := (List.getElem?_eq_some_iff.mp hk).1
    omega
  have hrest : ∀ e ∈ a.entries.drop (next - (a.index + 1) + es.length),
      lastHanded handed es < e.index := by
    intro e he
    obtain ⟨k, hk⟩ := mem_iff_getElem?.mp he
    rw [getElem?_drop] at hk
    have hindex := hcontiguous _ e hk
    omega
  have hnone : ∀ i, max u.lastLogTailIndex handed ≤ i →
      entriesAbove i (a.entries.take (next - (a.index + 1))) = [] := by
    refine fun i hi => entriesAbove_eq_nil fun e he => ?_
    obtain ⟨hindex, hlt⟩ := hbefore e he
    by_contra hgt
    have hnext := hgap e.index (by omega) (by omega) hindex
    omega
  have hon : entriesAbove (max u.lastLogTailIndex handed) es =
      entriesAbove u.lastLogTailIndex es :=
    entriesAbove_congr fun e he => by have hindex := hpage e he; omega
  have hoff : entriesAbove (max u.lastLogTailIndex (lastHanded handed es)) es = [] :=
    entriesAbove_eq_nil fun e he => by have hindex := hpage e he; omega
  have hrests : entriesAbove (max u.lastLogTailIndex handed)
      (a.entries.drop (next - (a.index + 1) + es.length)) =
      entriesAbove (max u.lastLogTailIndex (lastHanded handed es))
        (a.entries.drop (next - (a.index + 1) + es.length)) :=
    entriesAbove_congr fun e he => by have hindex := hrest e he; omega
  have hnone' := hnone (max u.lastLogTailIndex (lastHanded handed es)) (by omega)
  rw [hparts]
  simp only [entriesAbove_append, dataSize_append, hnone _ le_rfl, hnone', hon, hoff, hrests,
    dataSize_nil, Nat.zero_add]

/-- A page takes off what it hands out, which is no more than was charged. -/
theorem reduce (h : Charged u handed a) (hcontiguous : a.Contiguous)
    (hpage : Continues u handed a next es) :
    (u.maxUncommittedSize ≠ kNoLimit →
      dataSize (entriesAbove u.lastLogTailIndex es) ≤ u.uncommittedSize) ∧
      Charged (u.maybeReduceUncommittedSize es) (lastHanded handed es) a := by
  by_cases hnil : es = []
  · subst hnil
    rw [maybeReduceUncommittedSize_same (Or.inr rfl)]
    exact ⟨fun _ => Nat.zero_le _, h⟩
  by_cases hlimit : u.maxUncommittedSize = kNoLimit
  · rw [maybeReduceUncommittedSize_same (Or.inl hlimit)]
    exact ⟨fun hne => absurd hlimit hne, fun hne => absurd hlimit hne, h.base, h.tail⟩
  have hsize := h.size hlimit
  rw [split hcontiguous hpage hnil] at hsize
  rw [maybeReduceUncommittedSize_eq hlimit hnil]
  refine ⟨fun _ => by omega, fun _ => ?_, h.base, h.tail⟩
  simp only
  omega

end Charged

/-- The counter of a leader that has handed out entries up to `handed`, and goes on after
`since`: entries that it skips were in the log before the election. -/
structure Charges (u : UncommittedState) (since handed : ℕ) (a : AbstractLog) : Prop where
  charged : Charged u handed a
  gap : handed < since → since ≤ u.lastLogTailIndex

/-! ## Elementary steps -/

section Steps

variable {σ : Type} [WritableStorage σ] [Codec] [LawfulStorage σ] {env : Env}
  {c c' : NodeCore σ} {a a' : AbstractLog} {since handed : ℕ}

/-- An elementary step keeps the account of a leader, and an election opens one. -/
theorem Micro.charges (h : Micro env c c') (hpersist : ∀ u, ¬env.persist u)
    (ha : c.log.Sound a) (ha' : c'.log.Sound a') (hhanded : handed ≤ since)
    (hsince : since ≤ c.log.committed)
    (hc : c.state = .leader → Charges c.uncommitted since handed a)
    (hleader : c'.state = .leader) : Charges c'.uncommitted since handed a' := by
  have hcommitted : c.log.committed ≤ a.lastIndex := ha.committed_le
  have hindex : a.index ≤ c.log.committed := ha.index_le
  -- most steps leave the role, the log and the counter alone
  have hkeep : ∀ {c' : NodeCore σ}, c'.state = c.state → c'.uncommitted = c.uncommitted →
      c'.log.Sound a → c'.log.Sound a' → c'.state = .leader →
      Charges c'.uncommitted since handed a' := by
    intro c' hstate huncommitted hsame ha' hleader
    obtain rfl := hsame.represents.unique ha'.represents
    obtain ⟨hcharged, hgap⟩ := hc (hstate.symm.trans hleader)
    rw [← huncommitted] at hcharged hgap
    exact ⟨hcharged, hgap⟩
  cases h with
  | follow term tracks log hterm hlog => cases hleader
  | preCampaign henv hvoter hclear => cases hleader
  | campaign tracks henv hvoter => cases hleader
  | win last index log tracks henv hstate hwon hlast happend htracks =>
      obtain rfl : a.lastIndex = last := some.inj (ha.lastIndex.symm.trans hlast)
      obtain rfl := (ha.append hlast happend).1.represents.unique ha'.represents
      have hopen : Charged { c.uncommitted with
          uncommittedSize := 0, lastLogTailIndex := a.lastIndex } handed a := by
        refine ⟨fun _ => ?_, hindex.trans hcommitted, le_rfl⟩
        rw [entriesAbove_eq_nil fun e he => ?_]
        · rfl
        · exact (AbstractLog.Contiguous.index_le_lastIndex ha.contiguous he).trans
            (le_max_left _ _)
      have hfree := maybeIncreaseUncommittedSize_empty
        { c.uncommitted with uncommittedSize := 0, lastLogTailIndex := a.lastIndex }
      refine ⟨?_, fun _ => hsince.trans hcommitted⟩
      have hcharged := @Charged.increase _ _ _ _ c.term hopen (by omega) (congrArg Prod.snd hfree)
      rwa [hfree] at hcharged
  | propose last entries log index pendingConf hstate hlast happend hconf hentries hroom =>
      obtain rfl : a.lastIndex = last := some.inj (ha.lastIndex.symm.trans hlast)
      obtain rfl := (ha.append hlast happend).1.represents.unique ha'.represents
      obtain ⟨hcharged, hgap⟩ := hc hstate
      refine ⟨hcharged.increase (by omega) hroom, fun hlt => (hgap hlt).trans_eq ?_⟩
      exact (maybeIncreaseUncommittedSize_tail c.uncommitted entries).symm
  | accept m log conflict last hm hkind hstate happend => cases hstate.symm.trans hleader
  | install m log tracker maxInflight hm hkind hstate hcommitted htracker hlog =>
      cases hstate.symm.trans hleader
  | commitTo i log result hstate hcommit => cases hstate.symm.trans hleader
  | commitTold i term log committed hstate hcommit hclear => exact absurd hleader hstate
  | commitByQuorum i log committed hstate hcommit =>
      refine hkeep rfl rfl ?_ ha' hleader
      rcases RaftLog.maybeCommit_eq hcommit with rfl | ⟨hlt, -, ⟨last, hlast, hle⟩, rfl⟩
      · exact ha
      · obtain rfl : a.lastIndex = last := some.inj (ha.lastIndex.symm.trans hlast)
        exact (ha.commit hlt hle).1
  | persist index term henv => exact absurd henv (hpersist _)
  | persistSnapshot index log updated henv hrun => exact absurd henv (hpersist _)
  | bookkeep log hlog => exact hkeep rfl rfl (ha.same hlog).1 ha' hleader
  | _ => exact hkeep rfl rfl ha ha' hleader

/-- So does a chain of elementary steps. -/
theorem Steps.charges (hsteps : Steps env c c') (hsent : ∀ m, env.sent m → m.Numbered)
    (hpersist : ∀ u, ¬env.persist u) (ha : c.log.Sound a) (hhanded : handed ≤ since)
    (hsince : since ≤ c.log.committed)
    (hc : c.state = .leader → Charges c.uncommitted since handed a) :
    ∃ a', c'.log.Sound a' ∧ since ≤ c'.log.committed ∧
      (c'.state = .leader → Charges c'.uncommitted since handed a') := by
  induction hsteps with
  | refl => exact ⟨a, ha, hsince, hc⟩
  | tail _ hstep ih =>
      obtain ⟨a₁, ha₁, hsince₁, hc₁⟩ := ih
      obtain ⟨a₂, ha₂, hlater⟩ := ha₁.change hsent hpersist hstep.change
      exact ⟨a₂, ha₂, hsince₁.trans hlater.committed,
        hstep.charges hpersist ha₁ ha₂ hhanded hsince₁ hc₁⟩

end Steps

/-! ## Calls -/

namespace Driven

variable {σ : Type} [WritableStorage σ] [Codec] [LawfulStorage σ] {P : Driven σ → Drive → Prop}
  {d d' : Driven σ} {a a' : AbstractLog} {handed : ℕ}

variable {pages : List (Page σ)}

/-- The account of a driven node that has handed out entries up to `handed`. -/
structure Accounts (d : Driven σ) (a : AbstractLog) (handed : ℕ) : Prop extends d.Steady a where
  handed_le : handed ≤ d.node.commitSinceIndex
  charges : d.node.raft.state = .leader →
    Charges d.node.raft.uncommittedState d.node.commitSinceIndex handed a

/-- The entries of some pages. -/
def handedOut (pages : List (Page σ)) : List Entry := pages.flatMap Page.entries

/-- The next page of a node goes on where the last one ended, or after the snapshot that it
comes with. -/
structure NextPage (d : Driven σ) (a : AbstractLog) (start : ℕ) (es : List Entry) : Prop where
  delivers : d.node.raft.raftLog.Delivers a (max start a.index + 1) es
  start : start = d.node.commitSinceIndex ∨ start = a.index ∧ d.node.commitSinceIndex ≤ a.index

theorem NextPage.of_ready [PagingStorage σ] {since : ℕ} {es : Option (List Entry)}
    {maxSize : Option ℕ} (hlog : d.node.raft.raftLog.Sound a) (hsince : d.node.ReadySince since)
    (hnext : d.node.raft.raftLog.nextEntriesSince since maxSize = some es) :
    d.NextPage a since (es.getD []) := by
  refine ⟨hlog.nextEntriesSince hnext, ?_⟩
  rcases hsince with ⟨-, rfl⟩ | ⟨snapshot, hsome, hle, rfl⟩
  · exact Or.inl rfl
  · obtain ⟨hindex, -⟩ := hlog.represents.pending snapshot hsome
    exact Or.inr ⟨hindex.symm, hle.trans_eq hindex.symm⟩

theorem NextPage.of_light [PagingStorage σ] {node : RawNode σ}
    (hlog : d.node.raft.raftLog.Sound a) (hhands : Hands d.node node entries) :
    d.NextPage a d.node.commitSinceIndex entries := by
  obtain ⟨es, hnext, rfl⟩ := hhands.next
  exact ⟨hlog.nextEntriesSince hnext, Or.inl rfl⟩

/-- A leader takes off no more than it has charged. -/
theorem Accounts.reduce {start : ℕ} (h : d.Accounts a handed) (hlog : d.node.raft.raftLog.Sound a)
    (hpage : d.NextPage a start es) (hleader : d.node.raft.state = .leader) :
    (d.node.raft.uncommittedState.maxUncommittedSize ≠ kNoLimit →
      dataSize (entriesAbove d.node.raft.uncommittedState.lastLogTailIndex es) ≤
        d.node.raft.uncommittedState.uncommittedSize) ∧
      Charged (d.node.raft.uncommittedState.maybeReduceUncommittedSize es)
        (lastHanded handed es) a := by
  obtain ⟨hcharged, hgap⟩ := h.charges hleader
  have hhanded := h.handed_le
  refine hcharged.reduce hlog.contiguous
    ⟨hpage.delivers.numbered, hpage.delivers.held, by omega, ?_, fun i htail hi hindex => ?_⟩
  · rcases hpage.start with heq | ⟨heq, hle⟩ <;> omega
  · rcases hpage.start with heq | ⟨heq, hle⟩
    · by_cases hlt : handed < d.node.commitSinceIndex
      · have hskipped := hgap hlt
        omega
      · omega
    · omega

/-- Handing out a page keeps the account. -/
theorem Accounts.handOut {start : ℕ} (h : d.Accounts a handed) (hsteady : d'.Steady a)
    (hlog : d.node.raft.raftLog.Sound a) (hpage : d.NextPage a start es)
    (hafter : commitSinceAfter { d.node with commitSinceIndex := start } es =
      some d'.node.commitSinceIndex) (hstate : d'.node.raft.state = d.node.raft.state)
    (huncommitted : d'.node.raft.uncommittedState =
      (d.node.raft.reduceUncommittedSize es).uncommittedState) :
    d'.Accounts a (lastHanded handed es) := by
  have hcharged : d.node.raft.state = .leader →
      Charged d'.node.raft.uncommittedState (lastHanded handed es) a := by
    intro hleader
    rw [huncommitted, Raft.reduceUncommittedSize, if_pos hleader]
    exact (h.reduce hlog hpage hleader).2
  rcases RawNode.commitSinceAfter_eq hafter with ⟨rfl, hsame⟩ | ⟨last, hlast, hindex⟩
  · -- an empty page may come with a snapshot
    simp only at hsame
    have hhanded : handed ≤ d.node.commitSinceIndex := h.handed_le
    refine ⟨hsteady, ?_, fun hleader => ⟨hcharged (hstate.symm.trans hleader), fun hlt => ?_⟩⟩
    · rw [hsame]
      rcases hpage.start with heq | ⟨heq, hle⟩ <;> simp only [lastHanded_nil] <;> omega
    · have hleader := hstate.symm.trans hleader
      rw [hsame] at hlt ⊢
      rcases hpage.start with rfl | ⟨rfl, -⟩
      · rw [huncommitted, Raft.reduceUncommittedSize, if_pos hleader,
          maybeReduceUncommittedSize_same (Or.inr rfl)]
        exact (h.charges hleader).gap hlt
      · exact (hcharged hleader).base
  · have hreached : lastHanded handed es = d'.node.commitSinceIndex := by
      rw [lastHanded, hlast, hindex]
      rfl
    exact ⟨hsteady, hreached.le, fun hleader =>
      ⟨hcharged (hstate.symm.trans hleader), fun hlt => absurd hreached hlt.ne⟩⟩

/-- One move keeps the account. -/
theorem Move.accounts [PagingStorage σ] (hd : d.Sound a) (h : d.Accounts a handed)
    (hmove : Move P d a d' a' pages) : d'.Accounts a' (lastHanded handed (handedOut pages)) := by
  have hsteady := hmove.steady hd h.toSteady
  cases hmove with
  | run env tracker promotable raft a' hsent henv htracker hsteps hlog hlater hindex =>
      have hpersist : ∀ u, ¬env.persist u := by
        rcases henv with rfl | ⟨call, rfl, -⟩ <;> exact fun _ => id
      obtain ⟨a₁, hlog₁, -, hcharges⟩ := hsteps.charges (fun m hm => (hsent m hm).numbered)
        hpersist hd.log h.handed_le h.since_le h.charges
      obtain rfl := hlog₁.represents.unique hlog.represents
      exact ⟨hsteady, h.handed_le, hcharges⟩
  | ready node store rd hop hidle htakes hoffers hstored =>
      obtain ⟨since, es, hsince, hes, hentries, hafter⟩ := hoffers.entries
      have hpage := NextPage.of_ready hd.log hsince hes
      rw [← hentries] at hpage
      simp only [handedOut, flatMap_singleton]
      exact h.handOut hsteady hd.log hpage hafter (congrArg NodeCore.state htakes.core)
        hoffers.uncommitted
  | settle rd log hpending hsame hsnapshot hoffset => exact ⟨hsteady, h.handed_le, h.charges⟩
  | report number index term snapIndex records log hnumber hrecords hlog =>
      exact ⟨hsteady, h.handed_le, h.charges⟩
  | hand node messages entries hsnapshot hflushes hhands =>
      simp only [handedOut, flatMap_singleton]
      exact h.handOut hsteady hd.log (.of_light hd.log hhands) hhands.since
        (congrArg NodeCore.state hflushes.core) hhands.uncommitted
  | note prevHs hhard => exact ⟨hsteady, h.handed_le, h.charges⟩

/-- A chain of moves. -/
theorem Moves.accounts [PagingStorage σ] (h : d.Accounts a handed)
    (hmoves : Moves P d a d' a' pages) : d'.Accounts a' (lastHanded handed (handedOut pages)) := by
  induction hmoves generalizing handed with
  | refl d a => exact h
  | head hd hmove _ ih =>
      have hrest := ih (hmove.accounts hd h)
      rwa [← lastHanded_append, handedOut, handedOut, ← flatMap_append] at hrest

end Driven

/-! ## Whole runs -/

section Runs

variable {σ : Type} [WritableStorage σ] [Codec] [LawfulStorage σ] {d : Driven σ}

/-- `MaybeReduceUncommittedSize` does not find more in a page than the counter holds. -/
def RawNode.PaysBack (n : RawNode σ) (page : List Entry) : Prop :=
  n.raft.state = .leader → n.raft.uncommittedState.maxUncommittedSize ≠ kNoLimit →
    dataSize (entriesAbove n.raft.uncommittedState.lastLogTailIndex page) ≤
      n.raft.uncommittedState.uncommittedSize

omit [Codec] [LawfulStorage σ] in
/-- `AppendEntry` refuses what would exceed the limit, and then changes nothing. -/
theorem Raft.appendEntry_refuses {r r' : Raft σ} {accepted : Bool}
    (hlimit : r.uncommittedState.maxUncommittedSize ≠ kNoLimit)
    (h : r.appendEntry entries = some (r', accepted)) :
    (accepted = false ↔ dataSize entries ≠ 0 ∧ r.uncommittedState.uncommittedSize ≠ 0 ∧
      r.uncommittedState.maxUncommittedSize <
        r.uncommittedState.uncommittedSize + dataSize entries) ∧
      (accepted = false → r' = r) := by
  have hroom : (r.uncommittedState.maybeIncreaseUncommittedSize entries).2 = false ↔
      dataSize entries ≠ 0 ∧ r.uncommittedState.uncommittedSize ≠ 0 ∧
        r.uncommittedState.maxUncommittedSize <
          r.uncommittedState.uncommittedSize + dataSize entries := by
    rw [maybeIncreaseUncommittedSize_eq hlimit]
    split
    next hfits => exact ⟨nofun, fun hover => by omega⟩
    next hover => exact ⟨fun _ => by omega, fun _ => rfl⟩
  rcases appendEntry_cases h with ⟨rfl, haccepts, -⟩ | ⟨rfl, hrefuses, rfl⟩
  · rw [haccepts] at hroom
    exact ⟨hroom, nofun⟩
  · rw [hrefuses] at hroom
    exact ⟨hroom, fun _ => rfl⟩

/-- In every run of a node whose configuration does not claim to have applied more than the
storage has committed, the counter of a leader is the size of its entries that are above the
tail of its election and not handed out; no page takes off more than the counter holds, and
`AppendEntry` refuses exactly what would exceed the limit. -/
theorem Driven.uncommitted_size_exact [PagingStorage σ] {config : Config} {store : σ} {rng : ℕ → ℕ}
    {n : RawNode σ} {ops : List Drive} {pages : List (Page σ)} (hstore : (view store).Contiguous)
    (hnew : RawNode.new config store rng = some n)
    (happlied : config.applied ≤ n.raft.raftLog.committed)
    (hrun : Run Legal { node := n } ops d pages)
    (hlimit : d.node.raft.uncommittedState.maxUncommittedSize ≠ kNoLimit) :
    (d.node.raft.state = .leader → ∃ a, d.node.raft.raftLog.Represents a ∧
      d.node.raft.uncommittedState.uncommittedSize = dataSize (entriesAbove
        (max d.node.raft.uncommittedState.lastLogTailIndex (lastHanded 0 (handedOut pages)))
        a.entries)) ∧
    (∀ node rd, d.pending = none → d.node.getReady = some (node, rd) →
      d.node.PaysBack rd.light.committedEntries) ∧
    (∀ rd node₁ node₂ node₃ light, d.pending = some rd → d.node.commitReady rd = some node₁ →
      node₁.onPersistReady node₁.maxNumber = some node₂ →
      node₂.getLightReady = some (node₃, light) → node₂.PaysBack light.committedEntries) ∧
    ∀ entries r' accepted, d.node.raft.appendEntry entries = some (r', accepted) →
      (accepted = false ↔ dataSize entries ≠ 0 ∧
        d.node.raft.uncommittedState.uncommittedSize ≠ 0 ∧
        d.node.raft.uncommittedState.maxUncommittedSize <
          d.node.raft.uncommittedState.uncommittedSize + dataSize entries) ∧
      (accepted = false → r' = d.node.raft) := by
  have hregular := Regular.new hstore hnew happlied
  obtain ⟨a, hsound, hmoves⟩ := hregular.sound.run (fun _ _ => id) hrun
  obtain ⟨-, -, hfollower, -, -, -⟩ := Sound.new hstore hnew
  have hfresh : Accounts { node := n } (LogSpec.ofStable (view store)).toAbstractLog
      0 := ⟨hregular.steady, Nat.zero_le _, fun hleader => by cases hfollower.symm.trans hleader⟩
  have haccounts := hmoves.accounts hfresh
  refine ⟨fun hleader => ?_, fun node rd hidle hready hleader hlimit => ?_, ?_,
    fun entries r' accepted happend => Raft.appendEntry_refuses hlimit happend⟩
  · exact ⟨a, hsound.log.represents, (haccounts.charges hleader).charged.size hlimit⟩
  · obtain ⟨since, es, hsince, hes, hentries, -⟩ := (getReady_offers hready).entries
    rw [hentries]
    exact (haccounts.reduce hsound.log (.of_ready hsound.log hsince hes) hleader).1 hlimit
  · intro rd node₁ node₂ node₃ light hpending hcommit hpersist hlight hleader hlimit
    obtain ⟨hsound₁, hmoves₁, -, hsnapshot⟩ := hsound.commitReady (P := Legal) hpending hcommit
    obtain ⟨a₂, hsound₂, hmoves₂, -, -⟩ :=
      hsound₁.onPersistReady (P := Legal) ⟨le_rfl, fun rd hrd => by cases hrd⟩ hpersist
    have haccounts₂ := (hmoves₁.trans hmoves₂).accounts haccounts
    exact (haccounts₂.reduce hsound₂.log
      (.of_light hsound₂.log (getLightReady_hands hlight)) hleader).1 hlimit

end Runs

namespace Driven

/-- The node elects itself and proposes three times; the first proposal is handed out. -/
def meteredProposals : List Drive :=
  [.input .campaign, .ready, .advance, .input (.propose [] [7, 7]), .ready, .advanceAppend,
    .input (.propose [] [8]), .input (.propose [] [9, 9])]

/-- The last proposal is refused: three bytes would be waiting where two may. -/
theorem uncommitted_size_exact_solo :
    letI := Codec.plain
    ∃ n d pages, RawNode.new { id := 1, maxUncommittedSize := 2 } soloStore (fun _ => 0) =
        some n ∧
      Run Legal { node := n } meteredProposals d pages ∧ d.node.raft.state = .leader ∧
      d.node.raft.uncommittedState = { maxUncommittedSize := 2, uncommittedSize := 1 } ∧
      lastHanded 0 (handedOut pages) = 2 ∧
      ∃ a, d.node.raft.raftLog.Represents a ∧ dataSize (entriesAbove 2 a.entries) = 1 := by
  obtain ⟨n, hnew, hcommitted, d, pages, hrun, hleader, hcounter, hlast⟩ : letI := Codec.plain
      ∃ n, RawNode.new { id := 1, maxUncommittedSize := 2 } soloStore (fun _ => 0) = some n ∧
        n.raft.raftLog.committed = 0 ∧
        ∃ d pages, Run Legal { node := n } meteredProposals d pages ∧
          d.node.raft.state = .leader ∧
          d.node.raft.uncommittedState = { maxUncommittedSize := 2, uncommittedSize := 1 } ∧
          lastHanded 0 (handedOut pages) = 2 := by
    decide +kernel
  let _ := Codec.plain
  obtain ⟨hsize, -⟩ := uncommitted_size_exact soloStore_contiguous hnew hcommitted.ge hrun
    (by rw [hcounter]; decide)
  obtain ⟨a, hrep, hsum⟩ := hsize hleader
  rw [hcounter, hlast] at hsum
  exact ⟨n, d, pages, hnew, hrun, hleader, hcounter, hlast, a, hrep, hsum.symm⟩

/-- The node elects itself and proposes five times; pages are taken and persisted. -/
def skippedProposals : List Drive :=
  [.input .campaign, .ready, .advanceAppend, .input (.propose [] [7]), .input (.propose [] [7]),
    .input (.propose [] [7]), .input (.propose [] [7]), .input (.propose [] [7]), .ready,
    .advanceAppend]

/-- A configuration that claims to have applied entries which the log does not have yet: they
are charged when they are proposed, and never handed out. -/
theorem uncommitted_size_skipped :
    letI := Codec.plain
    ∃ n d pages, RawNode.new { id := 1, applied := 5, maxUncommittedSize := 100 } soloStore
        (fun _ => 0) = some n ∧
      Run Legal { node := n } skippedProposals d pages ∧ d.node.raft.state = .leader ∧
      d.node.raft.uncommittedState.maxUncommittedSize ≠ kNoLimit ∧
      ∀ a, d.node.raft.raftLog.Represents a →
        d.node.raft.uncommittedState.uncommittedSize ≠ dataSize (entriesAbove
          (max d.node.raft.uncommittedState.lastLogTailIndex (lastHanded 0 (handedOut pages)))
          a.entries) := by
  obtain ⟨n, hnew, d, pages, hrun, hleader, hcounter, hhanded, hlast⟩ : letI := Codec.plain
      ∃ n, RawNode.new { id := 1, applied := 5, maxUncommittedSize := 100 } soloStore
          (fun _ => 0) = some n ∧
        ∃ d pages, Run Legal { node := n } skippedProposals d pages ∧
          d.node.raft.state = .leader ∧
          d.node.raft.uncommittedState = { maxUncommittedSize := 100, uncommittedSize := 4 } ∧
          lastHanded 0 (handedOut pages) = 6 ∧ d.node.raft.raftLog.lastIndex = some 6 := by
    decide +kernel
  let _ := Codec.plain
  refine ⟨n, d, pages, hnew, hrun, hleader, by rw [hcounter]; decide, fun a ha => ?_⟩
  obtain ⟨a', hsound, -⟩ := (Sound.new soloStore_contiguous hnew).1.run (fun _ _ => id) hrun
  obtain rfl := hsound.log.represents.unique ha
  have hend : a'.lastIndex = 6 := some.inj (hsound.log.lastIndex.symm.trans hlast)
  -- the log ends with the entry that was handed out
  rw [hhanded, entriesAbove_eq_nil fun e he => ?_, hcounter]
  · decide
  · exact (AbstractLog.Contiguous.index_le_lastIndex hsound.log.contiguous he).trans
      (hend.trans_le (le_max_right _ _))

end Driven

end Raftpp
