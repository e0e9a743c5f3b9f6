import Raftpp.Ready.Moves

/-!
# One configuration change at a time

A leader appends a configuration change only when the last one that may be in its log
is applied.  It keeps one index for that: the end of the log it was elected with, or
the change it appended last.  `OneChange` says what the index stands for, and that
nobody campaigns with a committed change that it has not applied.

The checks of the code know the changes of the second version only, so what they
ensure is about those (`Current`).  A change of the first version is applied as well.
-/

namespace Raftpp

open List Option

variable {e : Entry} {entries : List Entry} {last term : ℕ}

/-- An entry that is applied as a configuration change. -/
def Entry.changesConf (e : Entry) : Prop :=
  e.entryType = .entryConfChange ∨ e.entryType = .entryConfChangeV2

namespace RaftLog

section Holds

variable {σ : Type} [Storage σ] [Codec]

/-- The log returns the entry for its index. -/
def Holds (l : RaftLog σ) (e : Entry) : Prop :=
  l.slice e.index (e.index + 1) none (.empty false) = some (.ok [e])

instance (l : RaftLog σ) (e : Entry) : Decidable (l.Holds e) :=
  inferInstanceAs (Decidable (l.slice e.index (e.index + 1) none (.empty false) = some (.ok [e])))

end Holds

variable {σ : Type} [WritableStorage σ] [Codec] [LawfulStorage σ] {l l' : RaftLog σ}
  {a a' : AbstractLog}

theorem Represents.holds_iff [ReliableStorage σ] (h : Represents l a) (e : Entry) :
    l.Holds e ↔ e ∈ a.entries :=
  ⟨fun hslice => h.mem_of_slice hslice mem_cons_self, h.slice_mem⟩

/-- A scan for configuration changes that finds none. -/
theorem Represents.confClear [PagingStorage σ] (h : Represents l a) {low high : ℕ}
    (hclear : l.ConfClear low high)
    (hhigh : high ≤ l.committed + 1) (he : e ∈ a.entries) (hkind : e.entryType = .entryConfChangeV2)
    (happlied : l.applied < e.index) (hlow : low ≤ e.index) : high ≤ e.index := by
  by_contra hlt
  rcases hclear with hle | ⟨pageSize, ctx, hscan⟩
  · omega
  · obtain ⟨page, hmem, hnone⟩ := h.scan_clear _ low (by omega) hscan e he hlow (by omega)
    have hfound : holdsConfChange page = true :=
      List.any_eq_true.mpr ⟨e, hmem, by simp [hkind]⟩
    rw [hfound] at hnone
    cases hnone

/-- No committed configuration change waits to be applied. -/
theorem Represents.committedClear [PagingStorage σ] (h : Represents l a) (hclear : l.CommittedClear)
    {e : Entry} (he : e ∈ a.entries) (hkind : e.entryType = .entryConfChangeV2)
    (happlied : l.applied < e.index) : l.committed < e.index := by
  refine h.confClear hclear le_rfl he hkind happlied ?_
  -- the scan starts after a pending snapshot, which is where the log starts
  unfold Unstable.maybeFirstIndex
  cases hsnapshot : l.unstable.snapshot with
  | none => exact happlied
  | some snapshot =>
      have hindex := (h.pending snapshot hsnapshot).1
      have hlt := (h.contiguous.getElem?_of_mem he).1
      simp only [map_some, getD_some]
      omega

/-- Two logs with the same entries. -/
structure SameLog (l l' : RaftLog σ) : Prop where
  store : l'.store = l.store
  unstable : l'.unstable = l.unstable
  applied : l.applied ≤ l'.applied

omit [WritableStorage σ] [Codec] [LawfulStorage σ] in
theorem SameLog.refl (l : RaftLog σ) : SameLog l l := ⟨rfl, rfl, le_rfl⟩

omit [Codec] [LawfulStorage σ] in
theorem SameLog.of_commitTo {i : ℕ} {result : Result Unit}
    (h : l.commitTo i = some (l', result)) : SameLog l l' := by
  rcases commitTo_eq h with rfl | ⟨-, -, rfl⟩
  · exact .refl _
  · exact ⟨rfl, rfl, le_rfl⟩

omit [Codec] [LawfulStorage σ] in
theorem SameLog.of_maybeCommit {i : ℕ} {committed : Bool}
    (h : l.maybeCommit i term = some (l', committed)) : SameLog l l' := by
  rcases maybeCommit_eq h with rfl | ⟨-, -, -, rfl⟩
  · exact .refl _
  · exact ⟨rfl, rfl, le_rfl⟩

theorem SameLog.eq (h : SameLog l l') (hl : Represents l a) (hl' : Represents l' a') : a' = a :=
  hl'.unique (hl.congr h.store h.unstable)

end RaftLog

/-! ## Proposals -/

theorem Raft.mem_numberEntries {e' : Entry} :
    ∀ {i : ℕ} {entries : List Entry}, e' ∈ numberEntries term i entries →
      ∃ k e, entries[k]? = some e ∧ e'.index = i + k ∧ e'.entryType = e.entryType := by
  intro i entries
  induction entries generalizing i with
  | nil => exact fun h => absurd h not_mem_nil
  | cons e es ih =>
      intro h
      rcases mem_cons.mp h with rfl | h
      · exact ⟨0, e, rfl, rfl, rfl⟩
      · obtain ⟨k, f, hget, hindex, htype⟩ := ih h
        exact ⟨k + 1, f, hget, by omega, htype⟩

/-- A proposal with a configuration change has one, and only when none is pending. -/
theorem ConfProposal.change {pending applied last pending' term : ℕ} {entries : List Entry}
    (h : ConfProposal pending applied last entries pending') {e : Entry}
    (he : e ∈ Raft.numberEntries term (last + 1) entries)
    (hkind : e.entryType = .entryConfChangeV2) : pending ≤ applied ∧ e.index = pending' := by
  obtain ⟨k, f, hget, hindex, htype⟩ := Raft.mem_numberEntries he
  rw [hkind] at htype
  cases h with
  | none hrest => exact absurd htype.symm (hrest f (mem_of_getElem? hget))
  | one before after change hsplit hrest hpending =>
      refine ⟨hpending, ?_⟩
      suffices hk : k = before.length by omega
      by_contra hne
      refine absurd htype.symm (hrest f ?_)
      rw [hsplit] at hget
      by_cases hlt : k < before.length
      · rw [getElem?_append_left hlt] at hget
        exact mem_append_left _ (mem_of_getElem? hget)
      · rw [getElem?_append_right (by omega),
          show k - before.length = (k - before.length - 1) + 1 by omega,
          getElem?_cons_succ] at hget
        exact mem_append_right _ (mem_of_getElem? hget)

theorem ConfProposal.kept {pending applied pending' : ℕ}
    (h : ConfProposal pending applied last entries pending') :
    pending' = pending ∨ pending ≤ applied := by
  cases h with
  | none hrest => exact Or.inl rfl
  | one before after change hsplit hrest hpending => exact Or.inr hpending

/-! ## Elementary steps -/

section Micro

variable {σ : Type} [WritableStorage σ] [Codec] [LawfulStorage σ] {env : Env}
  {c c' : NodeCore σ} {a a' : AbstractLog}

variable {last index : ℕ}

/-- The changes in the log of a leader that it has not applied are not after the index it
keeps, and a candidate has applied the committed ones. -/
structure OneChange (c : NodeCore σ) (a : AbstractLog) : Prop where
  pending : c.state = .leader → ∀ e ∈ a.entries, e.entryType = .entryConfChangeV2 →
    c.log.applied < e.index → e.index ≤ c.pendingConf
  campaign : c.state = .candidate ∨ c.state = .preCandidate → ∀ e ∈ a.entries,
    e.entryType = .entryConfChangeV2 → c.log.applied < e.index → c.log.committed < e.index

omit [LawfulStorage σ] in
/-- Away from the messages of a leader, a step leaves the entries alone or is a proposal, or the
node has won an election. -/
theorem Micro.sameLog (hpersist : ∀ u, ¬env.persist u) (hno : c'.state ≠ .follower ∨
      ∀ m, env.sent m → m.msgType ≠ .msgAppend ∧ m.msgType ≠ .msgSnapshot)
    (h : Micro env c c') :
    RaftLog.SameLog c.log c'.log ∨ ∃ last entries index,
      c'.state = .leader ∧ c.log.lastIndex = some last ∧
      c.log.append (Raft.numberEntries c.term (last + 1) entries) = some (c'.log, index) ∧
      (c.state = .leader ∧ ConfProposal c.pendingConf c.log.applied last entries c'.pendingConf ∨
        c.state = .candidate ∧ entries = [{}] ∧ c'.pendingConf = last) ∧
      ∀ e ∈ entries, env.propose e ∨ e.OfLeader := by
  cases h with
  | follow term tracks log hterm hlog => exact Or.inl ⟨hlog.store, hlog.unstable, hlog.applied⟩
  | bookkeep log hlog => exact Or.inl ⟨hlog.store, hlog.unstable, hlog.applied⟩
  | win last index log tracks henv hstate hwon hlast happend htracks =>
      exact Or.inr ⟨last, _, index, rfl, hlast, happend, Or.inr ⟨hstate, rfl, rfl⟩,
        by simp [Entry.OfLeader]⟩
  | propose last entries log index pendingConf hstate hlast happend hconf hentries hroom =>
      exact Or.inr ⟨last, entries, index, hstate, hlast, happend, Or.inl ⟨hstate, hconf⟩,
        fun e he => Or.inl (hentries e he)⟩
  | accept m log conflict last hm hkind hstate happend =>
      exact (hno.elim (fun hne => hne hstate) fun hno => (hno m hm.sent).1 hkind).elim
  | install m log tracker maxInflight hm hkind hstate hcommitted htracker hlog =>
      exact (hno.elim (fun hne => hne hstate) fun hno => (hno m hm.sent).2 hkind).elim
  | commitTo i log result hstate hcommit => exact Or.inl (.of_commitTo hcommit)
  | commitTold i term log committed hstate hcommit hclear => exact Or.inl (.of_maybeCommit hcommit)
  | commitByQuorum i log committed hstate hcommit => exact Or.inl (.of_maybeCommit hcommit)
  | persist index term henv => exact absurd henv (hpersist _)
  | persistSnapshot index log updated henv hrun => exact absurd henv (hpersist _)
  | _ => exact Or.inl (.refl _)

/-- What a proposal does to the log. -/
theorem append_entries (h : c.log.Sound a) (hlast : c.log.lastIndex = some last)
    (happend : c.log.append (Raft.numberEntries term (last + 1) entries) = some (c'.log, index))
    (h' : c'.log.Sound a') :
    a.lastIndex = last ∧ c'.log.applied = c.log.applied ∧
      a' = { a with entries := a.entries ++ Raft.numberEntries term (last + 1) entries } :=
  ⟨some.inj (h.lastIndex.symm.trans hlast), (RaftLog.append_keeps happend).applied,
    h'.represents.unique (h.append hlast happend).1.represents⟩

omit [WritableStorage σ] [Codec] [LawfulStorage σ] in
theorem OneChange.frame (h : OneChange c a) (hstate : c'.state = c.state)
    (hpending : c'.pendingConf = c.pendingConf) (happlied : c.log.applied ≤ c'.log.applied)
    (hcommitted : c.state = .leader ∨ c'.log.committed = c.log.committed) : OneChange c' a := by
  refine ⟨fun hleader e he hkind hlt => ?_, fun hcandidate e he hkind hlt => ?_⟩
  · rw [hpending]
    exact h.pending (hstate ▸ hleader) e he hkind (by omega)
  · rw [hstate] at hcandidate
    rcases hcommitted with hleader | hcommitted
    · simp [hleader] at hcandidate
    · rw [hcommitted]
      exact h.campaign hcandidate e he hkind (by omega)

/-- A leader appends. -/
theorem OneChange.propose (hone : OneChange c a) (h : c.log.Sound a) (h' : c'.log.Sound a')
    (hleader : c.state = .leader) (hleader' : c'.state = .leader)
    (hlast : c.log.lastIndex = some last)
    (happend : c.log.append (Raft.numberEntries c.term (last + 1) entries) = some (c'.log, index))
    (hconf : ConfProposal c.pendingConf c.log.applied last entries c'.pendingConf) :
    OneChange c' a' := by
  obtain ⟨-, happlied, rfl⟩ := append_entries h hlast happend h'
  refine ⟨fun _ e he hkind hlt => ?_, by simp [hleader']⟩
  rw [happlied] at hlt
  rcases mem_append.mp he with hold | hnew
  · have hle := hone.pending hleader e hold hkind hlt
    rcases hconf.kept with hsame | hpending
    · exact hle.trans_eq hsame.symm
    · omega
  · exact (hconf.change hnew hkind).2.le

/-- A candidate wins: its log holds no change after the index it then keeps. -/
theorem OneChange.win (h : c.log.Sound a) (h' : c'.log.Sound a') (hleader : c'.state = .leader)
    (hlast : c.log.lastIndex = some last)
    (happend : c.log.append (Raft.numberEntries c.term (last + 1) [{}]) = some (c'.log, index))
    (hpending : c'.pendingConf = last) : OneChange c' a' := by
  obtain ⟨hend, -, rfl⟩ := append_entries h hlast happend h'
  refine ⟨fun _ e he hkind _ => ?_, by simp [hleader]⟩
  rcases mem_append.mp he with hold | hnew
  · rw [hpending, ← hend]
    exact h.represents.contiguous.index_le_lastIndex hold
  · obtain rfl := mem_singleton.mp hnew
    cases hkind

/-- One step. -/
theorem Micro.oneChange [PagingStorage σ] (h : c.log.Sound a) (h' : c'.log.Sound a')
    (hpersist : ∀ u, ¬env.persist u)
    (hone : OneChange c a) (hstep : Micro env c c') : OneChange c' a' := by
  by_cases hne : c'.state = .follower
  · constructor <;> simp [hne]
  rcases hstep.sameLog hpersist (Or.inl hne) with
    hsame | ⟨last, entries, index, hleader', hlast, happend, hwhy, -⟩
  · obtain rfl := hsame.eq h.represents h'.represents
    have happlied := hsame.applied
    cases hstep with
    | follow term tracks log hterm hlog => exact absurd rfl hne
    | preCampaign henv hvoter hclear =>
        refine ⟨by simp, fun _ e he hkind hlt => ?_⟩
        exact h.represents.committedClear hclear he hkind hlt
    | campaign tracks henv hvoter =>
        refine ⟨by simp, fun _ e he hkind hlt => ?_⟩
        rcases hvoter with ⟨-, hclear, -⟩ | ⟨hpre, -⟩
        · exact h.represents.committedClear hclear he hkind hlt
        · exact hone.campaign (Or.inr hpre) e he hkind hlt
    | win last index log tracks henv hstate hwon hlast happend htracks =>
        exact .win h h' rfl hlast happend rfl
    | propose last entries log index pendingConf hstate hlast happend hconf hentries hroom =>
        exact hone.propose h h' hstate hstate hlast happend hconf
    | accept m log conflict last hm hkind hstate happend => exact absurd hstate hne
    | install m log tracker maxInflight hm hkind hstate => exact absurd hstate hne
    | commitTo i log result hstate hcommit => exact absurd hstate hne
    | commitTold i term log committed hstate hcommit hclear =>
        refine ⟨fun hleader => absurd hleader hstate, fun hcandidate e he hconf hlt => ?_⟩
        rcases hclear hne with rfl | hclear
        · exact hone.campaign hcandidate e he hconf hlt
        · have hold := hone.campaign hcandidate e he hconf (by simp only at hlt happlied; omega)
          exact h'.represents.confClear hclear le_rfl he hconf hlt hold
    | commitByQuorum i log committed hstate hcommit =>
        exact hone.frame rfl rfl happlied (Or.inl hstate)
    | bookkeep log hlog => exact hone.frame rfl rfl happlied (Or.inr hlog.committed)
    | persist index term henv => exact absurd henv (hpersist _)
    | persistSnapshot index log updated henv hrun => exact absurd henv (hpersist _)
    | _ => exact ⟨hone.pending, hone.campaign⟩
  · rcases hwhy with ⟨hleader, hconf⟩ | ⟨-, rfl, hpending⟩
    · exact hone.propose h h' hleader hleader' hlast happend hconf
    · exact .win h h' hleader' hlast happend hpending

/-- A chain of steps. -/
theorem Steps.oneChange [PagingStorage σ] (h : c.log.Sound a) (h' : c'.log.Sound a')
    (hsent : ∀ m, env.sent m → m.Numbered) (hpersist : ∀ u, ¬env.persist u)
    (hone : OneChange c a) (hsteps : Steps env c c') : OneChange c' a' := by
  suffices hchain : ∃ a₁, c'.log.Sound a₁ ∧ OneChange c' a₁ by
    obtain ⟨a₁, h₁, hone₁⟩ := hchain
    obtain rfl := h'.represents.unique h₁.represents
    exact hone₁
  clear h'
  induction hsteps with
  | refl => exact ⟨a, h, hone⟩
  | tail _ hstep ih =>
      obtain ⟨a₁, h₁, hone₁⟩ := ih
      obtain ⟨a₂, h₂, -⟩ := h₁.change hsent hpersist hstep.change
      exact ⟨a₂, h₂, hstep.oneChange h₁ h₂ hpersist hone₁⟩

/-! ## Whole calls -/

/-- Of the changes of the second version that are not applied, one appended after `last` is the
only one. -/
def OnlyChange (last : ℕ) (c : NodeCore σ) (a : AbstractLog) : Prop :=
  ∀ e ∈ a.entries, ∀ f ∈ a.entries, e.entryType = .entryConfChangeV2 →
    f.entryType = .entryConfChangeV2 → last < e.index → c.log.applied < e.index →
    c.log.applied < f.index → f = e

/-- All changes that are not applied are of the second version. -/
def Current (c : NodeCore σ) (a : AbstractLog) : Prop :=
  ∀ e ∈ a.entries, c.log.applied < e.index → e.entryType ≠ .entryConfChange

theorem Micro.onlyChange (h : c.log.Sound a) (h' : c'.log.Sound a') (hpersist : ∀ u, ¬env.persist u)
    (hno : c'.state ≠ .follower ∨
      ∀ m, env.sent m → m.msgType ≠ .msgAppend ∧ m.msgType ≠ .msgSnapshot)
    (hpropose : ∀ e, env.propose e → e.entryType ≠ .entryConfChange) (hone : OneChange c a)
    (honly : OnlyChange last c a) (hcurrent : Current c a) (hstep : Micro env c c') :
    OnlyChange last c' a' ∧ Current c' a' := by
  rcases hstep.sameLog hpersist hno with
    hsame | ⟨last', entries, index, -, hlast, happend, hwhy, hold⟩
  · obtain rfl := hsame.eq h.represents h'.represents
    have happlied := hsame.applied
    refine ⟨fun e he f hf hkind hkind' hlow hlt hlt' => ?_, fun e he hlt => ?_⟩
    · exact honly e he f hf hkind hkind' hlow (by omega) (by omega)
    · exact hcurrent e he (by omega)
  · obtain ⟨-, happlied, rfl⟩ := append_entries h hlast happend h'
    refine ⟨fun e he f hf hkind hkind' hlow hlt hlt' => ?_, fun e he hlt => ?_⟩
    · rw [happlied] at hlt hlt'
      -- with a new change, all that are not applied are new
      have hnew : ∀ {g g' : Entry}, g ∈ Raft.numberEntries c.term (last' + 1) entries →
          g.entryType = .entryConfChangeV2 →
          g' ∈ a.entries ++ Raft.numberEntries c.term (last' + 1) entries →
          g'.entryType = .entryConfChangeV2 → c.log.applied < g'.index → g'.index = g.index := by
        intro g g' hg hgkind hg' hgkind' hglt
        obtain ⟨hleader, hconf⟩ : c.state = .leader ∧
            ConfProposal c.pendingConf c.log.applied last' entries c'.pendingConf := by
          refine hwhy.resolve_right ?_
          rintro ⟨-, rfl, -⟩
          obtain rfl := mem_singleton.mp hg
          cases hgkind
        obtain ⟨hpending, hindex⟩ := hconf.change hg hgkind
        rcases mem_append.mp hg' with hbefore | hnew
        · have hle := hone.pending hleader g' hbefore hgkind' hglt
          omega
        · exact (hconf.change hnew hgkind').2.trans hindex.symm
      have hcontiguous := h'.represents.contiguous
      rcases mem_append.mp he with heold | henew
      · rcases mem_append.mp hf with hfold | hfnew
        · exact honly e heold f hfold hkind hkind' hlow hlt hlt'
        · exact (hcontiguous.eq_of_index he hf (hnew hfnew hkind' he hkind hlt)).symm
      · exact hcontiguous.eq_of_index hf he (hnew henew hkind hf hkind' hlt')
    · rw [happlied] at hlt
      rcases mem_append.mp he with hbefore | hnew
      · exact hcurrent e hbefore hlt
      · intro htype
        obtain ⟨k, f, hget, -, hsame⟩ := Raft.mem_numberEntries hnew
        have hkind : f.entryType = .entryConfChange := hsame.symm.trans htype
        rcases hold f (mem_of_getElem? hget) with hproposed | rfl | rfl
        · exact hpropose f hproposed hkind
        · cases hkind
        · cases hkind

theorem Steps.onlyChange [PagingStorage σ] (h : c.log.Sound a) (h' : c'.log.Sound a')
    (hsent : ∀ m, env.sent m → m.Numbered) (hpersist : ∀ u, ¬env.persist u)
    (hno : ¬env.elect ∧ c'.state ≠ .follower ∨
      ∀ m, env.sent m → m.msgType ≠ .msgAppend ∧ m.msgType ≠ .msgSnapshot)
    (hpropose : ∀ e, env.propose e → e.entryType ≠ .entryConfChange) (hone : OneChange c a)
    (honly : OnlyChange last c a) (hcurrent : Current c a) (hsteps : Steps env c c') :
    OnlyChange last c' a' ∧ Current c' a' := by
  suffices hchain : ∃ a₁, c'.log.Sound a₁ ∧ OneChange c' a₁ ∧ OnlyChange last c' a₁ ∧
      Current c' a₁ by
    obtain ⟨a₁, h₁, -, hrest⟩ := hchain
    obtain rfl := h'.represents.unique h₁.represents
    exact hrest
  clear h'
  induction hsteps with
  | refl => exact ⟨a, h, hone, honly, hcurrent⟩
  | tail _ hstep ih =>
      obtain ⟨a₁, h₁, hone₁, honly₁, hcurrent₁⟩ := ih (hno.imp_left fun hno => by
        obtain ⟨hstate, -⟩ := hstep.state_before hno.1 hno.2
        exact ⟨hno.1, hstate ▸ hno.2⟩)
      obtain ⟨a₂, h₂, -⟩ := h₁.change hsent hpersist hstep.change
      exact ⟨a₂, h₂, hstep.oneChange h₁ h₂ hpersist hone₁,
        hstep.onlyChange h₁ h₂ hpersist (hno.imp_left And.right) hpropose hone₁ honly₁ hcurrent₁⟩

omit [LawfulStorage σ] in
theorem Micro.wins (h : Micro env c c') (hleader : c'.state = .leader) :
    c.state = .leader ∨ c.state = .candidate := by
  cases h with
  | follow term tracks log hterm hlog => cases hleader
  | preCampaign henv hvoter hclear => cases hleader
  | campaign tracks henv hvoter => cases hleader
  | win last index log tracks henv hstate => exact Or.inr hstate
  | _ => exact Or.inl hleader

/-- A node that was elected on the way had no committed change to apply. -/
theorem Steps.elected_clear [PagingStorage σ] (h : c.log.Sound a) (h' : c'.log.Sound a')
    (hsent : ∀ m, env.sent m → m.Numbered) (hpersist : ∀ u, ¬env.persist u) (hone : OneChange c a)
    (hsteps : Steps env c c') (hstate : c.state ≠ .leader) (hleader : c'.state = .leader)
    (he : e ∈ a'.entries) (hkind : e.entryType = .entryConfChangeV2)
    (hlt : c'.log.applied < e.index) : c.log.committed < e.index := by
  suffices hchain : ∃ a₁, c'.log.Sound a₁ ∧ c.log.committed ≤ c'.log.committed ∧
      OneChange c' a₁ ∧ (c'.state = .leader → ∀ e ∈ a₁.entries,
        e.entryType = .entryConfChangeV2 → c'.log.applied < e.index →
        c.log.committed < e.index) by
    obtain ⟨a₁, h₁, -, -, hclear⟩ := hchain
    obtain rfl := h'.represents.unique h₁.represents
    exact hclear hleader e he hkind hlt
  clear h' he hleader hlt
  induction hsteps with
  | refl => exact ⟨a, h, le_rfl, hone, fun hleader => absurd hleader hstate⟩
  | @tail c₁ c₂ _ hstep ih =>
      obtain ⟨a₁, h₁, hcommitted, hone₁, hclear⟩ := ih
      obtain ⟨a₂, h₂, hlater⟩ := h₁.change hsent hpersist hstep.change
      refine ⟨a₂, h₂, hcommitted.trans hlater.committed, hstep.oneChange h₁ h₂ hpersist hone₁, ?_⟩
      intro hleader e he hkind hlt
      have hbefore : ∀ e ∈ a₁.entries, e.entryType = .entryConfChangeV2 →
          c₁.log.applied < e.index → c.log.committed < e.index := by
        intro e he hkind hlt
        rcases hstep.wins hleader with hbefore | hcandidate
        · exact hclear hbefore e he hkind hlt
        · exact hcommitted.trans_lt (hone₁.campaign (Or.inl hcandidate) e he hkind hlt)
      rcases hstep.sameLog hpersist (Or.inl (by simp [hleader])) with
        hsame | ⟨last, entries, index, -, hlast, happend, -⟩
      · obtain rfl := hsame.eq h₁.represents h₂.represents
        exact hbefore e he hkind (hsame.applied.trans_lt hlt)
      · obtain ⟨hend, happlied, rfl⟩ := append_entries h₁ hlast happend h₂
        rw [happlied] at hlt
        rcases mem_append.mp he with hold | hnew
        · exact hbefore e hold hkind hlt
        · obtain ⟨k, f, -, hindex, -⟩ := Raft.mem_numberEntries hnew
          have hle := h₁.committed_le
          simp only at hle
          omega

end Micro

/-! ## Runs -/

namespace Driven

variable {σ : Type} [WritableStorage σ] [Codec] [LawfulStorage σ]
  {P : Driven σ → Drive → Prop} {d d' : Driven σ} {a a' : AbstractLog} {pages : List (Page σ)}

/-- Two states that differ in nothing that configuration changes depend on. -/
structure SameRole (d d' : Driven σ) : Prop where
  state : d'.node.raft.state = d.node.raft.state
  pending : d'.node.raft.pendingConfIndex = d.node.raft.pendingConfIndex
  applied : d'.node.raft.raftLog.applied = d.node.raft.raftLog.applied
  committed : d'.node.raft.raftLog.committed = d.node.raft.raftLog.committed

/-- Every move but a run of elementary steps leaves the role and the entries alone. -/
theorem Move.run_or_same (hmove : Move P d a d' a' pages) :
    (∃ (env : Env) (tracker : ProgressTracker) (promotable : Bool),
      (∀ m, env.sent m → m.Numbered) ∧ (∀ u, ¬env.persist u) ∧
      (env = quietEnv ∨ ∃ call, P d (.input call)) ∧ d'.node.raft.raftLog.Sound a' ∧
      Steps env ({ d.node.raft with tracker, promotable } : Raft σ).core d'.node.raft.core) ∨
    a' = a ∧ SameRole d d' := by
  cases hmove with
  | run env tracker promotable raft a' hsent henv htracker hsteps hlog hlater hindex =>
      refine Or.inl ⟨env, tracker, promotable, fun m hm => (hsent m hm).numbered, ?_, ?_, hlog,
        hsteps⟩
      · rcases henv with rfl | ⟨call, rfl, -, -⟩ <;> exact fun _ => id
      · exact henv.imp_right fun ⟨call, _, hop, _⟩ => ⟨call, hop⟩
  | ready node store rd hop hidle htakes hoffers hstored =>
      have hlog := htakes.raftLog
      exact Or.inr ⟨rfl, congrArg NodeCore.state htakes.core,
        congrArg NodeCore.pendingConf htakes.core, (congrArg RaftLog.applied hlog :),
        (congrArg RaftLog.committed hlog :)⟩
  | settle rd log hpending hsame hsnapshot hoffset =>
      refine Or.inr ⟨rfl, rfl, rfl, ?_, ?_⟩ <;> simp only <;> rw [hsame]
  | report number index term snapIndex records log hnumber hrecords hlog =>
      refine Or.inr ⟨rfl, rfl, rfl, ?_, ?_⟩ <;> simp only <;> rw [RawNode.reported_eq hlog]
  | hand node messages entries hsnapshot hflushes hhands =>
      have hlog := hflushes.raftLog
      exact Or.inr ⟨rfl, congrArg NodeCore.state hflushes.core,
        congrArg NodeCore.pendingConf hflushes.core, congrArg RaftLog.applied hlog,
        congrArg RaftLog.committed hlog⟩
  | note prevHs hhard => exact Or.inr ⟨rfl, rfl, rfl, rfl, rfl⟩

/-- One move. -/
theorem Move.oneChange [PagingStorage σ] (hsound : d.Sound a) (h : OneChange d.node.raft.core a)
    (hmove : Move P d a d' a' pages) : OneChange d'.node.raft.core a' := by
  rcases hmove.run_or_same with
    ⟨env, tracker, promotable, hsent, hpersist, -, hlog, hsteps⟩ | ⟨rfl, hsame⟩
  · have hlog₀ : ({ d.node.raft with tracker, promotable } : Raft σ).core.log.Sound a := hsound.log
    have hone : OneChange ({ d.node.raft with tracker, promotable } : Raft σ).core a :=
      ⟨h.pending, h.campaign⟩
    exact hsteps.oneChange hlog₀ hlog hsent hpersist hone
  · exact h.frame hsame.state hsame.pending hsame.applied.ge (Or.inr hsame.committed)

theorem Moves.oneChange [PagingStorage σ] (h : OneChange d.node.raft.core a)
    (hmoves : Moves P d a d' a' pages) :
    OneChange d'.node.raft.core a' := by
  induction hmoves with
  | refl d a => exact h
  | head hsound hmove _ ih => exact ih (hmove.oneChange hsound h)

/-- Moves without an input: nobody is elected, and the changes appended are current ones, one at
a time. -/
theorem Moves.onlyChange [PagingStorage σ] (hP : ∀ d call, ¬P d (.input call))
    (h : OneChange d.node.raft.core a)
    (honly : OnlyChange last d.node.raft.core a) (hcurrent : Current d.node.raft.core a)
    (hmoves : Moves P d a d' a' pages) :
    (d'.node.raft.state = .leader → d.node.raft.state = .leader) ∧
      OnlyChange last d'.node.raft.core a' ∧ Current d'.node.raft.core a' := by
  induction hmoves with
  | refl d a => exact ⟨id, honly, hcurrent⟩
  | @head d d₁ d₂ a a₁ a₂ _ _ hsound hmove _ ih =>
      have hone := hmove.oneChange hsound h
      rcases hmove.run_or_same with
        ⟨env, tracker, promotable, hsent, hpersist, hquiet, hlog, hsteps⟩ | ⟨rfl, hsame⟩
      · obtain rfl := hquiet.resolve_right fun ⟨call, hop⟩ => hP d call hop
        have hlog₀ : ({ d.node.raft with tracker, promotable } : Raft σ).core.log.Sound a :=
          hsound.log
        have hone₀ : OneChange ({ d.node.raft with tracker, promotable } : Raft σ).core a :=
          ⟨h.pending, h.campaign⟩
        have honly₀ : OnlyChange last ({ d.node.raft with tracker, promotable } : Raft σ).core a :=
          honly
        have hcurrent₀ : Current ({ d.node.raft with tracker, promotable } : Raft σ).core a :=
          hcurrent
        obtain ⟨honly₁, hcurrent₁⟩ := hsteps.onlyChange hlog₀ hlog hsent hpersist
          (Or.inr fun _ => False.elim) (fun _ => id) hone₀ honly₀ hcurrent₀
        obtain ⟨hleader, hrest⟩ := ih hone honly₁ hcurrent₁
        exact ⟨fun hstate => hsteps.leader_before id (hleader hstate), hrest⟩
      · have honly₁ : OnlyChange last d₁.node.raft.core a₁ := by
          unfold OnlyChange
          simp only [Raft.core_log, hsame.applied]
          exact honly
        have hcurrent₁ : Current d₁.node.raft.core a₁ := by
          unfold Current
          simp only [Raft.core_log, hsame.applied]
          exact hcurrent
        obtain ⟨hleader, hrest⟩ := ih hone honly₁ hcurrent₁
        exact ⟨fun hstate => hsame.state ▸ hleader hstate, hrest⟩

/-- Neither the log nor a proposal that comes with the call holds a change of the first version
that is not applied. -/
def OnlyCurrent (d : Driven σ) (op : Drive) : Prop :=
  (∀ e, d.node.raft.raftLog.Holds e → d.node.raft.raftLog.applied < e.index →
    e.entryType ≠ .entryConfChange) ∧
  ∀ m, op = .input (.step m) → m.msgType = .msgPropose → ∀ e ∈ m.entries,
    e.entryType ≠ .entryConfChange

/-- One configuration change at a time, over the call from `d` to `d'`: a change that a leader
has appended is the only one in its log that is not applied, a candidate has no committed change
to apply, and who was elected had none. -/
structure OneAtATime (d d' : Driven σ) : Prop where
  appended : ∀ last e f, d'.node.raft.state = .leader →
    d.node.raft.raftLog.lastIndex = some last → d'.node.raft.raftLog.Holds e →
    d'.node.raft.raftLog.Holds f → e.changesConf → f.changesConf → last < e.index →
    d'.node.raft.raftLog.applied < e.index → d'.node.raft.raftLog.applied < f.index → f = e
  campaigning : ∀ e, d'.node.raft.state = .candidate ∨ d'.node.raft.state = .preCandidate →
    d'.node.raft.raftLog.Holds e → e.changesConf → d'.node.raft.raftLog.applied < e.index →
    d'.node.raft.raftLog.committed < e.index
  elected : ∀ e, d.node.raft.state ≠ .leader → d'.node.raft.state = .leader →
    d'.node.raft.raftLog.Holds e → e.changesConf → d'.node.raft.raftLog.applied < e.index →
    d.node.raft.raftLog.committed < e.index

/-- The result of a call from what is known of the logs. -/
theorem OneAtATime.of_changes [ReliableStorage σ] (h : d.node.raft.raftLog.Sound a)
    (h' : d'.node.raft.raftLog.Sound a') (hone : OneChange d'.node.raft.core a')
    (hrole : d'.node.raft.state ≠ .follower →
      OnlyChange a.lastIndex d'.node.raft.core a' ∧ Current d'.node.raft.core a')
    (helected : d.node.raft.state ≠ .leader → d'.node.raft.state = .leader → ∀ e ∈ a'.entries,
      e.entryType = .entryConfChangeV2 → d'.node.raft.raftLog.applied < e.index →
      d.node.raft.raftLog.committed < e.index) : OneAtATime d d' := by
  have hkind : ∀ {e : Entry}, d'.node.raft.state ≠ .follower → e ∈ a'.entries → e.changesConf →
      d'.node.raft.raftLog.applied < e.index → e.entryType = .entryConfChangeV2 := by
    intro e hne he hconf hlt
    exact hconf.resolve_left ((hrole hne).2 e he hlt)
  refine ⟨?_, ?_, ?_⟩
  · intro last e f hleader hlast he hf hconf hconf' hlow hlt hlt'
    rw [h'.represents.holds_iff] at he hf
    obtain rfl : a.lastIndex = last := some.inj (h.lastIndex.symm.trans hlast)
    have hne : d'.node.raft.state ≠ .follower := by simp [hleader]
    exact (hrole hne).1 e he f hf (hkind hne he hconf hlt) (hkind hne hf hconf' hlt') hlow hlt hlt'
  · intro e hcandidate he hconf hlt
    rw [h'.represents.holds_iff] at he
    have hne : d'.node.raft.state ≠ .follower := by rcases hcandidate with h | h <;> simp [h]
    exact hone.campaign hcandidate e he (hkind hne he hconf hlt) hlt
  · intro e hstate hleader he hconf hlt
    rw [h'.represents.holds_iff] at he
    exact helected hstate hleader e he (hkind (by simp [hleader]) he hconf hlt) hlt

/-- In every run, every call that meets no change of the first version keeps to one
configuration change at a time. -/
theorem one_conf_change_at_a_time [ReliableStorage σ] {config : Config} {store : σ} {rng : ℕ → ℕ}
    {n : RawNode σ} {ops : List Drive} {op : Drive} {handed : List (Page σ)}
    (hstore : (LawfulStorage.view store).Contiguous)
    (hnew : RawNode.new config store rng = some n)
    (hrun : Run Legal { node := n } ops d pages) (hlegal : d.Legal op)
    (hcurrent : d.OnlyCurrent op) (hstep : d.step op = some (d', handed)) : OneAtATime d d' := by
  obtain ⟨hsound₀, -, hfollower, -⟩ := Sound.new hstore hnew
  have hone₀ :
      OneChange n.raft.core (LogSpec.ofStable (LawfulStorage.view store)).toAbstractLog := by
    constructor <;> simp [hfollower]
  obtain ⟨a, hsound, hmoves⟩ := hsound₀.run (fun _ _ => id) hrun
  have hone := hmoves.oneChange hone₀
  -- nothing is appended before the call
  have honly : OnlyChange a.lastIndex d.node.raft.core a := by
    intro e he f hf _ _ hlow
    have hle := hsound.log.represents.contiguous.index_le_lastIndex he
    omega
  have hplain : Current d.node.raft.core a := by
    intro e he hlt
    exact hcurrent.1 e ((hsound.log.represents.holds_iff e).mpr he) hlt
  by_cases hinput : ∃ call, op = .input call
  · obtain ⟨call, rfl⟩ := hinput
    obtain ⟨-, -, harrives, raft, -, hsteps, rfl⟩ := input_steps hlegal hstep
    have hsent : ∀ m, (inputEnv d.node.raft call : Env).sent m → m.Numbered :=
      fun m hm => (harrives m hm).numbered
    have hlog : d.node.raft.core.log.Sound a := hsound.log
    obtain ⟨a', hlog', -⟩ := hlog.steps hsent (fun _ => id) hsteps
    refine .of_changes hsound.log hlog' (hsteps.oneChange hlog hlog' hsent (fun _ => id) hone) ?_ ?_
    · intro hne
      refine hsteps.onlyChange hlog hlog' hsent (fun _ => id) ?_ ?_ hone honly hplain
      · by_cases helect : call.elects = true
        · refine Or.inr fun m hm => ?_
          obtain rfl : call = .step m := hm
          constructor <;> intro hkind <;>
            simp [RawNode.Input.elects, hkind, MessageType.elects] at helect
        · exact Or.inl ⟨helect, hne⟩
      · intro e hpropose htype
        obtain ⟨m, rfl, hkind, he⟩ := hpropose htype
        exact hcurrent.2 m rfl hkind e he htype
    · intro hstate hleader e he hkind hlt
      exact hsteps.elected_clear hlog hlog' hsent (fun _ => id) hone hstate hleader he hkind hlt
  · obtain ⟨a', hsound', hmoves'⟩ :=
      hsound.step (P := fun _ op' => op' = op) rfl hlegal hstep
    obtain ⟨hleader, hrest⟩ := hmoves'.onlyChange (fun _ call hop => hinput ⟨call, hop.symm⟩) hone
      honly hplain
    refine .of_changes hsound.log hsound'.log (hmoves'.oneChange hone) (fun _ => hrest) ?_
    intro hstate hleader'
    exact absurd (hleader hleader') hstate

end Driven

namespace Driven

/-- A node that is its only voter is elected and has applied its first entry. -/
def soloElected : List Drive := [.input .campaign, .ready, .advance, .advanceApplyTo 1]

/-- Add a second node. -/
def addSecond : ConfChangeV2 := { changes := [⟨.addNode, 2⟩] }

/-- A codec that knows one change. -/
@[reducible]
def addSecondCodec : Codec :=
  { Codec.plain with
    confChangeV2Bytes := fun _ => [1]
    confChangeV2OfBytes := fun _ => some addSecond }

theorem one_conf_change_at_a_time_solo :
    letI := addSecondCodec
    ∃ n d d' pages handed, RawNode.new { id := 1 } soloStore (fun _ => 0) = some n ∧
      Run Legal { node := n } soloElected d pages ∧
      d.step (.proposeConfChange [] addSecond) = some (d', handed) ∧
      d'.node.raft.raftLog.lastIndex = some 2 ∧ d'.node.raft.pendingConfIndex = 2 ∧
      OneAtATime d d' := by
  obtain ⟨n, hnew, d, pages, hrun, hlegal, hlast, happlied, d', handed, hstep, hlast', hpending⟩ :
      letI := addSecondCodec
      ∃ n, RawNode.new { id := 1 } soloStore (fun _ => 0) = some n ∧
        ∃ d pages, Run Legal { node := n } soloElected d pages ∧
          d.Legal (.proposeConfChange [] addSecond) ∧ d.node.raft.raftLog.lastIndex = some 1 ∧
          d.node.raft.raftLog.applied = 1 ∧
          ∃ d' handed, d.step (.proposeConfChange [] addSecond) = some (d', handed) ∧
            d'.node.raft.raftLog.lastIndex = some 2 ∧ d'.node.raft.pendingConfIndex = 2 := by
    decide +kernel
  let _ := addSecondCodec
  -- everything in the log is applied
  have hcurrent : d.OnlyCurrent (.proposeConfChange [] addSecond) := by
    refine ⟨fun e he hlt => ?_, by simp⟩
    obtain ⟨a, hsound, -⟩ := (Sound.new soloStore_contiguous hnew).1.run (fun _ _ => id) hrun
    have hle := hsound.log.represents.contiguous.index_le_lastIndex
      ((hsound.log.represents.holds_iff e).mp he)
    rw [some.inj (hsound.log.lastIndex.symm.trans hlast)] at hle
    omega
  exact ⟨n, d, d', pages, handed, hnew, hrun, hstep, hlast', hpending,
    one_conf_change_at_a_time soloStore_contiguous hnew hrun hlegal hcurrent hstep⟩

/-- A peer forwards a proposal with two changes of the first version. -/
def forwardTwo : Drive :=
  .input (.step
    { msgType := .msgPropose, receiver := 1, sender := 2
      entries := [{ entryType := .entryConfChange }, { entryType := .entryConfChange }] })

/-- The leader appends both. -/
theorem two_conf_changes_at_a_time :
    letI := Codec.plain
    ∃ n d d' pages handed, RawNode.new { id := 1 } soloStore (fun _ => 0) = some n ∧
      Run Legal { node := n } soloElected d pages ∧ d.Legal forwardTwo ∧
      d.step forwardTwo = some (d', handed) ∧ ¬OneAtATime d d' := by
  obtain ⟨n, hnew, d, pages, hrun, hlegal, hlast, d', handed, hstep, hleader, happlied, hfirst,
      hsecond⟩ : letI := Codec.plain
      ∃ n, RawNode.new { id := 1 } soloStore (fun _ => 0) = some n ∧
        ∃ d pages, Run Legal { node := n } soloElected d pages ∧ d.Legal forwardTwo ∧
          d.node.raft.raftLog.lastIndex = some 1 ∧
          ∃ d' handed, d.step forwardTwo = some (d', handed) ∧ d'.node.raft.state = .leader ∧
            d'.node.raft.raftLog.applied = 1 ∧
            d'.node.raft.raftLog.Holds ⟨.entryConfChange, 1, 2, [], [], 0⟩ ∧
            d'.node.raft.raftLog.Holds ⟨.entryConfChange, 1, 3, [], [], 0⟩ := by
    decide +kernel
  let _ := Codec.plain
  refine ⟨n, d, d', pages, handed, hnew, hrun, hlegal, hstep, fun hone => ?_⟩
  have heq := hone.appended 1 _ _ hleader hlast hfirst hsecond (Or.inl rfl) (Or.inl rfl)
    (by decide) (happlied.trans_lt (by decide)) (happlied.trans_lt (by decide))
  exact absurd heq (by decide)

end Driven

end Raftpp
