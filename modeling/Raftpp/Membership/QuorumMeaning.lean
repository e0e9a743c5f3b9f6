import Mathlib.Order.Bounds.Basic
import Mathlib.Order.Lattice.Nat
import Raftpp.Core.Quorum

/-!
# What the quorum arithmetic means

`CommittedIndex` sorts the acknowledged indexes of the voters and reads the index at the
quorum position; with group commit it then looks for a voter of a second group, starting
from the group of whichever voter stands at that position.  Neither the order in which
the set of voters is visited nor the order the sort gives to equal indexes is fixed, so
the results are stated of every order: `committedIndexOf` is the computation after the
sort, and `Computes` allows any of its inputs.

The loop over the groups stops at the first voter outside of a group `g`, which is the
group at the quorum position or, if that is none, the first group there is.  Of two voters
of different groups one is outside of `g`, so it stands behind the voter where the loop
stopped; and that voter has a partner in `g`, at the quorum position or before it.
-/

namespace Raftpp

open List

/-- The acknowledged index of a voter, zero in no group if there is none. -/
def ackOf (ackedIndex : ℕ → Option Index) (voter : ℕ) : Index := (ackedIndex voter).getD {}

namespace MajorityConfig

variable {f : ℕ → Bool}

/-- `CommittedIndex` after the sort. -/
def committedIndexOf (useGroupCommit : Bool) (matched : List Index) : ℕ × Bool :=
  let quorumIndex := matched.getD (majority matched.length - 1) {}
  if useGroupCommit then
    match groupLoop quorumIndex.index quorumIndex.groupId true matched with
    | (some index, _) => (index, true)
    | (none, true) => (quorumIndex.index, false)
    | (none, false) => ((matched.getLast?.getD {}).index, false)
  else (quorumIndex.index, false)

/-- `GetVoteResult` over the voters in some order. -/
def voteResultOf (order : List ℕ) (check : ℕ → Option Bool) : VoteResult :=
  if order.isEmpty then .won
  else
    let yes := order.countP fun voter => check voter = some true
    let missing := order.countP fun voter => check voter = none
    if yes ≥ majority order.length then .won
    else if yes + missing ≥ majority order.length then .pending
    else .lost

/-- A result of `CommittedIndex` for some order of the voters and of equal indexes. -/
def Computes (c : MajorityConfig) (useGroupCommit : Bool) (ackedIndex : ℕ → Option Index)
    (result : ℕ × Bool) : Prop :=
  (c.elems = [] ∧ result = (kNoLimit, true)) ∨
    (c.elems ≠ [] ∧ ∃ order matched : List _, order.Perm c.elems ∧
      matched.Perm (order.map (ackOf ackedIndex)) ∧
      (matched.Pairwise fun a b => b.index ≤ a.index) ∧
      result = committedIndexOf useGroupCommit matched)

variable {c : MajorityConfig} {ackedIndex : ℕ → Option Index} {check : ℕ → Option Bool}

theorem committedIndex_computes (c : MajorityConfig) (useGroupCommit : Bool)
    (ackedIndex : ℕ → Option Index) :
    Computes c useGroupCommit ackedIndex (c.committedIndex useGroupCommit ackedIndex) := by
  unfold committedIndex
  by_cases hempty : c.elems = []
  · exact Or.inl ⟨hempty, by simp [ListSet.isEmpty, hempty]⟩
  · refine Or.inr ⟨hempty, c.elems, sortedAcks c ackedIndex, .refl _,
      sortedAcks_perm c ackedIndex, sortedAcks_pairwise c ackedIndex, ?_⟩
    rw [if_neg (by simpa [ListSet.isEmpty] using hempty)]
    rfl

/-! ## Votes -/

/-- The order in which the voters are visited does not matter. -/
theorem voteResultOf_perm {order : List ℕ} (h : order.Perm c.elems) (check : ℕ → Option Bool) :
    voteResultOf order check = getVoteResult c check := by
  simp only [voteResultOf, h.isEmpty_eq, h.countP_eq, h.length_eq]
  rfl

theorem getVoteResult_eq_lost :
    getVoteResult c check = .lost ↔
      c.elems ≠ [] ∧ (c.elems.countP fun voter => check voter = some true) +
        (c.elems.countP fun voter => check voter = none) < majority c.size := by
  simp only [getVoteResult, ListSet.isEmpty, List.isEmpty_iff]
  grind

/-- The votes for a completion are at least those given already, and at most those together with
the missing ones. -/
theorem countP_completion (hf : ∀ v b, check v = some b → f v = b) (voters : List ℕ) :
    (voters.countP fun v => check v = some true) ≤ voters.countP f ∧
      voters.countP f ≤ (voters.countP fun v => check v = some true) +
        voters.countP fun v => check v = none := by
  induction voters with
  | nil => simp
  | cons v voters ih =>
      have hv := hf v
      simp only [countP_cons]
      rcases hcheck : check v with _ | _ | _
      · cases f v <;> simp <;> omega
      · simp [hv false hcheck]
        omega
      · simp [hv true hcheck]
        omega

theorem getVoteResult_total_eq_won :
    getVoteResult c (fun v => some (f v)) = .won ↔
      c.elems = [] ∨ majority c.size ≤ c.elems.countP f := by
  rw [getVoteResult_eq_won]
  simp only [Option.some.injEq, Bool.decide_eq_true]

theorem won_completion (hf : ∀ v b, check v = some b → f v = b) (h : getVoteResult c check = .won) :
    getVoteResult c (fun v => some (f v)) = .won := by
  rw [getVoteResult_eq_won] at h
  rw [getVoteResult_total_eq_won]
  exact h.imp_right fun hcount => hcount.trans (countP_completion hf c.elems).1

theorem won_of_completed_no (h : getVoteResult c (fun v => some ((check v).getD false)) = .won) :
    getVoteResult c check = .won := by
  rw [getVoteResult_total_eq_won] at h
  rw [getVoteResult_eq_won]
  refine h.imp_right fun hcount => hcount.trans (countP_mono_left fun v _ hv => ?_)
  rcases hcheck : check v with _ | _ | _ <;> simp_all

theorem not_won_completion (hf : ∀ v b, check v = some b → f v = b)
    (h : getVoteResult c check = .lost) : getVoteResult c (fun v => some (f v)) ≠ .won := by
  obtain ⟨hne, hlt⟩ := getVoteResult_eq_lost.mp h
  rw [Ne, getVoteResult_total_eq_won, not_or, not_le]
  exact ⟨hne, (countP_completion hf c.elems).2.trans_lt hlt⟩

theorem lost_of_completed_yes (h : getVoteResult c (fun v => some ((check v).getD true)) ≠ .won) :
    getVoteResult c check = .lost := by
  rw [Ne, getVoteResult_total_eq_won, not_or, not_le] at h
  refine getVoteResult_eq_lost.mpr ⟨h.1, lt_of_le_of_lt ?_ h.2⟩
  induction c.elems with
  | nil => simp
  | cons v voters ih =>
      simp only [countP_cons]
      rcases hcheck : check v with _ | _ | _ <;> simp <;> omega

/-! ## The index that a quorum has reached -/

/-- The vote of the voters that have acknowledged an index. -/
def reaches (ackedIndex : ℕ → Option Index) (i voter : ℕ) : Option Bool :=
  some (decide (i ≤ (ackOf ackedIndex voter).index))

/-- The indexes that a quorum has reached. -/
def reached (c : MajorityConfig) (ackedIndex : ℕ → Option Index) : Set ℕ :=
  {i | i ≤ kNoLimit ∧ getVoteResult c (reaches ackedIndex i) = .won}

theorem reached_of_le {i k : ℕ} (hi : i ∈ reached c ackedIndex) (hk : k ≤ i) :
    k ∈ reached c ackedIndex := by
  refine ⟨hk.trans hi.1, ?_⟩
  have hwon := hi.2
  unfold reaches at hwon ⊢
  rw [getVoteResult_total_eq_won] at hwon ⊢
  refine hwon.imp_right fun hcount => hcount.trans (countP_mono_left fun v _ hv => ?_)
  simp only [decide_eq_true_eq] at hv ⊢
  omega

/-- The acknowledged indexes of the voters in descending order. -/
structure Sorts (c : MajorityConfig) (ackedIndex : ℕ → Option Index) (matched : List Index) :
    Prop where
  perm : matched.Perm (c.elems.map (ackOf ackedIndex))
  sorted : matched.Pairwise fun a b => b.index ≤ a.index

namespace Sorts

variable {matched : List Index} (h : Sorts c ackedIndex matched)

include h

theorem length_eq : matched.length = c.size := by
  rw [h.perm.length_eq, length_map]
  rfl

theorem mem_iff {a : Index} : a ∈ matched ↔ ∃ v ∈ c, ackOf ackedIndex v = a := by
  rw [h.perm.mem_iff, mem_map]
  rfl

theorem position_lt (hne : c.elems ≠ []) : majority matched.length - 1 < matched.length := by
  have hpos : 0 < c.size := length_pos_of_ne_nil hne
  rw [h.length_eq]
  unfold majority
  omega

/-- The index at the quorum position is the greatest that a quorum has reached. -/
theorem le_quorumIndex_iff (hne : c.elems ≠ []) (i : ℕ) :
    getVoteResult c (reaches ackedIndex i) = .won ↔
      i ≤ (matched.get ⟨majority matched.length - 1, h.position_lt hne⟩).index := by
  have hpos : 0 < c.size := length_pos_of_ne_nil hne
  have hmajority : majority matched.length - 1 + 1 = majority c.size := by
    rw [h.length_eq]
    unfold majority
    omega
  rw [show reaches ackedIndex i = fun v => some (decide (i ≤ (ackOf ackedIndex v).index)) from rfl,
    getVoteResult_total_eq_won, or_iff_right hne, get_eq_getElem,
    ← succ_le_countP_iff_of_pairwise_ge (f := Index.index) h.sorted, hmajority, h.perm.countP_eq,
    countP_map]
  rfl

theorem isGreatest_quorumIndex (hacked : ∀ v, (ackOf ackedIndex v).index ≤ kNoLimit)
    (hne : c.elems ≠ []) :
    IsGreatest (reached c ackedIndex)
      (matched.get ⟨majority matched.length - 1, h.position_lt hne⟩).index := by
  refine ⟨⟨?_, (h.le_quorumIndex_iff hne _).mpr le_rfl⟩, fun i hi =>
    (h.le_quorumIndex_iff hne i).mp hi.2⟩
  obtain ⟨v, -, hv⟩ := h.mem_iff.mp (get_mem matched ⟨_, h.position_lt hne⟩)
  rw [← hv]
  exact hacked v

end Sorts

/-! ## Groups -/

/-- Two voters are in different groups. -/
def TwoGroups (c : MajorityConfig) (ackedIndex : ℕ → Option Index) : Prop :=
  ∃ v ∈ c, ∃ w ∈ c, (ackOf ackedIndex v).groupId ≠ 0 ∧ (ackOf ackedIndex w).groupId ≠ 0 ∧
    (ackOf ackedIndex v).groupId ≠ (ackOf ackedIndex w).groupId

/-- All voters are in one group. -/
def OneGroup (c : MajorityConfig) (ackedIndex : ℕ → Option Index) : Prop :=
  ∃ g ≠ 0, ∀ v ∈ c, (ackOf ackedIndex v).groupId = g

/-- The indexes that two voters of different groups have reached. -/
def reachedByTwo (c : MajorityConfig) (ackedIndex : ℕ → Option Index) : Set ℕ :=
  {i | ∃ v ∈ c, ∃ w ∈ c, (ackOf ackedIndex v).groupId ≠ 0 ∧ (ackOf ackedIndex w).groupId ≠ 0 ∧
    (ackOf ackedIndex v).groupId ≠ (ackOf ackedIndex w).groupId ∧
    i ≤ (ackOf ackedIndex v).index ∧ i ≤ (ackOf ackedIndex w).index}

/-- What group commit makes of the acknowledged indexes. -/
structure GroupCommit (c : MajorityConfig) (ackedIndex : ℕ → Option Index) (value : ℕ) : Prop where
  two : TwoGroups c ackedIndex → ∃ q s, IsGreatest (reached c ackedIndex) q ∧
    IsGreatest (reachedByTwo c ackedIndex) s ∧ value = min q s
  one : OneGroup c ackedIndex → IsGreatest (reached c ackedIndex) value
  neither : ¬TwoGroups c ackedIndex → ¬OneGroup c ackedIndex →
    IsLeast {i | ∃ v ∈ c, i = (ackOf ackedIndex v).index} value

/-- The voter at which the loop stops, and the group `g` that it is the first one outside of. -/
structure Stops (checkedGroupId : ℕ) (matched : List Index) (g : ℕ) (m : Index) : Prop where
  mem : m ∈ matched
  group : m.groupId ≠ 0
  ne : m.groupId ≠ g
  checked : checkedGroupId ≠ 0 → g = checkedGroupId
  partner : checkedGroupId = 0 → ∃ m' ∈ matched, m'.groupId = g ∧ g ≠ 0 ∧ m.index ≤ m'.index
  first : ∀ m' ∈ matched, m'.groupId ≠ 0 → m'.groupId ≠ g → m'.index ≤ m.index

theorem groupLoop_some (q : ℕ) :
    ∀ {matched : List Index} {checkedGroupId index : ℕ} {singleGroup single : Bool},
      (matched.Pairwise fun a b => b.index ≤ a.index) →
      groupLoop q checkedGroupId singleGroup matched = (some index, single) →
      ∃ g m, Stops checkedGroupId matched g m ∧ index = min m.index q := by
  intro matched
  induction matched with
  | nil =>
      intro checkedGroupId index singleGroup single _ h
      cases h
  | cons a matched ih =>
      intro checkedGroupId index singleGroup single hsorted h
      obtain ⟨hhead, htail⟩ := pairwise_cons.mp hsorted
      unfold groupLoop at h
      split at h
      next hzero =>
        obtain ⟨g, m, hstops, hindex⟩ := ih htail h
        refine ⟨g, m, ⟨mem_cons_of_mem a hstops.mem, hstops.group, hstops.ne, hstops.checked,
          ?_, ?_⟩, hindex⟩
        · intro hchecked
          obtain ⟨m', hm', hrest⟩ := hstops.partner hchecked
          exact ⟨m', mem_cons_of_mem a hm', hrest⟩
        · intro m' hm' hgroup hne
          rcases mem_cons.mp hm' with rfl | hm'
          · exact absurd hzero hgroup
          · exact hstops.first m' hm' hgroup hne
      next hgroup =>
        split at h
        next hchecked =>
          -- the first group of all
          obtain ⟨g, m, hstops, hindex⟩ := ih htail h
          obtain rfl := hstops.checked hgroup
          refine ⟨a.groupId, m, ⟨mem_cons_of_mem a hstops.mem, hstops.group, hstops.ne,
            fun hne => absurd hchecked hne, fun _ => ⟨a, mem_cons_self, rfl, hgroup,
            hhead m hstops.mem⟩, ?_⟩, hindex⟩
          intro m' hm' hgroup' hne
          rcases mem_cons.mp hm' with rfl | hm'
          · exact absurd rfl hne
          · exact hstops.first m' hm' hgroup' hne
        next hchecked =>
          split at h
          next hsame =>
            obtain ⟨g, m, hstops, hindex⟩ := ih htail h
            refine ⟨g, m, ⟨mem_cons_of_mem a hstops.mem, hstops.group, hstops.ne,
              hstops.checked, fun hzero => absurd hzero hchecked, ?_⟩, hindex⟩
            intro m' hm' hgroup' hne
            rcases mem_cons.mp hm' with rfl | hm'
            · exact absurd (hsame.symm.trans (hstops.checked hchecked).symm) hne
            · exact hstops.first m' hm' hgroup' hne
          next hother =>
            cases h
            refine ⟨checkedGroupId, a, ⟨mem_cons_self, hgroup, fun heq => hother heq.symm,
              fun _ => rfl, fun hzero => absurd hzero hchecked, ?_⟩, rfl⟩
            intro m' hm' _ _
            rcases mem_cons.mp hm' with rfl | hm'
            · exact le_rfl
            · exact hhead m' hm'

/-- Without a second group, all voters are in one group or in none, and the flag says whether
each of them is in one. -/
theorem groupLoop_none (q : ℕ) :
    ∀ {matched : List Index} {checkedGroupId : ℕ} {singleGroup single : Bool},
      groupLoop q checkedGroupId singleGroup matched = (none, single) →
      (∃ g, (checkedGroupId ≠ 0 → g = checkedGroupId) ∧
        ∀ m ∈ matched, m.groupId = 0 ∨ m.groupId = g) ∧
      (single = true ↔ singleGroup = true ∧ ∀ m ∈ matched, m.groupId ≠ 0) := by
  intro matched
  induction matched with
  | nil =>
      intro checkedGroupId singleGroup single h
      cases h
      exact ⟨⟨checkedGroupId, fun _ => rfl, by simp⟩, by simp⟩
  | cons a matched ih =>
      intro checkedGroupId singleGroup single h
      unfold groupLoop at h
      split at h
      next hzero =>
        obtain ⟨⟨g, hchecked, hgroups⟩, hsingle⟩ := ih h
        refine ⟨⟨g, hchecked, forall_mem_cons.mpr ⟨Or.inl hzero, hgroups⟩⟩, ?_⟩
        rw [hsingle]
        simp [hzero]
      next hgroup =>
        split at h
        next hnone =>
          obtain ⟨⟨g, hchecked, hgroups⟩, hsingle⟩ := ih h
          refine ⟨⟨g, fun hne => absurd hnone hne,
            forall_mem_cons.mpr ⟨Or.inr (hchecked hgroup).symm, hgroups⟩⟩, ?_⟩
          rw [hsingle]
          simp [hgroup]
        next hne =>
          split at h
          next hsame =>
            obtain ⟨⟨g, hchecked, hgroups⟩, hsingle⟩ := ih h
            refine ⟨⟨g, hchecked, forall_mem_cons.mpr
              ⟨Or.inr (hsame.symm.trans (hchecked hne).symm), hgroups⟩⟩, ?_⟩
            rw [hsingle]
            simp [hgroup]
          · cases h

namespace Sorts

variable {matched : List Index} (h : Sorts c ackedIndex matched)

include h

theorem twoGroups_iff : TwoGroups c ackedIndex ↔
    ∃ a ∈ matched, ∃ b ∈ matched, a.groupId ≠ 0 ∧ b.groupId ≠ 0 ∧ a.groupId ≠ b.groupId := by
  constructor
  · rintro ⟨v, hv, w, hw, hgroups⟩
    exact ⟨_, h.mem_iff.mpr ⟨v, hv, rfl⟩, _, h.mem_iff.mpr ⟨w, hw, rfl⟩, hgroups⟩
  · rintro ⟨a, ha, b, hb, hgroups⟩
    obtain ⟨v, hv, rfl⟩ := h.mem_iff.mp ha
    obtain ⟨w, hw, rfl⟩ := h.mem_iff.mp hb
    exact ⟨v, hv, w, hw, hgroups⟩

/-- Whoever stands at the quorum position, the voter where the loop stops gives the greatest
index that two groups have reached, up to the quorum index. -/
theorem isGreatest_reachedByTwo {g : ℕ} {m quorumIndex : Index} (hquorum : quorumIndex ∈ matched)
    (hstops : Stops quorumIndex.groupId matched g m) :
    TwoGroups c ackedIndex ∧ ∃ s, IsGreatest (reachedByTwo c ackedIndex) s ∧
      min m.index quorumIndex.index = min quorumIndex.index s := by
  -- of two groups one is not `g`
  have hupper : ∀ i ∈ reachedByTwo c ackedIndex, i ≤ m.index := by
    rintro i ⟨v, hv, w, hw, hgroupv, hgroupw, hne, hiv, hiw⟩
    by_cases hvg : (ackOf ackedIndex v).groupId = g
    · exact hiw.trans (hstops.first _ (h.mem_iff.mpr ⟨w, hw, rfl⟩) hgroupw
        fun hwg => hne (hvg.trans hwg.symm))
    · exact hiv.trans (hstops.first _ (h.mem_iff.mpr ⟨v, hv, rfl⟩) hgroupv hvg)
  obtain ⟨partner, hpartner, hgroup, hg, hle⟩ : ∃ partner ∈ matched, partner.groupId = g ∧ g ≠ 0 ∧
      min m.index quorumIndex.index ≤ partner.index := by
    by_cases hzero : quorumIndex.groupId = 0
    · obtain ⟨m', hm', hgroup, hg, hle⟩ := hstops.partner hzero
      exact ⟨m', hm', hgroup, hg, (min_le_left _ _).trans hle⟩
    · have hg := hstops.checked hzero
      exact ⟨quorumIndex, hquorum, hg.symm, hg ▸ hzero, min_le_right _ _⟩
  have hlower : min m.index quorumIndex.index ∈ reachedByTwo c ackedIndex := by
    obtain ⟨v, hv, hack⟩ := h.mem_iff.mp hstops.mem
    obtain ⟨w, hw, hack'⟩ := h.mem_iff.mp hpartner
    refine ⟨v, hv, w, hw, ?_⟩
    rw [hack, hack', hgroup]
    exact ⟨hstops.group, hg, hstops.ne, min_le_left _ _, hle⟩
  have hbdd : BddAbove (reachedByTwo c ackedIndex) := ⟨m.index, hupper⟩
  have hmem := Nat.sSup_mem ⟨_, hlower⟩ hbdd
  refine ⟨h.twoGroups_iff.mpr ⟨m, hstops.mem, partner, hpartner, hstops.group, hgroup ▸ hg,
    hgroup ▸ hstops.ne⟩, sSup (reachedByTwo c ackedIndex), ⟨hmem, fun i hi => le_csSup hbdd hi⟩,
    ?_⟩
  have hge := le_csSup hbdd hlower
  have hle' := hupper _ hmem
  omega

/-- The last of the sorted indexes is the least. -/
theorem isLeast_getLast (hne : matched ≠ []) :
    IsLeast {i | ∃ v ∈ c, i = (ackOf ackedIndex v).index} (matched.getLast?.getD {}).index := by
  rw [getLast?_eq_some_getLast hne, Option.getD_some]
  constructor
  · obtain ⟨v, hv, hack⟩ := h.mem_iff.mp (getLast_mem hne)
    exact ⟨v, hv, by rw [hack]⟩
  · rintro i ⟨v, hv, rfl⟩
    have hmem := h.mem_iff.mpr ⟨v, hv, rfl⟩
    have hsorted := h.sorted
    rw [← dropLast_append_getLast hne] at hmem hsorted
    rcases mem_append.mp hmem with hmem | hmem
    · exact (pairwise_append.mp hsorted).2.2 _ hmem _ (mem_singleton.mpr rfl)
    · rw [mem_singleton.mp hmem]

/-- Group commit computes what it is meant to, and says whether there are two groups. -/
theorem groupCommit (hacked : ∀ v, (ackOf ackedIndex v).index ≤ kNoLimit) (hne : c.elems ≠ []) :
    GroupCommit c ackedIndex (committedIndexOf true matched).1 ∧
      ((committedIndexOf true matched).2 = true ↔ TwoGroups c ackedIndex) := by
  have hquorum := h.isGreatest_quorumIndex hacked hne
  have hat := h.position_lt hne
  have hmem := get_mem matched ⟨_, hat⟩
  have hmatched : matched ≠ [] := ne_nil_of_mem hmem
  unfold committedIndexOf
  simp only [getD_eq_getElem?_getD, getElem?_eq_getElem hat, Option.getD_some, if_true]
  rw [get_eq_getElem] at hquorum hmem
  generalize matched[majority matched.length - 1] = quorumIndex at hquorum hmem
  cases hloop : groupLoop quorumIndex.index quorumIndex.groupId true matched with
  | mk found single =>
      cases found with
      | some index =>
          obtain ⟨g, m, hstops, rfl⟩ := groupLoop_some _ h.sorted hloop
          obtain ⟨htwo, s, hs, hmin⟩ := h.isGreatest_reachedByTwo hmem hstops
          refine ⟨⟨fun _ => ⟨_, s, hquorum, hs, hmin⟩, ?_, fun hnot => absurd htwo hnot⟩, ?_⟩
          · rintro ⟨g, -, hall⟩
            obtain ⟨v, hv, w, hw, -, -, hdiff⟩ := htwo
            exact absurd ((hall v hv).trans (hall w hw).symm) hdiff
          · exact iff_of_true rfl htwo
      | none =>
          obtain ⟨⟨g, -, hgroups⟩, hsingle⟩ := groupLoop_none _ hloop
          have hnot : ¬TwoGroups c ackedIndex := by
            rw [h.twoGroups_iff]
            rintro ⟨a, ha, b, hb, hga, hgb, hdiff⟩
            exact hdiff (((hgroups a ha).resolve_left hga).trans
              ((hgroups b hb).resolve_left hgb).symm)
          cases single with
          | true =>
              have hall := (hsingle.mp rfl).2
              refine ⟨⟨fun htwo => absurd htwo hnot, fun _ => hquorum, fun _ hone => ?_⟩,
                iff_of_false (by simp) hnot⟩
              refine absurd ⟨g, ?_, fun v hv => ?_⟩ hone
              · rw [← (hgroups _ hmem).resolve_left (hall _ hmem)]
                exact hall _ hmem
              · have hv' := h.mem_iff.mpr ⟨v, hv, rfl⟩
                exact (hgroups _ hv').resolve_left (hall _ hv')
          | false =>
              refine ⟨⟨fun htwo => absurd htwo hnot, ?_, fun _ _ => h.isLeast_getLast hmatched⟩,
                iff_of_false (by simp) hnot⟩
              rintro ⟨g', hg', hall⟩
              refine absurd (hsingle.mpr ⟨rfl, fun m hm => ?_⟩) (by simp)
              obtain ⟨v, hv, rfl⟩ := h.mem_iff.mp hm
              rw [hall v hv]
              exact hg'

end Sorts

theorem GroupCommit.unique {value value' : ℕ} (h : GroupCommit c ackedIndex value)
    (h' : GroupCommit c ackedIndex value') : value = value' := by
  by_cases htwo : TwoGroups c ackedIndex
  · obtain ⟨q, s, hq, hs, rfl⟩ := h.two htwo
    obtain ⟨q', s', hq', hs', rfl⟩ := h'.two htwo
    rw [hq.unique hq', hs.unique hs']
  by_cases hone : OneGroup c ackedIndex
  · exact (h.one hone).unique (h'.one hone)
  · exact (h.neither htwo hone).unique (h'.neither htwo hone)

theorem GroupCommit.le_kNoLimit {value : ℕ} (h : GroupCommit c ackedIndex value)
    (hacked : ∀ v, (ackOf ackedIndex v).index ≤ kNoLimit) : value ≤ kNoLimit := by
  by_cases htwo : TwoGroups c ackedIndex
  · obtain ⟨q, s, hq, -, rfl⟩ := h.two htwo
    exact (min_le_left q s).trans hq.1.1
  by_cases hone : OneGroup c ackedIndex
  · exact (h.one hone).1.1
  · obtain ⟨v, -, rfl⟩ := (h.neither htwo hone).1
    exact hacked v

namespace Computes

variable {useGroupCommit : Bool} {result result' : ℕ × Bool}

theorem exists_sorts (h : Computes c useGroupCommit ackedIndex result) (hne : c.elems ≠ []) :
    ∃ matched, Sorts c ackedIndex matched ∧ result = committedIndexOf useGroupCommit matched := by
  rcases h with ⟨hempty, -⟩ | ⟨-, order, matched, horder, hmatched, hsorted, rfl⟩
  · exact absurd hempty hne
  · exact ⟨matched, ⟨hmatched.trans (horder.map _), hsorted⟩, rfl⟩

theorem eq_of_empty (h : Computes c useGroupCommit ackedIndex result) (hempty : c.elems = []) :
    result = (kNoLimit, true) := by
  rcases h with ⟨-, hresult⟩ | ⟨hne, -⟩
  · exact hresult
  · exact absurd hempty hne

variable (hacked : ∀ v, (ackOf ackedIndex v).index ≤ kNoLimit)

include hacked

theorem isGreatest (h : Computes c false ackedIndex result) :
    IsGreatest (reached c ackedIndex) result.1 := by
  by_cases hempty : c.elems = []
  · rw [h.eq_of_empty hempty]
    refine ⟨⟨le_rfl, getVoteResult_eq_won.mpr (Or.inl hempty)⟩, fun i hi => hi.1⟩
  · obtain ⟨matched, hsorts, rfl⟩ := h.exists_sorts hempty
    have hgreatest := hsorts.isGreatest_quorumIndex hacked hempty
    have hat := hsorts.position_lt hempty
    simpa only [committedIndexOf, getD_eq_getElem?_getD, getElem?_eq_getElem hat,
      Option.getD_some, Bool.false_eq_true, if_false, get_eq_getElem] using hgreatest

theorem groupCommit (h : Computes c true ackedIndex result) (hne : c.elems ≠ []) :
    GroupCommit c ackedIndex result.1 := by
  obtain ⟨matched, hsorts, rfl⟩ := h.exists_sorts hne
  exact (hsorts.groupCommit hacked hne).1

/-- All orders lead to one result. -/
theorem unique (h : Computes c useGroupCommit ackedIndex result)
    (h' : Computes c useGroupCommit ackedIndex result') : result = result' := by
  by_cases hempty : c.elems = []
  · rw [h.eq_of_empty hempty, h'.eq_of_empty hempty]
  cases useGroupCommit with
  | false =>
      refine Prod.ext ((h.isGreatest hacked).unique (h'.isGreatest hacked)) ?_
      obtain ⟨matched, -, rfl⟩ := h.exists_sorts hempty
      obtain ⟨matched', -, rfl⟩ := h'.exists_sorts hempty
      rfl
  | true =>
      refine Prod.ext ((h.groupCommit hacked hempty).unique (h'.groupCommit hacked hempty)) ?_
      obtain ⟨matched, hsorts, rfl⟩ := h.exists_sorts hempty
      obtain ⟨matched', hsorts', rfl⟩ := h'.exists_sorts hempty
      rw [Bool.eq_iff_iff, (hsorts.groupCommit hacked hempty).2,
        (hsorts'.groupCommit hacked hempty).2]

end Computes

end MajorityConfig

/-! ## Joint configurations -/

namespace JointConfiguration

variable {result : ℕ × Bool}

open MajorityConfig (reaches GroupCommit)

/-- A result of `CommittedIndex` for some orders of the voters and of equal indexes. -/
def Computes (j : JointConfiguration) (useGroupCommit : Bool) (ackedIndex : ℕ → Option Index)
    (result : ℕ × Bool) : Prop :=
  ∃ i o, MajorityConfig.Computes j.incoming useGroupCommit ackedIndex i ∧
    MajorityConfig.Computes j.outgoing useGroupCommit ackedIndex o ∧
    result = (min i.1 o.1, i.2 && o.2)

/-- A result of `GetVoteResult` for some orders of the voters. -/
def ComputesVote (j : JointConfiguration) (check : ℕ → Option Bool) (result : VoteResult) : Prop :=
  ∃ incoming outgoing : List ℕ, incoming.Perm j.incoming.elems ∧ outgoing.Perm j.outgoing.elems ∧
    result =
      (let i := MajorityConfig.voteResultOf incoming check
       let o := MajorityConfig.voteResultOf outgoing check
       if i = .won ∧ o = .won then .won else if i = .lost ∨ o = .lost then .lost else .pending)

/-- A vote of everyone that agrees with the votes given already. -/
def Completes (check : ℕ → Option Bool) (f : ℕ → Bool) : Prop := ∀ v b, check v = some b → f v = b

variable {j : JointConfiguration} {ackedIndex : ℕ → Option Index} {check : ℕ → Option Bool}

theorem committedIndex_computes (j : JointConfiguration) (useGroupCommit : Bool)
    (ackedIndex : ℕ → Option Index) :
    j.Computes useGroupCommit ackedIndex (j.committedIndex useGroupCommit ackedIndex) :=
  ⟨_, _, MajorityConfig.committedIndex_computes j.incoming useGroupCommit ackedIndex,
    MajorityConfig.committedIndex_computes j.outgoing useGroupCommit ackedIndex, rfl⟩

theorem ComputesVote.eq {result : VoteResult} (h : j.ComputesVote check result) :
    result = j.getVoteResult check := by
  obtain ⟨incoming, outgoing, hin, hout, rfl⟩ := h
  simp only [MajorityConfig.voteResultOf_perm hin, MajorityConfig.voteResultOf_perm hout]
  rfl

theorem Computes.unique {useGroupCommit : Bool} {result' : ℕ × Bool}
    (h : j.Computes useGroupCommit ackedIndex result)
    (h' : j.Computes useGroupCommit ackedIndex result')
    (hacked : ∀ v, (ackOf ackedIndex v).index ≤ kNoLimit) : result = result' := by
  obtain ⟨i, o, hi, ho, rfl⟩ := h
  obtain ⟨i', o', hi', ho', rfl⟩ := h'
  rw [hi.unique hacked hi', ho.unique hacked ho']

theorem getVoteResult_eq_lost :
    j.getVoteResult check = .lost ↔
      MajorityConfig.getVoteResult j.incoming check = .lost ∨
        MajorityConfig.getVoteResult j.outgoing check = .lost := by
  unfold getVoteResult
  grind

/-- A vote is won if it is won however the missing votes turn out. -/
theorem won_iff_completions (j : JointConfiguration) (check : ℕ → Option Bool) :
    j.getVoteResult check = .won ↔
      ∀ f, Completes check f → j.getVoteResult (fun v => some (f v)) = .won := by
  simp only [getVoteResult_eq_won]
  constructor
  · rintro ⟨hin, hout⟩ f hf
    exact ⟨MajorityConfig.won_completion hf hin, MajorityConfig.won_completion hf hout⟩
  · intro h
    obtain ⟨hin, hout⟩ := h (fun v => (check v).getD false) fun v b hv => by simp [hv]
    exact ⟨MajorityConfig.won_of_completed_no hin, MajorityConfig.won_of_completed_no hout⟩

/-- A vote is lost if it is not won however the missing votes turn out. -/
theorem lost_iff_completions (j : JointConfiguration) (check : ℕ → Option Bool) :
    j.getVoteResult check = .lost ↔
      ∀ f, Completes check f → j.getVoteResult (fun v => some (f v)) ≠ .won := by
  simp only [getVoteResult_eq_lost, Ne, getVoteResult_eq_won, not_and_or]
  constructor
  · rintro hlost f hf
    exact hlost.imp (MajorityConfig.not_won_completion hf) (MajorityConfig.not_won_completion hf)
  · intro h
    have hyes := h (fun v => (check v).getD true) fun v b hv => by simp [hv]
    exact hyes.imp MajorityConfig.lost_of_completed_yes MajorityConfig.lost_of_completed_yes

theorem Computes.isGreatest (h : j.Computes false ackedIndex result)
    (hacked : ∀ v, (ackOf ackedIndex v).index ≤ kNoLimit) :
    IsGreatest {i | i ≤ kNoLimit ∧ j.getVoteResult (reaches ackedIndex i) = .won} result.1 := by
  obtain ⟨i, o, hi, ho, rfl⟩ := h
  have hgi := hi.isGreatest hacked
  have hgo := ho.isGreatest hacked
  constructor
  · exact ⟨(min_le_left _ _).trans hgi.1.1, getVoteResult_eq_won.mpr
      ⟨(MajorityConfig.reached_of_le hgi.1 (min_le_left _ _)).2,
        (MajorityConfig.reached_of_le hgo.1 (min_le_right _ _)).2⟩⟩
  · rintro k ⟨hk, hwon⟩
    obtain ⟨hin, hout⟩ := getVoteResult_eq_won.mp hwon
    exact le_min (hgi.2 ⟨hk, hin⟩) (hgo.2 ⟨hk, hout⟩)

/-- With group commit an empty half does not count. -/
theorem Computes.groupCommit (h : j.Computes true ackedIndex result)
    (hacked : ∀ v, (ackOf ackedIndex v).index ≤ kNoLimit) :
    ∃ i o, (j.incoming.elems ≠ [] → GroupCommit j.incoming ackedIndex i) ∧
      (j.outgoing.elems ≠ [] → GroupCommit j.outgoing ackedIndex o) ∧
      (j.incoming.elems ≠ [] → j.outgoing.elems ≠ [] → result.1 = min i o) ∧
      (j.outgoing.elems = [] → j.incoming.elems ≠ [] → result.1 = i) ∧
      (j.incoming.elems = [] → j.outgoing.elems ≠ [] → result.1 = o) := by
  obtain ⟨i, o, hi, ho, rfl⟩ := h
  refine ⟨i.1, o.1, hi.groupCommit hacked, ho.groupCommit hacked, fun _ _ => rfl, ?_, ?_⟩
  · intro hempty hne
    rw [ho.eq_of_empty hempty]
    exact min_eq_left ((hi.groupCommit hacked hne).le_kNoLimit hacked)
  · intro hempty hne
    rw [hi.eq_of_empty hempty]
    exact min_eq_right ((ho.groupCommit hacked hne).le_kNoLimit hacked)

/-- The quorum arithmetic of a joint configuration, for acknowledged indexes of 64 bits. -/
theorem quorum_arithmetic (j : JointConfiguration) (ackedIndex : ℕ → Option Index)
    (hacked : ∀ v, (ackOf ackedIndex v).index ≤ kNoLimit) :
    (∀ useGroupCommit result, j.Computes useGroupCommit ackedIndex result →
        result = j.committedIndex useGroupCommit ackedIndex) ∧
      IsGreatest {i | i ≤ kNoLimit ∧ j.getVoteResult (reaches ackedIndex i) = .won}
        (j.committedIndex false ackedIndex).1 ∧
      (∃ i o, (j.incoming.elems ≠ [] → GroupCommit j.incoming ackedIndex i) ∧
        (j.outgoing.elems ≠ [] → GroupCommit j.outgoing ackedIndex o) ∧
        (j.incoming.elems ≠ [] → j.outgoing.elems ≠ [] →
          (j.committedIndex true ackedIndex).1 = min i o) ∧
        (j.outgoing.elems = [] → j.incoming.elems ≠ [] →
          (j.committedIndex true ackedIndex).1 = i) ∧
        (j.incoming.elems = [] → j.outgoing.elems ≠ [] →
          (j.committedIndex true ackedIndex).1 = o)) ∧
      ∀ check,
        (∀ result, j.ComputesVote check result → result = j.getVoteResult check) ∧
          (j.getVoteResult check = .won ↔
            ∀ f, Completes check f → j.getVoteResult (fun v => some (f v)) = .won) ∧
          (j.getVoteResult check = .lost ↔
            ∀ f, Completes check f → j.getVoteResult (fun v => some (f v)) ≠ .won) := by
  refine ⟨?_, ?_, ?_, ?_⟩
  · intro useGroupCommit result h
    exact h.unique (committedIndex_computes j useGroupCommit ackedIndex) hacked
  · exact (committedIndex_computes j false ackedIndex).isGreatest hacked
  · exact (committedIndex_computes j true ackedIndex).groupCommit hacked
  · intro check
    exact ⟨fun result h => h.eq, won_iff_completions j check, lost_iff_completions j check⟩

/-- Four voters in two groups and one in none; the two of the larger group lead. -/
def groupAcks : ℕ → Option Index
  | 1 => some { index := 9, groupId := 1 }
  | 2 => some { index := 9, groupId := 1 }
  | 3 => some { index := 7 }
  | 4 => some { index := 5, groupId := 2 }
  | _ => none

theorem quorum_arithmetic_groups :
    let j : JointConfiguration := { incoming := ⟨[1, 2, 3, 4, 5], by decide⟩ }
    (j.committedIndex true groupAcks).1 = 5 ∧ (j.committedIndex false groupAcks).1 = 7 ∧
      IsGreatest {i | i ≤ kNoLimit ∧ j.getVoteResult (reaches groupAcks i) = .won} 7 := by
  intro j
  have hacked : ∀ v, (ackOf groupAcks v).index ≤ kNoLimit := by
    intro v
    unfold ackOf groupAcks
    split <;> decide
  have hgreatest := (quorum_arithmetic j groupAcks hacked).2.1
  have hvalue : (j.committedIndex false groupAcks).1 = 7 := by decide
  rw [hvalue] at hgreatest
  exact ⟨by decide, hvalue, hgreatest⟩

end JointConfiguration

end Raftpp
