import Mathlib.Data.List.Sort
import Mathlib.Data.List.Count

/-!
# Majorities of a list

Counting facts about two predicates on one list: if each holds on more than half
of the positions, some element satisfies both, also when the two lists differ in
one element, and the element at position `k` of a descending list is a lower
bound of `k + 1` of them.
-/

namespace Raftpp

open List

variable {α : Type*} {l : List α}

theorem countP_add_countP_le (p q : α → Bool) (l : List α) :
    l.countP p + l.countP q ≤ l.length + l.countP fun a => p a && q a := by
  induction l with
  | nil => simp
  | cons a l ih =>
      simp only [countP_cons, length_cons, Bool.and_eq_true]
      cases hp : p a <;> cases hq : q a <;> simp <;> omega

/-- Two majorities of the same list share an element. -/
theorem exists_mem_of_majorities {p q : α → Bool} (hp : l.length / 2 + 1 ≤ l.countP p)
    (hq : l.length / 2 + 1 ≤ l.countP q) : ∃ a ∈ l, p a ∧ q a := by
  have hcount := countP_add_countP_le p q l
  have hboth : 0 < l.countP fun a => p a && q a := by omega
  obtain ⟨a, ha, hpq⟩ := countP_pos_iff.mp hboth
  exact ⟨a, ha, by simpa using hpq⟩

theorem countP_le_countP_and_add (p q : α → Bool) (l : List α) :
    l.countP p ≤ (l.countP fun a => p a && q a) + l.countP fun a => !q a := by
  have hboth := countP_add_countP_le p q l
  have hsplit := l.length_eq_countP_add_countP q
  have hnot : (l.countP fun a => decide (¬q a = true)) = l.countP fun a => !q a := by
    refine countP_congr fun a _ => ?_
    simp
  omega

/-- Majorities of two lists that differ in at most one element share an element. -/
theorem exists_mem_of_near_majorities [DecidableEq α] {p q : α → Bool} {k : List α} (hl : l.Nodup)
    (hk : k.Nodup)
    (hdiff : (l.countP fun a => decide (a ∉ k)) + (k.countP fun a => decide (a ∉ l)) ≤ 1)
    (hp : l.length / 2 + 1 ≤ l.countP p) (hq : k.length / 2 + 1 ≤ k.countP q) :
    ∃ a, a ∈ l ∧ a ∈ k ∧ p a ∧ q a := by
  -- both majorities are counted on the common elements
  have hperm : (l.filter fun a => decide (a ∈ k)).Perm (k.filter fun a => decide (a ∈ l)) := by
    rw [perm_ext_iff_of_nodup (hl.filter _) (hk.filter _)]
    intro a
    simp only [mem_filter, decide_eq_true_eq]
    exact and_comm
  have hrest : ∀ {s t : List α}, (s.countP fun a => !decide (a ∈ t)) =
      s.countP fun a => decide (a ∉ t) := by
    intro s t
    refine countP_congr fun a _ => ?_
    simp
  have hlp := countP_le_countP_and_add p (fun a => decide (a ∈ k)) l
  have hkq := countP_le_countP_and_add q (fun a => decide (a ∈ l)) k
  have hlen := l.length_eq_countP_add_countP fun a => decide (a ∈ k)
  have hlen' := k.length_eq_countP_add_countP fun a => decide (a ∈ l)
  simp only [decide_eq_true_eq] at hlen hlen'
  rw [hrest, ← countP_filter] at hlp hkq
  rw [← hperm.countP_eq] at hkq
  have hsize := hperm.length_eq
  rw [← countP_eq_length_filter, ← countP_eq_length_filter] at hsize
  have hcount := countP_add_countP_le p q (l.filter fun a => decide (a ∈ k))
  rw [← countP_eq_length_filter] at hcount
  have hboth : 0 < (l.filter fun a => decide (a ∈ k)).countP fun a => p a && q a := by omega
  obtain ⟨a, ha, hpq⟩ := countP_pos_iff.mp hboth
  simp only [mem_filter, decide_eq_true_eq, Bool.and_eq_true] at ha hpq
  exact ⟨a, ha.1, ha.2, hpq.1, hpq.2⟩

/-- In a list that descends along `f`, the element at position `k` is a lower
bound of the first `k + 1` elements. -/
theorem succ_le_countP_of_pairwise_ge {f : α → ℕ} (hsorted : l.Pairwise fun a b => f b ≤ f a)
    {k : ℕ} (hk : k < l.length) : k + 1 ≤ l.countP fun a => decide (f l[k] ≤ f a) := by
  induction l generalizing k with
  | nil => simp at hk
  | cons b l ih =>
      obtain ⟨hhead, htail⟩ := pairwise_cons.mp hsorted
      cases k with
      | zero => simp
      | succ k =>
          have hk' : k < l.length := by simpa using hk
          have hbound : f l[k] ≤ f b := hhead _ (getElem_mem hk')
          have hrest := ih htail hk'
          simp only [getElem_cons_succ, countP_cons, hbound, decide_true, if_true]
          omega

/-- In such a list the element at position `k` is the greatest value that `k + 1` elements
reach. -/
theorem succ_le_countP_iff_of_pairwise_ge {f : α → ℕ} (hsorted : l.Pairwise fun a b => f b ≤ f a)
    {k : ℕ} (hk : k < l.length) (i : ℕ) :
    (k + 1 ≤ l.countP fun a => decide (i ≤ f a)) ↔ i ≤ f l[k] := by
  constructor
  · induction l generalizing k with
    | nil => simp at hk
    | cons b l ih =>
        obtain ⟨hhead, htail⟩ := pairwise_cons.mp hsorted
        intro hcount
        rw [countP_cons] at hcount
        cases k with
        | zero =>
            by_contra hlt
            have hnone : l.countP (fun a => decide (i ≤ f a)) = 0 := by
              refine countP_eq_zero.mpr fun a ha => ?_
              have hle := hhead a ha
              simp only [getElem_cons_zero] at hlt
              simp only [decide_eq_true_eq]
              omega
            simp only [getElem_cons_zero] at hlt
            rw [hnone] at hcount
            simp only [hlt, decide_false, Bool.false_eq_true, if_false] at hcount
            omega
        | succ k =>
            have hk' : k < l.length := by simpa using hk
            refine ih htail hk' ?_
            split at hcount <;> omega
  · intro hi
    refine (succ_le_countP_of_pairwise_ge hsorted hk).trans ?_
    refine countP_mono_left fun a _ ha => ?_
    simp only [decide_eq_true_eq] at ha ⊢
    omega

end Raftpp
