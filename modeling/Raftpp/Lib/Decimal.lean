import Mathlib.Algebra.Order.Ring.Nat
import Mathlib.Data.List.Basic

/-!
# Decimal numbers of a fixed width

A number in decimal digits, filled up with zeros on the left.  As long as the width
is enough, the digits have one length, can be read back, and compare as characters the
way the numbers do.
-/

namespace Raftpp

open List

/-! ## Comparing lists -/

section Compare

variable {α : Type*} [LT α] [Std.Irrefl (α := α) (· < ·)]

/-- What both lists begin with does not count. -/
theorem append_lt_append_left_iff (pre xs ys : List α) : pre ++ xs < pre ++ ys ↔ xs < ys := by
  induction pre with
  | nil => rfl
  | cons a pre ih =>
      rw [cons_append, cons_append, cons_lt_cons_iff, ih]
      constructor
      · rintro (hlt | ⟨-, hlt⟩)
        · exact absurd hlt (Std.Irrefl.irrefl a)
        · exact hlt
      · exact fun hlt => Or.inr ⟨rfl, hlt⟩

/-- What both lists end with does not count if they have one length. -/
theorem append_lt_append_right_iff {xs ys : List α} (h : xs.length = ys.length) (post : List α) :
    xs ++ post < ys ++ post ↔ xs < ys := by
  induction xs generalizing ys with
  | nil =>
      obtain rfl : ys = [] := List.eq_nil_of_length_eq_zero h.symm
      have hleft := append_lt_append_left_iff post ([] : List α) []
      rwa [append_nil] at hleft
  | cons x xs ih =>
      cases ys with
      | nil => exact absurd h (Nat.succ_ne_zero _)
      | cons y ys =>
          rw [cons_append, cons_append, cons_lt_cons_iff, cons_lt_cons_iff, ih (Nat.succ.inj h)]

end Compare

/-! ## The value of digits -/

variable {cs ds : List Char} {width m n : ℕ}

theorem digitValue_lt {c : Char} (h : c.isDigit = true) : c.toNat - '0'.toNat < 10 := by
  obtain ⟨-, hle⟩ := Char.isDigit_iff_toNat.mp h
  have hzero : '0'.toNat = 48 := rfl
  have hnine : '9'.toNat = 57 := rfl
  omega

/-- A greater digit outweighs everything behind it. -/
theorem weight_lt {weight rest a b : ℕ} (hrest : rest < weight) (h : a < b) :
    weight * a + rest < weight * b :=
  calc weight * a + rest < weight * a + weight := Nat.add_lt_add_left hrest _
    _ = weight * (a + 1) := (Nat.mul_succ _ _).symm
    _ ≤ weight * b := Nat.mul_le_mul_left _ h

theorem ofDigitChars_cons_zero (c : Char) (cs : List Char) :
    Nat.ofDigitChars 10 (c :: cs) 0 =
      10 ^ cs.length * (c.toNat - '0'.toNat) + Nat.ofDigitChars 10 cs 0 := by
  rw [Nat.ofDigitChars_cons, Nat.ofDigitChars_eq_ofDigitChars_zero, Nat.mul_zero, Nat.zero_add]

theorem ofDigitChars_lt (h : ∀ c ∈ cs, c.isDigit = true) :
    Nat.ofDigitChars 10 cs 0 < 10 ^ cs.length := by
  induction cs with
  | nil => simp
  | cons c cs ih =>
      have hrest := ih fun d hd => h d (mem_cons_of_mem _ hd)
      rw [ofDigitChars_cons_zero, length_cons, pow_succ]
      exact weight_lt hrest (digitValue_lt (h c mem_cons_self))

/-- Digits of one length that compare as characters compare as numbers. -/
theorem ofDigitChars_lt_of_lt (hlength : cs.length = ds.length)
    (hcs : ∀ c ∈ cs, c.isDigit = true) (hds : ∀ d ∈ ds, d.isDigit = true) (h : cs < ds) :
    Nat.ofDigitChars 10 cs 0 < Nat.ofDigitChars 10 ds 0 := by
  induction cs generalizing ds with
  | nil =>
      obtain rfl : ds = [] := List.eq_nil_of_length_eq_zero hlength.symm
      exact absurd h (List.lt_irrefl _)
  | cons c cs ih =>
      cases ds with
      | nil => exact absurd hlength (Nat.succ_ne_zero _)
      | cons d ds =>
          have hsame : cs.length = ds.length := Nat.succ.inj hlength
          have hrest := ofDigitChars_lt fun x hx => hcs x (mem_cons_of_mem c hx)
          rw [ofDigitChars_cons_zero, ofDigitChars_cons_zero, ← hsame]
          rcases cons_lt_cons_iff.mp h with hlt | ⟨rfl, hlt⟩
          · have hchars : c.toNat < d.toNat := hlt
            have hc := (Char.isDigit_iff_toNat.mp (hcs c mem_cons_self)).1
            have hvalue : c.toNat - '0'.toNat < d.toNat - '0'.toNat := by omega
            exact (weight_lt hrest hvalue).trans_le (Nat.le_add_right _ _)
          · have htail := ih hsame (fun x hx => hcs x (mem_cons_of_mem c hx))
              (fun x hx => hds x (mem_cons_of_mem c hx)) hlt
            exact Nat.add_lt_add_left htail _

/-! ## Padded numbers -/

/-- The digits of `n`, filled up with zeros to at least `width`. -/
def padded (width n : ℕ) : List Char :=
  List.replicate (width - (Nat.toDigits 10 n).length) '0' ++ Nat.toDigits 10 n

theorem padded_isDigit {c : Char} (h : c ∈ padded width n) : c.isDigit = true := by
  rcases mem_append.mp h with hzero | hdigit
  · rw [(mem_replicate.mp hzero).2]
    rfl
  · exact Nat.isDigit_of_mem_toDigits (by decide) (by decide) hdigit

theorem ofDigitChars_padded (width n : ℕ) : Nat.ofDigitChars 10 (padded width n) 0 = n := by
  rw [padded, Nat.ofDigitChars_append, Nat.ofDigitChars_replicate_zero, Nat.mul_zero,
    Nat.ofDigitChars_ten_toDigits]

theorem padded_length_iff (hwidth : 0 < width) :
    (padded width n).length = width ↔ n < 10 ^ width := by
  rw [← Nat.length_toDigits_le_iff (by decide) hwidth, padded, length_append, length_replicate]
  omega

/-- Within the width the digits are in the order of the numbers. -/
theorem padded_lt_iff (hwidth : 0 < width) (hm : m < 10 ^ width) (hn : n < 10 ^ width) :
    padded width m < padded width n ↔ m < n := by
  have hlength : (padded width m).length = (padded width n).length :=
    ((padded_length_iff hwidth).mpr hm).trans ((padded_length_iff hwidth).mpr hn).symm
  have hof : ∀ {a b : ℕ}, (padded width a).length = (padded width b).length →
      padded width a < padded width b → a < b := by
    intro a b hab hlt
    have hvalue := ofDigitChars_lt_of_lt hab (fun _ => padded_isDigit) (fun _ => padded_isDigit) hlt
    rwa [ofDigitChars_padded, ofDigitChars_padded] at hvalue
  refine ⟨hof hlength, fun hlt => ?_⟩
  by_contra hge
  rcases List.le_iff_lt_or_eq.mp (List.not_lt.mp hge) with hgt | heq
  · exact absurd (hof hlength.symm hgt) (by omega)
  · have hvalue := congrArg (Nat.ofDigitChars 10 · 0) heq
    rw [ofDigitChars_padded, ofDigitChars_padded] at hvalue
    omega

end Raftpp
