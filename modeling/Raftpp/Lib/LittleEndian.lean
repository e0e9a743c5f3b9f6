import Mathlib.Algebra.Order.Ring.Nat
import Mathlib.Data.List.Basic

/-!
# Little-endian numbers in byte strings

A natural number as a fixed number of bytes, least significant first, and back.
What does not fit is cut off, as a machine integer would.
-/

namespace Raftpp

/-- The lowest `width` bytes of `n`. -/
def leBytes : ℕ → ℕ → List UInt8
  | 0, _ => []
  | width + 1, n => UInt8.ofNat n :: leBytes width (n / 256)

/-- The number that some bytes stand for. -/
def leNat : List UInt8 → ℕ
  | [] => 0
  | b :: bs => b.toNat + 256 * leNat bs

@[simp]
theorem leBytes_length (width n : ℕ) : (leBytes width n).length = width := by
  induction width generalizing n with
  | zero => rfl
  | succ width ih => simp only [leBytes, List.length_cons, ih]

theorem leNat_leBytes (width n : ℕ) : leNat (leBytes width n) = n % 256 ^ width := by
  induction width generalizing n with
  | zero => simp [leBytes, leNat, Nat.mod_one]
  | succ width ih =>
      have hbyte : (UInt8.ofNat n).toNat = n % 256 := by simp
      rw [leBytes, leNat, ih, hbyte, pow_succ', Nat.mod_mul]

theorem leNat_leBytes_of_lt {width n : ℕ} (h : n < 256 ^ width) :
    leNat (leBytes width n) = n := by
  rw [leNat_leBytes, Nat.mod_eq_of_lt h]

theorem leNat_lt (bytes : List UInt8) : leNat bytes < 256 ^ bytes.length := by
  induction bytes with
  | nil => exact Nat.zero_lt_one
  | cons b bs ih =>
      have hbyte := b.toNat_lt
      rw [leNat, List.length_cons, pow_succ']
      omega

theorem leNat_replicate_zero (n : ℕ) : leNat (List.replicate n 0) = 0 := by
  induction n with
  | zero => rfl
  | succ n ih => rw [List.replicate_succ, leNat, ih]; rfl

theorem take_leBytes_append (width n : ℕ) (rest : List UInt8) :
    (leBytes width n ++ rest).take width = leBytes width n :=
  List.take_left' (leBytes_length width n)

/-- A field is skipped. -/
theorem drop_leBytes_append {width k : ℕ} (n : ℕ) (rest : List UInt8) (h : width ≤ k) :
    (leBytes width n ++ rest).drop k = rest.drop (k - width) := by
  rw [List.drop_append, List.drop_eq_nil_of_le (by simpa using h), leBytes_length, List.nil_append]

/-- Reading a field back from the middle of a byte string. -/
theorem take_drop_append {α : Type*} {pre field post : List α} {offset width : ℕ}
    (hpre : pre.length = offset) (hfield : field.length = width) :
    ((pre ++ (field ++ post)).drop offset).take width = field := by
  subst hpre hfield
  simp

end Raftpp
