import Mathlib.Data.List.Basic
import Mathlib.Data.Nat.Basic

/-!
# A ring buffer that grows up to its capacity

The places in use of a ring buffer are `count` places from `start` on, and the
buffer behind it is allocated place by place until it has its full capacity.
`Window` says that this is the case; it is what makes every access of the ring
an access inside the buffer.  `contents` is the list of what the places hold.
-/

namespace Raftpp

open List

namespace Ring

variable {start offset capacity : ℕ}

/-- The place `offset` places after `start`. -/
def wrap (capacity start offset : ℕ) : ℕ :=
  if start + offset < capacity then start + offset else start + offset - capacity

theorem wrap_zero (h : start = 0 ∨ start < capacity) : wrap capacity start 0 = start := by
  unfold wrap
  split
  · rfl
  · omega

theorem wrap_lt (h : start < capacity) (hoffset : offset ≤ capacity) :
    wrap capacity start offset < capacity := by
  unfold wrap
  split <;> omega

/-- One place first and the others then. -/
theorem wrap_wrap_one (h : start < capacity) (hoffset : offset < capacity) :
    wrap capacity (wrap capacity start 1) offset = wrap capacity start (offset + 1) := by
  by_cases hend : start + 1 < capacity
  · have hone : wrap capacity start 1 = start + 1 := if_pos hend
    rw [hone, wrap, wrap, Nat.add_assoc, Nat.add_comm 1]
  · have hone : wrap capacity start 1 = 0 := by
      rw [wrap, if_neg hend]
      omega
    rw [hone, wrap, wrap, if_pos (by omega), if_neg (by omega)]
    omega

/-- Different places for different offsets. -/
theorem wrap_ne {i j : ℕ} (hij : i < j) (hj : j < capacity) :
    wrap capacity start i ≠ wrap capacity start j := by
  unfold wrap
  split <;> split <;> omega

/-- `count` places from `start` on lie in a buffer of `length` places. -/
structure Window (capacity start count length : ℕ) : Prop where
  start_lt : start = 0 ∨ start < capacity
  count_le : count ≤ capacity
  length_le : length ≤ capacity
  used : start + count ≤ length ∨ length = capacity

namespace Window

variable {capacity start count length : ℕ}

theorem empty (capacity : ℕ) : Window capacity 0 0 0 :=
  ⟨Or.inl rfl, Nat.zero_le _, Nat.zero_le _, Or.inl le_rfl⟩

/-- Every place in use is inside the buffer. -/
theorem wrap_lt_length (h : Window capacity start count length) (hoffset : offset < count) :
    wrap capacity start offset < length := by
  obtain ⟨hstart, hcount, hlength, hused⟩ := h
  unfold wrap
  split <;> omega

/-- The next place is inside the buffer or the first one after it. -/
theorem wrap_le (h : Window capacity start count length) (hroom : count < capacity) :
    wrap capacity start count ≤ length := by
  obtain ⟨hstart, -, hlength, hused⟩ := h
  unfold wrap
  split <;> omega

/-- The first place after the buffer is allocated. -/
theorem push (h : Window capacity start count length) (hroom : count < capacity)
    (hend : wrap capacity start count = length) :
    Window capacity start (count + 1) (length + 1) := by
  obtain ⟨hstart, -, hlength, hused⟩ := h
  unfold wrap at hend
  split at hend <;> exact ⟨hstart, by omega, by omega, by omega⟩

/-- A place inside the buffer is taken. -/
theorem set (h : Window capacity start count length) (hroom : count < capacity)
    (hin : wrap capacity start count < length) : Window capacity start (count + 1) length := by
  obtain ⟨hstart, -, hlength, hused⟩ := h
  unfold wrap at hin
  split at hin <;> exact ⟨hstart, by omega, hlength, by omega⟩

/-- A window that does not wrap fits any larger capacity. -/
theorem grow (h : Window capacity start count length) {larger : ℕ} (hlarger : capacity ≤ larger)
    (hstraight : start + count ≤ capacity) : Window larger start count length := by
  obtain ⟨hstart, hcount, hlength, hused⟩ := h
  exact ⟨by omega, by omega, by omega, Or.inl (by omega)⟩

/-- A buffer that is used from its first place on. -/
theorem straight (h : count ≤ capacity) : Window capacity 0 count count :=
  ⟨Or.inl rfl, h, h, Or.inl (by omega)⟩

/-- The two parts of a window that wraps. -/
theorem unrolled (h : Window capacity start count length) (hwraps : capacity < start + count) :
    capacity - start + min (count - (capacity - start)) capacity = count := by
  obtain ⟨hstart, hcount, -, -⟩ := h
  omega

/-- The first places are given back. -/
theorem free (h : Window capacity start count length) {freed : ℕ} (hfreed : freed ≤ count) :
    Window capacity (wrap capacity start freed) (count - freed) length := by
  obtain ⟨hstart, hcount, hlength, hused⟩ := h
  unfold wrap
  split <;> exact ⟨by omega, by omega, hlength, by omega⟩

end Window

/-! ## Contents -/

section Contents

variable {α : Type*} (d : α) (buffer : List α) {capacity start count : ℕ}

/-- What the `count` places from `start` on hold, in order. -/
def contents (capacity start count : ℕ) : List α :=
  (List.range count).map fun offset => buffer.getD (wrap capacity start offset) d

@[simp] theorem length_contents : (contents d buffer capacity start count).length = count := by
  simp [contents]

@[simp] theorem contents_zero : contents d buffer capacity start 0 = [] := rfl

/-- One place more at the end. -/
theorem contents_succ : contents d buffer capacity start (count + 1) =
    contents d buffer capacity start count ++
      [buffer.getD (wrap capacity start count) d] := by
  simp [contents, range_succ]

/-- One place less at the front. -/
theorem contents_cons (hstart : start < capacity) (hcount : count < capacity) :
    contents d buffer capacity start (count + 1) =
      buffer.getD start d :: contents d buffer capacity (wrap capacity start 1) count := by
  unfold contents
  rw [range_succ_eq_map, map_cons, wrap_zero (Or.inr hstart), map_map]
  refine congrArg _ (map_congr_left fun offset hoffset => ?_)
  have hlt := mem_range.mp hoffset
  rw [wrap_wrap_one hstart (by omega)]
  rfl

variable {d} {buffer}

/-- The contents depend on nothing but the places in use. -/
theorem contents_congr {buffer' : List α} {capacity' start' : ℕ}
    (h : ∀ offset < count, buffer.getD (wrap capacity start offset) d =
      buffer'.getD (wrap capacity' start' offset) d) :
    contents d buffer capacity start count = contents d buffer' capacity' start' count :=
  map_congr_left fun offset hoffset => h offset (mem_range.mp hoffset)

/-- The first place after the buffer is allocated and filled. -/
theorem contents_push (h : Window capacity start count buffer.length) {x : α}
    (hend : wrap capacity start count = buffer.length) :
    contents d (buffer ++ [x]) capacity start (count + 1) =
      contents d buffer capacity start count ++ [x] := by
  have hold : contents d (buffer ++ [x]) capacity start count =
      contents d buffer capacity start count := by
    refine contents_congr fun offset hoffset => ?_
    have hin := h.wrap_lt_length hoffset
    simp only [getD_eq_getElem?_getD, getElem?_append_left hin]
  rw [contents_succ, hold, hend]
  simp [getD_eq_getElem?_getD]

/-- A place inside the buffer is filled. -/
theorem contents_set (hroom : count < capacity) {x : α}
    (hin : wrap capacity start count < buffer.length) :
    contents d (buffer.set (wrap capacity start count) x) capacity start (count + 1) =
      contents d buffer capacity start count ++ [x] := by
  have hold : contents d (buffer.set (wrap capacity start count) x) capacity start count =
      contents d buffer capacity start count := by
    refine contents_congr fun offset hoffset => ?_
    have hne : wrap capacity start count ≠ wrap capacity start offset :=
      (wrap_ne hoffset hroom).symm
    simp only [getD_eq_getElem?_getD, getElem?_set_ne hne]
  rw [contents_succ, hold]
  simp [getD_eq_getElem?_getD, hin]

/-- A window that does not wrap holds the same in a larger ring. -/
theorem contents_grow {larger : ℕ} (hlarger : capacity ≤ larger)
    (hstraight : start + count ≤ capacity) :
    contents d buffer larger start count = contents d buffer capacity start count := by
  refine contents_congr fun offset hoffset => ?_
  rw [wrap, wrap, if_pos (by omega), if_pos (by omega)]

/-- A buffer that is used from its first place to its last. -/
theorem contents_straight (hlength : buffer.length = count) (hcount : count ≤ capacity) :
    contents d buffer capacity 0 count = buffer := by
  refine ext_getElem (by simp [hlength]) fun i hi hi' => ?_
  have hwrap : wrap capacity 0 i = i := by
    rw [wrap, if_pos (by omega), Nat.zero_add]
  simp [contents, hwrap, getD_eq_getElem?_getD, hi']

/-- A window that wraps is the end of the buffer and then its beginning. -/
theorem contents_unrolled (h : Window capacity start count buffer.length)
    (hwraps : capacity < start + count) (hwhole : buffer.length = capacity) :
    contents d buffer capacity start count =
      buffer.drop start ++ buffer.take (count - (capacity - start)) := by
  have hunrolled := h.unrolled hwraps
  obtain ⟨hstart, hcount, -, -⟩ := h
  refine ext_getElem (by simp; omega) fun i hi hi' => ?_
  rw [length_contents] at hi
  simp only [contents, getElem_map, getElem_range]
  by_cases hend : i < capacity - start
  · rw [getElem_append_left (by simp; omega), wrap, if_pos (by omega)]
    simp [getD_eq_getElem?_getD, show start + i < buffer.length by omega]
  · rw [getElem_append_right (by simp; omega), wrap, if_neg (by omega)]
    have hplace : i - (buffer.length - start) = start + i - capacity := by omega
    simp [getD_eq_getElem?_getD, hplace, show start + i - capacity < buffer.length by omega]

end Contents

end Ring

end Raftpp
