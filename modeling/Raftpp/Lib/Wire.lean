import Raftpp.Lib.LittleEndian

/-!
# Messages in byte strings

A `Wire` is an encoder with its decoder.  Encoded messages are laid out one after the
other, each behind a length of 32 bits; a slice of such a layout is one of its fields,
and slices of a beginning of a byte string are slices of the whole.
-/

namespace Raftpp

open List

variable {α : Type*} {pre bytes : List UInt8} {n offset : ℕ}

/-- An encoder, and a decoder that may fail. -/
structure Wire (α : Type*) where
  encode : α → List UInt8
  decode : List UInt8 → Option α

/-- Decoding inverts the encoding of a value, which is a positive number of words. -/
structure Wire.Inverts (c : Wire α) (a : α) : Prop where
  decode_encode : c.decode (c.encode a) = some a
  words : 8 ∣ (c.encode a).length
  pos : 0 < (c.encode a).length

/-- The whole words at the beginning of some bytes. -/
def wholeWords (bytes : List UInt8) : List UInt8 := bytes.take (8 * (bytes.length / 8))

theorem wholeWords_of_dvd (h : 8 ∣ bytes.length) : wholeWords bytes = bytes := by
  rw [wholeWords, Nat.mul_div_cancel' h, take_length]

/-! ## Slices -/

/-- Some bytes from an offset on. -/
def slice (bytes : List UInt8) (offset n : ℕ) : List UInt8 := (bytes.drop offset).take n

/-- A field of a layout. -/
theorem slice_append {field : List UInt8} (hpre : pre.length = offset) (hfield : field.length = n)
    (post : List UInt8) : slice (pre ++ (field ++ post)) offset n = field :=
  take_drop_append hpre hfield

/-- A slice of a beginning. -/
theorem slice_append_left (h : offset + n ≤ bytes.length) (rest : List UInt8) :
    slice (bytes ++ rest) offset n = slice bytes offset n := by
  unfold slice
  rw [drop_append_of_le_length (by omega), take_append_of_le_length (by rw [length_drop]; omega)]

/-- The number of 32 bits at an offset. -/
def lengthAt (bytes : List UInt8) (offset : ℕ) : ℕ := leNat (slice bytes offset 4)

theorem lengthAt_lt (bytes : List UInt8) (offset : ℕ) : lengthAt bytes offset < 2 ^ 32 := by
  calc lengthAt bytes offset < 256 ^ (slice bytes offset 4).length := leNat_lt _
    _ ≤ 256 ^ 4 := Nat.pow_le_pow_right (by decide) (length_take_le _ _)

theorem lengthAt_append_left (h : offset + 4 ≤ bytes.length) (rest : List UInt8) :
    lengthAt (bytes ++ rest) offset = lengthAt bytes offset := by
  rw [lengthAt, slice_append_left h, lengthAt]

/-- A number that has been written is read back. -/
theorem lengthAt_leBytes (hpre : pre.length = offset) (hn : n < 2 ^ 32) (post : List UInt8) :
    lengthAt (pre ++ (leBytes 4 n ++ post)) offset = n := by
  rw [lengthAt, slice_append hpre (leBytes_length 4 n)]
  exact leNat_leBytes_of_lt hn

theorem lengthAt_zero (hn : n < 2 ^ 32) (post : List UInt8) :
    lengthAt (leBytes 4 n ++ post) 0 = n :=
  lengthAt_leBytes (show ([] : List UInt8).length = 0 from rfl) hn post

/-! ## Numbers -/

/-- The numbers of 64 bits in some bytes. -/
def numbers (bytes : List UInt8) : List ℕ :=
  (List.range (bytes.length / 8)).map fun i => leNat (slice bytes (8 * i) 8)

/-- A value as a list of numbers of 64 bits. -/
def Wire.ofNumbers (toNumbers : α → List ℕ) (ofList : List ℕ → Option α) : Wire α where
  encode a := (toNumbers a).flatMap (leBytes 8)
  decode bytes := ofList (numbers bytes)

/-! ## Lengths -/

/-- Some bytes behind their length. -/
def sized (bytes : List UInt8) : List UInt8 := leBytes 4 bytes.length ++ bytes

@[simp]
theorem sized_length (bytes : List UInt8) : (sized bytes).length = 4 + bytes.length := by
  rw [sized, length_append, leBytes_length]

theorem lengthAt_sized {pre bytes : List UInt8} {offset : ℕ} (hpre : pre.length = offset)
    (h : bytes.length < 2 ^ 32) (post : List UInt8) :
    lengthAt (pre ++ (sized bytes ++ post)) offset = bytes.length := by
  rw [sized, append_assoc]
  exact lengthAt_leBytes hpre h _

theorem slice_sized {pre bytes : List UInt8} {offset n : ℕ} (hpre : pre.length + 4 = offset)
    (hbytes : bytes.length = n) (post : List UInt8) :
    slice (pre ++ (sized bytes ++ post)) offset n = bytes := by
  have hfront : (pre ++ leBytes 4 bytes.length).length = offset := by
    rw [length_append, leBytes_length, hpre]
  rw [sized, append_assoc, ← append_assoc pre]
  exact slice_append hfront hbytes post

/-! ## Streams -/

section Stream

variable {β ε : Type*} {step : List UInt8 → Except ε (β × ℕ)}

/-- A decoder that returns a value and how many bytes it has consumed, applied again and again to
the rest.  It is at its end when nothing is consumed. -/
def decodeStream (step : List UInt8 → Except ε (β × ℕ)) :
    ℕ → List UInt8 → Except ε (List β × List UInt8)
  | 0, buffer => .ok ([], buffer)
  | n + 1, buffer => do
      let r ← step buffer
      if r.2 = 0 then .ok ([], buffer)
      else
        let rest ← decodeStream step n (buffer.drop r.2)
        .ok (r.1 :: rest.1, rest.2)

/-- Frames that are decoded one by one, whatever follows them, are decoded from a stream, up to
bytes of which nothing is consumed. -/
theorem decodeStream_frames {frame : α → List UInt8} {value : α → β} {values : List α}
    (hframe : ∀ a ∈ values, ∀ rest, step (frame a ++ rest) = .ok (value a, (frame a).length))
    (hpos : ∀ a ∈ values, 0 < (frame a).length) {rest : List UInt8}
    (hrest : ∃ b, step rest = .ok (b, 0)) (hn : values.length ≤ n) :
    decodeStream step n (values.flatMap frame ++ rest) = .ok (values.map value, rest) := by
  induction values generalizing n with
  | nil =>
      obtain ⟨b, hb⟩ := hrest
      cases n with
      | zero => rfl
      | succ n =>
          rw [flatMap_nil, nil_append, decodeStream, hb]
          rfl
  | cons a as ih =>
      obtain ⟨n, rfl⟩ : ∃ k, n = k + 1 := ⟨n - 1, by rw [length_cons] at hn; omega⟩
      have hne : (frame a).length ≠ 0 := (hpos a mem_cons_self).ne'
      have htail := ih (fun b hb => hframe b (mem_cons_of_mem _ hb))
        (fun b hb => hpos b (mem_cons_of_mem _ hb)) (Nat.le_of_succ_le_succ hn)
      rw [flatMap_cons, append_assoc, decodeStream, hframe a mem_cons_self]
      simp only [bind, Except.bind, if_neg hne, drop_left, htail, map_cons]

end Stream

end Raftpp
