import Raftpp.Rpc.Framing

/-!
# The size of a frame

`FrameSize` is documented to return the size of a frame if it is complete and zero if it is
not.  It does not look at the size of the buffer again after it has read the size of the
payload from the header: for a frame whose payload is cut it returns the size of the whole
frame, where `Decode` reports that the frame is incomplete.

The two parsers differ in one other place.  A header whose root can be read but whose copy
throws is an error for `Decode` only.
-/

namespace Raftpp.Rpc.Codec

open RpcCodec (headerRoot)

variable [RpcCodec] {buffer : Bytes} {maxSize : ℕ} {header : RpcHeader}

/-- The size of the frame that the header at the beginning of a buffer announces. -/
def announcedSize (buffer : Bytes) : Option ℕ :=
  (headerRoot (headerWords buffer)).map fun header =>
    headerEnd buffer + header.payloadSize

/-- A buffer contains a complete frame of a size: `Decode` consumes it, or fails only on its
payload. -/
def Completes (buffer : Bytes) (maxSize n : ℕ) : Prop :=
  n ≤ buffer.length ∧
    ((∃ r, decode buffer maxSize = .ok r ∧ r.bytesConsumed = n) ∨
      announcedSize buffer = some n ∧ decode buffer maxSize = .error .payloadParseFailed)

/-- `FrameSize` and `Decode` classify a buffer in the same way. -/
structure Agrees (buffer : Bytes) (maxSize : ℕ) : Prop where
  complete : ∀ n, 0 < n → (frameSize buffer maxSize = .ok n ↔ Completes buffer maxSize n)
  incomplete : frameSize buffer maxSize = .ok 0 ↔
    ∃ r, decode buffer maxSize = .ok r ∧ r.bytesConsumed = 0
  errors : ∀ code, code ≠ .payloadParseFailed →
    (frameSize buffer maxSize = .error code ↔ decode buffer maxSize = .error code)

/-- The payload of a frame within the limit is not complete. -/
def CutPayload (buffer : Bytes) (maxSize : ℕ) : Prop :=
  Headed buffer maxSize ∧ ∃ header, RpcCodec.header.decode (headerWords buffer) = some header ∧
    header.payloadSize ≤ maxSize - headerEnd buffer ∧
    buffer.length < headerEnd buffer + header.payloadSize

/-- The root of the header can be read but the header cannot be copied. -/
def Uncopied (buffer : Bytes) (maxSize : ℕ) : Prop :=
  Headed buffer maxSize ∧ (headerRoot (headerWords buffer)).isSome = true ∧
    RpcCodec.headerCopies (headerWords buffer) = false

/-! ## Outcomes that agree -/

/-- Both report that the frame is incomplete. -/
theorem Agrees.of_incomplete (hsize : frameSize buffer maxSize = .ok 0)
    (hdecode : decode buffer maxSize = .ok Codec.incomplete) : Agrees buffer maxSize where
  complete n hn := by
    rw [Completes, hsize, hdecode]
    constructor
    · intro h
      cases h
      exact absurd hn (Nat.lt_irrefl 0)
    · rintro ⟨-, ⟨r, hr, hbytes⟩ | ⟨-, h⟩⟩
      · cases hr
        exact absurd hn (hbytes ▸ Nat.lt_irrefl 0)
      · cases h
  incomplete := by
    rw [hsize, hdecode]
    exact ⟨fun _ => ⟨_, rfl, rfl⟩, fun _ => rfl⟩
  errors code _ := by
    rw [hsize, hdecode]
    exact ⟨fun h => (by cases h), fun h => (by cases h)⟩

/-- Both report the same error. -/
theorem Agrees.of_error {code : RpcErrorCode} (hcode : code ≠ .payloadParseFailed)
    (hsize : frameSize buffer maxSize = .error code)
    (hdecode : decode buffer maxSize = .error code) : Agrees buffer maxSize where
  complete n hn := by
    rw [Completes, hsize, hdecode]
    constructor
    · intro h
      cases h
    · rintro ⟨-, ⟨r, hr, -⟩ | ⟨-, h⟩⟩
      · cases hr
      · cases h
        exact absurd rfl hcode
  incomplete := by
    rw [hsize, hdecode]
    refine ⟨fun h => (by cases h), ?_⟩
    rintro ⟨r, hr, -⟩
    cases hr
  errors code' _ := by
    rw [hsize, hdecode]
    exact ⟨fun h => (by cases h; rfl), fun h => (by cases h; rfl)⟩

/-- `FrameSize` returns the size of a frame that is there, and `Decode` consumes it. -/
theorem Agrees.of_consumed {r : DecodeResult} (hle : r.bytesConsumed ≤ buffer.length)
    (hsize : frameSize buffer maxSize = .ok r.bytesConsumed)
    (hdecode : decode buffer maxSize = .ok r) : Agrees buffer maxSize where
  complete n _ := by
    rw [Completes, hsize, hdecode]
    constructor
    · intro h
      cases h
      exact ⟨hle, Or.inl ⟨r, rfl, rfl⟩⟩
    · rintro ⟨-, ⟨r', hr, hbytes⟩ | ⟨-, h⟩⟩
      · cases hr
        rw [hbytes]
      · cases h
  incomplete := by
    rw [hsize, hdecode]
    constructor
    · intro h
      exact ⟨r, rfl, Except.ok.inj h⟩
    · rintro ⟨r', hr, hbytes⟩
      cases hr
      rw [hbytes]
  errors code _ := by
    rw [hsize, hdecode]
    exact ⟨fun h => (by cases h), fun h => (by cases h)⟩

/-- `FrameSize` returns the size of a frame that is there, and `Decode` fails on its payload. -/
theorem Agrees.of_badPayload {n : ℕ} (hpos : 0 < n) (hle : n ≤ buffer.length)
    (hannounced : announcedSize buffer = some n) (hsize : frameSize buffer maxSize = .ok n)
    (hdecode : decode buffer maxSize = .error .payloadParseFailed) : Agrees buffer maxSize where
  complete n' _ := by
    rw [Completes, hsize, hdecode, hannounced]
    constructor
    · intro h
      cases h
      exact ⟨hle, Or.inr ⟨rfl, rfl⟩⟩
    · rintro ⟨-, ⟨r, hr, -⟩ | ⟨h, -⟩⟩
      · cases hr
      · rw [Option.some.inj h]
  incomplete := by
    rw [hsize, hdecode]
    constructor
    · intro h
      exact absurd (Except.ok.inj h) hpos.ne'
    · rintro ⟨r, hr, -⟩
      cases hr
  errors code hcode := by
    rw [hsize, hdecode]
    refine ⟨fun h => (by cases h), fun h => ?_⟩
    cases h
    exact absurd rfl hcode

/-! ## Both parsers on one buffer -/

/-- Up to the header the two parsers agree. -/
theorem Agrees.of_not_headed (h : ¬Headed buffer maxSize) : Agrees buffer maxSize := by
  by_cases hhead : buffer.length < kPrefixSize
  · refine .of_incomplete ?_ ?_
    · exact if_pos hhead
    · exact if_pos hhead
  by_cases hmagic : lengthAt buffer 0 = kMagic
  · by_cases hlimit : maxSize < kPrefixSize ∨ lengthAt buffer 4 > maxSize - kPrefixSize
    · have hcode : RpcErrorCode.messageTooLarge ≠ .payloadParseFailed := by decide
      refine .of_error hcode ?_ ?_
      · unfold frameSize
        simp only [if_neg hhead, if_neg (not_not.mpr hmagic), if_pos hlimit]
      · unfold decode
        simp only [if_neg hhead, if_neg (not_not.mpr hmagic), if_pos hlimit]
    · have hshort : buffer.length < kPrefixSize + lengthAt buffer 4 := by
        by_contra hcomplete
        exact h ⟨hmagic, by omega, by omega⟩
      refine .of_incomplete ?_ ?_
      · unfold frameSize
        simp only [if_neg hhead, if_neg (not_not.mpr hmagic), if_neg hlimit, if_pos hshort]
      · unfold decode
        simp only [if_neg hhead, if_neg (not_not.mpr hmagic), if_neg hlimit, if_pos hshort]
  · have hcode : RpcErrorCode.invalidMagic ≠ .payloadParseFailed := by decide
    refine .of_error hcode ?_ ?_
    · unfold frameSize
      rw [if_neg hhead, if_pos hmagic]
    · unfold decode
      rw [if_neg hhead, if_pos hmagic]

theorem frameSize_badHeader (h : Headed buffer maxSize)
    (hroot : headerRoot (headerWords buffer) = none) :
    frameSize buffer maxSize = .error .headerParseFailed := by
  obtain ⟨hhead, hlimit, hcomplete⟩ := h.checks
  have hread : headerRoot (wholeWords (slice buffer kPrefixSize (lengthAt buffer 4))) =
      none := hroot
  unfold frameSize
  simp only [if_neg hhead, if_neg (not_not.mpr h.magic), if_neg hlimit, if_neg hcomplete, hread]

theorem frameSize_headed (h : Headed buffer maxSize)
    (hroot : headerRoot (headerWords buffer) = some header) :
    frameSize buffer maxSize =
      if header.payloadSize > maxSize - headerEnd buffer then .error .messageTooLarge
      else .ok (headerEnd buffer + header.payloadSize) := by
  obtain ⟨hhead, hlimit, hcomplete⟩ := h.checks
  have hread : headerRoot (wholeWords (slice buffer kPrefixSize (lengthAt buffer 4))) =
      some header := hroot
  unfold frameSize
  simp only [if_neg hhead, if_neg (not_not.mpr h.magic), if_neg hlimit, if_neg hcomplete, hread]
  rfl

theorem decode_badHeader (h : Headed buffer maxSize)
    (hheader : RpcCodec.header.decode (headerWords buffer) = none) :
    decode buffer maxSize = .error .headerParseFailed := by
  obtain ⟨hhead, hlimit, hcomplete⟩ := h.checks
  have hdecode : RpcCodec.header.decode
      (wholeWords (slice buffer kPrefixSize (lengthAt buffer 4))) = none := hheader
  unfold decode
  simp only [if_neg hhead, if_neg (not_not.mpr h.magic), if_neg hlimit, if_neg hcomplete, hdecode]

theorem headerRoot_of_decode (h : RpcCodec.header.decode (headerWords buffer) = some header) :
    headerRoot (headerWords buffer) = some header := by
  change (if RpcCodec.headerCopies (headerWords buffer) = true then
    headerRoot (headerWords buffer) else none) = some header at h
  split at h
  · exact h
  · cases h

/-- A header that both parsers accept, with its payload. -/
theorem Agrees.of_payload (h : Headed buffer maxSize)
    (hheader : RpcCodec.header.decode (headerWords buffer) = some header)
    (hwhole : header.payloadSize ≤ maxSize - headerEnd buffer →
      headerEnd buffer + header.payloadSize ≤ buffer.length) : Agrees buffer maxSize := by
  have hroot := headerRoot_of_decode hheader
  have hsize := frameSize_headed h hroot
  have hdecode := decode_headed h hheader
  unfold decodePayload at hdecode
  by_cases hlarge : header.payloadSize > maxSize - headerEnd buffer
  · rw [if_pos hlarge] at hsize hdecode
    exact .of_error (by decide) hsize hdecode
  · have hle := hwhole (Nat.not_lt.mp hlarge)
    have hpos : 0 < headerEnd buffer + header.payloadSize := by
      rw [headerEnd, kPrefixSize]
      omega
    rw [if_neg hlarge] at hsize hdecode
    dsimp only at hdecode
    rw [if_neg (Nat.not_lt.mpr hle)] at hdecode
    cases hmessage : RpcCodec.message.decode
        (wholeWords (slice buffer (headerEnd buffer) header.payloadSize)) with
    | none =>
        rw [hmessage] at hdecode
        have hannounced : announcedSize buffer = some (headerEnd buffer + header.payloadSize) := by
          rw [announcedSize, hroot]
          rfl
        exact .of_badPayload hpos hle hannounced hsize hdecode
    | some msg =>
        rw [hmessage] at hdecode
        exact .of_consumed (r := { header := some header, message := some msg
                                   bytesConsumed := headerEnd buffer + header.payloadSize })
          hle hsize hdecode

/-- A frame whose payload is cut is classified differently. -/
theorem CutPayload.not_agrees (h : CutPayload buffer maxSize) : ¬Agrees buffer maxSize := by
  obtain ⟨hheaded, header, hheader, hlimit, hcut⟩ := h
  intro hagrees
  have hsize := frameSize_headed hheaded (headerRoot_of_decode hheader)
  rw [if_neg (Nat.not_lt.mpr hlimit)] at hsize
  have hpos : 0 < headerEnd buffer + header.payloadSize := by
    rw [headerEnd, kPrefixSize]
    omega
  obtain ⟨hle, -⟩ := (hagrees.complete _ hpos).mp hsize
  omega

/-- A header that cannot be copied is classified differently. -/
theorem Uncopied.not_agrees (h : Uncopied buffer maxSize) : ¬Agrees buffer maxSize := by
  obtain ⟨hheaded, hroot, hcopies⟩ := h
  intro hagrees
  obtain ⟨header, hheader⟩ := Option.isSome_iff_exists.mp hroot
  have hdecode := decode_badHeader hheaded (if_neg (by rw [hcopies]; decide))
  have hsize := (hagrees.errors .headerParseFailed (by decide)).mpr hdecode
  rw [frameSize_headed hheaded hheader] at hsize
  split at hsize <;> cases hsize

/-- `FrameSize` and `Decode` agree on a buffer unless its payload is cut or its header cannot be
copied. -/
theorem frameSize_agrees_iff (buffer : Bytes) (maxSize : ℕ) :
    Agrees buffer maxSize ↔ ¬CutPayload buffer maxSize ∧ ¬Uncopied buffer maxSize := by
  constructor
  · intro hagrees
    exact ⟨fun hcut => hcut.not_agrees hagrees, fun huncopied => huncopied.not_agrees hagrees⟩
  · rintro ⟨hcut, huncopied⟩
    by_cases hheaded : Headed buffer maxSize
    · cases hheader : RpcCodec.header.decode (headerWords buffer) with
      | some header =>
          refine .of_payload hheaded hheader fun hlimit => ?_
          by_contra hlt
          exact hcut ⟨hheaded, header, hheader, hlimit, Nat.lt_of_not_le hlt⟩
      | none =>
          have hroot : headerRoot (headerWords buffer) = none := by
            cases hread : headerRoot (headerWords buffer) with
            | none => rfl
            | some header =>
                have hcopies : ¬RpcCodec.headerCopies (headerWords buffer) = true := by
                  intro hcopies
                  have hsome : RpcCodec.header.decode (headerWords buffer) = some header :=
                    (if_pos hcopies).trans hread
                  rw [hheader] at hsome
                  cases hsome
                exact absurd ⟨hheaded, by rw [hread]; rfl, Bool.eq_false_iff.mpr hcopies⟩ huncopied
          exact .of_error (by decide) (frameSize_badHeader hheaded hroot)
            (decode_badHeader hheaded hheader)
    · exact .of_not_headed hheaded

omit [RpcCodec] in
/-- A frame that lacks its last byte: `Decode` reports that it is incomplete, `FrameSize` returns
the size of the whole frame. -/
theorem frameSize_disagrees_cut :
    letI := RpcCodec.plain
    let frame := encode { term := 3, index := 7 } 1 2 5
    let buffer := frame.take (frame.length - 1)
    frame.length = 192 ∧ frameSize buffer kDefaultMaxMessageSize = .ok 192 ∧
      decode buffer kDefaultMaxMessageSize = .ok Codec.incomplete ∧
      ¬Agrees buffer kDefaultMaxMessageSize := by
  let _ := RpcCodec.plain
  intro frame buffer
  have hframe : frame.length = 192 := by decide +kernel
  have hsize : frameSize buffer kDefaultMaxMessageSize = .ok frame.length := by decide +kernel
  have hlength : 0 < frame.length ∧ buffer.length < frame.length := by decide +kernel
  refine ⟨hframe, hframe ▸ hsize, by decide +kernel, fun hagrees => ?_⟩
  obtain ⟨hle, -⟩ := (hagrees.complete _ hlength.1).mp hsize
  exact absurd hle (Nat.not_le.mpr hlength.2)

end Raftpp.Rpc.Codec
