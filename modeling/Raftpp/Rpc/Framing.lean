import Raftpp.Rpc.Codec

/-!
# Frames in a stream

What `Encode` writes is read back by `Decode`, whatever follows it in the buffer, and no
beginning of a frame is taken for anything but an incomplete frame.  A stream of frames is
therefore decoded frame by frame.  The same holds for handshakes.

A slice of a frame is also a slice of every buffer that begins with the frame, and a slice
of a beginning of the frame as long as it lies inside; both directions read the two lengths
of a frame through this.
-/

namespace Raftpp.Rpc

open List
open RpcCodec (headerBytes)
open HandshakeCodec (encode)

variable [RpcCodec] {maxSize : ℕ}

/-! ## Frames -/

namespace Codec

/-- The header of a buffer is complete, and within the limit. -/
structure Headed (buffer : Bytes) (maxSize : ℕ) : Prop where
  magic : lengthAt buffer 0 = kMagic
  limit : kPrefixSize + lengthAt buffer 4 ≤ maxSize
  complete : kPrefixSize + lengthAt buffer 4 ≤ buffer.length

/-- The words of the header. -/
def headerWords (buffer : Bytes) : Bytes :=
  wholeWords (slice buffer kPrefixSize (lengthAt buffer 4))

/-- The end of the header. -/
def headerEnd (buffer : Bytes) : ℕ := kPrefixSize + lengthAt buffer 4

section Decode

variable {buffer : Bytes} {header : RpcHeader}

omit [RpcCodec] in
theorem Headed.checks (h : Headed buffer maxSize) :
    ¬buffer.length < kPrefixSize ∧
      ¬(maxSize < kPrefixSize ∨ lengthAt buffer 4 > maxSize - kPrefixSize) ∧
      ¬buffer.length < kPrefixSize + lengthAt buffer 4 := by
  have hlimit := h.limit
  have hcomplete := h.complete
  omega

theorem decode_headed (h : Headed buffer maxSize)
    (hheader : RpcCodec.header.decode (headerWords buffer) = some header) :
    decode buffer maxSize = decodePayload buffer maxSize (headerEnd buffer) header := by
  obtain ⟨hhead, hlimit, hcomplete⟩ := h.checks
  have hdecode : RpcCodec.header.decode
      (wholeWords (slice buffer kPrefixSize (lengthAt buffer 4))) = some header := hheader
  unfold decode
  simp only [if_neg hhead, if_neg (not_not.mpr h.magic), if_neg hlimit, if_neg hcomplete, hdecode]
  rfl

/-- A prefix within the limit, but not yet the whole header. -/
theorem decode_short (hmagic : kPrefixSize ≤ buffer.length → lengthAt buffer 0 = kMagic)
    (hlimit : kPrefixSize ≤ buffer.length → kPrefixSize + lengthAt buffer 4 ≤ maxSize)
    (hshort : kPrefixSize ≤ buffer.length → buffer.length < kPrefixSize + lengthAt buffer 4) :
    decode buffer maxSize = .ok incomplete := by
  unfold decode
  by_cases hhead : buffer.length < kPrefixSize
  · exact if_pos hhead
  · have hlarge : ¬(maxSize < kPrefixSize ∨ lengthAt buffer 4 > maxSize - kPrefixSize) := by
      have := hlimit (by omega)
      omega
    have hmissing := hshort (by omega)
    simp only [if_neg hhead, if_neg (not_not.mpr (hmagic (by omega))), if_neg hlarge,
      if_pos hmissing]

end Decode

end Codec

/-- A message with the fields of its header. -/
structure Envelope where
  message : Message
  fromNode : ℕ := 0
  toNode : ℕ := 0
  requestId : ℕ := 0

namespace Envelope

open Rpc.Codec

variable {e : Envelope}

def header (e : Envelope) : RpcHeader := headerOf e.message e.fromNode e.toNode e.requestId

def frame (e : Envelope) : Bytes := encode e.message e.fromNode e.toNode e.requestId

/-- What the frame is decoded to. -/
def result (e : Envelope) : DecodeResult where
  header := some e.header
  message := some e.message
  bytesConsumed := e.frame.length

/-- Decoding inverts encoding for the header and the message, their sizes are below 2³², and the
frame is within the limit. -/
structure Fits (maxSize : ℕ) (e : Envelope) : Prop where
  header : RpcCodec.header.Inverts e.header
  headerSize : (headerBytes e.header).length < 2 ^ 32
  message : RpcCodec.message.Inverts e.message
  messageSize : (RpcCodec.message.encode e.message).length < 2 ^ 32
  limit : e.frame.length ≤ maxSize

theorem frame_eq (e : Envelope) : e.frame = leBytes 4 kMagic ++
    (sized (headerBytes e.header) ++ RpcCodec.message.encode e.message) := rfl

theorem frame_length (e : Envelope) : e.frame.length =
    kPrefixSize + (headerBytes e.header).length +
      (RpcCodec.message.encode e.message).length := by
  rw [frame_eq, length_append, length_append, leBytes_length, sized_length, kPrefixSize]
  omega

theorem frame_magic (e : Envelope) : lengthAt e.frame 0 = kMagic := by
  rw [frame_eq]
  exact lengthAt_zero (by decide) _

theorem frame_headerLen (h : (headerBytes e.header).length < 2 ^ 32) :
    lengthAt e.frame 4 = (headerBytes e.header).length :=
  lengthAt_sized (leBytes_length 4 kMagic) h _

theorem frame_header (e : Envelope) :
    slice e.frame kPrefixSize (headerBytes e.header).length =
      headerBytes e.header :=
  slice_sized (by rw [leBytes_length]; rfl) rfl _

theorem frame_message (e : Envelope) :
    slice e.frame (kPrefixSize + (headerBytes e.header).length)
      (RpcCodec.message.encode e.message).length = RpcCodec.message.encode e.message := by
  have hfront : (leBytes 4 kMagic ++ sized (headerBytes e.header)).length =
      kPrefixSize + (headerBytes e.header).length := by
    rw [length_append, leBytes_length, sized_length, kPrefixSize]
    omega
  have happend := slice_append hfront (rfl : (RpcCodec.message.encode e.message).length = _) []
  rwa [append_nil, append_assoc] at happend

theorem payloadSize_eq (h : e.Fits maxSize) :
    e.header.payloadSize = (RpcCodec.message.encode e.message).length :=
  Nat.mod_eq_of_lt h.messageSize

/-- A buffer that has the header of a frame, with the whole frame or a part of it. -/
theorem decode_withHeader (h : e.Fits maxSize) {buffer : Bytes}
    (hcomplete : kPrefixSize + (headerBytes e.header).length ≤ buffer.length)
    (hmagic : lengthAt buffer 0 = lengthAt e.frame 0)
    (hlength : lengthAt buffer 4 = lengthAt e.frame 4)
    (hheader : slice buffer kPrefixSize (headerBytes e.header).length =
      slice e.frame kPrefixSize (headerBytes e.header).length) :
    decode buffer maxSize = decodePayload buffer maxSize
      (kPrefixSize + (headerBytes e.header).length) e.header := by
  have hlimit := h.limit
  have hframe := e.frame_length
  rw [frame_magic] at hmagic
  rw [frame_headerLen h.headerSize] at hlength
  have hheaded : Headed buffer maxSize := ⟨hmagic, by rw [hlength]; omega, by rwa [hlength]⟩
  have hdecode : RpcCodec.header.decode (headerWords buffer) = some e.header := by
    rw [headerWords, hlength, hheader, frame_header,
      wholeWords_of_dvd (show 8 ∣ (headerBytes e.header).length from h.header.words)]
    exact h.header.decode_encode
  rw [decode_headed hheaded hdecode, headerEnd, hlength]

/-- A frame is decoded, whatever follows it. -/
theorem decode_frame (h : e.Fits maxSize) (rest : Bytes) :
    decode (e.frame ++ rest) maxSize = .ok e.result := by
  have hlimit := h.limit
  have hframe := e.frame_length
  have hfour : kPrefixSize = 8 := rfl
  have hmessage : RpcCodec.message.decode (wholeWords (slice (e.frame ++ rest)
      (kPrefixSize + (headerBytes e.header).length)
      (RpcCodec.message.encode e.message).length)) = some e.message := by
    rw [slice_append_left (by omega), frame_message, wholeWords_of_dvd h.message.words,
      h.message.decode_encode]
  rw [decode_withHeader h (by rw [length_append]; omega)
    (lengthAt_append_left (by omega) rest) (lengthAt_append_left (by omega) rest)
    (slice_append_left (by omega) rest)]
  have hlarge : ¬(RpcCodec.message.encode e.message).length >
      maxSize - (kPrefixSize + (headerBytes e.header).length) := by
    omega
  have hwhole : ¬(e.frame ++ rest).length < kPrefixSize +
      (headerBytes e.header).length + (RpcCodec.message.encode e.message).length := by
    rw [length_append]
    omega
  unfold decodePayload
  rw [payloadSize_eq h, if_neg hlarge]
  dsimp only
  rw [if_neg hwhole, hmessage, result, hframe]

/-- A beginning of a frame is incomplete. -/
theorem decode_part (h : e.Fits maxSize) {part rest : Bytes} (hframe : part ++ rest = e.frame)
    (hrest : rest ≠ []) : decode part maxSize = .ok incomplete := by
  have hlimit := h.limit
  have hlength := e.frame_length
  have hfour : kPrefixSize = 8 := rfl
  have hcut : part.length < e.frame.length := by
    rw [← hframe, length_append]
    have := length_pos_iff.mpr hrest
    omega
  have hmagic : kPrefixSize ≤ part.length → lengthAt part 0 = lengthAt e.frame 0 := by
    intro hle
    rw [← hframe, lengthAt_append_left (by omega)]
  have hlen : kPrefixSize ≤ part.length → lengthAt part 4 = lengthAt e.frame 4 := by
    intro hle
    rw [← hframe, lengthAt_append_left (by omega)]
  by_cases hheader : kPrefixSize + (headerBytes e.header).length ≤ part.length
  · have hslice : slice part kPrefixSize (headerBytes e.header).length =
        slice e.frame kPrefixSize (headerBytes e.header).length := by
      rw [← hframe, slice_append_left (by omega)]
    rw [decode_withHeader h hheader (hmagic (by omega)) (hlen (by omega)) hslice]
    have hlarge : ¬e.header.payloadSize >
        maxSize - (kPrefixSize + (headerBytes e.header).length) := by
      rw [payloadSize_eq h]
      omega
    have hmissing : part.length <
        kPrefixSize + (headerBytes e.header).length + e.header.payloadSize := by
      rw [payloadSize_eq h]
      omega
    unfold decodePayload
    simp only [if_neg hlarge, if_pos hmissing]
  · refine decode_short (fun hle => ?_) (fun hle => ?_) fun hle => ?_
    · rw [hmagic hle, frame_magic]
    · rw [hlen hle, frame_headerLen h.headerSize]
      omega
    · rw [hlen hle, frame_headerLen h.headerSize]
      omega

end Envelope

/-! ## Handshakes -/

namespace HandshakeCodec

variable {hs : RpcHandshake}

/-- Decoding inverts encoding for the handshake, which is below 2³² bytes and within the limit. -/
structure Fits (maxSize : ℕ) (hs : RpcHandshake) : Prop where
  handshake : RpcCodec.handshake.Inverts hs
  size : (RpcCodec.handshake.encode hs).length < 2 ^ 32
  limit : (encode hs).length ≤ maxSize

theorem encode_length (hs : RpcHandshake) :
    (encode hs).length = kPrefixSize + (RpcCodec.handshake.encode hs).length := by
  rw [encode, length_append, leBytes_length, sized_length, kPrefixSize]
  omega

theorem encode_magic (hs : RpcHandshake) : lengthAt (encode hs) 0 = kMagic := by
  rw [encode]
  exact lengthAt_zero (by decide) _

theorem encode_size (h : (RpcCodec.handshake.encode hs).length < 2 ^ 32) :
    lengthAt (encode hs) 4 = (RpcCodec.handshake.encode hs).length := by
  have hsized := lengthAt_sized (leBytes_length 4 kMagic) h []
  rwa [append_nil] at hsized

theorem encode_payload (hs : RpcHandshake) :
    slice (encode hs) kPrefixSize (RpcCodec.handshake.encode hs).length =
      RpcCodec.handshake.encode hs := by
  have hsized := slice_sized
    (show (leBytes 4 kMagic).length + 4 = kPrefixSize by rw [leBytes_length]; rfl)
    (rfl : (RpcCodec.handshake.encode hs).length = _) []
  rwa [append_nil] at hsized

/-- A handshake is decoded, whatever follows it. -/
theorem decode_encode (h : Fits maxSize hs) (rest : Bytes) :
    decode (encode hs ++ rest) maxSize = .ok (some hs, (encode hs).length) := by
  have hlimit := h.limit
  have hlength := encode_length hs
  have height : kPrefixSize = 8 := rfl
  have hhead : ¬(encode hs ++ rest).length < kPrefixSize := by
    rw [length_append]
    omega
  have hmagic : ¬lengthAt (encode hs ++ rest) 0 ≠ kMagic := by
    rw [lengthAt_append_left (by omega), encode_magic]
    exact not_not.mpr rfl
  have hsize : lengthAt (encode hs ++ rest) 4 = (RpcCodec.handshake.encode hs).length := by
    rw [lengthAt_append_left (by omega), encode_size h.size]
  have hlarge : ¬(maxSize < kPrefixSize ∨
      (RpcCodec.handshake.encode hs).length > maxSize - kPrefixSize) := by
    omega
  have hwhole : ¬(encode hs ++ rest).length <
      kPrefixSize + (RpcCodec.handshake.encode hs).length := by
    rw [length_append]
    omega
  have hpayload : RpcCodec.handshake.decode (wholeWords (slice (encode hs ++ rest) kPrefixSize
      (RpcCodec.handshake.encode hs).length)) = some hs := by
    rw [slice_append_left (by omega), encode_payload, wholeWords_of_dvd h.handshake.words,
      h.handshake.decode_encode]
  unfold decode
  simp only [if_neg hhead, if_neg hmagic, hsize, if_neg hlarge, if_neg hwhole, hpayload]
  rw [hlength]

/-- A beginning of a handshake is incomplete. -/
theorem decode_part (h : Fits maxSize hs) {part rest : Bytes} (hframe : part ++ rest = encode hs)
    (hrest : rest ≠ []) : decode part maxSize = .ok (none, 0) := by
  have hlimit := h.limit
  have hlength := encode_length hs
  have height : kPrefixSize = 8 := rfl
  have hcut : part.length < (encode hs).length := by
    rw [← hframe, length_append]
    have := length_pos_iff.mpr hrest
    omega
  unfold decode
  by_cases hhead : part.length < kPrefixSize
  · exact if_pos hhead
  have hmagic : ¬lengthAt part 0 ≠ kMagic := by
    rw [← lengthAt_append_left (by omega) rest, hframe, encode_magic]
    exact not_not.mpr rfl
  have hsize : lengthAt part 4 = (RpcCodec.handshake.encode hs).length := by
    rw [← lengthAt_append_left (by omega) rest, hframe, encode_size h.size]
  have hlarge : ¬(maxSize < kPrefixSize ∨
      (RpcCodec.handshake.encode hs).length > maxSize - kPrefixSize) := by
    omega
  have hmissing : part.length < kPrefixSize + (RpcCodec.handshake.encode hs).length := by
    omega
  simp only [if_neg hhead, if_neg hmagic, hsize, if_neg hlarge, if_pos hmissing]

end HandshakeCodec

/-! ## Streams -/

/-- Frames are decoded with the bytes they have consumed. -/
def frameStep (maxSize : ℕ) (buffer : Bytes) : Except RpcErrorCode (Codec.DecodeResult × ℕ) :=
  (Codec.decode buffer maxSize).map fun r => (r, r.bytesConsumed)

/-- Handshakes are decoded with the bytes they have consumed. -/
def handshakeStep (maxSize : ℕ) (buffer : Bytes) :
    Except RpcErrorCode ((Option RpcHandshake × ℕ) × ℕ) :=
  (HandshakeCodec.decode buffer maxSize).map fun r => (r, r.2)

theorem decodeStream_envelopes {envelopes : List Envelope}
    (h : ∀ e ∈ envelopes, e.Fits maxSize) {n : ℕ} (hn : envelopes.length ≤ n) :
    decodeStream (frameStep maxSize) n (envelopes.flatMap Envelope.frame) =
      .ok (envelopes.map Envelope.result, []) := by
  have hframe : ∀ e ∈ envelopes, ∀ rest,
      frameStep maxSize (e.frame ++ rest) = .ok (e.result, e.frame.length) := by
    intro e he rest
    rw [frameStep, Envelope.decode_frame (h e he)]
    rfl
  have hpos : ∀ e ∈ envelopes, 0 < e.frame.length := by
    intro e _
    rw [Envelope.frame_length, kPrefixSize]
    omega
  have hend : ∃ r, frameStep maxSize [] = .ok (r, 0) := ⟨Codec.incomplete, rfl⟩
  have hstream := decodeStream_frames hframe hpos hend hn
  rwa [append_nil] at hstream

theorem decodeStream_handshakes {handshakes : List RpcHandshake}
    (h : ∀ hs ∈ handshakes, HandshakeCodec.Fits maxSize hs) {n : ℕ}
    (hn : handshakes.length ≤ n) :
    decodeStream (handshakeStep maxSize) n (handshakes.flatMap encode) =
      .ok (handshakes.map fun hs => (some hs, (encode hs).length), []) := by
  have hframe : ∀ hs ∈ handshakes, ∀ rest,
      handshakeStep maxSize (encode hs ++ rest) =
        .ok ((some hs, (encode hs).length), (encode hs).length) := by
    intro hs hmem rest
    rw [handshakeStep, HandshakeCodec.decode_encode (h hs hmem)]
    rfl
  have hpos : ∀ hs ∈ handshakes, 0 < (encode hs).length := by
    intro hs _
    rw [HandshakeCodec.encode_length, kPrefixSize]
    omega
  have hend : ∃ r, handshakeStep maxSize [] = .ok (r, 0) := ⟨(none, 0), rfl⟩
  have hstream := decodeStream_frames hframe hpos hend hn
  rwa [append_nil] at hstream

/-- Frames and handshakes are decoded from a stream one after the other, each with its length, and
every strict beginning of one of them is incomplete. -/
theorem frames_roundTrip (envelopes : List Envelope) (handshakes : List RpcHandshake)
    (h : ∀ e ∈ envelopes, e.Fits maxSize)
    (hhandshakes : ∀ hs ∈ handshakes, HandshakeCodec.Fits maxSize hs) :
    (∀ n, envelopes.length ≤ n →
      decodeStream (frameStep maxSize) n (envelopes.flatMap Envelope.frame) =
        .ok (envelopes.map Envelope.result, [])) ∧
    (∀ e ∈ envelopes, ∀ part rest, part ++ rest = e.frame → rest ≠ [] →
      Codec.decode part maxSize = .ok Codec.incomplete) ∧
    (∀ n, handshakes.length ≤ n →
      decodeStream (handshakeStep maxSize) n (handshakes.flatMap encode) =
        .ok (handshakes.map fun hs => (some hs, (encode hs).length), [])) ∧
    ∀ hs ∈ handshakes, ∀ part rest, part ++ rest = encode hs → rest ≠ [] →
      HandshakeCodec.decode part maxSize = .ok (none, 0) :=
  ⟨fun _ hn => decodeStream_envelopes h hn,
    fun e he _ _ hframe hrest => Envelope.decode_part (h e he) hframe hrest,
    fun _ hn => decodeStream_handshakes hhandshakes hn,
    fun hs hmem _ _ hframe hrest =>
      HandshakeCodec.decode_part (hhandshakes hs hmem) hframe hrest⟩

omit [RpcCodec] in
/-- Two messages in one stream, and a handshake. -/
theorem frames_roundTrip_two :
    letI := RpcCodec.plain
    let envelopes : List Envelope :=
      [{ message := { term := 3, index := 7 }, fromNode := 1, toNode := 2, requestId := 5 },
        { message := { term := 4 }, fromNode := 2, toNode := 1 }]
    let handshake : RpcHandshake := { version := kVersion, nodeId := 1 }
    decodeStream (frameStep Codec.kDefaultMaxMessageSize) 2 (envelopes.flatMap Envelope.frame) =
        .ok (envelopes.map Envelope.result, []) ∧
      decodeStream (handshakeStep Codec.kDefaultMaxMessageSize) 1
          (encode handshake) =
        .ok ([(some handshake, (encode handshake).length)], []) := by
  let _ := RpcCodec.plain
  intro envelopes handshake
  have hfits : ∀ e ∈ envelopes, e.Fits Codec.kDefaultMaxMessageSize := by
    intro e he
    rcases mem_cons.mp he with rfl | he
    · exact ⟨⟨by decide +kernel, by decide +kernel, by decide +kernel⟩, by decide +kernel,
        ⟨by decide +kernel, by decide +kernel, by decide +kernel⟩, by decide +kernel,
        by decide +kernel⟩
    · cases mem_singleton.mp he
      exact ⟨⟨by decide +kernel, by decide +kernel, by decide +kernel⟩, by decide +kernel,
        ⟨by decide +kernel, by decide +kernel, by decide +kernel⟩, by decide +kernel,
        by decide +kernel⟩
  have hhandshake : ∀ hs ∈ [handshake],
      HandshakeCodec.Fits Codec.kDefaultMaxMessageSize hs := by
    intro hs hmem
    cases mem_singleton.mp hmem
    exact ⟨⟨by decide +kernel, by decide +kernel, by decide +kernel⟩, by decide +kernel,
      by decide +kernel⟩
  obtain ⟨hframes, -, hhandshakes, -⟩ :=
    frames_roundTrip envelopes [handshake] hfits hhandshake
  refine ⟨hframes 2 le_rfl, ?_⟩
  have hstream := hhandshakes 1 le_rfl
  rwa [flatMap_cons, flatMap_nil, append_nil] at hstream

end Raftpp.Rpc
