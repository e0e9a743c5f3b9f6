import Raftpp.Core.Types
import Raftpp.Lib.Wire

/-!
# Frames of the RPC layer

`Codec` and `HandshakeCodec` of `rpc/codec.cc`.  A frame is a magic number, the length of a
header, the header and a payload whose size stands in the header.  `Decode` and `FrameSize`
parse the prefix and the header each for themselves: `Decode` copies the header into a
message of its own, which follows every pointer in it, while `FrameSize` only looks at the
root of the message.  A handshake is a magic number, a length and a message.

The checks come in the order of the source: limits before completeness.
-/

namespace Raftpp

/-- `CompressionType`. -/
inductive CompressionType
  | compressionNone
  | compressionLz4
  | compressionZstd
  deriving DecidableEq

/-- `RpcHeader`. -/
structure RpcHeader where
  version : ℕ := 0
  fromNode : ℕ := 0
  toNode : ℕ := 0
  requestId : ℕ := 0
  compression : CompressionType := .compressionNone
  payloadSize : ℕ := 0
  msgType : MessageType := .msgHup
  deriving DecidableEq

/-- `RpcHandshake`. -/
structure RpcHandshake where
  version : ℕ := 0
  nodeId : ℕ := 0
  clusterId : ℕ := 0
  deriving DecidableEq

/-- The error codes that the codecs return. -/
inductive RpcErrorCode
  | invalidMagic
  | messageTooLarge
  | headerParseFailed
  | payloadParseFailed
  | handshakeParseFailed
  deriving DecidableEq

/-- The encoder of the messages in a frame.  `headerRoot` reads the root of a header and
`headerCopies` says whether copying it from there does not throw. -/
class RpcCodec where
  headerBytes : RpcHeader → Bytes
  headerRoot : Bytes → Option RpcHeader
  headerCopies : Bytes → Bool
  message : Wire Message
  handshake : Wire RpcHandshake

/-- `capnp_util::toBytes` and `capnp_util::fromWords` on headers. -/
def RpcCodec.header [RpcCodec] : Wire RpcHeader where
  encode := RpcCodec.headerBytes
  decode bytes := if RpcCodec.headerCopies bytes then RpcCodec.headerRoot bytes else none

namespace Rpc

/-- `kPrefixSize` of both codecs. -/
def kPrefixSize : ℕ := 8

/-- `kVersion` of both codecs. -/
def kVersion : ℕ := 1

namespace Codec

/-- `Codec::kMagic`. -/
def kMagic : ℕ := 0x52415046

def kDefaultMaxMessageSize : ℕ := 64 * 1024 * 1024

/-- `DecodeResult`; header and message are null if the frame is incomplete. -/
structure DecodeResult where
  header : Option RpcHeader := none
  message : Option Message := none
  bytesConsumed : ℕ := 0
  deriving DecidableEq

/-- The result for a frame that is not complete. -/
def incomplete : DecodeResult := {}

variable [RpcCodec]

/-- The header that `Encode` writes in front of a message. -/
def headerOf (msg : Message) (fromNode toNode requestId : ℕ) : RpcHeader where
  version := kVersion
  fromNode := fromNode
  toNode := toNode
  requestId := requestId
  compression := .compressionNone
  payloadSize := (RpcCodec.message.encode msg).length % 2 ^ 32
  msgType := msg.msgType

/-- `Codec::Encode`. -/
def encode (msg : Message) (fromNode toNode requestId : ℕ) : Bytes :=
  leBytes 4 kMagic ++ (sized (RpcCodec.headerBytes (headerOf msg fromNode toNode requestId)) ++
    RpcCodec.message.encode msg)

/-- `Codec::FrameSize`. -/
def frameSize (buffer : Bytes) (maxSize : ℕ) : Except RpcErrorCode ℕ :=
  if buffer.length < kPrefixSize then .ok 0
  else if lengthAt buffer 0 ≠ kMagic then .error .invalidMagic
  else
    let headerLen := lengthAt buffer 4
    if maxSize < kPrefixSize ∨ headerLen > maxSize - kPrefixSize then .error .messageTooLarge
    else
      let minFrameSize := kPrefixSize + headerLen
      if buffer.length < minFrameSize then .ok 0
      else
        match RpcCodec.headerRoot (wholeWords (slice buffer kPrefixSize headerLen)) with
        | none => .error .headerParseFailed
        | some header =>
            if header.payloadSize > maxSize - minFrameSize then .error .messageTooLarge
            else .ok (minFrameSize + header.payloadSize)

/-- The part of `Codec::Decode` behind the header. -/
def decodePayload (buffer : Bytes) (maxSize headerEnd : ℕ) (header : RpcHeader) :
    Except RpcErrorCode DecodeResult :=
  if header.payloadSize > maxSize - headerEnd then .error .messageTooLarge
  else
    let totalSize := headerEnd + header.payloadSize
    if buffer.length < totalSize then .ok incomplete
    else
      match RpcCodec.message.decode (wholeWords (slice buffer headerEnd header.payloadSize)) with
      | none => .error .payloadParseFailed
      | some msg => .ok { header := some header, message := some msg, bytesConsumed := totalSize }

/-- `Codec::Decode`. -/
def decode (buffer : Bytes) (maxSize : ℕ) : Except RpcErrorCode DecodeResult :=
  if buffer.length < kPrefixSize then .ok incomplete
  else if lengthAt buffer 0 ≠ kMagic then .error .invalidMagic
  else
    let headerLen := lengthAt buffer 4
    if maxSize < kPrefixSize ∨ headerLen > maxSize - kPrefixSize then .error .messageTooLarge
    else
      let headerEnd := kPrefixSize + headerLen
      if buffer.length < headerEnd then .ok incomplete
      else
        match RpcCodec.header.decode (wholeWords (slice buffer kPrefixSize headerLen)) with
        | none => .error .headerParseFailed
        | some header => decodePayload buffer maxSize headerEnd header

end Codec

namespace HandshakeCodec

/-- `HandshakeCodec::kMagic`. -/
def kMagic : ℕ := 0x52415048

variable [RpcCodec]

/-- `HandshakeCodec::Encode`. -/
def encode (hs : RpcHandshake) : Bytes :=
  leBytes 4 kMagic ++ sized (RpcCodec.handshake.encode hs)

/-- `HandshakeCodec::Decode`: the handshake is null if it is incomplete. -/
def decode (buffer : Bytes) (maxSize : ℕ) : Except RpcErrorCode (Option RpcHandshake × ℕ) :=
  if buffer.length < kPrefixSize then .ok (none, 0)
  else if lengthAt buffer 0 ≠ kMagic then .error .invalidMagic
  else
    let length := lengthAt buffer 4
    if maxSize < kPrefixSize ∨ length > maxSize - kPrefixSize then .error .messageTooLarge
    else
      let totalSize := kPrefixSize + length
      if buffer.length < totalSize then .ok (none, 0)
      else
        match RpcCodec.handshake.decode (wholeWords (slice buffer kPrefixSize length)) with
        | none => .error .handshakeParseFailed
        | some hs => .ok (some hs, totalSize)

end HandshakeCodec

end Rpc

/-- A codec for runs on fixed inputs: of a message it keeps its term and its index.  Headers and
messages have the words of Cap'n Proto: the segment table, the pointer to the root and the root. -/
@[reducible]
def RpcCodec.plain : RpcCodec where
  headerBytes := (Wire.ofNumbers (fun h : RpcHeader =>
    [6 * 2 ^ 32, 5 * 2 ^ 32, h.version, h.fromNode, h.toNode, h.requestId, h.payloadSize])
    fun _ => none).encode
  headerRoot bytes :=
    let fields := numbers bytes
    some { version := fields.getD 2 0, fromNode := fields.getD 3 0, toNode := fields.getD 4 0
           requestId := fields.getD 5 0, payloadSize := fields.getD 6 0 }
  headerCopies _ := true
  message := .ofNumbers (fun m =>
    [15 * 2 ^ 32, 11 * 2 ^ 32 + 3 * 2 ^ 48, 0, 0, 0, m.term, 0, m.index] ++ List.replicate 8 0)
    fun fields => some { term := fields.getD 5 0, index := fields.getD 7 0 }
  handshake := .ofNumbers (fun hs => [hs.version, hs.nodeId, hs.clusterId]) fun fields =>
    some { version := fields.getD 0 0, nodeId := fields.getD 1 0, clusterId := fields.getD 2 0 }

end Raftpp
