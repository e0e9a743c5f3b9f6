import Mathlib.Algebra.Order.Ring.Nat
import Mathlib.Data.List.Basic
import Mathlib.Data.Int.Basic

/-!
# Wire types of the Raft core

The records of `raftpp.capnp` and the error type of `error.h`, as plain Lean
data.  A Cap'n Proto field that is never set has its default (`0`, `false` or
the empty list), so every field below has that default and a message is written
by naming the fields the source sets.

`uint64_t` ids, terms and indexes are natural numbers.  Byte strings are lists
of bytes.  The Cap'n Proto encoder and the CRC library are not part of the
repository; what the core reads of them is collected in the class `Codec`.
-/

namespace Raftpp

/-- A byte string (`std::string`, `::capnp::Data`). -/
abbrev Bytes := List UInt8

/-- `kInvalidIndex`. -/
def kInvalidIndex : ℕ := 0

/-- `kInvalidId`. -/
def kInvalidId : ℕ := 0

/-- `kNoLimit`, also the largest value of a `uint64_t`. -/
def kNoLimit : ℕ := 2 ^ 64 - 1

inductive EntryType
  | entryNormal
  | entryConfChange
  | entryConfChangeV2
  deriving DecidableEq

/-- A log entry. -/
structure Entry where
  entryType : EntryType := .entryNormal
  term : ℕ := 0
  index : ℕ := 0
  data : Bytes := []
  context : Bytes := []
  checksum : ℕ := 0
  deriving DecidableEq

structure ConfState where
  voters : List ℕ := []
  learners : List ℕ := []
  votersOutgoing : List ℕ := []
  learnersNext : List ℕ := []
  autoLeave : Bool := false
  deriving DecidableEq

structure SnapshotMetadata where
  confState : ConfState := {}
  index : ℕ := 0
  term : ℕ := 0
  deriving DecidableEq

structure Snapshot where
  data : Bytes := []
  metadata : SnapshotMetadata := {}
  deriving DecidableEq

inductive MessageType
  | msgHup
  | msgBeat
  | msgPropose
  | msgAppend
  | msgAppendResponse
  | msgRequestVote
  | msgRequestVoteResponse
  | msgSnapshot
  | msgHeartbeat
  | msgHeartbeatResponse
  | msgUnreachable
  | msgSnapStatus
  | msgCheckQuorum
  | msgTransferLeader
  | msgTimeoutNow
  | msgReadIndex
  | msgReadIndexResp
  | msgRequestPreVote
  | msgRequestPreVoteResponse
  deriving DecidableEq

/-- The requests and responses of elections and pre-elections. -/
def MessageType.isVote : MessageType → Bool
  | .msgRequestVote | .msgRequestVoteResponse | .msgRequestPreVote
  | .msgRequestPreVoteResponse => true
  | _ => false

/-- A Raft message.  `sender` and `receiver` are the fields `from` and `to` of the schema. -/
structure Message where
  msgType : MessageType := .msgHup
  receiver : ℕ := 0
  sender : ℕ := 0
  term : ℕ := 0
  logTerm : ℕ := 0
  index : ℕ := 0
  entries : List Entry := []
  commit : ℕ := 0
  commitTerm : ℕ := 0
  snapshot : Snapshot := {}
  requestSnapshot : ℕ := 0
  reject : Bool := false
  rejectHint : ℕ := 0
  context : Bytes := []
  priority : ℤ := 0
  deriving DecidableEq

structure HardState where
  term : ℕ := 0
  vote : ℕ := 0
  commit : ℕ := 0
  deriving DecidableEq

inductive ConfChangeTransition
  | auto
  | implicit
  | explicit
  deriving DecidableEq

inductive ConfChangeType
  | addNode
  | removeNode
  | addLearnerNode
  deriving DecidableEq

structure ConfChangeSingle where
  changeType : ConfChangeType := .addNode
  nodeId : ℕ := 0
  deriving DecidableEq

structure ConfChangeV2 where
  transition : ConfChangeTransition := .auto
  changes : List ConfChangeSingle := []
  context : Bytes := []
  deriving DecidableEq

/-! ## Errors -/

/-- The storage error codes that the modelled functions return. -/
inductive StorageErrorCode
  | compacted
  | unavailable
  | logTemporarilyUnavailable
  | snapshotOutOfDate
  | snapshotTemporarilyUnavailable
  | metadataFileTooSmall
  | invalidMetadataHeader
  | metadataCrcMismatch
  | hardStateParseError
  | confStateParseError
  | peerAddressBookParseError
  | currentSegmentNotFound
  | segmentNotOpen
  | invalidSegmentHeader
  | corruptEntryRecord
  | entryParseError
  | zeroEntriesInSlice
  deriving DecidableEq

/-- The Raft error codes that the modelled functions return. -/
inductive RaftErrorCode
  | stepLocalMsg
  | stepPeerNotFound
  | proposalDropped
  | requestSnapshotDropped
  | checksumMismatch
  | confChangeParseError
  deriving DecidableEq

inductive ConfigErrorCode
  | invalidNodeId
  | heartbeatTickTooSmall
  | electionTickTooSmall
  | maxInflightMessagesTooSmall
  | leaseBasedReadRequiresCheckQuorum
  | listenAddressEmpty
  | dataDirectoryEmpty
  | nodeIdNotInInitialPeers
  deriving DecidableEq

inductive ConfChangeErrorCode
  | learnersNextMustBeEmpty
  | autoLeaveMustBeFalse
  | configAlreadyJoint
  | zeroVoterConfigJoint
  | leaveNonJointConfig
  | removedAllVoters
  | cannotApplySimpleInJointConfig
  | multipleVotersChangedWithoutJoint
  deriving DecidableEq

/-- `RaftError`: the alternatives of its variant that the modelled functions build. -/
inductive RaftError
  | storage (code : StorageErrorCode)
  | storageOther (message : String)
  | raft (code : RaftErrorCode)
  | invalidConfig (message : String)
  | confChangeError (message : String)
  | fatal (message : String)
  | config (code : ConfigErrorCode)
  | confChange (code : ConfChangeErrorCode)
  deriving DecidableEq

/-- `Result<T>`. -/
abbrev Result (α : Type*) := Except RaftError α

/-- What holds of a pair that may be missing is found out by looking at it. -/
instance decidableExistsPair {α β : Type*} {o : Option (α × β)} {P : α → β → Prop}
    [∀ a b, Decidable (P a b)] : Decidable (∃ a b, o = some (a, b) ∧ P a b) :=
  decidable_of_iff (∃ x, o = some x ∧ P x.1 x.2) Prod.exists

/-- A `do` block that has not failed, taken apart at its first step. -/
theorem of_bind {α β : Type} {x : Option α} {f : α → Option β} {b : β}
    (h : (x >>= f) = some b) : ∃ a, x = some a ∧ f a = some b :=
  Option.bind_eq_some_iff.mp h

theorem Result.bind_eq_ok {α β : Type*} {x : Result α} {f : α → Result β} {b : β} :
    x.bind f = .ok b ↔ ∃ a, x = .ok a ∧ f a = .ok b := by
  cases x with
  | error e => simp [Except.bind]
  | ok a => simp [Except.bind]

/-! ## External libraries -/

/-- What the core takes from Cap'n Proto and from the CRC library: the encoded
size of an entry, the encoding of a configuration change inside an entry, and
the checksum of bytes. -/
class Codec where
  entrySize : Entry → ℕ
  confChangeV2Bytes : ConfChangeV2 → Bytes
  confChangeV2OfBytes : Bytes → Option ConfChangeV2
  crc32c : Bytes → ℕ

/-- An entry type as the four bytes of its number. -/
def EntryType.bytes : EntryType → Bytes
  | .entryNormal => [0, 0, 0, 0]
  | .entryConfChange => [1, 0, 0, 0]
  | .entryConfChangeV2 => [2, 0, 0, 0]

/-- `ComputeEntryChecksum`: over the type, the context and the data of an entry. -/
def Codec.entryChecksum [Codec] (e : Entry) : ℕ :=
  Codec.crc32c (e.entryType.bytes ++ e.context ++ e.data)

/-- A codec for runs on fixed inputs. -/
@[reducible]
def Codec.plain : Codec where
  entrySize e := e.data.length
  confChangeV2Bytes _ := []
  confChangeV2OfBytes _ := none
  crc32c _ := 0

end Raftpp
