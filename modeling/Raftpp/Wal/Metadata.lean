import Raftpp.Lib.Wire
import Raftpp.Wal.Wal

/-!
# The metadata file

`MetadataStore::Serialize` and `Deserialize`.  The file is a header with a checksum, three
numbers, and behind their lengths the hard state, the configuration and the peer addresses.
A file of the older layout ends after the configuration.

The decoder copies a hard state or a configuration into a buffer of whole words, whose size
it computes in 32 bits: `(length + 7) / 8` words.  For the last seven lengths below 2³² the
sum wraps and the buffer is empty.  The model has a halt of its own for a read past the end
of the input, which never happens, and for a copy past the end of the buffer, which happens
for exactly the byte strings described by `Wraps`.  None of them gets there: `Load` passes
on what one `read` of the file has returned, which is less than half of that.
-/

namespace Raftpp

open List

/-- The encoder of the messages in the file. -/
class MetadataCodec extends WalCodec where
  confState : Wire ConfState
  peerAddressBook : Wire (List PeerAddress)

/-- The encoder of hard states, which the records share. -/
def WalCodec.hardState [WalCodec] : Wire HardState where
  encode := WalCodec.hardStateBytes
  decode := WalCodec.hardStateOfBytes

/-- A codec for runs on fixed inputs: of a configuration it keeps the voters, of peers their
ids. -/
@[reducible]
def MetadataCodec.plain : MetadataCodec where
  toWalCodec := WalCodec.plain
  confState := .ofNumbers ConfState.voters fun voters => some { voters }
  peerAddressBook := .ofNumbers (List.map PeerAddress.id) fun ids =>
    some (ids.map fun id => { id })

/-- `WALMetadata` as it is handed to `Serialize`: a message may be absent. -/
structure StoredMetadata where
  hardState : Option HardState := none
  confState : Option ConfState := none
  peerAddresses : List PeerAddress := []
  firstIndex : ℕ := 1
  snapshotIndex : ℕ := 0
  snapshotTerm : ℕ := 0
  deriving DecidableEq

/-- What is read back: absent messages are defaults. -/
def StoredMetadata.withDefaults (m : StoredMetadata) : WalMetadata where
  hardState := m.hardState.getD {}
  confState := m.confState.getD {}
  peerAddresses := m.peerAddresses
  firstIndex := m.firstIndex
  snapshotIndex := m.snapshotIndex
  snapshotTerm := m.snapshotTerm

/-- `kMetadataMagic`. -/
def kMetadataMagic : ℕ := 0x4D455441

/-- `MetadataHeader`. -/
structure MetadataHeader where
  magic : ℕ := kMetadataMagic
  version : ℕ := kFormatVersion
  crc : ℕ := 0
  reserved : ℕ := 0

namespace MetadataHeader

def size : ℕ := 16

/-- The offset of what the checksum covers. -/
def crcOffset : ℕ := 12

def serialize (h : MetadataHeader) : Bytes :=
  leBytes 4 h.magic ++ (leBytes 4 h.version ++ (leBytes 4 h.crc ++ leBytes 4 h.reserved))

def deserialize (bytes : Bytes) : MetadataHeader where
  magic := leNat (bytes.take 4)
  version := leNat ((bytes.drop 4).take 4)
  crc := leNat ((bytes.drop 8).take 4)
  reserved := leNat ((bytes.drop 12).take 4)

/-- `IsValid`. -/
def isValid (h : MetadataHeader) : Bool :=
  decide (h.magic = kMetadataMagic) && decide (h.version = kFormatVersion)

@[simp]
theorem serialize_length (h : MetadataHeader) : h.serialize.length = size := by
  simp [serialize, size]

/-- Reading back the header of a file that the store has written. -/
theorem deserialize_serialize {crc : ℕ} (h : crc < 2 ^ 32) :
    deserialize (serialize { crc }) = { crc } := by
  have hmagic : leNat (leBytes 4 kMetadataMagic) = kMetadataMagic :=
    leNat_leBytes_of_lt (by decide)
  have hversion : leNat (leBytes 4 kFormatVersion) = kFormatVersion :=
    leNat_leBytes_of_lt (by decide)
  have hcrc : leNat (leBytes 4 crc) = crc := leNat_leBytes_of_lt h
  have hreserved : leNat ((leBytes 4 0).take 4) = 0 := by decide
  simp (disch := omega) only [deserialize, serialize, drop_leBytes_append, take_leBytes_append,
    Nat.reduceSub, drop_zero, hmagic, hversion, hcrc, hreserved]

end MetadataHeader

namespace MetadataStore

variable {data : Bytes} {offset : ℕ}

/-- The size of a `MetadataContent`. -/
def contentSize : ℕ := 24

/-- Where the lengths begin. -/
def lengthsOffset : ℕ := MetadataHeader.size + contentSize

/-! ## Writing -/

section Serialize

variable [MetadataCodec]

/-- The bytes of a message, none if it is absent. -/
def encodeOption {α : Type} (c : Wire α) : Option α → Bytes
  | none => []
  | some a => c.encode a

/-- The bytes of the peer addresses, none if there are none. -/
def encodePeers : List PeerAddress → Bytes
  | [] => []
  | p :: ps => MetadataCodec.peerAddressBook.encode (p :: ps)

/-- `MetadataContent`. -/
def content (m : StoredMetadata) : Bytes :=
  leBytes 8 m.firstIndex ++ (leBytes 8 m.snapshotIndex ++ leBytes 8 m.snapshotTerm)

/-- A header with the checksum of what follows, in front of it. -/
def sealFile (body : Bytes) : Bytes :=
  MetadataHeader.serialize { crc := Codec.crc32c (leBytes 4 0 ++ body) % 2 ^ 32 } ++ body

/-- `Serialize`. -/
def serialize (m : StoredMetadata) : Bytes :=
  sealFile (content m ++ (sized (encodeOption WalCodec.hardState m.hardState) ++
    (sized (encodeOption MetadataCodec.confState m.confState) ++
      sized (encodePeers m.peerAddresses))))

/-- The older layout, which has no peer addresses. -/
def serializeWithoutPeers (m : StoredMetadata) : Bytes :=
  sealFile (content m ++ (sized (encodeOption WalCodec.hardState m.hardState) ++
    sized (encodeOption MetadataCodec.confState m.confState)))

end Serialize

/-! ## Reading -/

/-- Why a parse ends early: it returns an error, it would read past the end of its input, or it
would write past the end of a buffer. -/
inductive Halt
  | error (code : StorageErrorCode)
  | pastEnd
  | overrun
  deriving DecidableEq

abbrev Parse := Except Halt

/-- A read of the input. -/
def read (data : Bytes) (offset n : ℕ) : Parse Bytes :=
  if offset + n ≤ data.length then .ok (slice data offset n) else .error .pastEnd

/-- A condition without which an error is returned. -/
def ensure (p : Prop) [Decidable p] (code : StorageErrorCode) : Parse Unit :=
  if p then .ok () else .error (.error code)

/-- A copy into a buffer of whole words, and the words of it that are handed on. -/
def copyWords (data : Bytes) (offset length : ℕ) : Parse Bytes := do
  let bytes ← read data offset length
  if 8 * ((length + 7) % 2 ^ 32 / 8) < length then throw .overrun else pure (wholeWords bytes)

section Deserialize

variable {α : Type}

/-- The checks of the header. -/
def readHeader [Codec] (data : Bytes) : Parse Unit := do
  ensure (MetadataHeader.size + contentSize ≤ data.length) .metadataFileTooSmall
  let bytes ← read data 0 MetadataHeader.size
  let header := MetadataHeader.deserialize bytes
  ensure (header.isValid = true) .invalidMetadataHeader
  let covered ← read data MetadataHeader.crcOffset (data.length - MetadataHeader.crcOffset)
  ensure (Codec.crc32c covered % 2 ^ 32 = header.crc) .metadataCrcMismatch

/-- The length of a message. -/
def readLength (data : Bytes) (offset : ℕ) : Parse ℕ := do
  ensure (offset + 4 ≤ data.length) .metadataFileTooSmall
  let bytes ← read data offset 4
  pure (leNat bytes)

/-- A message of a given length; one of length zero is absent. -/
def readMessage (c : Wire α) (failed : StorageErrorCode) (data : Bytes) (offset length : ℕ) :
    Parse (Option α) :=
  if length = 0 then pure none
  else do
    ensure (offset + length ≤ data.length) .metadataFileTooSmall
    let words ← copyWords data offset length
    match c.decode words with
    | none => throw (.error failed)
    | some a => pure (some a)

/-- The peer addresses in a span; `fromBytes` takes whole words only. -/
def decodePeers [MetadataCodec] (data : Bytes) (offset length : ℕ) : Parse (List PeerAddress) :=
  if length = 0 then pure []
  else do
    let bytes ← read data offset length
    if length % 8 ≠ 0 then throw (.error .peerAddressBookParseError)
    else
      match MetadataCodec.peerAddressBook.decode bytes with
      | none => throw (.error .peerAddressBookParseError)
      | some peers => pure peers

/-- The peer addresses at the end of the input, none in the older layout. -/
def readPeers [MetadataCodec] (data : Bytes) (offset : ℕ) : Parse (List PeerAddress) :=
  if offset < data.length then do
    ensure (4 ≤ data.length - offset) .metadataFileTooSmall
    let bytes ← read data offset 4
    let length := leNat bytes
    ensure (length ≤ data.length - (offset + 4)) .metadataFileTooSmall
    let peers ← decodePeers data (offset + 4) length
    ensure (offset + 4 + length = data.length) .metadataFileTooSmall
    pure peers
  else pure []

/-- `Deserialize`. -/
def deserialize [MetadataCodec] (data : Bytes) : Parse WalMetadata := do
  readHeader data
  let content ← read data MetadataHeader.size contentSize
  let hsLen ← readLength data lengthsOffset
  let hardState ← readMessage WalCodec.hardState .hardStateParseError data (lengthsOffset + 4) hsLen
  let csLen ← readLength data (lengthsOffset + 4 + hsLen)
  let confState ← readMessage MetadataCodec.confState .confStateParseError data
    (lengthsOffset + 4 + hsLen + 4) csLen
  let peerAddresses ← readPeers data (lengthsOffset + 4 + hsLen + 4 + csLen)
  pure {
    hardState := hardState.getD {}
    confState := confState.getD {}
    peerAddresses
    firstIndex := leNat (content.take 8)
    snapshotIndex := leNat ((content.drop 8).take 8)
    snapshotTerm := leNat ((content.drop 16).take 8) }

end Deserialize

/-! ## What a parse can do -/

section Meets

variable {α β : Type} {p : Parse α} {Q : α → Prop} {W : Prop}

/-- A parse that reads inside its input.  If it returns then with `Q`, and it runs past the end of
a buffer only under `W`. -/
structure Meets (p : Parse α) (Q : α → Prop) (W : Prop) : Prop where
  ok : ∀ a, p = .ok a → Q a
  overrun : p = .error .overrun → W
  inside : p ≠ .error .pastEnd

theorem Meets.bind {f : α → Parse β} {Q' : β → Prop} (hp : Meets p Q W)
    (hf : ∀ a, Q a → Meets (f a) Q' W) : Meets (p >>= f) Q' W := by
  cases p with
  | ok a => exact hf a (hp.ok a rfl)
  | error halt =>
      refine ⟨fun a h => (by cases h), fun h => hp.overrun ?_, fun h => hp.inside ?_⟩ <;>
        · cases h
          rfl

theorem Meets.mono {W' : Prop} (h : Meets p Q W) (hW : W → W') : Meets p Q W' :=
  ⟨h.ok, fun hover => hW (h.overrun hover), h.inside⟩

theorem meets_pure {a : α} (h : Q a) : Meets (pure a) Q W where
  ok b hb := by
    cases hb
    exact h
  overrun h := by cases h
  inside h := by cases h

theorem meets_throw (code : StorageErrorCode) : Meets (throw (.error code) : Parse α) Q W where
  ok b hb := by cases hb
  overrun h := by cases h
  inside h := by cases h

theorem meets_ensure (q : Prop) [Decidable q] (code : StorageErrorCode) :
    Meets (ensure q code) (fun _ => q) W := by
  unfold ensure
  split
  next h => exact meets_pure h
  next => exact meets_throw code

theorem read_of_le {n : ℕ} (h : offset + n ≤ data.length) :
    read data offset n = .ok (slice data offset n) := if_pos h

theorem meets_read {n : ℕ} (h : offset + n ≤ data.length) :
    Meets (read data offset n) (fun bytes => bytes = slice data offset n) W := by
  rw [read_of_le h]
  exact meets_pure rfl

end Meets

/-! ## The length fields -/

/-- The header of a file is accepted. -/
def Checked [Codec] (data : Bytes) : Prop :=
  MetadataHeader.size + contentSize ≤ data.length ∧
    (MetadataHeader.deserialize (slice data 0 MetadataHeader.size)).isValid = true ∧
    Codec.crc32c (slice data MetadataHeader.crcOffset (data.length - MetadataHeader.crcOffset)) %
      2 ^ 32 = (MetadataHeader.deserialize (slice data 0 MetadataHeader.size)).crc

/-- A message of a given length is absent, or there and can be decoded. -/
def Parsed {α : Type} (c : Wire α) (data : Bytes) (offset length : ℕ) : Prop :=
  length = 0 ∨ offset + length ≤ data.length ∧
    (c.decode (wholeWords (slice data offset length))).isSome = true

/-- A message is there whose size in words is not computed in 32 bits. -/
def Wide (data : Bytes) (offset length : ℕ) : Prop :=
  offset + length ≤ data.length ∧ 2 ^ 32 - 8 < length

/-- The length of the hard state. -/
def hsLen (data : Bytes) : ℕ := lengthAt data lengthsOffset

/-- Where the length of the configuration stands. -/
def csOffset (data : Bytes) : ℕ := lengthsOffset + 4 + hsLen data

/-- The length of the configuration. -/
def csLen (data : Bytes) : ℕ := lengthAt data (csOffset data)

/-- Where the peer addresses begin. -/
def peersOffset (data : Bytes) : ℕ := csOffset data + 4 + csLen data

/-- The length fields account for exactly the whole input. -/
def Accounts (data : Bytes) : Prop :=
  peersOffset data = data.length ∨
    peersOffset data + 4 + lengthAt data (peersOffset data) = data.length

/-- The decoder comes to a message whose size in words wraps. -/
def Wraps [WalCodec] (data : Bytes) : Prop :=
  Checked data ∧
    (Wide data (lengthsOffset + 4) (hsLen data) ∨
      Parsed WalCodec.hardState data (lengthsOffset + 4) (hsLen data) ∧
        Wide data (csOffset data + 4) (csLen data))

section Meaning

variable {α : Type} {W : Prop} {data : Bytes} {offset length : ℕ} {c : Wire α}
  {failed : StorageErrorCode}

theorem buffer_lt_iff (h : length < 2 ^ 32) :
    8 * ((length + 7) % 2 ^ 32 / 8) < length ↔ 2 ^ 32 - 8 < length := by
  omega

theorem readHeader_meets [Codec] (data : Bytes) :
    Meets (readHeader data) (fun _ => Checked data) W := by
  unfold readHeader
  refine (meets_ensure _ _).bind fun _ hsize => ?_
  have hsizes : MetadataHeader.size = 16 ∧ contentSize = 24 ∧ MetadataHeader.crcOffset = 12 :=
    ⟨rfl, rfl, rfl⟩
  refine (meets_read (by omega)).bind fun bytes hbytes => ?_
  subst hbytes
  refine (meets_ensure _ _).bind fun _ hvalid => ?_
  refine (meets_read (by omega)).bind fun covered hcovered => ?_
  subst hcovered
  obtain ⟨hok, hoverrun, hinside⟩ := meets_ensure (W := W) (Codec.crc32c (slice data
    MetadataHeader.crcOffset (data.length - MetadataHeader.crcOffset)) % 2 ^ 32 =
      (MetadataHeader.deserialize (slice data 0 MetadataHeader.size)).crc) .metadataCrcMismatch
  exact ⟨fun a ha => ⟨hsize, hvalid, hok a ha⟩, hoverrun, hinside⟩

theorem readLength_meets : Meets (readLength data offset)
    (fun n => offset + 4 ≤ data.length ∧ n = lengthAt data offset) W := by
  unfold readLength
  refine (meets_ensure _ _).bind fun _ hsize => ?_
  refine (meets_read hsize).bind fun bytes hbytes => ?_
  subst hbytes
  exact meets_pure ⟨hsize, rfl⟩

theorem readMessage_meets (hlength : length < 2 ^ 32) :
    Meets (readMessage c failed data offset length) (fun _ => Parsed c data offset length)
      (Wide data offset length) := by
  unfold readMessage
  split
  next hzero => exact meets_pure (Or.inl hzero)
  next =>
    refine (meets_ensure _ _).bind fun _ hsize => ?_
    have hcopy : Meets (copyWords data offset length)
        (fun words => words = wholeWords (slice data offset length)) (Wide data offset length) := by
      unfold copyWords
      refine (meets_read hsize).bind fun bytes hbytes => ?_
      subst hbytes
      split
      next hbuffer =>
        have hwide : Wide data offset length := ⟨hsize, (buffer_lt_iff hlength).mp hbuffer⟩
        exact ⟨fun _ h => (by cases h), fun _ => hwide, fun h => (by cases h)⟩
      next => exact meets_pure rfl
    refine hcopy.bind fun words hwords => ?_
    subst hwords
    cases hdecode : c.decode (wholeWords (slice data offset length)) with
    | none => exact meets_throw failed
    | some a => exact meets_pure (Or.inr ⟨hsize, by rw [hdecode]; rfl⟩)

theorem decodePeers_meets [MetadataCodec] (h : offset + length ≤ data.length) :
    Meets (decodePeers data offset length) (fun _ => True) W := by
  unfold decodePeers
  split
  next => exact meets_pure trivial
  next =>
    refine (meets_read h).bind fun bytes _ => ?_
    split
    next => exact meets_throw _
    next =>
      cases MetadataCodec.peerAddressBook.decode bytes with
      | none => exact meets_throw _
      | some peers => exact meets_pure trivial

theorem readPeers_meets [MetadataCodec] (h : offset ≤ data.length) :
    Meets (readPeers data offset)
      (fun _ => offset = data.length ∨ offset + 4 + lengthAt data offset = data.length) W := by
  unfold readPeers
  split
  next hlt =>
    refine (meets_ensure _ _).bind fun _ hfour => ?_
    refine (meets_read (by omega)).bind fun bytes hbytes => ?_
    subst hbytes
    refine (meets_ensure _ _).bind fun _ hlength => ?_
    refine (decodePeers_meets (by omega)).bind fun peers _ => ?_
    refine (meets_ensure _ _).bind fun _ hend => ?_
    exact meets_pure (Or.inr hend)
  next hge => exact meets_pure (Or.inl (by omega))

/-- Peer addresses that account for the rest of the input. -/
theorem readPeers_of_accounts [MetadataCodec]
    (h : offset + 4 + lengthAt data offset = data.length) :
    readPeers data offset = decodePeers data (offset + 4) (lengthAt data offset) := by
  unfold readPeers
  rw [if_pos (by omega), ensure, if_pos (by omega), read_of_le (by omega)]
  change (ensure (lengthAt data offset ≤ data.length - (offset + 4)) _ >>= fun _ =>
    decodePeers data (offset + 4) (lengthAt data offset) >>= fun peers =>
      ensure (offset + 4 + lengthAt data offset = data.length) _ >>= fun _ => pure peers) = _
  rw [ensure, if_pos (by omega), ensure, if_pos h]
  cases decodePeers data (offset + 4) (lengthAt data offset) with
  | error halt => rfl
  | ok peers => rfl

/-- The decoder reads inside its input; what it accepts is accounted for by the length fields, and
it runs past the end of a buffer only if a size wraps. -/
theorem deserialize_meets [MetadataCodec] (data : Bytes) :
    Meets (deserialize data) (fun _ => Accounts data) (Wraps data) := by
  unfold deserialize
  refine (readHeader_meets data).bind fun _ hchecked => ?_
  refine (meets_read hchecked.1).bind fun content _ => ?_
  refine readLength_meets.bind fun hs hhs => ?_
  obtain ⟨-, rfl⟩ := hhs
  have hhard : Meets (readMessage WalCodec.hardState .hardStateParseError data
      (lengthsOffset + 4) (hsLen data)) _ (Wraps data) :=
    (readMessage_meets (lengthAt_lt _ _)).mono fun hwide => ⟨hchecked, Or.inl hwide⟩
  refine hhard.bind fun hardState hparsed => ?_
  refine readLength_meets.bind fun cs hcs => ?_
  obtain ⟨hroom, rfl⟩ := hcs
  have hconf : Meets (readMessage MetadataCodec.confState .confStateParseError data
      (csOffset data + 4) (csLen data)) _ (Wraps data) :=
    (readMessage_meets (lengthAt_lt _ _)).mono fun hwide => ⟨hchecked, Or.inr ⟨hparsed, hwide⟩⟩
  refine hconf.bind fun confState hconfParsed => ?_
  have hinside : peersOffset data ≤ data.length := by
    rcases hconfParsed with hzero | ⟨hsize, -⟩
    · rw [peersOffset, csLen, hzero]
      exact hroom
    · exact hsize
  refine (readPeers_meets hinside).bind fun peers haccounts => ?_
  exact meets_pure haccounts

/-! ## Files whose sizes wrap -/

theorem readHeader_of_checked [Codec] (h : Checked data) : readHeader data = .ok () := by
  obtain ⟨hsize, hvalid, hcrc⟩ := h
  have hsizes : MetadataHeader.size = 16 ∧ contentSize = 24 ∧ MetadataHeader.crcOffset = 12 :=
    ⟨rfl, rfl, rfl⟩
  unfold readHeader
  rw [ensure, if_pos hsize, read_of_le (by omega), read_of_le (by omega)]
  change (ensure _ _ >>= fun _ => ensure _ _) = _
  rw [ensure, if_pos hvalid, ensure]
  exact if_pos hcrc

theorem readLength_of_le (h : offset + 4 ≤ data.length) :
    readLength data offset = .ok (lengthAt data offset) := by
  unfold readLength
  rw [ensure, if_pos h, read_of_le h]
  rfl

theorem copyWords_of_wide (hlength : length < 2 ^ 32) (h : Wide data offset length) :
    copyWords data offset length = .error .overrun := by
  unfold copyWords
  rw [read_of_le h.1]
  exact if_pos ((buffer_lt_iff hlength).mpr h.2)

theorem copyWords_of_le (hlength : length ≤ 2 ^ 32 - 8) (h : offset + length ≤ data.length) :
    copyWords data offset length = .ok (wholeWords (slice data offset length)) := by
  unfold copyWords
  rw [read_of_le h]
  exact if_neg (by omega)

theorem readMessage_of_wide (hlength : length < 2 ^ 32) (h : Wide data offset length) :
    readMessage c failed data offset length = .error .overrun := by
  have hpos := h.2
  unfold readMessage
  rw [if_neg (by omega), ensure, if_pos h.1, copyWords_of_wide hlength h]
  rfl

/-- A message that is there and can be decoded is read. -/
theorem readMessage_of_decode {a : α} (hpos : 0 < length) (hlength : length ≤ 2 ^ 32 - 8)
    (hsize : offset + length ≤ data.length)
    (hdecode : c.decode (wholeWords (slice data offset length)) = some a) :
    readMessage c failed data offset length = .ok (some a) := by
  unfold readMessage
  rw [if_neg (by omega), ensure, if_pos hsize, copyWords_of_le hlength hsize]
  simp only [bind, Except.bind, hdecode]
  rfl

theorem readMessage_of_parsed (hlength : length ≤ 2 ^ 32 - 8) (h : Parsed c data offset length) :
    ∃ a, readMessage c failed data offset length = .ok a := by
  by_cases hzero : length = 0
  · exact ⟨none, if_pos hzero⟩
  · obtain ⟨hsize, hdecode⟩ := h.resolve_left hzero
    obtain ⟨a, ha⟩ := Option.isSome_iff_exists.mp hdecode
    exact ⟨some a, readMessage_of_decode (by omega) hlength hsize ha⟩

/-- Where a size wraps the decoder runs past the end of a buffer. -/
theorem deserialize_of_wraps [MetadataCodec] (h : Wraps data) :
    deserialize data = .error .overrun := by
  obtain ⟨hchecked, hwide⟩ := h
  have hhs := lengthAt_lt data lengthsOffset
  have hfour : lengthsOffset + 4 ≤ data.length := by
    rcases hwide with hwide | ⟨-, hwide⟩
    · exact (Nat.le_add_right _ _).trans hwide.1
    · have hsize := hwide.1
      unfold csOffset at hsize
      omega
  unfold deserialize
  rw [readHeader_of_checked hchecked, read_of_le hchecked.1, readLength_of_le hfour]
  simp only [bind, Except.bind]
  by_cases hhard : Wide data (lengthsOffset + 4) (hsLen data)
  · have hoverrun : readMessage WalCodec.hardState .hardStateParseError data (lengthsOffset + 4)
        (lengthAt data lengthsOffset) = .error .overrun := readMessage_of_wide hhs hhard
    rw [hoverrun]
  · obtain ⟨hparsed, hconf⟩ := hwide.resolve_left hhard
    have hnarrow : hsLen data ≤ 2 ^ 32 - 8 := by
      by_contra hlt
      rcases hparsed with hzero | ⟨hsize, -⟩
      · omega
      · exact hhard ⟨hsize, by omega⟩
    obtain ⟨hardState, hread⟩ : ∃ a, readMessage WalCodec.hardState .hardStateParseError data
        (lengthsOffset + 4) (lengthAt data lengthsOffset) = .ok a :=
      readMessage_of_parsed hnarrow hparsed
    have hlength : readLength data (lengthsOffset + 4 + lengthAt data lengthsOffset) =
        .ok (csLen data) :=
      readLength_of_le ((Nat.le_add_right _ _).trans hconf.1)
    have hoverrun : readMessage MetadataCodec.confState .confStateParseError data
        (lengthsOffset + 4 + lengthAt data lengthsOffset + 4) (csLen data) = .error .overrun :=
      readMessage_of_wide (lengthAt_lt _ _) hconf
    simp only [hread, hlength, hoverrun]

end Meaning

/-! ## The round trip -/

section RoundTrip

variable [MetadataCodec] {m : StoredMetadata} {peers : List PeerAddress}

/-- The numbers fit in 64 bits and the parts below 2³² bytes, and decoding inverts encoding for the
messages that are there. -/
structure Fits (m : StoredMetadata) : Prop where
  firstIndex : m.firstIndex < 2 ^ 64
  snapshotIndex : m.snapshotIndex < 2 ^ 64
  snapshotTerm : m.snapshotTerm < 2 ^ 64
  hardState : ∀ hs ∈ m.hardState, WalCodec.hardState.Inverts hs
  confState : ∀ cs ∈ m.confState, MetadataCodec.confState.Inverts cs
  peerAddresses : m.peerAddresses ≠ [] → MetadataCodec.peerAddressBook.Inverts m.peerAddresses
  hardStateSize : (encodeOption WalCodec.hardState m.hardState).length < 2 ^ 32
  confStateSize : (encodeOption MetadataCodec.confState m.confState).length < 2 ^ 32
  peerAddressesSize : (encodePeers m.peerAddresses).length < 2 ^ 32

omit [MetadataCodec] in
theorem content_length (m : StoredMetadata) : (content m).length = contentSize := by
  simp [content, contentSize]

theorem sealFile_length (body : Bytes) :
    (sealFile body).length = MetadataHeader.size + body.length := by
  rw [sealFile, length_append, MetadataHeader.serialize_length]

/-- A sealed file passes the checks of its header. -/
theorem checked_sealFile {body : Bytes} (h : contentSize ≤ body.length) :
    Checked (sealFile body) := by
  have hcrc : Codec.crc32c (leBytes 4 0 ++ body) % 2 ^ 32 < 2 ^ 32 := Nat.mod_lt _ (by decide)
  have hheader : slice (sealFile body) 0 MetadataHeader.size =
      MetadataHeader.serialize { crc := Codec.crc32c (leBytes 4 0 ++ body) % 2 ^ 32 } :=
    slice_append (rfl : ([] : Bytes).length = 0) (MetadataHeader.serialize_length _) body
  have hcovered : slice (sealFile body) MetadataHeader.crcOffset
      ((sealFile body).length - MetadataHeader.crcOffset) = leBytes 4 0 ++ body := by
    have hdrop : (sealFile body).drop MetadataHeader.crcOffset = leBytes 4 0 ++ body := by
      simp (disch := decide) only [sealFile, MetadataHeader.serialize, MetadataHeader.crcOffset,
        append_assoc, drop_leBytes_append, Nat.reduceSub, drop_zero]
    rw [slice, ← length_drop, take_length, hdrop]
  rw [Checked, hheader, hcovered, MetadataHeader.deserialize_serialize hcrc, sealFile_length]
  exact ⟨Nat.add_le_add_left h _, rfl, rfl⟩

omit [MetadataCodec] in
/-- A message that has been written is read back. -/
theorem readMessage_encodeOption {α : Type} {c : Wire α} {a : Option α}
    (hinverts : ∀ x ∈ a, c.Inverts x) (hlt : (encodeOption c a).length < 2 ^ 32)
    {failed : StorageErrorCode} {pre post : Bytes} (hpre : pre.length + 4 = offset) :
    readMessage c failed (pre ++ (sized (encodeOption c a) ++ post)) offset
      (encodeOption c a).length = .ok a := by
  cases a with
  | none => rfl
  | some a =>
      have hinv := hinverts a rfl
      have hwords := hinv.words
      have hslice := slice_sized hpre (rfl : (encodeOption c (some a)).length = _) post
      refine readMessage_of_decode hinv.pos ?_ ?_ ?_
      · change (c.encode a).length < 2 ^ 32 at hlt
        change (c.encode a).length ≤ _
        omega
      · rw [length_append, length_append, sized_length]
        omega
      · rw [hslice]
        change c.decode (wholeWords (c.encode a)) = some a
        rw [wholeWords_of_dvd hwords, hinv.decode_encode]

/-- The peer addresses that have been written are read back. -/
theorem readPeers_encodePeers (hinverts : peers ≠ [] → MetadataCodec.peerAddressBook.Inverts peers)
    (hlt : (encodePeers peers).length < 2 ^ 32) {pre : Bytes} (hpre : pre.length = offset) :
    readPeers (pre ++ sized (encodePeers peers)) offset = .ok peers := by
  have hlength : (pre ++ sized (encodePeers peers)).length =
      offset + 4 + (encodePeers peers).length := by
    rw [length_append, sized_length]
    omega
  have hfield : lengthAt (pre ++ sized (encodePeers peers)) offset =
      (encodePeers peers).length := by
    simpa using lengthAt_sized hpre hlt []
  have hdecode : decodePeers (pre ++ sized (encodePeers peers)) (offset + 4)
      (encodePeers peers).length = .ok peers := by
    cases peers with
    | nil => rfl
    | cons p ps =>
        have hinv := hinverts (cons_ne_nil p ps)
        have hslice : slice (pre ++ sized (encodePeers (p :: ps))) (offset + 4)
            (encodePeers (p :: ps)).length = encodePeers (p :: ps) := by
          simpa using slice_sized (show pre.length + 4 = offset + 4 by omega)
            (rfl : (encodePeers (p :: ps)).length = _) []
        have hpos : (encodePeers (p :: ps)).length ≠ 0 := Nat.pos_iff_ne_zero.mp hinv.pos
        have hwords : ¬(encodePeers (p :: ps)).length % 8 ≠ 0 :=
          not_not.mpr (Nat.mod_eq_zero_of_dvd hinv.words)
        have hpeers : MetadataCodec.peerAddressBook.decode (encodePeers (p :: ps)) =
            some (p :: ps) := hinv.decode_encode
        unfold decodePeers
        rw [if_neg hpos, read_of_le (by rw [hlength]), hslice]
        simp only [bind, Except.bind, if_neg hwords, hpeers]
        rfl
  rw [readPeers_of_accounts (by rw [hfield, hlength]), hfield, hdecode]

omit [MetadataCodec] in
/-- The numbers that have been written are read back. -/
theorem leNat_content (hfirst : m.firstIndex < 2 ^ 64) (hindex : m.snapshotIndex < 2 ^ 64)
    (hterm : m.snapshotTerm < 2 ^ 64) :
    leNat ((content m).take 8) = m.firstIndex ∧
      leNat (((content m).drop 8).take 8) = m.snapshotIndex ∧
      leNat (((content m).drop 16).take 8) = m.snapshotTerm := by
  have hfirstBytes : leNat (leBytes 8 m.firstIndex) = m.firstIndex :=
    leNat_leBytes_of_lt (by omega)
  have hindexBytes : leNat (leBytes 8 m.snapshotIndex) = m.snapshotIndex :=
    leNat_leBytes_of_lt (by omega)
  have htermBytes : leNat (leBytes 8 m.snapshotTerm) = m.snapshotTerm :=
    leNat_leBytes_of_lt (by omega)
  have hall : (leBytes 8 m.snapshotTerm).take 8 = leBytes 8 m.snapshotTerm :=
    take_of_length_le (leBytes_length 8 _).le
  simp (disch := omega) only [content, take_leBytes_append, drop_leBytes_append, Nat.reduceSub,
    drop_zero, hall, hfirstBytes, hindexBytes, htermBytes, and_self]

/-- What a file whose sections follow each other is read as, if its end is read as `peers`. -/
theorem deserialize_sections (h : Fits m) {header hs cs tail : Bytes} (hchecked : Checked data)
    (hhs : hs = encodeOption WalCodec.hardState m.hardState)
    (hcs : cs = encodeOption MetadataCodec.confState m.confState)
    (hdata : data = header ++ (content m ++ (sized hs ++ (sized cs ++ tail))))
    (hheader : header.length = MetadataHeader.size)
    (hpeers : readPeers data (lengthsOffset + 4 + hs.length + 4 + cs.length) = .ok peers) :
    deserialize data = .ok { m.withDefaults with peerAddresses := peers } := by
  have hcontentLength := content_length m
  have hfront : (header ++ content m).length = lengthsOffset := by
    rw [length_append, hheader, hcontentLength]
    rfl
  have hmiddle : (header ++ content m ++ sized hs).length = lengthsOffset + 4 + hs.length := by
    rw [length_append, hfront, sized_length]
    omega
  -- The same bytes, seen from each of the two lengths.
  have hatHs : data = (header ++ content m) ++ (sized hs ++ (sized cs ++ tail)) := by
    rw [hdata, append_assoc]
  have hatCs : data = (header ++ content m ++ sized hs) ++ (sized cs ++ tail) := by
    rw [hatHs, append_assoc _ (sized hs)]
  have hlength : lengthsOffset + 4 + hs.length + 4 + cs.length ≤ data.length := by
    rw [hatCs, length_append, hmiddle, length_append, sized_length]
    omega
  have hhsLen : readLength data lengthsOffset = .ok hs.length := by
    rw [readLength_of_le (by omega), hatHs,
      lengthAt_sized hfront (by rw [hhs]; exact h.hardStateSize)]
  have hhard : readMessage WalCodec.hardState .hardStateParseError data (lengthsOffset + 4)
      hs.length = .ok m.hardState := by
    rw [hatHs, hhs]
    exact readMessage_encodeOption h.hardState h.hardStateSize (by rw [hfront])
  have hcsLen : readLength data (lengthsOffset + 4 + hs.length) = .ok cs.length := by
    rw [readLength_of_le (by omega), hatCs,
      lengthAt_sized hmiddle (by rw [hcs]; exact h.confStateSize)]
  have hconf : readMessage MetadataCodec.confState .confStateParseError data
      (lengthsOffset + 4 + hs.length + 4) cs.length = .ok m.confState := by
    rw [hatCs, hcs]
    exact readMessage_encodeOption h.confState h.confStateSize (by rw [hmiddle])
  have hcontent : read data MetadataHeader.size contentSize = .ok (content m) := by
    rw [read_of_le hchecked.1, hdata, slice_append hheader hcontentLength]
  obtain ⟨hfirst, hindex, hterm⟩ := leNat_content h.firstIndex h.snapshotIndex h.snapshotTerm
  unfold deserialize
  rw [readHeader_of_checked hchecked, hcontent, hhsLen]
  simp only [bind, Except.bind, hhard, hcsLen, hconf, hpeers, hfirst, hindex, hterm]
  rfl

/-- What is written is read back, with defaults for absent messages. -/
theorem deserialize_serialize (h : Fits m) : deserialize (serialize m) = .ok m.withDefaults := by
  have hcontent := content_length m
  have hchecked : Checked (serialize m) :=
    checked_sealFile (by rw [length_append, hcontent]; omega)
  obtain ⟨header, hheader, hdata⟩ : ∃ header : Bytes, header.length = MetadataHeader.size ∧
      serialize m = header ++ (content m ++
        (sized (encodeOption WalCodec.hardState m.hardState) ++
          (sized (encodeOption MetadataCodec.confState m.confState) ++
            sized (encodePeers m.peerAddresses)))) :=
    ⟨_, MetadataHeader.serialize_length _, rfl⟩
  refine deserialize_sections h hchecked rfl rfl hdata hheader ?_
  rw [hdata, ← append_assoc, ← append_assoc, ← append_assoc]
  refine readPeers_encodePeers h.peerAddresses h.peerAddressesSize ?_
  rw [length_append, length_append, length_append, hheader, hcontent, sized_length,
    sized_length, lengthsOffset]
  omega

/-- A file of the older layout is read with no peer addresses. -/
theorem deserialize_serializeWithoutPeers (h : Fits m) :
    deserialize (serializeWithoutPeers m) = .ok { m.withDefaults with peerAddresses := [] } := by
  have hcontent := content_length m
  have hchecked : Checked (serializeWithoutPeers m) :=
    checked_sealFile (by rw [length_append, hcontent]; omega)
  obtain ⟨header, hheader, hdata⟩ : ∃ header : Bytes, header.length = MetadataHeader.size ∧
      serializeWithoutPeers m = header ++ (content m ++
        (sized (encodeOption WalCodec.hardState m.hardState) ++
          (sized (encodeOption MetadataCodec.confState m.confState) ++ []))) :=
    ⟨_, MetadataHeader.serialize_length _, by rw [append_nil]; rfl⟩
  refine deserialize_sections h hchecked rfl rfl hdata hheader ?_
  unfold readPeers
  rw [if_neg ?_]
  · rfl
  · rw [hdata, length_append, length_append, length_append, append_nil, hheader,
      hcontent, sized_length, sized_length, lengthsOffset]
    omega

end RoundTrip

/-! ## Every input -/

section Settles

variable [MetadataCodec]

/-- The decoder returns metadata, and then the length fields account for exactly the whole input,
or it returns an error. -/
def Settles (data : Bytes) : Prop :=
  (∃ m, deserialize data = .ok m ∧ Accounts data) ∨
    ∃ code, deserialize data = .error (.error code)

/-- What `Load` can pass on: one `read` returns at most so many bytes, and has to return all. -/
def Loadable (data : Bytes) : Prop := data.length ≤ 0x7ffff000

omit [MetadataCodec] in
theorem not_wraps_of_loadable [WalCodec] (h : Loadable data) : ¬Wraps data := by
  rintro ⟨-, hwide | ⟨-, hwide⟩⟩
  all_goals
    have hlength : data.length ≤ 0x7ffff000 := h
    have hsize := hwide.1
    have hlong := hwide.2
    omega

theorem settles_iff (data : Bytes) : Settles data ↔ ¬Wraps data := by
  have hmeets := deserialize_meets data
  constructor
  · intro hsettles hwraps
    have hoverrun := deserialize_of_wraps hwraps
    rcases hsettles with ⟨m, hok, -⟩ | ⟨code, herror⟩
    · rw [hoverrun] at hok
      cases hok
    · rw [hoverrun] at herror
      cases herror
  · intro hwraps
    cases hdecode : deserialize data with
    | ok m => exact Or.inl ⟨m, hdecode, hmeets.ok m hdecode⟩
    | error halt =>
        cases halt with
        | error code => exact Or.inr ⟨code, hdecode⟩
        | pastEnd => exact absurd hdecode hmeets.inside
        | overrun => exact absurd (hmeets.overrun hdecode) hwraps

/-- Metadata that is written is read back, from either layout; no input is read past its end, and
an input is settled unless a size in it wraps, which is so for every input that can be loaded. -/
theorem metadataFile_settles_iff :
    (∀ m : StoredMetadata, Fits m → deserialize (serialize m) = .ok m.withDefaults ∧
      deserialize (serializeWithoutPeers m) = .ok { m.withDefaults with peerAddresses := [] }) ∧
    ∀ data : Bytes, deserialize data ≠ .error .pastEnd ∧ (Settles data ↔ ¬Wraps data) ∧
      (Loadable data → Settles data) :=
  ⟨fun _ h => ⟨deserialize_serialize h, deserialize_serializeWithoutPeers h⟩,
    fun data => ⟨(deserialize_meets data).inside, settles_iff data, fun h =>
      (settles_iff data).mpr (not_wraps_of_loadable h)⟩⟩

end Settles

/-- Metadata with one voter. -/
def soloMetadata : StoredMetadata where
  hardState := some { term := 3, vote := 1, commit := 2 }
  confState := some { voters := [1] }
  peerAddresses := [{ id := 1 }]
  firstIndex := 2
  snapshotIndex := 1
  snapshotTerm := 1

theorem metadataFile_settles_solo :
    letI := MetadataCodec.plain
    deserialize (serialize soloMetadata) = .ok soloMetadata.withDefaults ∧
      deserialize (serializeWithoutPeers soloMetadata) =
        .ok { soloMetadata.withDefaults with peerAddresses := [] } ∧
      Settles ((serialize soloMetadata).dropLast) := by
  let _ := MetadataCodec.plain
  have hfits : Fits soloMetadata :=
    { firstIndex := by decide
      snapshotIndex := by decide
      snapshotTerm := by decide
      hardState := by
        intro hs hmem
        cases hmem
        exact ⟨by decide +kernel, by decide +kernel, by decide +kernel⟩
      confState := by
        intro cs hmem
        cases hmem
        exact ⟨by decide +kernel, by decide +kernel, by decide +kernel⟩
      peerAddresses := fun _ => ⟨by decide +kernel, by decide +kernel, by decide +kernel⟩
      hardStateSize := by decide +kernel
      confStateSize := by decide +kernel
      peerAddressesSize := by decide +kernel }
  obtain ⟨hnew, hold⟩ := metadataFile_settles_iff.1 soloMetadata hfits
  have hload : Loadable (serialize soloMetadata).dropLast := by
    unfold Loadable
    decide +kernel
  exact ⟨hnew, hold, (metadataFile_settles_iff.2 _).2.2 hload⟩

end MetadataStore

end Raftpp
