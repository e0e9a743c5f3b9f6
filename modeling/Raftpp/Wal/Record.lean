import Raftpp.Core.Types
import Raftpp.Lib.LittleEndian

/-!
# Records and segment headers

The formats of `record.h`.  A segment file starts with a header of 32 bytes.  A
record is a header of 16 bytes, a payload and zero bytes up to a multiple of
eight; its checksum covers the rest of the header and the payload.  Headers are
written field by field in little-endian order, as the structures lie in memory.

The payloads are Cap'n Proto messages.  What the log takes from the encoder is
collected in `WalCodec`, with the assumption that decoding inverts encoding in
`LawfulWalCodec`.
-/

namespace Raftpp

open List

variable (bytes : Bytes)

/-! ## Payloads -/

/-- An entry whose numbers fit in 64 bits and whose blobs fit in a Cap'n Proto message. -/
structure Entry.Fits (e : Entry) : Prop where
  term : e.term < 2 ^ 64
  index : e.index < 2 ^ 64
  checksum : e.checksum < 2 ^ 64
  data : e.data.length < 2 ^ 29
  context : e.context.length < 2 ^ 29

structure HardState.Fits (hs : HardState) : Prop where
  term : hs.term < 2 ^ 64
  vote : hs.vote < 2 ^ 64
  commit : hs.commit < 2 ^ 64

/-- The encoder of the payloads: `capnp_util::toBytes` and `capnp_util::fromWords`, which throws
where the model has `none`. -/
class WalCodec extends Codec where
  entryBytes : Entry → Bytes
  entryOfBytes : Bytes → Option Entry
  hardStateBytes : HardState → Bytes
  hardStateOfBytes : Bytes → Option HardState

/-- Decoding inverts encoding, and an encoded message is a positive number of words, below
2³¹ bytes. -/
class LawfulWalCodec [WalCodec] : Prop where
  entryOfBytes_entryBytes : ∀ {e : Entry}, e.Fits →
    WalCodec.entryOfBytes (WalCodec.entryBytes e) = some e
  entryBytes_words : ∀ e : Entry, 8 ∣ (WalCodec.entryBytes e).length
  entryBytes_pos : ∀ e : Entry, 0 < (WalCodec.entryBytes e).length
  entryBytes_lt : ∀ {e : Entry}, e.Fits → (WalCodec.entryBytes e).length < 2 ^ 31
  entrySize_eq : ∀ e : Entry, Codec.entrySize e = (WalCodec.entryBytes e).length
  hardStateOfBytes_hardStateBytes : ∀ {hs : HardState}, hs.Fits →
    WalCodec.hardStateOfBytes (WalCodec.hardStateBytes hs) = some hs
  hardStateBytes_words : ∀ hs : HardState, 8 ∣ (WalCodec.hardStateBytes hs).length
  hardStateBytes_lt : ∀ hs : HardState, (WalCodec.hardStateBytes hs).length < 2 ^ 31

/-! ## A codec for runs on fixed inputs -/

/-- The type of an entry from its number. -/
def EntryType.ofNumber : ℕ → Option EntryType
  | 0 => some .entryNormal
  | 1 => some .entryConfChange
  | 2 => some .entryConfChangeV2
  | _ => none

def EntryType.number : EntryType → ℕ
  | .entryNormal => 0
  | .entryConfChange => 1
  | .entryConfChangeV2 => 2

/-- Fields of one word each, then the blobs, filled up to a whole number of words. -/
def plainEntryBytes (e : Entry) : Bytes :=
  leBytes 8 e.entryType.number ++ (leBytes 8 e.term ++ (leBytes 8 e.index ++
    (leBytes 8 e.checksum ++ (leBytes 8 e.data.length ++ (leBytes 8 e.context.length ++
      (e.data ++ (e.context ++
        List.replicate ((8 - (e.data.length + e.context.length) % 8) % 8) 0)))))))

def plainEntryOfBytes : Option Entry := do
  let entryType ← EntryType.ofNumber (leNat (bytes.take 8))
  let length := leNat ((bytes.drop 32).take 8)
  some { entryType, term := leNat ((bytes.drop 8).take 8), index := leNat ((bytes.drop 16).take 8)
         checksum := leNat ((bytes.drop 24).take 8), data := (bytes.drop 48).take length
         context := ((bytes.drop 48).drop length).take (leNat ((bytes.drop 40).take 8)) }

theorem plainEntryOfBytes_plainEntryBytes {e : Entry} (h : e.Fits) :
    plainEntryOfBytes (plainEntryBytes e) = some e := by
  have htype : EntryType.ofNumber (leNat (leBytes 8 e.entryType.number)) = some e.entryType := by
    cases e.entryType <;> decide
  have hterm : leNat (leBytes 8 e.term) = e.term := leNat_leBytes_of_lt (by have := h.term; omega)
  have hindex : leNat (leBytes 8 e.index) = e.index :=
    leNat_leBytes_of_lt (by have := h.index; omega)
  have hchecksum : leNat (leBytes 8 e.checksum) = e.checksum :=
    leNat_leBytes_of_lt (by have := h.checksum; omega)
  have hdata : leNat (leBytes 8 e.data.length) = e.data.length :=
    leNat_leBytes_of_lt (by have := h.data; omega)
  have hcontext : leNat (leBytes 8 e.context.length) = e.context.length :=
    leNat_leBytes_of_lt (by have := h.context; omega)
  simp (disch := omega) only [plainEntryOfBytes, plainEntryBytes, drop_leBytes_append,
    take_leBytes_append, Nat.reduceSub, drop_zero, htype, hterm, hindex, hchecksum, hdata,
    hcontext, take_left, drop_left, Option.bind_eq_bind, Option.bind_some]

theorem plainEntryBytes_length (e : Entry) :
    (plainEntryBytes e).length = 48 + (e.data.length + e.context.length) +
      (8 - (e.data.length + e.context.length) % 8) % 8 := by
  simp only [plainEntryBytes, length_append, leBytes_length, length_replicate]
  omega

def plainHardStateBytes (hs : HardState) : Bytes :=
  leBytes 8 hs.term ++ (leBytes 8 hs.vote ++ (leBytes 8 hs.commit ++ []))

def plainHardStateOfBytes : Option HardState :=
  some { term := leNat (bytes.take 8), vote := leNat ((bytes.drop 8).take 8)
         commit := leNat ((bytes.drop 16).take 8) }

theorem plainHardStateOfBytes_plainHardStateBytes {hs : HardState} (h : hs.Fits) :
    plainHardStateOfBytes (plainHardStateBytes hs) = some hs := by
  have hterm : leNat (leBytes 8 hs.term) = hs.term :=
    leNat_leBytes_of_lt (by have := h.term; omega)
  have hvote : leNat (leBytes 8 hs.vote) = hs.vote :=
    leNat_leBytes_of_lt (by have := h.vote; omega)
  have hcommit : leNat (leBytes 8 hs.commit) = hs.commit :=
    leNat_leBytes_of_lt (by have := h.commit; omega)
  simp (disch := omega) only [plainHardStateOfBytes, plainHardStateBytes, drop_leBytes_append,
    take_leBytes_append, Nat.reduceSub, drop_zero, hterm, hvote, hcommit]

/-- A codec for runs on fixed inputs; every checksum is zero. -/
@[reducible]
def WalCodec.plain : WalCodec where
  toCodec := { Codec.plain with entrySize := fun e => (plainEntryBytes e).length }
  entryBytes := plainEntryBytes
  entryOfBytes := plainEntryOfBytes
  hardStateBytes := plainHardStateBytes
  hardStateOfBytes := plainHardStateOfBytes

theorem WalCodec.plain_lawful : @LawfulWalCodec WalCodec.plain :=
  letI := WalCodec.plain
  { entryOfBytes_entryBytes := plainEntryOfBytes_plainEntryBytes
    entryBytes_words := fun e => by
      change 8 ∣ (plainEntryBytes e).length
      rw [plainEntryBytes_length]
      omega
    entryBytes_pos := fun e => by
      change 0 < (plainEntryBytes e).length
      rw [plainEntryBytes_length]
      omega
    entryBytes_lt := fun {e} h => by
      change (plainEntryBytes e).length < 2 ^ 31
      have hdata := h.data
      have hcontext := h.context
      rw [plainEntryBytes_length]
      omega
    entrySize_eq := fun _ => rfl
    hardStateOfBytes_hardStateBytes := plainHardStateOfBytes_plainHardStateBytes
    hardStateBytes_words := fun _ => ⟨3, rfl⟩
    hardStateBytes_lt := fun _ => show 24 < 2 ^ 31 by decide }

/-! ## Segment headers -/

/-- `kSegmentMagic`. -/
def kSegmentMagic : ℕ := 0x57414C31

/-- `kFormatVersion`. -/
def kFormatVersion : ℕ := 1

/-- `SegmentHeader`. -/
structure SegmentHeader where
  magic : ℕ := kSegmentMagic
  version : ℕ := kFormatVersion
  segmentId : ℕ := 0
  firstIndex : ℕ := 0
  reserved : ℕ := 0
  deriving DecidableEq

namespace SegmentHeader

/-- The size of a segment header. -/
def size : ℕ := 32

/-- `IsValid`. -/
def isValid (h : SegmentHeader) : Bool :=
  decide (h.magic = kSegmentMagic) && decide (h.version = kFormatVersion)

/-- `Serialize`. -/
def serialize (h : SegmentHeader) : Bytes :=
  leBytes 4 h.magic ++ (leBytes 4 h.version ++ (leBytes 8 h.segmentId ++
    (leBytes 8 h.firstIndex ++ leBytes 8 h.reserved)))

/-- `Deserialize`. -/
def deserialize : SegmentHeader where
  magic := leNat (bytes.take 4)
  version := leNat ((bytes.drop 4).take 4)
  segmentId := leNat ((bytes.drop 8).take 8)
  firstIndex := leNat ((bytes.drop 16).take 8)
  reserved := leNat ((bytes.drop 24).take 8)

@[simp]
theorem serialize_length (h : SegmentHeader) : h.serialize.length = size := by
  simp [serialize, size]

/-- Reading back the header of a segment that the log has created. -/
theorem deserialize_serialize {id first : ℕ} (hid : id < 2 ^ 64) (hfirst : first < 2 ^ 64)
    (rest : Bytes) :
    deserialize (serialize { segmentId := id, firstIndex := first } ++ rest) =
      { segmentId := id, firstIndex := first } := by
  have hmagic : leNat (leBytes 4 kSegmentMagic) = kSegmentMagic :=
    leNat_leBytes_of_lt (by decide)
  have hversion : leNat (leBytes 4 kFormatVersion) = kFormatVersion :=
    leNat_leBytes_of_lt (by decide)
  have hidBytes : leNat (leBytes 8 id) = id := leNat_leBytes_of_lt (by omega)
  have hfirstBytes : leNat (leBytes 8 first) = first := leNat_leBytes_of_lt (by omega)
  have hreserved : leNat (leBytes 8 0) = 0 := leNat_leBytes_of_lt (by decide)
  simp (disch := omega) only [deserialize, serialize, append_assoc, drop_leBytes_append,
    take_leBytes_append, Nat.reduceSub, drop_zero, hmagic, hversion, hidBytes, hfirstBytes,
    hreserved]

end SegmentHeader

/-! ## Records -/

/-- `RecordType`. -/
inductive RecordType
  | entry
  | entryBatch
  | hardState
  deriving DecidableEq

/-- The number of a record type. -/
def RecordType.number : RecordType → ℕ
  | .entry => 1
  | .entryBatch => 2
  | .hardState => 3

/-- `RecordHeader`; all sums of its 32-bit fields wrap. -/
structure RecordHeader where
  crc : ℕ := 0
  type : ℕ := 0
  flags : ℕ := 0
  reserved : ℕ := 0
  length : ℕ := 0
  padding : ℕ := 0
  deriving DecidableEq

namespace RecordHeader

/-- The size of a record header. -/
def size : ℕ := 16

/-- The fields that the checksum covers. -/
def covered (h : RecordHeader) : Bytes :=
  leBytes 1 h.type ++ (leBytes 1 h.flags ++ (leBytes 2 h.reserved ++
    (leBytes 4 h.length ++ leBytes 4 h.padding)))

/-- `Serialize`. -/
def serialize (h : RecordHeader) : Bytes := leBytes 4 h.crc ++ h.covered

/-- `Deserialize`. -/
def deserialize : RecordHeader where
  crc := leNat (bytes.take 4)
  type := leNat ((bytes.drop 4).take 1)
  flags := leNat ((bytes.drop 5).take 1)
  reserved := leNat ((bytes.drop 6).take 2)
  length := leNat ((bytes.drop 8).take 4)
  padding := leNat ((bytes.drop 12).take 4)

/-- `CalculatePadding`. -/
def calculatePadding (length : ℕ) : ℕ :=
  let total := (size + length) % 2 ^ 32
  let remainder := total % 8
  if remainder = 0 then 0 else 8 - remainder

/-- `TotalSize`. -/
def totalSize (h : RecordHeader) : ℕ := (size + h.length + h.padding) % 2 ^ 32

/-- The checksum of a record with this header. -/
def checksum [Codec] (h : RecordHeader) (payload : Bytes) : ℕ :=
  Codec.crc32c (h.covered ++ payload) % 2 ^ 32

@[simp]
theorem covered_length (h : RecordHeader) : h.covered.length = 12 := by simp [covered]

@[simp]
theorem serialize_length (h : RecordHeader) : h.serialize.length = size := by
  simp [serialize, size]

/-- A header whose fields have the widths of the source. -/
structure Sized (h : RecordHeader) : Prop where
  crc : h.crc < 2 ^ 32
  type : h.type < 2 ^ 8
  flags : h.flags < 2 ^ 8
  reserved : h.reserved < 2 ^ 16
  length : h.length < 2 ^ 32
  padding : h.padding < 2 ^ 32

theorem deserialize_serialize {h : RecordHeader} (hsized : h.Sized) (rest : Bytes) :
    deserialize (h.serialize ++ rest) = h := by
  have hcrc := hsized.crc
  have htype := hsized.type
  have hflags := hsized.flags
  have hreserved := hsized.reserved
  have hlength := hsized.length
  have hpadding := hsized.padding
  have hcrcBytes : leNat (leBytes 4 h.crc) = h.crc := leNat_leBytes_of_lt (by omega)
  have htypeBytes : leNat (leBytes 1 h.type) = h.type := leNat_leBytes_of_lt (by omega)
  have hflagsBytes : leNat (leBytes 1 h.flags) = h.flags := leNat_leBytes_of_lt (by omega)
  have hreservedBytes : leNat (leBytes 2 h.reserved) = h.reserved :=
    leNat_leBytes_of_lt (by omega)
  have hlengthBytes : leNat (leBytes 4 h.length) = h.length := leNat_leBytes_of_lt (by omega)
  have hpaddingBytes : leNat (leBytes 4 h.padding) = h.padding := leNat_leBytes_of_lt (by omega)
  simp (disch := omega) only [deserialize, serialize, covered, append_assoc,
    drop_leBytes_append, take_leBytes_append, Nat.reduceSub, drop_zero, hcrcBytes,
    htypeBytes, hflagsBytes, hreservedBytes, hlengthBytes, hpaddingBytes]

end RecordHeader

section Build

variable [Codec] {payload : Bytes} {type : RecordType}

/-- The header of a record, with its checksum. -/
def recordHeader (type : RecordType) (payload : Bytes) : RecordHeader :=
  let length := payload.length % 2 ^ 32
  let header : RecordHeader :=
    { type := type.number, length, padding := RecordHeader.calculatePadding length }
  { header with crc := header.checksum payload }

/-- `RecordBuilder::Build`. -/
def buildRecord (type : RecordType) (payload : Bytes) : Bytes :=
  let header := recordHeader type payload
  header.serialize ++ (payload ++ List.replicate header.padding 0)

/-- `RecordParser`: the type and the payload of a valid record. -/
def parseRecord (data : Bytes) : Option (ℕ × Bytes) :=
  if data.length < RecordHeader.size then none
  else
    let header := RecordHeader.deserialize data
    if data.length < RecordHeader.size + header.length + header.padding then none
    else
      let payload := (data.drop RecordHeader.size).take header.length
      if header.checksum payload ≠ header.crc then none
      else some (header.type, payload)

/-- A record begins with its header. -/
theorem recordHeader_sized (type : RecordType) (payload : Bytes) :
    (recordHeader type payload).Sized where
  crc := Nat.mod_lt _ (by decide)
  type := show type.number < 2 ^ 8 by cases type <;> decide
  flags := show 0 < 2 ^ 8 by decide
  reserved := show 0 < 2 ^ 16 by decide
  length := Nat.mod_lt _ (by decide)
  padding := by
    simp only [recordHeader, RecordHeader.calculatePadding]
    split <;> omega

theorem deserialize_buildRecord (type : RecordType) (payload rest : Bytes) :
    RecordHeader.deserialize (buildRecord type payload ++ rest) = recordHeader type payload := by
  rw [buildRecord, append_assoc]
  exact RecordHeader.deserialize_serialize (recordHeader_sized type payload) _

theorem recordHeader_padding_lt (type : RecordType) (payload : Bytes) :
    (recordHeader type payload).padding < 8 := by
  simp only [recordHeader, RecordHeader.calculatePadding]
  split <;> omega

theorem buildRecord_length (type : RecordType) (payload : Bytes) :
    (buildRecord type payload).length =
      16 + payload.length + (recordHeader type payload).padding := by
  simp only [buildRecord, length_append, RecordHeader.serialize_length, RecordHeader.size,
    length_replicate]
  omega

/-- The length of a payload is kept if the record is below 2³² bytes. -/
theorem recordHeader_length (h : (buildRecord type payload).length < 2 ^ 32) :
    (recordHeader type payload).length = payload.length := by
  rw [buildRecord_length] at h
  exact Nat.mod_eq_of_lt (by omega)

/-- Records consist of whole words. -/
theorem buildRecord_words (h : (buildRecord type payload).length < 2 ^ 32) :
    8 ∣ (buildRecord type payload).length := by
  rw [buildRecord_length] at h ⊢
  have hlength : payload.length % 2 ^ 32 = payload.length := Nat.mod_eq_of_lt (by omega)
  have htotal : (16 + payload.length) % 2 ^ 32 = 16 + payload.length :=
    Nat.mod_eq_of_lt (by omega)
  simp only [recordHeader, RecordHeader.calculatePadding, RecordHeader.size, hlength, htotal]
  split <;> omega

/-- The parser reads back what the builder has built. -/
theorem parseRecord_buildRecord (h : (buildRecord type payload).length < 2 ^ 32) :
    parseRecord (buildRecord type payload) = some (type.number, payload) := by
  have hheader : RecordHeader.deserialize (buildRecord type payload) =
      recordHeader type payload := by
    simpa using deserialize_buildRecord type payload []
  have hlength := recordHeader_length h
  have hpayload : ((buildRecord type payload).drop RecordHeader.size).take payload.length =
      payload := take_drop_append (RecordHeader.serialize_length _) rfl
  have hcrc : (recordHeader type payload).checksum payload = (recordHeader type payload).crc :=
    rfl
  have hsize := buildRecord_length type payload
  unfold parseRecord
  simp only [hheader, hlength, hpayload, hcrc]
  rw [if_neg (by simp only [RecordHeader.size]; omega),
    if_neg (by simp only [RecordHeader.size]; omega), if_neg (fun hne => hne rfl)]
  rfl

end Build

end Raftpp
