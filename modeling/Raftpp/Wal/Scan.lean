import Raftpp.Wal.Recover

/-!
# The valid prefix of a segment

`ReplaySegment` on any bytes.  The size of a record is computed twice: in 32 bits by
`TotalSize`, which may wrap, and in 64 bits by `RecordParser`.  `nextRecord_eq_some_iff`
says what passes both computations: a header whose 64-bit size fits in 32 bits and in
the bytes that are there.

`turn` is one turn of the loop, with the bytes it reads by their offsets in the segment,
and `Scans` a whole run of the loop.  Every run comes to an end (`scans_total`), reads
inside the segment, and advances by whole headers; what it computes is what
`replaySegment` returns.
-/

namespace Raftpp

open List RecordHeader WalCodec

/-! ## The size that a header announces -/

/-- The size of a record in 64 bits. -/
def RecordHeader.announced (h : RecordHeader) : ℕ := size + h.length + h.padding

theorem RecordHeader.size_le_announced (h : RecordHeader) : size ≤ h.announced := by
  unfold announced
  omega

theorem RecordHeader.deserialize_take {bytes : Bytes} {n : ℕ} (h : size ≤ n) :
    deserialize (bytes.take n) = deserialize bytes := by
  rw [size] at h
  simp only [deserialize, drop_take, take_take]
  congr 2 <;> congr 1 <;> omega

/-- The payload lies inside the record. -/
theorem payload_take {bytes : Bytes} {length n : ℕ} (h : RecordHeader.size + length ≤ n) :
    ((bytes.take n).drop RecordHeader.size).take length =
      (bytes.drop RecordHeader.size).take length := by
  rw [drop_take, take_take, Nat.min_eq_left (by omega)]

/-- Bytes that do not begin with a valid record. -/
inductive Broken [Codec] (tail : Bytes) : Prop
  | blank (h : ∃ n, tail = List.replicate n 0)
  | shortHeader (h : tail.length < RecordHeader.size)
  | shortRecord (h : tail.length < (deserialize tail).announced)
  | badChecksum (h : (deserialize tail).checksum
      ((tail.drop RecordHeader.size).take (deserialize tail).length) ≠
        (deserialize tail).crc)

/-! ## Records that a builder makes -/

/-- What a `RecordBuilder` is given. -/
structure BuiltRecord where
  type : RecordType
  payload : Bytes
  deriving DecidableEq

namespace BuiltRecord

variable [Codec]

/-- `Build`. -/
def bytes (r : BuiltRecord) : Bytes := buildRecord r.type r.payload

def size (r : BuiltRecord) : ℕ := r.bytes.length

theorem size_ge (r : BuiltRecord) : RecordHeader.size ≤ r.size := by
  rw [size, bytes, buildRecord_length, RecordHeader.size]
  omega

end BuiltRecord

/-- Some records one after the other. -/
def builtBytes [Codec] (records : List BuiltRecord) : Bytes := records.flatMap BuiltRecord.bytes

/-! ## The next record -/

namespace Wal

variable {fuel : ℕ} {st : Replay}

section NextRecord

variable [WalCodec] {bytes payload : Bytes} {total type : ℕ}

/-- The parser checks the size in 64 bits, the checksum and nothing else. -/
theorem parseRecord_eq_some_iff : parseRecord bytes = some (type, payload) ↔
    (deserialize bytes).announced ≤ bytes.length ∧
      (deserialize bytes).checksum payload = (deserialize bytes).crc ∧
      type = (deserialize bytes).type ∧
      payload = (bytes.drop RecordHeader.size).take (deserialize bytes).length := by
  have hheader := (deserialize bytes).size_le_announced
  unfold parseRecord
  dsimp only
  constructor
  · intro h
    split at h
    · cases h
    · split at h
      · cases h
      · split at h
        · cases h
        next hshort hcrc =>
          cases h
          exact ⟨Nat.le_of_not_lt hshort, not_not.mp hcrc, rfl, rfl⟩
  · rintro ⟨hsize, hcrc, rfl, rfl⟩
    have hfits : ¬bytes.length < RecordHeader.size + (deserialize bytes).length +
        (deserialize bytes).padding := Nat.not_lt.mpr hsize
    rw [if_neg (by omega), if_neg hfits, if_neg (not_not.mpr hcrc)]

/-- What passes the checks of a turn: the size in 64 bits fits in 32, so that the size by which
the loop advances is the one that the parser has checked. -/
theorem nextRecord_eq_some_iff : nextRecord bytes = some (total, type, payload) ↔
    ¬((deserialize bytes).length = 0 ∧ (deserialize bytes).type = 0) ∧
      (deserialize bytes).announced < 2 ^ 32 ∧
      (deserialize bytes).announced ≤ bytes.length ∧
      (deserialize bytes).checksum payload = (deserialize bytes).crc ∧
      total = (deserialize bytes).announced ∧
      type = (deserialize bytes).type ∧
      payload = (bytes.drop RecordHeader.size).take (deserialize bytes).length := by
  have hheader := (deserialize bytes).size_le_announced
  have htotal : (deserialize bytes).totalSize =
      (deserialize bytes).announced % 2 ^ 32 := rfl
  have hinside : RecordHeader.size + (deserialize bytes).length ≤
      (deserialize bytes).announced := Nat.le_add_right _ _
  have hdata : ∀ {n}, n ≤ bytes.length → (bytes.take n).length = n :=
    fun hn => length_take_of_le hn
  unfold nextRecord
  dsimp only
  constructor
  · intro h
    split at h
    · cases h
    · split at h
      · cases h
      · split at h
        · cases h
        next hblank hfits =>
          obtain ⟨⟨type', payload'⟩, hparse, heq⟩ := Option.map_eq_some_iff.mp h
          cases heq
          obtain ⟨hsize, hcrc, rfl, rfl⟩ := parseRecord_eq_some_iff.mp hparse
          rw [hdata (Nat.le_of_not_lt hfits)] at hsize
          -- The parser has seen a header only if the wrapped size has room for one.
          have hroom := (deserialize (bytes.take
            (deserialize bytes).totalSize)).size_le_announced.trans hsize
          rw [deserialize_take hroom] at hsize hcrc ⊢
          have hmod := Nat.mod_le (deserialize bytes).announced (2 ^ 32)
          have hlt := Nat.mod_lt (deserialize bytes).announced
            (show 0 < 2 ^ 32 by decide)
          have heq : (deserialize bytes).totalSize =
              (deserialize bytes).announced := by omega
          rw [heq, payload_take hinside] at hcrc ⊢
          exact ⟨hblank, by omega, by omega, hcrc, rfl, rfl, rfl⟩
  · rintro ⟨hblank, hlt, hfits, hcrc, rfl, rfl, rfl⟩
    have heq : (deserialize bytes).totalSize =
        (deserialize bytes).announced := by
      rw [htotal]
      exact Nat.mod_eq_of_lt hlt
    have hparse : parseRecord (bytes.take (deserialize bytes).announced) =
        some ((deserialize bytes).type,
          (bytes.drop RecordHeader.size).take (deserialize bytes).length) := by
      rw [parseRecord_eq_some_iff, deserialize_take hheader, hdata hfits,
        payload_take hinside]
      exact ⟨le_rfl, hcrc, rfl, rfl⟩
    rw [if_neg (by omega), if_neg hblank, heq, if_neg (Nat.not_lt.mpr hfits), hparse]
    rfl

/-- No record begins at bytes that are blank, cut short or damaged. -/
theorem nextRecord_broken (h : Broken bytes) : nextRecord bytes = none := by
  cases hnext : nextRecord bytes with
  | none => rfl
  | some record =>
      obtain ⟨total, type, payload⟩ := record
      obtain ⟨hblank, -, hfits, hcrc, -, -, rfl⟩ := nextRecord_eq_some_iff.mp hnext
      have hheader := (deserialize bytes).size_le_announced
      cases h with
      | blank h =>
          obtain ⟨n, rfl⟩ := h
          refine absurd ⟨?_, ?_⟩ hblank <;>
            simp only [deserialize, drop_replicate, take_replicate,
              leNat_replicate_zero]
      | shortHeader h => omega
      | shortRecord h => omega
      | badChecksum h => exact absurd hcrc h

/-- A record that a builder has made is found. -/
theorem nextRecord_built {r : BuiltRecord} (h : r.size < 2 ^ 32) (rest : Bytes) :
    nextRecord (r.bytes ++ rest) = some (r.size, r.type.number, r.payload) := by
  have hheader : deserialize (r.bytes ++ rest) = recordHeader r.type r.payload :=
    deserialize_buildRecord _ _ _
  have hlength : (recordHeader r.type r.payload).length = r.payload.length :=
    recordHeader_length h
  have hannounced : (recordHeader r.type r.payload).announced = r.size := by
    rw [announced, hlength]
    exact (buildRecord_length r.type r.payload).symm
  have hpayload : ((r.bytes ++ rest).drop RecordHeader.size).take r.payload.length =
      r.payload := by
    rw [BuiltRecord.bytes, buildRecord, append_assoc, append_assoc]
    exact take_drop_append (serialize_length _) rfl
  rw [nextRecord_eq_some_iff, hheader, hlength, hpayload, hannounced]
  refine ⟨?_, h, ?_, rfl, rfl, rfl, rfl⟩
  · rintro ⟨-, hzero⟩
    change r.type.number = 0 at hzero
    cases htype : r.type <;> rw [htype] at hzero <;> exact absurd hzero (by decide)
  · rw [length_append]
    exact Nat.le_add_right _ _

end NextRecord

/-! ## The loop on any bytes -/

section Loop

variable [WalCodec]

/-- The bytes that a parser reads of a record at an offset, for its checksum and its payload. -/
def parserReads (offset : ℕ) (data : Bytes) : List (ℕ × ℕ) :=
  if data.length < (deserialize data).announced then []
  else [(offset + RecordHeader.size, (deserialize data).length)]

/-- The bytes that are read of a batch at an offset, unless the replay fails on the way. -/
def batchReads : ℕ → ℕ → Bytes → List (ℕ × ℕ)
  | 0, _, _ => []
  | fuel + 1, offset, payload =>
      if payload.length < 4 then []
      else
        let length := leNat (payload.take 4)
        let rest := payload.drop 4
        (offset, 4) ::
          if rest.length < length then []
          else (offset + 4, length) :: batchReads fuel (offset + 4 + length) (rest.drop length)

/-- The bytes of a record that are read after it has been parsed. -/
def recordReads (offset type : ℕ) (payload : Bytes) : List (ℕ × ℕ) :=
  if type = RecordType.number .entryBatch then
    batchReads payload.length (offset + RecordHeader.size) payload
  else []

/-- What a turn of the loop ends with. -/
inductive Turn
  | stop (result : Result (Replay × Option ℕ))
  | advance (total : ℕ) (st : Replay)

/-- What becomes of the record at an offset. -/
def takeRecord (first id offset : ℕ) (st : Replay) : Option (ℕ × ℕ × Bytes) → Turn
  | none => .stop (.ok (st, some offset))
  | some (total, type, payload) =>
      match replayRecord first { segmentId := id, offset, length := total, term := 0 } type payload
        st with
      | .error error => .stop (.error error)
      | .ok st => .advance total st

/-- One turn of the loop of `ReplaySegment`, with the offsets and lengths of what it reads. -/
def turn (first id : ℕ) (content : Bytes) (offset : ℕ) (st : Replay) : List (ℕ × ℕ) × Turn :=
  if content.length ≤ offset then ([], .stop (.ok (st, none)))
  else if content.length < offset + RecordHeader.size then ([], .stop (.ok (st, some offset)))
  else
    let header := deserialize ((content.drop offset).take RecordHeader.size)
    if header.length = 0 ∧ header.type = 0 then
      ([(offset, RecordHeader.size)], .stop (.ok (st, some offset)))
    else
      let total := header.totalSize
      if content.length < offset + total then
        ([(offset, RecordHeader.size)], .stop (.ok (st, some offset)))
      else
        let data := (content.drop offset).take total
        let reads := [(offset, RecordHeader.size), (offset, total)] ++ parserReads offset data
        match parseRecord data with
        | none => (reads, .stop (.ok (st, some offset)))
        | some (type, payload) =>
            (reads ++ recordReads offset type payload,
              takeRecord first id offset st (some (total, type, payload)))

/-- A run of the loop from an offset to its end: what it reads, by how much it advances, and its
result. -/
inductive Scans (first id : ℕ) (content : Bytes) :
    ℕ → Replay → List (ℕ × ℕ) → List ℕ → Result (Replay × Option ℕ) → Prop
  | stop {offset : ℕ} {st : Replay} {reads : List (ℕ × ℕ)} {result : Result (Replay × Option ℕ)}
      (h : turn first id content offset st = (reads, .stop result)) :
      Scans first id content offset st reads [] result
  | advance {offset total : ℕ} {st st' : Replay} {reads reads' : List (ℕ × ℕ)}
      {advances : List ℕ} {result : Result (Replay × Option ℕ)}
      (h : turn first id content offset st = (reads, .advance total st'))
      (hrest : Scans first id content (offset + total) st' reads' advances result) :
      Scans first id content offset st (reads ++ reads') (total :: advances) result

variable {first id offset total : ℕ} {content : Bytes} {st st' : Replay}
  {reads : List (ℕ × ℕ)} {advances : List ℕ} {result : Result (Replay × Option ℕ)}

/-- A turn takes the next record. -/
theorem turn_snd (first id offset : ℕ) (content : Bytes) (st : Replay) :
    (turn first id content offset st).2 =
      if content.length ≤ offset then .stop (.ok (st, none))
      else takeRecord first id offset st (nextRecord (content.drop offset)) := by
  have hlength : (content.drop offset).length = content.length - offset := length_drop
  unfold turn nextRecord
  by_cases hend : content.length ≤ offset
  · rw [if_pos hend, if_pos hend]
  rw [if_neg hend, if_neg hend]
  by_cases hshort : content.length < offset + RecordHeader.size
  · have hdrop : (content.drop offset).length < RecordHeader.size := by omega
    rw [if_pos hshort, if_pos hdrop]
    rfl
  have hroom : ¬(content.drop offset).length < RecordHeader.size := by omega
  rw [if_neg hshort, if_neg hroom]
  dsimp only
  rw [deserialize_take le_rfl]
  by_cases hblank : (deserialize (content.drop offset)).length = 0 ∧
      (deserialize (content.drop offset)).type = 0
  · rw [if_pos hblank, if_pos hblank]
    rfl
  rw [if_neg hblank, if_neg hblank]
  by_cases hfits : content.length <
      offset + (deserialize (content.drop offset)).totalSize
  · have hdrop : (content.drop offset).length <
        (deserialize (content.drop offset)).totalSize := by omega
    rw [if_pos hfits, if_pos hdrop]
    rfl
  have hwhole : ¬(content.drop offset).length <
      (deserialize (content.drop offset)).totalSize := by omega
  rw [if_neg hfits, if_neg hwhole]
  cases parseRecord ((content.drop offset).take
      (deserialize (content.drop offset)).totalSize) with
  | none => rfl
  | some record => rfl

/-- The loop advances by a whole record inside the segment. -/
theorem turn_advance (h : (turn first id content offset st).2 = .advance total st') :
    RecordHeader.size ≤ total ∧ offset + total ≤ content.length ∧ offset < content.length := by
  rw [turn_snd] at h
  split at h
  · cases h
  next hend =>
    cases hnext : nextRecord (content.drop offset) with
    | none =>
        rw [hnext] at h
        cases h
    | some record =>
        obtain ⟨total', type, payload⟩ := record
        rw [hnext] at h
        obtain ⟨-, -, hfits, -, rfl, -, -⟩ := nextRecord_eq_some_iff.mp hnext
        rw [length_drop] at hfits
        have hheader := (deserialize (content.drop offset)).size_le_announced
        unfold takeRecord at h
        dsimp only at h
        split at h
        · cases h
        · cases h
          exact ⟨hheader, by omega, by omega⟩

omit [WalCodec] in
theorem batchReads_le {payload : Bytes} :
    ∀ read ∈ batchReads fuel offset payload, read.1 + read.2 ≤ offset + payload.length := by
  induction fuel generalizing offset payload with
  | zero => exact fun _ h => absurd h not_mem_nil
  | succ fuel ih =>
      intro read hread
      unfold batchReads at hread
      dsimp only at hread
      split at hread
      · exact absurd hread not_mem_nil
      next hfour =>
        rcases mem_cons.mp hread with rfl | hread
        · change offset + 4 ≤ _
          omega
        · split at hread
          · exact absurd hread not_mem_nil
          next hlength =>
            rw [length_drop] at hlength
            rcases mem_cons.mp hread with rfl | hread
            · change offset + 4 + _ ≤ _
              omega
            · have hrest := ih read hread
              rw [length_drop, length_drop] at hrest
              omega

/-- A turn reads inside the segment. -/
theorem turn_reads : ∀ read ∈ (turn first id content offset st).1,
    read.1 + read.2 ≤ content.length := by
  intro read hread
  unfold turn at hread
  split at hread
  · exact absurd hread not_mem_nil
  split at hread
  · exact absurd hread not_mem_nil
  next hend hheader =>
  have hfirst : offset + RecordHeader.size ≤ content.length := by omega
  dsimp only at hread
  split at hread
  · cases mem_singleton.mp hread
    exact hfirst
  split at hread
  · cases mem_singleton.mp hread
    exact hfirst
  next hblank hfits =>
  generalize htotal : (deserialize
    ((content.drop offset).take RecordHeader.size)).totalSize = total at hread hfits
  have hsecond : offset + total ≤ content.length := by omega
  have hdata : ((content.drop offset).take total).length = total := by
    rw [length_take, length_drop]
    omega
  have hparser : ∀ read ∈ [(offset, RecordHeader.size), (offset, total)] ++
      parserReads offset ((content.drop offset).take total), read.1 + read.2 ≤ content.length := by
    intro read hread
    rcases mem_append.mp hread with hread | hread
    · rcases mem_cons.mp hread with rfl | hread
      · exact hfirst
      · cases mem_singleton.mp hread
        exact hsecond
    · unfold parserReads at hread
      split at hread
      · exact absurd hread not_mem_nil
      next hroom =>
        cases mem_singleton.mp hread
        rw [hdata, announced] at hroom
        change offset + RecordHeader.size + _ ≤ _
        omega
  cases hparse : parseRecord ((content.drop offset).take total) with
  | none =>
      rw [hparse] at hread
      exact hparser read hread
  | some record =>
      obtain ⟨type, payload⟩ := record
      rw [hparse] at hread
      rcases mem_append.mp hread with hread | hread
      · exact hparser read hread
      · obtain ⟨hroom, -, -, hpayload⟩ := parseRecord_eq_some_iff.mp hparse
        have hlength : RecordHeader.size + payload.length ≤ total := by
          rw [hdata, announced] at hroom
          have htake : payload.length ≤ _ := hpayload ▸ length_take_le _ _
          omega
        unfold recordReads at hread
        split at hread
        · have hbatch := batchReads_le read hread
          omega
        · exact absurd hread not_mem_nil

/-- The loop comes to an end. -/
theorem scans_total (first id : ℕ) (content : Bytes) (offset : ℕ) (st : Replay) :
    ∃ reads advances result, Scans first id content offset st reads advances result := by
  -- Every turn that goes on leaves fewer bytes behind the offset.
  induction hleft : content.length - offset using Nat.strong_induction_on
    generalizing offset st with
  | _ left ih =>
      cases hturn : (turn first id content offset st).2 with
      | stop result => exact ⟨_, _, _, .stop (Prod.ext rfl hturn)⟩
      | advance total st' =>
          obtain ⟨hheader, hfits, hlt⟩ := turn_advance hturn
          have hpos : 0 < RecordHeader.size := by decide
          obtain ⟨reads, advances, result, hrest⟩ :=
            ih (content.length - (offset + total)) (by omega) (offset + total) st' rfl
          exact ⟨_, _, _, .advance (Prod.ext rfl hturn) hrest⟩

/-- A run reads inside the segment. -/
theorem Scans.reads_le (h : Scans first id content offset st reads advances result) :
    ∀ read ∈ reads, read.1 + read.2 ≤ content.length := by
  induction h with
  | stop h =>
      intro read hread
      exact turn_reads read (by rwa [h])
  | advance h hrest ih =>
      intro read hread
      rcases mem_append.mp hread with hread | hread
      · exact turn_reads read (by rwa [h])
      · exact ih read hread

/-- A run advances by whole headers. -/
theorem Scans.advances_ge (h : Scans first id content offset st reads advances result) :
    ∀ total ∈ advances, RecordHeader.size ≤ total := by
  induction h with
  | stop h => exact fun _ hmem => absurd hmem not_mem_nil
  | advance h hrest ih =>
      intro total hmem
      rcases mem_cons.mp hmem with rfl | hmem
      · exact (turn_advance (congrArg Prod.snd h)).1
      · exact ih total hmem

/-- A run computes what the replay of the bytes behind its offset returns. -/
theorem Scans.replayLoop (h : Scans first id content offset st reads advances result)
    (hfuel : content.length - offset < fuel) :
    Wal.replayLoop first id fuel offset (content.drop offset) st = result := by
  induction h generalizing fuel with
  | @stop offset st reads result h =>
      obtain ⟨fuel, rfl⟩ : ∃ k, fuel = k + 1 := ⟨fuel - 1, by omega⟩
      have hturn := (turn_snd first id offset content st).symm.trans (congrArg Prod.snd h)
      rw [Wal.replayLoop]
      by_cases hend : content.length ≤ offset
      · rw [if_pos hend] at hturn
        rw [if_pos (drop_eq_nil_of_le hend)]
        exact Turn.stop.inj hturn
      · rw [if_neg hend] at hturn
        rw [if_neg (by rwa [drop_eq_nil_iff])]
        cases hnext : nextRecord (content.drop offset) with
        | none =>
            rw [hnext] at hturn
            exact Turn.stop.inj hturn
        | some record =>
            obtain ⟨total, type, payload⟩ := record
            rw [hnext, takeRecord] at hturn
            dsimp only at hturn ⊢
            cases hrecord : replayRecord first
                { segmentId := id, offset, length := total, term := 0 } type payload st with
            | error error =>
                rw [hrecord] at hturn
                exact Turn.stop.inj hturn
            | ok st' =>
                rw [hrecord] at hturn
                cases hturn
  | @advance offset total st st' reads reads' advances result h hrest ih =>
      obtain ⟨fuel, rfl⟩ : ∃ k, fuel = k + 1 := ⟨fuel - 1, by omega⟩
      obtain ⟨hheader, hfits, hlt⟩ := turn_advance (congrArg Prod.snd h)
      have hpos : 0 < RecordHeader.size := by decide
      have hturn := (turn_snd first id offset content st).symm.trans (congrArg Prod.snd h)
      rw [if_neg (Nat.not_le.mpr hlt)] at hturn
      rw [Wal.replayLoop, if_neg (by rw [drop_eq_nil_iff]; omega)]
      cases hnext : nextRecord (content.drop offset) with
      | none =>
          rw [hnext] at hturn
          cases hturn
      | some record =>
          obtain ⟨total', type, payload⟩ := record
          rw [hnext, takeRecord] at hturn
          dsimp only at hturn ⊢
          cases hrecord : replayRecord first
              { segmentId := id, offset, length := total', term := 0 } type payload st with
          | error error =>
              rw [hrecord] at hturn
              cases hturn
          | ok st'' =>
              rw [hrecord] at hturn
              cases hturn
              change Wal.replayLoop first id fuel (offset + total)
                ((content.drop offset).drop total) st' = result
              rw [drop_drop]
              exact ih (by omega)

end Loop

/-! ## Records in front of a broken tail -/

section Prefix

variable [WalCodec] {first id : ℕ} {records : List BuiltRecord}

/-- The records of a segment from an offset on, one after the other. -/
def replayBuilt (first id : ℕ) : ℕ → List BuiltRecord → Replay → Result Replay
  | _, [], st => .ok st
  | offset, r :: rs, st => do
      let st ← replayRecord first { segmentId := id, offset, length := r.size, term := 0 }
        r.type.number r.payload st
      replayBuilt first id (offset + r.size) rs st

/-- The loop takes every record and stops at the bytes behind them. -/
theorem replayLoop_built (hsize : ∀ r ∈ records, r.size < 2 ^ 32) {tail : Bytes}
    (htail : nextRecord tail = none) {offset : ℕ}
    (hfuel : (builtBytes records ++ tail).length < fuel) :
    replayLoop first id fuel offset (builtBytes records ++ tail) st =
      (replayBuilt first id offset records st).map fun st =>
        (st, if tail = [] then none else some (offset + (builtBytes records).length)) := by
  induction records generalizing fuel offset st with
  | nil =>
      obtain ⟨fuel, rfl⟩ : ∃ k, fuel = k + 1 := ⟨fuel - 1, by omega⟩
      change replayLoop first id (fuel + 1) offset tail st = _
      rw [replayLoop, replayBuilt]
      by_cases hnil : tail = []
      · rw [if_pos hnil]
        simp only [Except.map, if_pos hnil]
      · rw [if_neg hnil, htail]
        simp only [Except.map, if_neg hnil]
        rfl
  | cons r rs ih =>
      obtain ⟨fuel, rfl⟩ : ∃ k, fuel = k + 1 := ⟨fuel - 1, by omega⟩
      have hheader := r.size_ge
      have hbytes : builtBytes (r :: rs) ++ tail = r.bytes ++ (builtBytes rs ++ tail) :=
        append_assoc _ _ _
      have hlength : (builtBytes (r :: rs)).length = r.size + (builtBytes rs).length :=
        length_append
      have hne : r.bytes ++ (builtBytes rs ++ tail) ≠ [] := by
        intro hnil
        rw [BuiltRecord.size, (append_eq_nil_iff.mp hnil).1] at hheader
        exact absurd hheader (by decide)
      have hrest : ∀ st, replayLoop first id fuel (offset + r.size) (builtBytes rs ++ tail) st =
          (replayBuilt first id (offset + r.size) rs st).map fun st =>
            (st, if tail = [] then none else some (offset + r.size + (builtBytes rs).length)) := by
        intro st
        apply ih (fun s hs => hsize s (mem_cons_of_mem _ hs))
        rw [hbytes, length_append, ← BuiltRecord.size] at hfuel
        have hpos : 0 < RecordHeader.size := by decide
        omega
      rw [hbytes, replayLoop, if_neg hne, nextRecord_built (hsize r mem_cons_self)]
      dsimp only
      rw [drop_left' (show r.bytes.length = r.size from rfl), replayBuilt, hlength, ← Nat.add_assoc]
      cases replayRecord first { segmentId := id, offset, length := r.size, term := 0 }
          r.type.number r.payload st with
      | error error => rfl
      | ok st => exact hrest st

/-- The index that the next entry of a log has. -/
def expectedIndex (first : ℕ) (st : Replay) : ℕ :=
  if st.index.entries = [] then first else st.index.lastIndex + 1

/-- What a record of an entry or of a hard state does to a replay.  An entry below `first` is
compacted; a payload that cannot be decoded is skipped. -/
def process (first : ℕ) (info : IndexEntry) (r : BuiltRecord) (st : Replay) : Replay :=
  match r.type with
  | .entry =>
      match entryOfBytes (payloadWords r.payload) with
      | none => st
      | some e =>
          if first ≤ e.index then
            { st with index := st.index.insert e.index { info with term := e.term } }
          else st
  | .entryBatch => st
  | .hardState => replayHardState r.payload st

/-- Records are processed in order, each under the offset at which it begins. -/
def processAll (first id : ℕ) : ℕ → List BuiltRecord → Replay → Replay
  | _, [], st => st
  | offset, r :: rs, st =>
      processAll first id (offset + r.size) rs
        (process first { segmentId := id, offset, length := r.size, term := 0 } r st)

/-- The entries of some records continue the log that has been recovered before each of them. -/
def Continues (first id : ℕ) : ℕ → List BuiltRecord → Replay → Prop
  | _, [], _ => True
  | offset, r :: rs, st =>
      (r.type = .entry → ∀ e, entryOfBytes (payloadWords r.payload) = some e →
        first ≤ e.index → e.index = expectedIndex first st) ∧
      Continues first id (offset + r.size) rs
        (process first { segmentId := id, offset, length := r.size, term := 0 } r st)

theorem replayRecord_process {info : IndexEntry} {r : BuiltRecord} (hbatch : r.type ≠ .entryBatch)
    (hnext : r.type = .entry → ∀ e, entryOfBytes (payloadWords r.payload) = some e →
      first ≤ e.index → e.index = expectedIndex first st) :
    replayRecord first info r.type.number r.payload st = .ok (process first info r st) := by
  unfold replayRecord process
  cases htype : r.type with
  | entryBatch => exact absurd htype hbatch
  | hardState =>
      rw [if_neg (by decide), if_neg (by decide), if_pos rfl]
  | entry =>
      rw [if_pos rfl]
      dsimp only
      cases hdecode : entryOfBytes (payloadWords r.payload) with
      | none => rfl
      | some e =>
          dsimp only
          unfold replayEntry
          by_cases hfirst : first ≤ e.index
          · have hindex := hnext htype e hdecode hfirst
            rw [if_pos (show e.index ≥ first from hfirst), if_pos hfirst]
            exact if_neg (not_not.mpr hindex)
          · rw [if_neg (show ¬e.index ≥ first from hfirst), if_neg hfirst]

/-- Records that continue the log are all taken. -/
theorem replayBuilt_process {offset : ℕ} (hbatch : ∀ r ∈ records, r.type ≠ .entryBatch)
    (hcontinues : Continues first id offset records st) :
    replayBuilt first id offset records st = .ok (processAll first id offset records st) := by
  induction records generalizing offset st with
  | nil => rfl
  | cons r rs ih =>
      obtain ⟨hnext, hrest⟩ := hcontinues
      rw [replayBuilt, replayRecord_process (hbatch r mem_cons_self) hnext]
      exact ih (fun s hs => hbatch s (mem_cons_of_mem _ hs)) hrest

end Prefix

/-! ## The segment -/

/-- A segment has been opened with this content. -/
structure Opened (m : SegmentManager) (s : Segment) (content : Bytes) : Prop where
  find : m.find s.segmentId = some s
  file : m.files.get s.path = some content
  offset : s.writeOffset = content.length

/-- `Segment::Truncate` where the loop has stopped, if it has cut anything off. -/
def cutSegment (m : SegmentManager) (s : Segment) : Option ℕ → SegmentManager
  | none => m
  | some offset =>
      { m.modifySegment s.segmentId fun s => { s with writeOffset := offset } with
        files := m.files.modify s.path fun file => truncateBytes file offset }

section Segment

variable {m : SegmentManager} {s : Segment} {content : Bytes} {first : ℕ}

theorem Opened.bytesOf (h : Opened m s content) :
    ((m.bytesOf s).take s.writeOffset).drop SegmentHeader.size =
      content.drop SegmentHeader.size := by
  have hbytes : m.bytesOf s = content := by
    rw [SegmentManager.bytesOf, h.file]
    rfl
  rw [hbytes, h.offset, take_length]

theorem replaySegment_eq [WalCodec] (h : Opened m s content) (st : Replay) :
    replaySegment first s m st =
      (replayLoop first s.segmentId ((content.drop SegmentHeader.size).length + 1)
        SegmentHeader.size (content.drop SegmentHeader.size) st).map fun r =>
          (cutSegment m s r.2, r.1) := by
  unfold replaySegment
  dsimp only
  rw [h.bytesOf]
  cases replayLoop first s.segmentId ((content.drop SegmentHeader.size).length + 1)
      SegmentHeader.size (content.drop SegmentHeader.size) st with
  | error error => rfl
  | ok r =>
      obtain ⟨st', cut⟩ := r
      cases cut with
      | none => rfl
      | some offset => rfl

/-- Cutting a segment changes this segment and its file only. -/
theorem Opened.cut {kept tail : Bytes} (h : Opened m s (kept ++ tail)) {cut : Option ℕ}
    (hcut : cut = if tail = [] then none else some kept.length) :
    Opened (cutSegment m s cut) { s with writeOffset := kept.length } kept ∧
      (∀ id, id ≠ s.segmentId → (cutSegment m s cut).find id = m.find id) ∧
      ∀ path, path ≠ s.path → (cutSegment m s cut).files.get path = m.files.get path := by
  subst hcut
  split
  next hnil =>
    subst hnil
    have hfile := h.file
    have hoffset := h.offset
    rw [append_nil] at hfile hoffset
    have hsame : { s with writeOffset := kept.length } = s := by rw [← hoffset]
    rw [hsame]
    exact ⟨⟨h.find, hfile, hoffset⟩, fun _ _ => rfl, fun _ _ => rfl⟩
  next =>
    have hfind : ∀ id, (cutSegment m s (some kept.length)).find id =
        (m.find id).map fun t =>
          if t.segmentId = s.segmentId then { t with writeOffset := kept.length } else t := by
      intro id
      unfold cutSegment SegmentManager.find SegmentManager.modifySegment
      rw [find?_map]
      congr 1
      congr 1
      funext t
      rw [Function.comp_apply]
      split <;> rfl
    have hfile : truncateBytes (kept ++ tail) kept.length = kept := by
      unfold truncateBytes
      rw [append_assoc, take_left]
    refine ⟨⟨?_, ?_, rfl⟩, fun id hid => ?_, fun path hpath => ?_⟩
    · change (cutSegment m s (some kept.length)).find s.segmentId = _
      rw [hfind, h.find, Option.map_some, if_pos rfl]
    · change (m.files.modify s.path fun file => truncateBytes file kept.length).get s.path = _
      rw [ListMap.get_modify, if_pos rfl, h.file, Option.map_some, hfile]
    · rw [hfind]
      cases hother : m.find id with
      | none => rfl
      | some t =>
          have hid' : t.segmentId = id := by simpa using find?_some hother
          rw [Option.map_some, if_neg (by rw [hid']; exact hid)]
    · change (m.files.modify s.path fun file => truncateBytes file kept.length).get path = _
      rw [ListMap.get_modify, if_neg hpath]

/-- The replay of a segment keeps exactly its valid prefix: records of entries and hard states
that continue the log are processed in order, and the segment is cut at their end.  On any
content the loop comes to an end, reads inside the segment, and advances by whole headers. -/
theorem replaySegment_keeps_prefix [WalCodec] (m : SegmentManager) (s : Segment) (first : ℕ)
    (st : Replay) :
    (∀ (header : SegmentHeader) (records : List BuiltRecord) (tail : Bytes),
      Opened m s (header.serialize ++ builtBytes records ++ tail) →
      (∀ r ∈ records, r.type ≠ .entryBatch ∧ r.size < 2 ^ 32) →
      Continues first s.segmentId SegmentHeader.size records st → Broken tail →
      ∃ m', replaySegment first s m st =
          .ok (m', processAll first s.segmentId SegmentHeader.size records st) ∧
        Opened m' { s with writeOffset := (header.serialize ++ builtBytes records).length }
          (header.serialize ++ builtBytes records) ∧
        (∀ id, id ≠ s.segmentId → m'.find id = m.find id) ∧
        ∀ path, path ≠ s.path → m'.files.get path = m.files.get path) ∧
    ∀ content, Opened m s content →
      ∃ reads advances result,
        Scans first s.segmentId content SegmentHeader.size st reads advances result ∧
        (replaySegment first s m st = result.map fun r => (cutSegment m s r.2, r.1)) ∧
        (∀ read ∈ reads, read.1 + read.2 ≤ s.writeOffset) ∧
        ∀ total ∈ advances, RecordHeader.size ≤ total := by
  refine ⟨fun header records tail hopened hrecords hcontinues hbroken => ?_,
    fun content hopened => ?_⟩
  · have hdrop : (header.serialize ++ builtBytes records ++ tail).drop SegmentHeader.size =
        builtBytes records ++ tail := by
      rw [append_assoc, drop_left' header.serialize_length]
    have hloop : replayLoop first s.segmentId ((builtBytes records ++ tail).length + 1)
        SegmentHeader.size (builtBytes records ++ tail) st =
        (replayBuilt first s.segmentId SegmentHeader.size records st).map _ :=
      replayLoop_built (fun r hr => (hrecords r hr).2) (nextRecord_broken hbroken)
        (Nat.lt_succ_self _)
    rw [replayBuilt_process (fun r hr => (hrecords r hr).1) hcontinues] at hloop
    have hlength : SegmentHeader.size + (builtBytes records).length =
        (header.serialize ++ builtBytes records).length := by
      rw [length_append, header.serialize_length]
    refine ⟨_, ?_, hopened.cut rfl⟩
    rw [replaySegment_eq hopened, hdrop, hloop, hlength]
    rfl
  · obtain ⟨reads, advances, result, hscan⟩ :=
      scans_total first s.segmentId content SegmentHeader.size st
    refine ⟨reads, advances, result, hscan, ?_, ?_, hscan.advances_ge⟩
    · rw [replaySegment_eq hopened, hscan.replayLoop]
      rw [length_drop]
      exact Nat.lt_succ_self _
    · rw [hopened.offset]
      exact hscan.reads_le

/-- The records of an entry and of a hard state. -/
def twoRecords : List BuiltRecord :=
  [⟨.entry, plainEntryBytes { term := 1, index := 1 }⟩,
    ⟨.hardState, plainHardStateBytes { term := 2, vote := 1, commit := 1 }⟩]

/-- Two records are followed by blank bytes: both are processed, and the blank bytes are cut. -/
theorem replaySegment_keeps_two :
    letI := WalCodec.plain
    let kept := SegmentHeader.serialize { segmentId := 0, firstIndex := 1 } ++
      builtBytes twoRecords
    let s : Segment :=
      { path := 0, segmentId := 0, firstIndex := 1, writeOffset := kept.length + 40 }
    let m : SegmentManager :=
      { segments := [s], files := [(0, kept ++ List.replicate 40 0)] }
    let st : Replay := { index := {}, hardState := {} }
    (∃ m', replaySegment 1 s m st = .ok (m', processAll 1 0 SegmentHeader.size twoRecords st) ∧
      m'.files.get 0 = some kept) ∧
    (processAll 1 0 SegmentHeader.size twoRecords st).index.entries.length = 1 ∧
    (processAll 1 0 SegmentHeader.size twoRecords st).hardState.term = 2 ∧
    ∃ reads advances result,
      Scans 1 0 (kept ++ List.replicate 40 0) SegmentHeader.size st reads advances result := by
  let _ := WalCodec.plain
  intro kept s m st
  have hopened : Opened m s (kept ++ List.replicate 40 0) :=
    ⟨find?_cons_of_pos (decide_eq_true rfl), rfl,
      by rw [length_append, length_replicate]⟩
  have hdecode : (entryOfBytes (payloadWords
      (plainEntryBytes { term := 1, index := 1 }))).map Entry.index = some 1 := by decide +kernel
  have hcontinues : Continues 1 0 SegmentHeader.size twoRecords st := by
    refine ⟨fun _ e he _ => ?_, fun htype => ?_, trivial⟩
    · rw [he] at hdecode
      exact Option.some.inj hdecode
    · cases htype
  obtain ⟨m', hreplay, hkept, -⟩ := ( replaySegment_keeps_prefix m s 1 st).1
    { segmentId := 0, firstIndex := 1 } twoRecords (List.replicate 40 0) hopened
    (by decide +kernel) hcontinues (.blank ⟨40, rfl⟩)
  obtain ⟨reads, advances, result, hscan, -⟩ :=
    ( replaySegment_keeps_prefix m s 1 st).2 _ hopened
  exact ⟨⟨m', hreplay, hkept.file⟩, by decide +kernel, by decide +kernel, reads, advances, result,
    hscan⟩

end Segment

end Wal

end Raftpp
