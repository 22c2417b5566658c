import GalaxDb.Storage.WalRecovery

/-!
# Damaged logs

What recovery makes of the bytes behind the last record. They end the log quietly unless
they look like a record whose payload is longer than the file, which is an error.
-/

namespace GalaxDb

open List

namespace WalRecord

variable {codec : WalCodec}

instance (codec : WalCodec) (payload : Bytes) : Decidable (Fits codec payload) :=
  inferInstanceAs (Decidable (_ < _))

/-- The front of the input reads as a record. -/
def Starts (codec : WalCodec) (input : Bytes) : Prop :=
  ∃ r rest, deserialize codec input = .ok (some (r, rest))

instance (codec : WalCodec) (input : Bytes) : Decidable (Starts codec input) :=
  match h : deserialize codec input with
  | .ok (some (r, rest)) => isTrue ⟨r, rest, h⟩
  | .ok none => isFalse (by rintro ⟨r, rest, eq⟩; rw [h] at eq; cases eq)
  | .error e => isFalse (by rintro ⟨r, rest, eq⟩; rw [h] at eq; cases eq)

/-- A whole header with a known type, whose payload goes on past the end of the input. -/
def TornPayload (input : Bytes) : Prop :=
  21 ≤ input.length ∧ (WalRecordType.fromU8 (input.headD 0)).isSome ∧
    input.length < 21 + Bytes.ofLe ((input.drop 9).take 4)

instance (input : Bytes) : Decidable (TornPayload input) :=
  inferInstanceAs (Decidable (_ ∧ _ ∧ _))

theorem deserialize_eof_iff (codec : WalCodec) (input : Bytes) :
    deserialize codec input = .error .unexpectedEof ↔ TornPayload input := by
  by_cases short : input.length < 21
  · have header : (input.take 21).length < 21 := by
      rw [length_take]
      omega
    simp only [deserialize, if_pos header, TornPayload, reduceCtorEq, false_iff]
    omega
  have long : 21 ≤ input.length := not_lt.mp short
  have header : ¬ (input.take 21).length < 21 := by
    rw [length_take]
    omega
  have head : (input.take 21).headD 0 = input.headD 0 := by
    cases input with
    | nil => rfl
    | cons b rest => rfl
  have field : ((input.take 21).drop 9).take 4 = (input.drop 9).take 4 := by
    rw [drop_take, take_take]
    rfl
  simp only [deserialize, if_neg header, head, field, TornPayload]
  cases known : WalRecordType.fromU8 (input.headD 0) with
  | none => simp
  | some t =>
    generalize Bytes.ofLe ((input.drop 9).take 4) = length
    have cut : ((input.drop 21).take length).length < length ↔ input.length < 21 + length := by
      rw [length_take, length_drop]
      omega
    simp only [cut, Option.isSome_some, true_and, long]
    by_cases torn : input.length < 21 + length
    · simp [torn]
    · simp only [torn, if_false, iff_false]
      split
      · simp
      · split <;> simp

/-- Bytes of no known type are no record, and no torn one. -/
theorem unknown_ends {input : Bytes} (unknown : WalRecordType.fromU8 (input.headD 0) = none) :
    ¬ Starts codec input ∧ ¬ TornPayload input := by
  have torn : ¬ TornPayload input := by
    rintro ⟨_, known, _⟩
    rw [unknown] at known
    cases known
  refine ⟨?_, torn⟩
  rintro ⟨r, rest, read⟩
  have head : (input.take 21).headD 0 = input.headD 0 := by
    cases input with
    | nil => rfl
    | cons b rest => rfl
  simp only [deserialize, head, unknown] at read
  split at read <;> cases read

end WalRecord

namespace Wal

variable {codec : WalCodec}

/-- Reading ends where it stands exactly if the input is no record and no torn one. -/
theorem readRecords_eq_nil_iff (fuel : Nat) (input : Bytes) :
    readRecords codec (fuel + 1) input = .ok [] ↔
      ¬ WalRecord.Starts codec input ∧ ¬ WalRecord.TornPayload input := by
  rw [← WalRecord.deserialize_eof_iff codec, readRecords, WalRecord.Starts]
  cases h : WalRecord.deserialize codec input with
  | error e => cases e <;> simp
  | ok read =>
    cases read with
    | none => simp
    | some pair =>
      obtain ⟨r, rest⟩ := pair
      simp only [not_exists, Except.ok.injEq, Option.some.injEq, Prod.mk.injEq]
      constructor
      · intro stopped
        split at stopped <;> simp at stopped
      · rintro ⟨fresh, _⟩
        exact absurd ⟨rfl, rfl⟩ (fresh r rest)

theorem readRecords_torn {input : Bytes} (torn : WalRecord.TornPayload input) (fuel : Nat) :
    readRecords codec (fuel + 1) input = .error .unexpectedEof := by
  rw [readRecords, (WalRecord.deserialize_eof_iff codec input).mpr torn]

variable {records : List WalRecord}

/-- The records at the front are read first, whatever comes behind them. -/
theorem readRecords_append (lossless : codec.Lossless)
    (fits : ∀ r ∈ records, WalRecord.Fits codec r.payload) (fuel : Nat) (behind : Bytes) :
    readRecords codec (records.length + fuel) (serializeAll codec records ++ behind) =
      (readRecords codec fuel behind).map (records.map WalRecord.stored ++ ·) := by
  induction records with
  | nil =>
    simp only [serializeAll, flatMap_nil, nil_append, length_nil, zero_add, map_nil]
    cases readRecords codec fuel behind <;> rfl
  | cons r rest ih =>
    have head := WalRecord.deserialize_serialize lossless (fits r mem_cons_self)
      (serializeAll codec rest ++ behind)
    have tail := ih fun r hr => fits r (mem_cons_of_mem _ hr)
    rw [serializeAll, flatMap_cons, append_assoc]
    rw [serializeAll] at head tail
    rw [length_cons, add_right_comm, readRecords, head]
    simp only [tail]
    cases readRecords codec fuel behind <;> rfl

theorem map_stored (numbers : ∀ r ∈ records, r.seqNo < 2 ^ 64) :
    records.map WalRecord.stored = records := by
  rw [map_congr_left (g := id) fun r hr => ?_, map_id]
  rw [WalRecord.stored, Nat.mod_eq_of_lt (numbers r hr)]
  rfl

/-- With at least one step more than there are records, the read is exactly those records if
and only if nothing behind them is a record or a torn one. -/
theorem readRecords_exact_iff (lossless : codec.Lossless)
    (fits : ∀ r ∈ records, WalRecord.Fits codec r.payload) {fuel : Nat}
    (enough : records.length < fuel) (behind : Bytes) :
    readRecords codec fuel (serializeAll codec records ++ behind) =
        .ok (records.map WalRecord.stored) ↔
      ¬ WalRecord.Starts codec behind ∧ ¬ WalRecord.TornPayload behind := by
  obtain ⟨more, rfl⟩ : ∃ more, fuel = records.length + (more + 1) :=
    ⟨fuel - records.length - 1, by omega⟩
  rw [readRecords_append lossless fits, ← readRecords_eq_nil_iff more]
  cases readRecords codec (more + 1) behind with
  | error e => simp [Except.map]
  | ok later => simp [Except.map]

/-- `max_seq_no` of the records read. -/
def maxSeqNo (records : List WalRecord) : Nat :=
  records.foldl (fun m r => max m r.seqNo) 0

/-- Both results of `recover_wal`: the records after the last checkpoint and the next
sequence number, which is a `u64`. -/
def recover (codec : WalCodec) (file : Bytes) : Except IoError (List WalRecord × Nat) :=
  match dataStart file with
  | .error e => .error e
  | .ok start =>
    if file.length ≤ start then .ok ([], 1)
    else
      match readRecords codec file.length (file.drop start) with
      | .error e => .error e
      | .ok records => .ok (afterCheckpoint records, (maxSeqNo records + 1) % 2 ^ 64)

/-- Recovery returns the records after the last checkpoint, and one more than the greatest
sequence number. -/
def Recovers (codec : WalCodec) (file : Bytes) (records : List WalRecord) : Prop :=
  recover codec file = .ok (afterCheckpoint records, 1 + maxSeqNo records)

theorem dataStart_length {file : Bytes} (begins : dataStart file = .ok headerSize) :
    headerSize ≤ file.length := by
  unfold dataStart at begins
  split at begins
  · cases begins
  · split at begins
    · cases begins
    · rename_i whole
      rw [length_take] at whole
      omega

instance (codec : WalCodec) (file : Bytes) (records : List WalRecord) :
    Decidable (Recovers codec file records) :=
  inferInstanceAs (Decidable (_ = _))

/-- Damage behind the records is survived unless it looks like a record that the file cuts
short; a record of the greatest number leaves none for the next one. -/
theorem recovers_iff_not_torn (lossless : codec.Lossless) {file : Bytes}
    {records : List WalRecord} {tail : Bytes} (begins : dataStart file = .ok headerSize)
    (layout : file.drop headerSize = serializeAll codec records ++ tail)
    (numbers : ∀ r ∈ records, r.seqNo < 2 ^ 64)
    (fits : ∀ r ∈ records, WalRecord.Fits codec r.payload)
    (damaged : ¬ WalRecord.Starts codec tail) :
    Recovers codec file records ↔ ¬ WalRecord.TornPayload tail ∧ maxSeqNo records + 1 < 2 ^ 64 := by
  have header := dataStart_length begins
  have size : file.length = headerSize + (serializeAll codec records ++ tail).length := by
    rw [← layout, length_drop]
    omega
  have many := serializeAll_length_le codec records
  have enough : records.length < file.length := by
    rw [size, length_append, headerSize]
    omega
  by_cases torn : WalRecord.TornPayload tail
  · -- the header of the torn record is behind the superblock, so the file is not empty
    have content : ¬ file.length ≤ headerSize := by
      have := torn.1
      rw [size, length_append]
      omega
    have failed : readRecords codec file.length (file.drop headerSize) = .error .unexpectedEof := by
      obtain ⟨more, fuel⟩ : ∃ more, file.length = records.length + (more + 1) :=
        ⟨file.length - records.length - 1, by omega⟩
      rw [fuel, layout, readRecords_append lossless fits, readRecords_torn torn]
      rfl
    simp [Recovers, recover, begins, content, failed, torn]
  · have read := (readRecords_exact_iff lossless fits enough tail).mpr ⟨damaged, torn⟩
    rw [map_stored numbers] at read
    have wraps : (maxSeqNo records + 1) % 2 ^ 64 = 1 + maxSeqNo records ↔
        maxSeqNo records + 1 < 2 ^ 64 := by omega
    by_cases content : file.length ≤ headerSize
    · have none_left : records = [] := by
        have : (serializeAll codec records).length = 0 := by
          rw [length_append] at size
          omega
        exact eq_nil_of_length_eq_zero (by omega)
      simp [Recovers, recover, begins, content, none_left, torn, afterCheckpoint, maxSeqNo]
    · simp only [Recovers, recover, begins, if_neg content, layout, read, Except.ok.injEq,
        Prod.mk.injEq, true_and, wraps, torn, not_false_iff]

/-- Payloads as they are, under a sum of their bytes. -/
def summing : WalCodec where
  xxh3 input := UInt64.ofNat (input.foldl (fun sum b => sum + b.toNat) 0)
  lz4Compress payload := payload
  lz4Decompress := some

theorem lossless_summing : summing.Lossless := fun _ => rfl

def threeRecords : List WalRecord :=
  [⟨.rowPut, 1, [7]⟩, ⟨.checkpoint, 2, []⟩, ⟨.rowPut, 3, [8, 9]⟩]

/-- A record whose checksum is wrong, and intact ones behind it. -/
def corruptTail : Bytes :=
  (1 : UInt8) :: List.replicate 20 0 ++ serializeAll summing threeRecords

theorem recovers_before_corrupt_record :
    Recovers summing (superblock ++ serializeAll summing threeRecords ++ corruptTail)
      threeRecords :=
  (@recovers_iff_not_torn _ lossless_summing _ _ corruptTail (by decide) (by decide) (by decide)
    (by decide) (by decide)).mpr (by decide)

/-- A header whose type is known and whose five bytes of payload were never written. -/
def tornTail : Bytes := (1 : UInt8) :: Bytes.toLe 8 4 ++ Bytes.toLe 4 5 ++ Bytes.toLe 8 0

/-- A header in front of a torn payload ends the recovery with an error. -/
theorem torn_payload_fails_recovery : ¬ WalRecord.Starts summing tornTail ∧
      recover summing (superblock ++ serializeAll summing threeRecords ++ tornTail) =
        .error .unexpectedEof ∧
      ¬ Recovers summing (superblock ++ serializeAll summing threeRecords ++ tornTail)
        threeRecords := by
  decide

section Reopen

/-- The file a writer opens: an empty one gets its superblock first. -/
def stamped (onDisk : Bytes) : Bytes := if onDisk = [] then superblock else onDisk

def appendAll (codec : WalCodec) (w : WalWriter) (calls : List (WalRecordType × Bytes)) :
    WalWriter :=
  calls.foldl (fun w c => w.append codec c.1 c.2) w

/-- The records of appends that draw their numbers from `n` on. -/
def numbered (n : Nat) : List (WalRecordType × Bytes) → List WalRecord
  | [] => []
  | c :: rest => ⟨c.1, n, c.2⟩ :: numbered (n + 1) rest

/-- The length of the file once records of these sizes are written from `offset` on. -/
def grownLength (fileLen offset : Nat) : List Nat → Nat
  | [] => fileLen
  | n :: rest =>
    grownLength (if fileLen < offset + n then max (offset + n) (fileLen + defaultPreallocateBytes)
      else fileLen) (offset + n) rest

/-- What is left of the bytes behind `front`, and of the padding behind those. -/
def leftOver (front fileLen : Nat) (tail : Bytes) (written : Nat) : Bytes :=
  (tail ++ List.replicate (fileLen - front - tail.length) 0).drop written

/-- The writer has put `written` behind `front`, over the tail that was there. -/
structure Overwritten (w : WalWriter) (front tail written : Bytes) : Prop where
  file : w.file = front ++ written ++ leftOver front.length w.fileLen tail written.length
  room : front.length + written.length ≤ w.fileLen
  inside : front.length + tail.length ≤ w.fileLen
  writeOffset : w.writeOffset = front.length + written.length

variable {records : List WalRecord} {file onDisk tail : Bytes} {start : Nat}

theorem Overwritten.length {w : WalWriter} {front written : Bytes}
    (h : Overwritten w front tail written) : w.file.length = w.fileLen := by
  have room := h.room
  have inside := h.inside
  rw [h.file, leftOver]
  simp only [length_append, length_drop, length_replicate]
  omega

theorem Overwritten.append {w : WalWriter} {front tail written : Bytes}
    (h : Overwritten w front tail written) (recordType : WalRecordType) (payload : Bytes) :
    Overwritten (w.append codec recordType payload) front tail
        (written ++ (WalRecord.mk recordType w.nextSeqNo payload).serialize codec) ∧
      (w.append codec recordType payload).fileLen = grownLength w.fileLen w.writeOffset
          [((WalRecord.mk recordType w.nextSeqNo payload).serialize codec).length] := by
  have room := h.room
  have inside := h.inside
  have length := h.length
  generalize hdata : (WalRecord.mk recordType w.nextSeqNo payload).serialize codec = data
  obtain ⟨more, fileLen, file, enough⟩ : ∃ more, (w.append codec recordType payload).fileLen =
      w.fileLen + more ∧ (w.append codec recordType payload).file =
        (w.file ++ List.replicate more 0).take w.writeOffset ++ data ++
          (w.file ++ List.replicate more 0).drop (w.writeOffset + data.length) ∧
      w.writeOffset + data.length ≤ w.fileLen + more := by
    simp only [WalWriter.append, hdata, WalWriter.zeroFill, length]
    by_cases grown : w.fileLen < w.writeOffset + data.length
    · refine ⟨max (w.writeOffset + data.length) (w.fileLen + defaultPreallocateBytes) - w.fileLen,
        ?_, by simp only [if_pos grown], by omega⟩
      rw [if_pos grown]
      omega
    · exact ⟨0, by rw [if_neg grown]; rfl, by simp [if_neg grown], by omega⟩
  have left : leftOver front.length w.fileLen tail written.length ++ List.replicate more 0 =
      leftOver front.length (w.fileLen + more) tail written.length := by
    have size : w.fileLen + more - front.length - tail.length =
        w.fileLen - front.length - tail.length + more := by omega
    rw [leftOver, leftOver, size, replicate_add, ← append_assoc, ← drop_append_of_le_length]
    simp only [length_append, length_replicate]
    omega
  have whole : w.file ++ List.replicate more 0 = (front ++ written) ++
      leftOver front.length (w.fileLen + more) tail written.length := by
    rw [h.file, append_assoc (front ++ written), left]
  have offset : w.writeOffset = (front ++ written).length := by
    rw [h.writeOffset, length_append]
  rw [whole, offset, take_left, ← drop_drop, drop_left] at file
  refine ⟨⟨?_, ?_, ?_, ?_⟩, ?_⟩
  · rw [file, fileLen, leftOver, leftOver, drop_drop, length_append,
      append_assoc front written data]
  · rw [fileLen, length_append]
    rw [h.writeOffset] at enough
    omega
  · omega
  · simp only [WalWriter.append, hdata, h.writeOffset, length_append]
    omega
  · simp only [WalWriter.append, hdata, grownLength]

/-- The writer after a series of appends. -/
theorem Overwritten.appendAll {w : WalWriter} {front tail written : Bytes}
    (h : Overwritten w front tail written) (calls : List (WalRecordType × Bytes)) :
    Overwritten (appendAll codec w calls) front tail
        (written ++ serializeAll codec (numbered w.nextSeqNo calls)) ∧
      (Wal.appendAll codec w calls).fileLen = grownLength w.fileLen w.writeOffset
        ((numbered w.nextSeqNo calls).map fun r => (r.serialize codec).length) := by
  induction calls generalizing w written with
  | nil => exact ⟨by simpa [Wal.appendAll, numbered, serializeAll] using h, rfl⟩
  | cons c rest ih =>
    obtain ⟨one, length⟩ := @Overwritten.append codec _ _ _ _ h c.1 c.2
    obtain ⟨all, total⟩ := ih one
    refine ⟨?_, ?_⟩
    · simpa [Wal.appendAll, numbered, serializeAll, WalWriter.append] using all
    · rw [Wal.appendAll, foldl_cons, ← Wal.appendAll, total, length]
      rfl

/-- Only the first sixteen bytes say where the records begin. -/
theorem dataStart_congr {file' : Bytes} (same : file.take headerSize = file'.take headerSize) :
    dataStart file = dataStart file' := by
  have front : ∀ f : Bytes, dataStart f = dataStart (f.take headerSize) := by
    intro f
    simp only [dataStart, take_take, drop_take, headerSize]
    rfl
  rw [front file, same, ← front file']

theorem dataStart_eq_zero_iff (file : Bytes) :
    dataStart file = .ok 0 ↔ file.take 4 ≠ [0x47, 0x57, 0x41, 0x4C] := by
  unfold dataStart
  by_cases magic : file.take 4 = [0x47, 0x57, 0x41, 0x4C]
  · simp only [magic, ne_eq, not_true, if_false, iff_false]
    split
    · simp
    · split <;> simp [headerSize]
  · simp [magic]

theorem dataStart_cases (begins : dataStart file = .ok start) : start = 0 ∨ start = headerSize := by
  unfold dataStart at begins
  split at begins
  · exact Or.inl (Except.ok.inj begins).symm
  · split at begins
    · cases begins
    · split at begins
      · exact Or.inr (Except.ok.inj begins).symm
      · cases begins

/-- Padding does not complete a magic number. -/
theorem dataStart_padded (begins : dataStart file = .ok 0) (n : Nat) :
    dataStart (file ++ List.replicate n 0) = .ok 0 := by
  rw [dataStart_eq_zero_iff] at begins ⊢
  intro magic
  by_cases long : 4 ≤ file.length
  · rw [take_append_of_le_length long] at magic
    exact begins magic
  cases n with
  | zero =>
    rw [replicate_zero, append_nil] at magic
    exact begins magic
  | succ n =>
    have zero : ((file ++ List.replicate (n + 1) 0).take 4)[file.length]? = some 0 := by
      rw [getElem?_take_of_lt (by omega), getElem?_append_right le_rfl, Nat.sub_self]
      rfl
    rw [magic] at zero
    have : ∀ i < 4, ([0x47, 0x57, 0x41, 0x4C] : Bytes)[i]? ≠ some 0 := by decide
    exact this _ (by omega) zero

/-- A file that begins with a record has no superblock. -/
theorem dataStart_record (r : WalRecord) (rest : Bytes) :
    dataStart (r.serialize codec ++ rest) = .ok 0 := by
  rw [dataStart_eq_zero_iff]
  intro magic
  have first : r.recordType.toU8 = 0x47 := by
    have := congrArg List.head? magic
    simpa [WalRecord.serialize] using this
  revert first
  cases r.recordType <;> decide

theorem scanLogicalEnd_damaged (damaged : ¬ WalRecord.Starts codec tail) (fuel offset : Nat) :
    scanLogicalEnd codec fuel tail offset = offset := by
  cases fuel with
  | zero => rfl
  | succ fuel =>
    rw [scanLogicalEnd]
    split
    · rename_i r rest h
      exact absurd ⟨r, rest, h⟩ damaged
    · rfl

/-- The bytes that follow the new records in the file: the old tail from there on, then the
padding. -/
def stale (codec : WalCodec) (onDisk : Bytes) (tail : Bytes)
    (calls : List (WalRecordType × Bytes)) : Bytes :=
  let front := (stamped onDisk).length - tail.length
  let sizes := (numbered 1 calls).map fun r => (r.serialize codec).length
  leftOver front (grownLength (max (stamped onDisk).length defaultPreallocateBytes) front sizes)
    tail sizes.sum

/-- The reopened log reads as the old records and the new ones, and recovers to what follows
the last checkpoint among them. -/
def ReopensClean (codec : WalCodec) (onDisk : Bytes) (records : List WalRecord)
    (calls : List (WalRecordType × Bytes)) : Prop :=
  ∃ w start, WalWriter.new codec onDisk = .ok w ∧
    dataStart (appendAll codec w calls).file = .ok start ∧
    readRecords codec (appendAll codec w calls).file.length
        ((appendAll codec w calls).file.drop start) =
      .ok (records ++ (numbered 1 calls).map WalRecord.stored) ∧
    recoverWal codec (appendAll codec w calls).file =
      .ok (afterCheckpoint (records ++ (numbered 1 calls).map WalRecord.stored))

theorem new_eq {logicalEnd : Nat} (begins : dataStart (stamped onDisk) = .ok start)
    (ends : scanLogicalEnd codec (stamped onDisk).length ((stamped onDisk).drop start) start =
      logicalEnd) (within : logicalEnd ≤ (stamped onDisk).length) :
    WalWriter.new codec onDisk = .ok
      ⟨WalWriter.zeroFill (stamped onDisk) (max (stamped onDisk).length defaultPreallocateBytes),
        max (stamped onDisk).length defaultPreallocateBytes, logicalEnd, 1⟩ := by
  have same : (if onDisk = [] then superblock else onDisk) = stamped onDisk := rfl
  have opened : (if (stamped onDisk).length < max logicalEnd defaultPreallocateBytes then
      WalWriter.zeroFill (stamped onDisk) (max logicalEnd defaultPreallocateBytes)
      else stamped onDisk) =
      WalWriter.zeroFill (stamped onDisk) (max (stamped onDisk).length defaultPreallocateBytes) :=
        by
    by_cases short : (stamped onDisk).length < max logicalEnd defaultPreallocateBytes
    · have want : max logicalEnd defaultPreallocateBytes =
          max (stamped onDisk).length defaultPreallocateBytes := by omega
      rw [if_pos short, want]
    · have enough : max (stamped onDisk).length defaultPreallocateBytes =
          (stamped onDisk).length := by omega
      rw [if_neg short, enough, WalWriter.zeroFill, Nat.sub_self, replicate_zero, append_nil]
  have length : (WalWriter.zeroFill (stamped onDisk)
      (max (stamped onDisk).length defaultPreallocateBytes)).length =
        max (stamped onDisk).length defaultPreallocateBytes := by
    simp only [WalWriter.zeroFill, length_append, length_replicate]
    omega
  simp only [WalWriter.new, same, begins, ends, opened, length]

/-- Opening a damaged log puts the writer behind the last record that reads. -/
theorem overwritten_new (lossless : codec.Lossless)
    (begins : dataStart (stamped onDisk) = .ok start)
    (layout : (stamped onDisk).drop start = serializeAll codec records ++ tail)
    (fits : ∀ r ∈ records, WalRecord.Fits codec r.payload)
    (damaged : ¬ WalRecord.Starts codec tail) :
    ∃ w, WalWriter.new codec onDisk = .ok w ∧ w.nextSeqNo = 1 ∧
      w.fileLen = max (stamped onDisk).length defaultPreallocateBytes ∧
      Overwritten w ((stamped onDisk).take start ++ serializeAll codec records) tail [] := by
  have within : start ≤ (stamped onDisk).length := by
    rcases dataStart_cases begins with rfl | rfl
    · exact Nat.zero_le _
    · exact dataStart_length begins
  generalize hfront : (stamped onDisk).take start ++ serializeAll codec records = front
  have whole : stamped onDisk = front ++ tail := by
    rw [← hfront, append_assoc, ← layout, take_append_drop]
  have enough : records.length ≤ (stamped onDisk).length := by
    have := serializeAll_length_le codec records
    rw [whole, ← hfront]
    simp only [length_append]
    omega
  have ends : scanLogicalEnd codec (stamped onDisk).length ((stamped onDisk).drop start) start =
      front.length := by
    rw [layout, scanLogicalEnd_behind lossless fits (scanLogicalEnd_damaged damaged) enough,
      ← hfront, length_append,
      length_take, min_eq_left within]
  have size : (stamped onDisk).length = front.length + tail.length := by
    rw [whole, length_append]
  refine ⟨_, new_eq begins ends (by omega), rfl, rfl, ?_, ?_, ?_, rfl⟩
  · simp only [WalWriter.zeroFill, leftOver, drop_zero, length_nil, append_nil]
    rw [whole, append_assoc, length_append, Nat.sub_add_eq]
  · simp only [length_nil, add_zero]
    omega
  · simp only
    omega

theorem le_grownLength (sizes : List Nat) (fileLen offset : Nat) :
    fileLen ≤ grownLength fileLen offset sizes := by
  induction sizes generalizing fileLen offset with
  | nil => exact le_rfl
  | cons n rest ih =>
    refine Nat.le_trans ?_ (ih _ _)
    split <;> omega

theorem length_serializeAll (codec : WalCodec) (records : List WalRecord) :
    (serializeAll codec records).length =
    (records.map fun r => (r.serialize codec).length).sum := by
  rw [serializeAll, length_flatMap]

variable {calls : List (WalRecordType × Bytes)} {behind : Bytes}

theorem fits_numbered {n : Nat} (fits : ∀ c ∈ calls, WalRecord.Fits codec c.2) :
    ∀ r ∈ numbered n calls, WalRecord.Fits codec r.payload := by
  induction calls generalizing n with
  | nil => simp [numbered]
  | cons c rest ih =>
    intro r hr
    rcases mem_cons.mp hr with rfl | later
    · exact fits c mem_cons_self
    · exact ih (fun c hc => fits c (mem_cons_of_mem _ hc)) r later

/-- Where the records of the file begin stays the same under what is written behind them. -/
theorem dataStart_overwritten {new : List WalRecord} (begins : dataStart onDisk = .ok start)
    (layout : onDisk.drop start = serializeAll codec records ++ tail)
    (file_eq : file = onDisk.take start ++ serializeAll codec (records ++ new) ++ behind)
    (untouched : records ++ new = [] → ∃ n, behind = tail ++ List.replicate n 0) :
    dataStart file = .ok start := by
  rcases dataStart_cases begins with rfl | rfl
  · rw [take_zero, nil_append] at file_eq
    match all : records ++ new with
    | [] =>
      obtain ⟨n, rfl⟩ := untouched all
      obtain ⟨rfl, _⟩ := append_eq_nil_iff.mp all
      rw [file_eq, all]
      rw [drop_zero] at layout
      simpa [serializeAll, layout] using dataStart_padded begins n
    | r :: rest =>
      rw [file_eq, all, serializeAll, flatMap_cons, append_assoc]
      exact dataStart_record r _
  · have long := dataStart_length begins
    have whole : (onDisk.take headerSize).length = headerSize := by
      rw [length_take]
      omega
    rw [← begins]
    apply dataStart_congr
    rw [file_eq, append_assoc, take_left' whole]

/-- What lies in the file once new records are appended to a reopened log. -/
theorem reopened_content (lossless : codec.Lossless) {onDisk : Bytes} {start : Nat}
    {records : List WalRecord} {tail : Bytes} {calls : List (WalRecordType × Bytes)}
    (begins : dataStart (stamped onDisk) = .ok start)
    (layout : (stamped onDisk).drop start = serializeAll codec records ++ tail)
    (fits : ∀ r ∈ records, WalRecord.Fits codec r.payload)
    (damaged : ¬ WalRecord.Starts codec tail) :
    ∃ w, WalWriter.new codec onDisk = .ok w ∧ dataStart (appendAll codec w calls).file = .ok start ∧
      (appendAll codec w calls).file.drop start =
        serializeAll codec (records ++ numbered 1 calls) ++ stale codec onDisk tail calls ∧
      (records ++ numbered 1 calls).length < (appendAll codec w calls).file.length := by
  obtain ⟨w, new, next, fileLen, fresh⟩ := overwritten_new lossless begins layout fits damaged
  obtain ⟨done, total⟩ := @Overwritten.appendAll codec _ _ _ _ fresh calls
  have within : start ≤ (stamped onDisk).length := by
    rcases dataStart_cases begins with rfl | rfl
    · exact Nat.zero_le _
    · exact dataStart_length begins
  have whole : (stamped onDisk).take start ++ serializeAll codec records ++ tail =
      stamped onDisk := by
    rw [append_assoc, ← layout, take_append_drop]
  have front : ((stamped onDisk).take start ++ serializeAll codec records).length =
      (stamped onDisk).length - tail.length := by
    have size := congrArg List.length whole
    rw [length_append] at size
    omega
  have behind : leftOver ((stamped onDisk).take start ++ serializeAll codec records).length
      (appendAll codec w calls).fileLen tail
      ([] ++ serializeAll codec (numbered w.nextSeqNo calls)).length =
        stale codec onDisk tail calls := by
    rw [total, next, fileLen, fresh.writeOffset, front, nil_append, length_serializeAll]
    rfl
  have file : (appendAll codec w calls).file = (stamped onDisk).take start ++
      serializeAll codec (records ++ numbered 1 calls) ++ stale codec onDisk tail calls := by
    rw [done.file, behind, next]
    simp only [serializeAll, flatMap_append, append_assoc, nil_append]
  have begins' : dataStart (appendAll codec w calls).file = .ok start := by
    apply dataStart_overwritten begins layout file
    intro nothing
    obtain ⟨_, none_new⟩ := append_eq_nil_iff.mp nothing
    simp only [stale, none_new, map_nil, sum_nil, leftOver, drop_zero]
    exact ⟨_, rfl⟩
  have content : (appendAll codec w calls).file.drop start =
      serializeAll codec (records ++ numbered 1 calls) ++ stale codec onDisk tail calls := by
    rw [file, append_assoc]
    exact drop_left' (by rw [length_take, min_eq_left within])
  have enough : (records ++ numbered 1 calls).length < (appendAll codec w calls).file.length := by
    have headers := headers_length_le codec (records ++ numbered 1 calls)
    have size := congrArg List.length content
    rw [length_drop, length_append] at size
    have grown : defaultPreallocateBytes ≤ (appendAll codec w calls).file.length := by
      rw [done.length, total]
      refine Nat.le_trans ?_ (le_grownLength _ _ _)
      omega
    rw [defaultPreallocateBytes] at grown
    omega
  exact ⟨w, new, begins', content, enough⟩

/-- The read after the appends is clean if and only if what is left behind them is no record
and does not look like a torn one. -/
theorem reopened_read_iff (lossless : codec.Lossless)
    (content : file.drop start = serializeAll codec (records ++ numbered 1 calls) ++ behind)
    (enough : (records ++ numbered 1 calls).length < file.length)
    (numbers : ∀ r ∈ records, r.seqNo < 2 ^ 64)
    (fits : ∀ r ∈ records, WalRecord.Fits codec r.payload)
    (fitsNew : ∀ c ∈ calls, WalRecord.Fits codec c.2) :
    readRecords codec file.length (file.drop start) =
        .ok (records ++ (numbered 1 calls).map WalRecord.stored) ↔
      ¬ WalRecord.Starts codec behind ∧ ¬ WalRecord.TornPayload behind := by
  have all : ∀ r ∈ records ++ numbered 1 calls, WalRecord.Fits codec r.payload := by
    intro r hr
    rcases mem_append.mp hr with old | new
    · exact fits r old
    · exact fits_numbered fitsNew r new
  have read := readRecords_exact_iff lossless all enough behind
  rwa [map_append, map_stored numbers, ← content] at read

/-- A reopened log is clean if and only if the bytes that are left behind the new records are
no record and do not look like a torn one. -/
theorem reopens_clean_iff (lossless : codec.Lossless) {onDisk : Bytes} {start : Nat}
    {records : List WalRecord} {tail : Bytes} {calls : List (WalRecordType × Bytes)}
    (begins : dataStart (stamped onDisk) = .ok start)
    (layout : (stamped onDisk).drop start = serializeAll codec records ++ tail)
    (numbers : ∀ r ∈ records, r.seqNo < 2 ^ 64)
    (fits : ∀ r ∈ records, WalRecord.Fits codec r.payload)
    (fitsNew : ∀ c ∈ calls, WalRecord.Fits codec c.2)
    (damaged : ¬ WalRecord.Starts codec tail) :
    ReopensClean codec onDisk records calls ↔
      ¬ WalRecord.Starts codec (stale codec onDisk tail calls) ∧
        ¬ WalRecord.TornPayload (stale codec onDisk tail calls) := by
  obtain ⟨w, new, begins', content, enough⟩ :=
    @reopened_content _ lossless _ _ _ _ calls begins layout fits damaged
  rw [← reopened_read_iff lossless content enough numbers fits fitsNew]
  constructor
  · rintro ⟨w', start', new', begins'', exact_read, _⟩
    obtain rfl := Except.ok.inj (new.symm.trans new')
    obtain rfl := Except.ok.inj (begins'.symm.trans begins'')
    exact exact_read
  · intro exact_read
    exact ⟨w, start, new, begins', exact_read, by simp only [recoverWal, begins', exact_read]⟩

theorem stale_eq (codec : WalCodec) (onDisk tail : Bytes) (calls : List (WalRecordType × Bytes)) :
    ∃ n, stale codec onDisk tail calls = (tail ++ List.replicate n 0).drop
      (serializeAll codec (numbered 1 calls)).length := by
  rw [length_serializeAll]
  exact ⟨_, rfl⟩

/-- A record that does not read back, with an intact one behind it that recovery cuts off. -/
def cutTail : Bytes :=
  (1 : UInt8) :: List.replicate 21 0 ++ (WalRecord.mk .rowPut 9 [8, 9]).serialize summing

def cutLog : Bytes := superblock ++ serializeAll summing threeRecords ++ cutTail

/-- The new record ends inside the old one. -/
theorem reopens_clean_across_a_record :
    ReopensClean summing cutLog threeRecords [(.rowPut, [5, 6])] := by
  apply (@reopens_clean_iff _ lossless_summing _ headerSize _ cutTail _ (by decide) (by decide)
    (by decide) (by decide) (by decide) (by decide)).mpr
  exact WalRecord.unknown_ends rfl

/-- The new record is as long as the one that did not read back. -/
theorem cut_off_record_comes_back : dataStart (stamped cutLog) = .ok headerSize ∧
      (stamped cutLog).drop headerSize = serializeAll summing threeRecords ++ cutTail ∧
      ¬ WalRecord.Starts summing cutTail ∧
      ¬ ReopensClean summing cutLog threeRecords [(.rowPut, [5])] := by
  have begins : dataStart (stamped cutLog) = .ok headerSize := by decide
  have layout : (stamped cutLog).drop headerSize =
      serializeAll summing threeRecords ++ cutTail := by decide
  have damaged : ¬ WalRecord.Starts summing cutTail := by decide
  refine ⟨begins, layout, damaged, ?_⟩
  obtain ⟨w, new, begins', content, enough⟩ :=
    @reopened_content _ lossless_summing _ _ _ _ [(.rowPut, [5])] begins layout (by decide) damaged
  rintro ⟨w', start, new', begins'', read, _⟩
  obtain rfl := Except.ok.inj (new.symm.trans new')
  obtain rfl := Except.ok.inj (begins'.symm.trans begins'')
  have ended := ((reopened_read_iff lossless_summing content enough (by decide) (by decide)
    (by decide)).mp read).1
  exact ended ⟨_, _, WalRecord.deserialize_serialize lossless_summing (by decide) _⟩

end Reopen

end Wal

end GalaxDb
