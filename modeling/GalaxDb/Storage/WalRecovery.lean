import GalaxDb.Storage.Wal

/-!
# What recovery reads back

A log that was only appended to recovers to the records that were appended, whatever
padding follows them, as long as every compressed payload fits the length field.
-/

namespace GalaxDb

open List

namespace WalRecord

variable {codec : WalCodec}

/-- The payload still fits the length field once it is compressed. -/
def Fits (codec : WalCodec) (payload : Bytes) : Prop :=
  (codec.lz4Compress payload).length < 2 ^ 32

/-- The sequence number as its eight bytes keep it. -/
def stored (r : WalRecord) : WalRecord := { r with seqNo := r.seqNo % 2 ^ 64 }

theorem serialize_length (r : WalRecord) :
    (r.serialize codec).length = 21 + (codec.lz4Compress r.payload).length := by
  simp [serialize]
  omega

/-- The layout of a header, read field by field. -/
theorem header_fields (t : UInt8) {s l c : Bytes} (rest : Bytes) (hs : s.length = 8) (hl :
    l.length = 4)
    (hc : c.length = 8) :
    let header := (t :: s ++ l ++ c ++ rest).take 21
    header = t :: s ++ l ++ c ∧ (header.drop 1).take 8 = s ∧ (header.drop 9).take 4 = l ∧
      header.drop 13 = c ∧ (t :: s ++ l ++ c ++ rest).drop 21 = rest := by
  have whole : (t :: s ++ l ++ c ++ rest).take 21 = t :: s ++ l ++ c :=
    take_left' (by simp [hs, hl, hc])
  refine ⟨whole, ?_, ?_, ?_, drop_left' (by simp [hs, hl, hc])⟩
  · rw [whole, append_assoc, cons_append, drop_one, tail_cons]
    exact take_left' hs
  · rw [whole, append_assoc, drop_left' (by simp [hs])]
    exact take_left' hl
  · rw [whole]
    exact drop_left' (by simp [hs, hl])

theorem deserialize_serialize (lossless : codec.Lossless) {r : WalRecord}
    (fits : Fits codec r.payload) (rest : Bytes) :
    deserialize codec (r.serialize codec ++ rest) = .ok (some (r.stored, rest)) := by
  have decompressed := lossless r.payload
  simp only [Fits] at fits
  simp only [serialize]
  generalize codec.lz4Compress r.payload = compressed at *
  generalize hsum : codec.xxh3 (checksumInput r.recordType.toU8 r.seqNo compressed.length
    compressed) = checksum
  obtain ⟨whole, seqField, lenField, sumField, tail⟩ := header_fields r.recordType.toU8
    (compressed ++ rest) (Bytes.toLe_length 8 r.seqNo)
    (Bytes.toLe_length 4 compressed.length) (Bytes.toLe_length 8 checksum.toNat)
  have len : Bytes.ofLe (Bytes.toLe 4 compressed.length) = compressed.length :=
    Bytes.ofLe_toLe_of_lt fits
  have sum : Bytes.ofLe (Bytes.toLe 8 checksum.toNat) = checksum.toNat :=
    Bytes.ofLe_toLe_of_lt checksum.toNat_lt
  have seq : Bytes.ofLe (Bytes.toLe 8 r.seqNo) = r.seqNo % 2 ^ 64 := Bytes.ofLe_toLe 8 r.seqNo
  have input : checksumInput r.recordType.toU8 (r.seqNo % 2 ^ 64) compressed.length compressed =
      checksumInput r.recordType.toU8 r.seqNo compressed.length compressed := by
    unfold checksumInput
    rw [show (2 : Nat) ^ 64 = 256 ^ 8 from rfl, Bytes.toLe_mod]
  have wholeLen : ¬ (r.recordType.toU8 :: Bytes.toLe 8 r.seqNo ++ Bytes.toLe 4 compressed.length ++
      Bytes.toLe 8 checksum.toNat).length < 21 := by simp
  have body : ((compressed ++ rest).take compressed.length) = compressed := take_left
  have after : (compressed ++ rest).drop compressed.length = rest := drop_left
  rw [append_assoc _ compressed rest]
  simp only [deserialize, ← drop_drop, tail, seqField, lenField, sumField]
  rw [whole, if_neg wholeLen]
  simp only [if_false, len, sum, seq, body, after, cons_append, headD_cons,
    WalRecordType.fromU8_toU8, Nat.lt_irrefl, input, hsum, ne_eq, not_true, decompressed, stored]

/-- Padding never reads as a record. -/
theorem deserialize_zeros (codec : WalCodec) (n : Nat) :
    deserialize codec (List.replicate n 0) = .ok none ∨
      deserialize codec (List.replicate n 0) = .error .invalidData := by
  by_cases short : n < 21
  · simp [deserialize, short]
  · obtain ⟨m, rfl⟩ := Nat.exists_eq_add_of_le (Nat.le_of_not_lt short)
    simp [deserialize, WalRecordType.fromU8, replicate_add]

end WalRecord

namespace Wal

variable {codec : WalCodec}

/-- The bytes of a list of records, one after the other. -/
def serializeAll (codec : WalCodec) (records : List WalRecord) : Bytes :=
  records.flatMap (fun r => r.serialize codec)

theorem headers_length_le (codec : WalCodec) (records : List WalRecord) :
    21 * records.length ≤ (serializeAll codec records).length := by
  induction records with
  | nil => exact Nat.zero_le _
  | cons r rest ih =>
    simp only [serializeAll, flatMap_cons, length_append, length_cons,
      WalRecord.serialize_length] at *
    omega

theorem serializeAll_length_le (codec : WalCodec) (records : List WalRecord) :
    records.length ≤ (serializeAll codec records).length := by
  have := headers_length_le codec records
  omega

theorem readRecords_zeros (fuel n : Nat) :
    readRecords codec fuel (List.replicate n 0) = .ok [] := by
  cases fuel with
  | zero => rfl
  | succ fuel =>
    rcases WalRecord.deserialize_zeros codec n with h | h <;> simp [readRecords, h]

variable {records : List WalRecord} {w : WalWriter}

theorem readRecords_serializeAll (lossless : codec.Lossless)
    (fits : ∀ r ∈ records, WalRecord.Fits codec r.payload) (n : Nat) {fuel : Nat}
    (enough : records.length ≤ fuel) :
    readRecords codec fuel (serializeAll codec records ++ List.replicate n 0) =
      .ok (records.map WalRecord.stored) := by
  induction records generalizing fuel with
  | nil => exact readRecords_zeros fuel n
  | cons r rest ih =>
    obtain ⟨fuel, rfl⟩ : ∃ f, fuel = f + 1 := ⟨fuel - 1, by simp at enough; omega⟩
    have head := WalRecord.deserialize_serialize lossless (fits r mem_cons_self)
      (serializeAll codec rest ++ List.replicate n 0)
    have tail := ih (fun r hr => fits r (mem_cons_of_mem _ hr)) (Nat.le_of_succ_le_succ enough)
    rw [serializeAll, flatMap_cons, append_assoc]
    rw [serializeAll] at head tail
    simp only [readRecords, head, tail, map_cons]

theorem scanLogicalEnd_zeros (fuel n offset : Nat) :
    scanLogicalEnd codec fuel (List.replicate n 0) offset = offset := by
  cases fuel with
  | zero => rfl
  | succ fuel =>
    rcases WalRecord.deserialize_zeros codec n with h | h <;> simp [scanLogicalEnd, h]

/-- A scan over records stops where a scan of the rest would stop at once. -/
theorem scanLogicalEnd_behind (lossless : codec.Lossless) {records : List WalRecord}
    (fits : ∀ r ∈ records, WalRecord.Fits codec r.payload) {tail : Bytes}
    (ends : ∀ fuel offset, scanLogicalEnd codec fuel tail offset = offset) {fuel offset : Nat}
    (enough : records.length ≤ fuel) :
    scanLogicalEnd codec fuel (serializeAll codec records ++ tail) offset =
      offset + (serializeAll codec records).length := by
  induction records generalizing fuel offset with
  | nil => exact ends fuel offset
  | cons r rest ih =>
    obtain ⟨fuel, rfl⟩ : ∃ f, fuel = f + 1 := ⟨fuel - 1, by simp at enough; omega⟩
    have head := WalRecord.deserialize_serialize lossless (fits r mem_cons_self)
      (serializeAll codec rest ++ tail)
    have size : (r.stored.serialize codec).length = (r.serialize codec).length := by
      rfl
    have later := @ih (fun r hr => fits r (mem_cons_of_mem _ hr)) fuel
      (offset + (r.serialize codec).length) (Nat.le_of_succ_le_succ enough)
    rw [serializeAll, flatMap_cons, append_assoc]
    rw [serializeAll] at head later
    simp only [scanLogicalEnd, head, size, later, length_append, Nat.add_assoc]

/-- The file is the superblock, these records and padding. -/
structure Holds (codec : WalCodec) (w : WalWriter) (records : List WalRecord) : Prop where
  layout : ∃ n, w.file = superblock ++ serializeAll codec records ++ List.replicate n 0
  fileLen : w.fileLen = w.file.length
  writeOffset : w.writeOffset = (superblock ++ serializeAll codec records).length

theorem dataStart_superblock (rest : Bytes) : dataStart (superblock ++ rest) = .ok headerSize := by
  have magic : (superblock ++ rest).take 4 = [0x47, 0x57, 0x41, 0x4C] := rfl
  have version : Bytes.ofLe (((superblock ++ rest).drop 4).take 2) = 1 := rfl
  have whole : ¬ ((superblock ++ rest).take headerSize).length < headerSize := by
    simp only [length_take, length_append]
    have : superblock.length = headerSize := rfl
    omega
  rw [dataStart, if_neg (not_not_intro magic), if_neg whole, if_pos version]

/-- Where a reader of the file starts and what it finds there. -/
theorem Holds.reads (h : Holds codec w records) :
    dataStart w.file = .ok headerSize ∧ records.length ≤ w.file.length ∧
      ∃ n, w.file.drop headerSize = serializeAll codec records ++ List.replicate n 0 := by
  obtain ⟨n, layout⟩ := h.layout
  have enough := serializeAll_length_le codec records
  rw [layout, append_assoc]
  refine ⟨dataStart_superblock _, ?_, n, drop_left' rfl⟩
  simp only [length_append]
  omega

theorem recoverWal_of_holds (lossless : codec.Lossless) (h : Holds codec w records)
    (fits : ∀ r ∈ records, WalRecord.Fits codec r.payload) :
    recoverWal codec w.file = .ok (afterCheckpoint (records.map WalRecord.stored)) := by
  obtain ⟨begins, enough, n, start⟩ := h.reads
  simp only [recoverWal, begins, start, readRecords_serializeAll lossless fits n enough]

theorem holds_new : ∃ w, WalWriter.new codec [] = .ok w ∧ Holds codec w [] := by
  have begins : dataStart superblock = .ok headerSize := dataStart_superblock []
  have ends : scanLogicalEnd codec superblock.length (superblock.drop headerSize) headerSize =
      headerSize := rfl
  have short : superblock.length < max headerSize defaultPreallocateBytes := by decide
  refine ⟨_, by simp only [WalWriter.new, begins, ends, short, if_true]; rfl, ?_⟩
  refine ⟨⟨max headerSize defaultPreallocateBytes - superblock.length, ?_⟩, rfl, rfl⟩
  simp only [WalWriter.zeroFill, serializeAll, flatMap_nil, append_nil]

/-- Overwriting the front of the padding. -/
theorem overwrite_padding (written data : Bytes) (n : Nat) :
    (written ++ List.replicate n 0).take written.length ++ data ++
        (written ++ List.replicate n 0).drop (written.length + data.length) =
      written ++ data ++ List.replicate (n - data.length) 0 := by
  rw [take_left, ← drop_drop, drop_left, drop_replicate]

theorem zeroFill_padding (written : Bytes) {n len : Nat} (h : written.length + n ≤ len) :
    WalWriter.zeroFill (written ++ List.replicate n 0) len =
      written ++ List.replicate (len - written.length) 0 := by
  have size : n + (len - (written.length + n)) = len - written.length := by omega
  rw [WalWriter.zeroFill, length_append, length_replicate, append_assoc,
    replicate_append_replicate, size]

theorem append_layout {front : Bytes} {n : Nat} (file : w.file = front ++ List.replicate n 0)
    (fileLen : w.fileLen = w.file.length) (offset : w.writeOffset = front.length)
    (recordType : WalRecordType) (payload : Bytes) :
    ∃ m, (w.append codec recordType payload).file =
        front ++ (WalRecord.mk recordType w.nextSeqNo payload).serialize codec ++
          List.replicate m 0 ∧
      (w.append codec recordType payload).fileLen =
        (w.append codec recordType payload).file.length := by
  simp only [WalWriter.append]
  generalize (WalRecord.mk recordType w.nextSeqNo payload).serialize codec = data
  rw [file, length_append, length_replicate] at fileLen
  rw [file, offset, fileLen]
  by_cases grown : front.length + n < front.length + data.length
  · have size : front.length + n ≤
        max (front.length + data.length) (front.length + n + defaultPreallocateBytes) := by omega
    rw [if_pos grown, if_pos grown, zeroFill_padding front size, overwrite_padding]
    refine ⟨_, rfl, ?_⟩
    simp only [length_append, length_replicate]
    omega
  · rw [if_neg grown, if_neg grown, overwrite_padding]
    refine ⟨_, rfl, ?_⟩
    simp only [length_append, length_replicate]
    omega

theorem holds_append (h : Holds codec w records) (recordType : WalRecordType) (payload : Bytes) :
    Holds codec (w.append codec recordType payload)
      (records ++ [⟨recordType, w.nextSeqNo, payload⟩]) := by
  obtain ⟨n, layout⟩ := h.layout
  obtain ⟨m, file, fileLen⟩ :=
    append_layout layout h.fileLen h.writeOffset recordType payload
  have written : superblock ++ serializeAll codec (records ++ [⟨recordType, w.nextSeqNo, payload⟩])
      = superblock ++ serializeAll codec records ++
        (WalRecord.mk recordType w.nextSeqNo payload).serialize codec := by
    simp [serializeAll]
  refine ⟨⟨m, by rw [written]; exact file⟩, fileLen, ?_⟩
  rw [written, length_append, ← h.writeOffset]
  rfl

/-- Opening a log that was only appended to finds its end behind the last record. -/
theorem holds_reopen (lossless : codec.Lossless) (h : Holds codec w records)
    (fits : ∀ r ∈ records, WalRecord.Fits codec r.payload) :
    ∃ w', WalWriter.new codec w.file = .ok w' ∧ Holds codec w' records := by
  obtain ⟨begins, enough, n, start⟩ := h.reads
  have ends : scanLogicalEnd codec w.file.length (w.file.drop headerSize) headerSize =
      (superblock ++ serializeAll codec records).length := by
    rw [start, scanLogicalEnd_behind lossless fits (scanLogicalEnd_zeros · n) enough, length_append]
    rfl
  obtain ⟨m, layout⟩ := h.layout
  have nonempty : w.file ≠ [] := by
    rw [layout, append_assoc]
    simp [superblock]
  refine ⟨_, by simp only [WalWriter.new, nonempty, if_false, begins, ends]; rfl, ?_, rfl, rfl⟩
  generalize superblock ++ serializeAll codec records = front at *
  by_cases short : w.file.length < max front.length defaultPreallocateBytes
  · have size : front.length + m ≤ max front.length defaultPreallocateBytes := by
      simp only [layout, length_append, length_replicate] at short
      omega
    exact ⟨_, by rw [if_pos short, layout, zeroFill_padding front size]⟩
  · exact ⟨m, by rw [if_neg short, layout]⟩

end Wal

end GalaxDb
