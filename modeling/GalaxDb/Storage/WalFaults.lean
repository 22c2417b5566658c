import GalaxDb.Lib.Run
import GalaxDb.Storage.WalTruncation

/-!
# Appends whose file operations fail

The writer keeps its position three times: as `write_offset`, as the length it believes the
file to have, and as the cursor of the file. An append that fails leaves them where they
are, and the next one seeks only if it has to grow the file.
-/

namespace GalaxDb

open List

namespace WalRecord

variable {codec : WalCodec}

/-- The length field of the header at the front. -/
def lengthField (input : Bytes) : Nat := Bytes.ofLe ((input.drop 9).take 4)

/-- A record that reads has the type of its first byte and the length of its length field. -/
theorem eq_of_deserialize {input rest : Bytes} {r : WalRecord}
    (read : deserialize codec input = .ok (some (r, rest))) :
    WalRecordType.fromU8 (input.headD 0) = some r.recordType ∧
      rest = input.drop (21 + lengthField input) := by
  have head : (input.take 21).headD 0 = input.headD 0 := by
    cases input with
    | nil => rfl
    | cons b rest => rfl
  have field : ((input.take 21).drop 9).take 4 = (input.drop 9).take 4 := by
    rw [drop_take, take_take]
    rfl
  simp only [deserialize, head, field] at read
  split at read
  · cases read
  split at read
  · cases read
  rename_i t known
  split at read
  · cases read
  split at read
  · cases read
  split at read
  · cases read
  obtain ⟨rfl, rfl⟩ := Prod.mk.inj (Option.some.inj (Except.ok.inj read))
  exact ⟨known, rfl⟩

/-- What stands behind the payload does not change whether the front reads as a record. -/
theorem starts_append_iff {input : Bytes} (header : 21 ≤ input.length)
    (whole : 21 + lengthField input ≤ input.length) (more : Bytes) :
    Starts codec (input ++ more) ↔ Starts codec input := by
  have front : (input ++ more).take 21 = input.take 21 := take_append_of_le_length header
  have field : ((input.take 21).drop 9).take 4 = (input.drop 9).take 4 := by
    rw [drop_take, take_take]
    rfl
  have payload : ((input ++ more).drop 21).take (lengthField input) =
      (input.drop 21).take (lengthField input) := by
    rw [drop_append_of_le_length header, take_append_of_le_length]
    rw [length_drop]
    omega
  unfold lengthField at payload
  simp only [Starts, deserialize, front, field, payload]
  repeat' split
  all_goals simp

theorem lengthField_serialize {r : WalRecord} (fits : Fits codec r.payload) :
    lengthField (r.serialize codec) = (codec.lz4Compress r.payload).length := by
  have field : ((r.serialize codec).drop 9).take 4 =
      Bytes.toLe 4 (codec.lz4Compress r.payload).length := by
    obtain ⟨_, _, field, _, _⟩ := header_fields r.recordType.toU8 (codec.lz4Compress r.payload)
      (Bytes.toLe_length 8 r.seqNo) (Bytes.toLe_length 4 (codec.lz4Compress r.payload).length)
      (Bytes.toLe_length 8 (codec.xxh3 (checksumInput r.recordType.toU8 r.seqNo
        (codec.lz4Compress r.payload).length (codec.lz4Compress r.payload))).toNat)
    exact field
  rw [lengthField, field]
  exact Bytes.ofLe_toLe_of_lt fits

/-- The part of a record that was written has its length field, or a smaller one while the
field itself is not complete. -/
theorem lengthField_torn {r : WalRecord} (fits : Fits codec r.payload) (n : Nat) :
    lengthField (Bytes.zeroFrom n (r.serialize codec)) ≤ (codec.lz4Compress r.payload).length ∧
      (13 ≤ n → lengthField (Bytes.zeroFrom n (r.serialize codec)) =
        (codec.lz4Compress r.payload).length) := by
  rw [← lengthField_serialize fits]
  simp only [lengthField, Bytes.drop_zeroFrom, Bytes.take_zeroFrom]
  refine ⟨Bytes.ofLe_zeroFrom_le _ _, ?_⟩
  intro complete
  rw [Bytes.zeroFrom_of_length_le]
  rw [length_take]
  omega

/-- A record of which only the first `n` bytes were written, in front of padding: no record
of another type is read, and nothing runs past the end. -/
theorem torn_reads {r : WalRecord} (fits : Fits codec r.payload) (n z fuel : Nat)
    (quiet : r.recordType = .checkpoint → ¬ Starts codec (Bytes.zeroFrom n (r.serialize codec))) :
    ∃ l, Wal.readRecords codec (fuel + 1)
        (Bytes.zeroFrom n (r.serialize codec) ++ List.replicate z 0) = .ok l ∧
      ∀ x ∈ l, x.recordType ≠ .checkpoint := by
  obtain ⟨le, complete⟩ := lengthField_torn fits n
  have size := @serialize_length codec r
  have first : (Bytes.zeroFrom n (r.serialize codec)).headD 0 = 0 ∨
      (Bytes.zeroFrom n (r.serialize codec)).headD 0 = r.recordType.toU8 := by
    cases n with
    | zero =>
      exact .inl rfl
    | succ n => exact .inr (by rfl)
  have gap : ∀ k, 21 + lengthField (Bytes.zeroFrom n (r.serialize codec)) = k →
      ∃ m, (Bytes.zeroFrom n (r.serialize codec)).drop k = List.replicate m 0 := by
    intro k hk
    by_cases whole : 13 ≤ n
    · refine ⟨0, drop_of_length_le ?_⟩
      rw [Bytes.length_zeroFrom, size, ← hk, complete whole]
    · have past : n - k = 0 := by omega
      rw [Bytes.drop_zeroFrom, past, Bytes.zeroFrom_zero]
      exact ⟨_, rfl⟩
  rw [← Bytes.length_zeroFrom n] at size
  generalize Bytes.zeroFrom n (r.serialize codec) = slot at *
  have header : 21 ≤ slot.length := by omega
  have whole : 21 + lengthField slot ≤ slot.length := by omega
  have field : lengthField (slot ++ List.replicate z 0) = lengthField slot := by
    simp only [lengthField]
    rw [drop_append_of_le_length (by omega), take_append_of_le_length]
    rw [length_drop]
    omega
  by_cases starts : Starts codec (slot ++ List.replicate z 0)
  · have other : r.recordType ≠ .checkpoint :=
      fun same => quiet same ((starts_append_iff header whole _).mp starts)
    obtain ⟨x, rest, read⟩ := starts
    obtain ⟨known, rfl⟩ := eq_of_deserialize read
    have head : (slot ++ List.replicate z 0).headD 0 = slot.headD 0 := by
      cases slot with
      | nil => simp at header
      | cons b rest => rfl
    obtain ⟨m, zeros⟩ := gap _ rfl
    have behind : (slot ++ List.replicate z 0).drop
        (21 + lengthField (slot ++ List.replicate z 0)) = List.replicate (m + z) 0 := by
      rw [field, drop_append_of_le_length whole, zeros, replicate_append_replicate]
    refine ⟨[x], ?_, ?_⟩
    · rw [Wal.readRecords, read]
      simp only [behind, Wal.readRecords_zeros]
    · intro y hy
      rw [mem_singleton.mp hy]
      rw [head] at known
      rcases first with zero | type
      · rw [zero] at known
        cases known
      · rw [type, WalRecordType.fromU8_toU8] at known
        exact Option.some.inj known ▸ other
  · refine ⟨[], (Wal.readRecords_eq_nil_iff fuel _).mpr ⟨starts, ?_⟩, by rintro _ ⟨⟩⟩
    rintro ⟨_, _, short⟩
    rw [← lengthField, field, length_append] at short
    omega

end WalRecord

namespace WalFaults

/-- The operation of `do_append` that fails; a write stops after so many bytes. -/
inductive Fault where
  | seekToEnd
  | zeroFill (n : Nat)
  | syncAll
  | seekBack
  | writeAll (n : Nat)
  | syncData
  deriving DecidableEq

structure Append where
  recordType : WalRecordType
  payload : Bytes
  fault : Option Fault
  deriving DecidableEq

/-- The write state with the cursor of its file, and the counters. `acknowledged` holds the
records the file was opened with and every record whose append returned `Ok`. -/
structure State where
  file : Bytes
  cursor : Nat
  writeOffset : Nat
  fileLen : Nat
  nextSeqNo : Nat
  flushOffset : Nat
  acknowledged : List WalRecord

open State

def writeAt (file : Bytes) (pos : Nat) (data : Bytes) : Bytes :=
  file.take pos ++ data ++ file.drop (pos + data.length)

namespace State

variable (codec : WalCodec)

def record (s : State) (a : Append) : WalRecord := ⟨a.recordType, s.nextSeqNo, a.payload⟩

/-- Growing the file, and whether the append goes on. The zeros are written from the length
on that the writer believes in, and the cursor stays behind them unless it is set back. -/
def grow (s : State) (growTo : Nat) : Option Fault → State × Bool
  | some .seekToEnd => (s, false)
  | some (.zeroFill n) =>
    let count := min n (growTo - s.fileLen)
    ({ s with
      file := writeAt s.file s.fileLen (List.replicate count 0)
      cursor := s.fileLen + count }, false)
  | some .syncAll =>
    ({ s with
      file := writeAt s.file s.fileLen (List.replicate (growTo - s.fileLen) 0)
      cursor := growTo }, false)
  | some .seekBack =>
    ({ s with
      file := writeAt s.file s.fileLen (List.replicate (growTo - s.fileLen) 0)
      cursor := growTo
      fileLen := growTo }, false)
  | _ =>
    ({ s with
      file := writeAt s.file s.fileLen (List.replicate (growTo - s.fileLen) 0)
      cursor := s.writeOffset
      fileLen := growTo }, true)

/-- The flush phase, for a record that ends at `write_offset`. -/
def flush (s : State) (r : WalRecord) (fault : Option Fault) : State :=
  if s.flushOffset < s.writeOffset then
    if fault = some .syncData then s
    else { s with flushOffset := s.writeOffset, acknowledged := s.acknowledged ++ [r] }
  else { s with acknowledged := s.acknowledged ++ [r] }

def write (s : State) (r : WalRecord) (fault : Option Fault) : State :=
  let data := r.serialize codec
  match fault with
  | some (.writeAll n) =>
    { s with
      file := writeAt s.file s.cursor (data.take n)
      cursor := s.cursor + (data.take n).length }
  | _ =>
    { s with
      file := writeAt s.file s.cursor data
      cursor := s.cursor + data.length
      writeOffset := s.writeOffset + data.length }.flush r fault

def Grows (s : State) (a : Append) : Prop :=
  s.fileLen < s.writeOffset + ((s.record a).serialize codec).length

instance (s : State) (a : Append) : Decidable (s.Grows codec a) :=
  inferInstanceAs (Decidable (_ < _))

def doAppend (s : State) (a : Append) : State :=
  let r := s.record a
  let drawn := { s with nextSeqNo := s.nextSeqNo + 1 }
  if s.Grows codec a then
    let growTo := max (s.writeOffset + (r.serialize codec).length)
      (s.fileLen + Wal.defaultPreallocateBytes)
    let grown := drawn.grow growTo a.fault
    if grown.2 then grown.1.write codec r a.fault else grown.1
  else drawn.write codec r a.fault

/-- A log that was opened with these records in it. -/
def opened (w : WalWriter) (records : List WalRecord) : State where
  file := w.file
  cursor := w.writeOffset
  writeOffset := w.writeOffset
  fileLen := w.fileLen
  nextSeqNo := w.nextSeqNo
  flushOffset := w.writeOffset
  acknowledged := records

end State

theorem writeAt_end (front behind data : Bytes) :
    writeAt (front ++ behind) front.length data = front ++ data ++ behind.drop data.length := by
  rw [writeAt, take_left, ← drop_drop, drop_left]

/-- Zeros written over zeros, or behind them. -/
theorem writeAt_zeros (front : Bytes) {z pos : Nat} (c : Nat) (behind : front.length ≤ pos)
    (inside : pos ≤ front.length + z) :
    writeAt (front ++ List.replicate z 0) pos (List.replicate c 0) =
      front ++ List.replicate (max z (pos - front.length + c)) 0 := by
  obtain ⟨k, rfl⟩ := Nat.exists_eq_add_of_le behind
  rw [writeAt, take_length_add_append, length_replicate, add_assoc,
    drop_length_add_append, take_replicate, drop_replicate, append_assoc,
    append_assoc, replicate_append_replicate, replicate_append_replicate]
  congr 2
  omega

section Careful

variable (codec : WalCodec)

/-- An append that does not rely on a position an earlier failure has left behind: with the
cursor away from `write_offset` it grows the file and does not fail in its write. A
checkpoint does not fail so that its record can be read all the same. -/
structure Careful (s : State) (a : Append) : Prop where
  fits : WalRecord.Fits codec a.payload
  seeks : s.cursor ≠ s.writeOffset → s.Grows codec a ∧ ∀ n, a.fault ≠ some (.writeAll n)
  checkpoint : a.recordType = .checkpoint → a.fault ≠ some .syncData ∧
    ∀ n, a.fault = some (.writeAll n) →
      ¬ WalRecord.Starts codec (Bytes.zeroFrom n ((s.record a).serialize codec))

/-- What stands behind the log: padding, or a record that was written in part, after which
the cursor is not in its place. -/
def Behind (s : State) (front : Bytes) : Prop :=
  (∃ z, s.file = front ++ List.replicate z 0) ∨
    ∃ (r : WalRecord) (n z : Nat), WalRecord.Fits codec r.payload ∧ (r.recordType = .checkpoint →
        ¬ WalRecord.Starts codec (Bytes.zeroFrom n (r.serialize codec))) ∧
      s.file = front ++ (Bytes.zeroFrom n (r.serialize codec) ++ List.replicate z 0) ∧
      front.length + (r.serialize codec).length ≤ s.fileLen ∧ s.cursor ≠ s.writeOffset

structure Sound (s : State) (log : List WalRecord) : Prop where
  behind : Behind codec s (Wal.superblock ++ Wal.serializeAll codec log)
  writeOffset : s.writeOffset = (Wal.superblock ++ Wal.serializeAll codec log).length
  room : s.writeOffset ≤ s.fileLen
  within : s.fileLen ≤ s.file.length
  fits : ∀ r ∈ log, WalRecord.Fits codec r.payload
  acknowledged : (Wal.afterCheckpoint s.acknowledged).Sublist (Wal.afterCheckpoint log)

end Careful

variable {codec : WalCodec}

theorem sound_opened {w : WalWriter} {records : List WalRecord} (h : Wal.Holds codec w records)
    (fits : ∀ r ∈ records, WalRecord.Fits codec r.payload) :
    Sound codec (opened w records) records := by
  have size := h.fileLen
  have ends := h.writeOffset
  obtain ⟨n, layout⟩ := h.layout
  refine ⟨.inl ⟨n, layout⟩, ends, ?_, size.le, fits, List.Sublist.refl _⟩
  rw [layout, length_append, ← ends] at size
  simp only [opened]
  omega

variable {log : List WalRecord} {s : State} {a : Append} {front : Bytes}

theorem Behind.padded (h : Behind codec s front) (inPlace : s.cursor = s.writeOffset) :
    ∃ z, s.file = front ++ List.replicate z 0 := by
  rcases h with padded | ⟨_, _, _, _, _, _, _, away⟩
  · exact padded
  · exact absurd inPlace away

/-- The bytes behind the log as a slot and padding. With the slot in place, only a cursor that
is away from it matters. -/
theorem Behind.slot (h : Behind codec s front) (room : front.length ≤ s.fileLen) :
    ∃ slot z, s.file = front ++ slot ++ List.replicate z 0 ∧
      (front ++ slot).length ≤ s.fileLen ∧ (slot = [] ∨ s.cursor ≠ s.writeOffset) ∧
      ∀ (t : State) (z' : Nat), t.file = front ++ slot ++ List.replicate z' 0 →
        s.fileLen ≤ t.fileLen → (slot = [] ∨ t.cursor ≠ t.writeOffset) → Behind codec t front := by
  rcases h with ⟨z, file⟩ | ⟨r, n, z, fits, quiet, file, inside, away⟩
  · refine ⟨[], z, by rw [append_nil, file], by rwa [append_nil], .inl rfl, ?_⟩
    intro t z' file' _ _
    rw [append_nil] at file'
    exact .inl ⟨z', file'⟩
  · refine ⟨Bytes.zeroFrom n (r.serialize codec), z, by rw [append_assoc, file], ?_,
      .inr away, ?_⟩
    · rw [length_append, Bytes.length_zeroFrom]
      exact inside
    · intro t z' file' longer cursor
      have nonempty : Bytes.zeroFrom n (r.serialize codec) ≠ [] := by
        intro nothing
        have size := Bytes.length_zeroFrom n (r.serialize codec)
        rw [nothing, WalRecord.serialize_length, length_nil] at size
        omega
      rw [append_assoc] at file'
      exact .inr ⟨r, n, z', fits, quiet, file', inside.trans longer,
        cursor.resolve_left nonempty⟩

theorem flush_frame (t : State) (r : WalRecord) (fault : Option Fault) :
    (t.flush r fault).file = t.file ∧ (t.flush r fault).fileLen = t.fileLen ∧
      (t.flush r fault).writeOffset = t.writeOffset ∧ (t.flush r fault).cursor = t.cursor ∧
      ((t.flush r fault).acknowledged = t.acknowledged ++ [r] ∨
        fault = some .syncData ∧ (t.flush r fault).acknowledged = t.acknowledged) := by
  unfold flush
  split
  · split
    · rename_i failed
      exact ⟨rfl, rfl, rfl, rfl, .inr ⟨failed, rfl⟩⟩
    · exact ⟨rfl, rfl, rfl, rfl, .inl rfl⟩
  · exact ⟨rfl, rfl, rfl, rfl, .inl rfl⟩

/-- A record that is written where the log ends, with enough room and nothing but padding
behind it. -/
theorem Sound.written {s t : State} {log : List WalRecord} (h : Sound codec s log)
    {r : WalRecord} {fault : Option Fault} {behind : Bytes} {k : Nat}
    (fits : WalRecord.Fits codec r.payload)
    (acknowledges : r.recordType = .checkpoint → fault ≠ some .syncData)
    (whole : ∀ n, fault ≠ some (.writeAll n))
    (file : t.file = Wal.superblock ++ Wal.serializeAll codec log ++ behind)
    (padded : behind.drop (r.serialize codec).length = List.replicate k 0)
    (cursor : t.cursor = s.writeOffset) (writeOffset : t.writeOffset = s.writeOffset)
    (room : s.writeOffset + (r.serialize codec).length ≤ t.fileLen)
    (within : t.fileLen ≤ t.file.length) (same : t.acknowledged = s.acknowledged) :
    Sound codec (t.write codec r fault) (log ++ [r]) := by
  have eq : t.write codec r fault = flush { t with
        file := writeAt t.file t.cursor (r.serialize codec)
        cursor := t.cursor + (r.serialize codec).length
        writeOffset := t.writeOffset + (r.serialize codec).length } r fault := by
    unfold write
    split
    · rename_i n
      exact absurd rfl (whole n)
    · rfl
  obtain ⟨file', fileLen', writeOffset', cursor', acknowledged'⟩ := flush_frame { t with
      file := writeAt t.file t.cursor (r.serialize codec)
      cursor := t.cursor + (r.serialize codec).length
      writeOffset := t.writeOffset + (r.serialize codec).length } r fault
  rw [← eq] at file' fileLen' writeOffset' cursor' acknowledged'
  have all : Wal.superblock ++ Wal.serializeAll codec (log ++ [r]) =
      Wal.superblock ++ Wal.serializeAll codec log ++ r.serialize codec := by
    simp [Wal.serializeAll]
  have content : (t.write codec r fault).file =
      Wal.superblock ++ Wal.serializeAll codec (log ++ [r]) ++ List.replicate k 0 := by
    rw [file', file, cursor, h.writeOffset, writeAt_end, padded, all]
  have ends : (Wal.superblock ++ Wal.serializeAll codec (log ++ [r])).length =
      s.writeOffset + (r.serialize codec).length := by
    rw [all, h.writeOffset]
    exact length_append
  have size := congrArg List.length file
  have left := congrArg List.length padded
  rw [length_append, ← h.writeOffset] at size
  rw [length_drop, length_replicate] at left
  refine ⟨.inl ⟨k, content⟩, ?_, ?_, ?_, ?_, ?_⟩
  · rw [writeOffset', ends]
    exact congrArg (· + _) writeOffset
  · rw [writeOffset', fileLen']
    simp only [writeOffset]
    exact room
  · rw [fileLen', content, length_append, length_replicate, ends]
    simp only
    omega
  · intro x hx
    rcases mem_append.mp hx with old | new
    · exact h.fits x old
    · exact mem_singleton.mp new ▸ fits
  · simp only [same] at acknowledged'
    rw [Wal.afterCheckpoint_snoc]
    rcases acknowledged' with ok | ⟨failed, unchanged⟩
    · rw [ok, Wal.afterCheckpoint_snoc]
      split
      · exact List.Sublist.refl _
      · exact h.acknowledged.append (List.Sublist.refl _)
    · rw [unchanged, if_neg fun checkpoint => acknowledges checkpoint failed]
      exact h.acknowledged.trans (sublist_append_left _ _)

/-- A write that stops on the way, into padding. -/
theorem Sound.torn {s t : State} {log : List WalRecord} (h : Sound codec s log) {r : WalRecord}
    {n z : Nat} (fits : WalRecord.Fits codec r.payload)
    (quiet : r.recordType = .checkpoint →
      ¬ WalRecord.Starts codec (Bytes.zeroFrom n (r.serialize codec)))
    (file : t.file = Wal.superblock ++ Wal.serializeAll codec log ++ List.replicate z 0)
    (cursor : t.cursor = s.writeOffset) (writeOffset : t.writeOffset = s.writeOffset)
    (room : s.writeOffset + (r.serialize codec).length ≤ t.fileLen)
    (within : t.fileLen ≤ t.file.length) (same : t.acknowledged = s.acknowledged) :
    Sound codec (t.write codec r (some (.writeAll n))) log := by
  have size := congrArg List.length file
  rw [length_append, length_replicate, ← h.writeOffset] at size
  have content : (t.write codec r (some (.writeAll n))).file =
      Wal.superblock ++ Wal.serializeAll codec log ++ (Bytes.zeroFrom n (r.serialize codec) ++
        List.replicate (z - (r.serialize codec).length) 0) := by
    have fill : (List.replicate z (0 : UInt8)).drop ((r.serialize codec).take n).length =
        List.replicate ((r.serialize codec).length - n) 0 ++
          List.replicate (z - (r.serialize codec).length) 0 := by
      rw [drop_replicate, replicate_append_replicate, length_take]
      congr 1
      omega
    simp only [write]
    rw [file, cursor, h.writeOffset, writeAt_end, fill, Bytes.zeroFrom]
    simp only [append_assoc]
  refine ⟨?_, ?_, ?_, ?_, h.fits, ?_⟩
  · by_cases nothing : n = 0
    · refine .inl ⟨z, ?_⟩
      rw [content, nothing, Bytes.zeroFrom_zero, replicate_append_replicate]
      congr 2
      omega
    · refine .inr ⟨r, n, _, fits, quiet, content, ?_, ?_⟩
      · rw [← h.writeOffset]
        exact room
      · simp only [write, cursor, writeOffset, length_take, WalRecord.serialize_length]
        omega
  · exact writeOffset.trans h.writeOffset
  · simp only [write, writeOffset]
    omega
  · rw [content]
    simp only [write, length_append, length_replicate, Bytes.length_zeroFrom]
    have ends := h.writeOffset
    rw [length_append] at ends
    omega
  · simp only [write, same]
    exact h.acknowledged

/-- The file with zeros written from the believed length on. -/
theorem zeroed {slot : Bytes} {z : Nat} (c : Nat)
    (file : s.file = front ++ slot ++ List.replicate z 0)
    (inside : (front ++ slot).length ≤ s.fileLen) (within : s.fileLen ≤ s.file.length) :
    ∃ z', writeAt s.file s.fileLen (List.replicate c 0) = front ++ slot ++ List.replicate z' 0 ∧
      s.fileLen + c ≤ (writeAt s.file s.fileLen (List.replicate c 0)).length := by
  rw [file, length_append, length_replicate] at within
  rw [file, writeAt_zeros _ c inside within]
  refine ⟨_, rfl, ?_⟩
  rw [length_append, length_replicate]
  omega

/-- An append that fails while it grows the file. -/
theorem Sound.stays {t : State} {slot : Bytes} {z : Nat} (h : Sound codec s log)
    (keeps : ∀ (t : State) (z' : Nat), t.file = Wal.superblock ++ Wal.serializeAll codec log ++
      slot ++ List.replicate z' 0 → s.fileLen ≤ t.fileLen → (slot = [] ∨ t.cursor ≠ t.writeOffset) →
          Behind codec t (Wal.superblock ++ Wal.serializeAll codec log))
    (file : t.file = Wal.superblock ++ Wal.serializeAll codec log ++ slot ++ List.replicate z 0)
    (cursor : slot = [] ∨ t.cursor ≠ t.writeOffset) (writeOffset : t.writeOffset = s.writeOffset)
    (longer : s.fileLen ≤ t.fileLen) (within : t.fileLen ≤ t.file.length)
    (same : t.acknowledged = s.acknowledged) : Sound codec t log := by
  refine ⟨keeps t z file longer cursor, writeOffset.trans h.writeOffset, ?_, within, h.fits, ?_⟩
  · rw [writeOffset]
    exact h.room.trans longer
  · rw [same]
    exact h.acknowledged

/-- The append that does not have to grow the file. -/
theorem Sound.written_inside (h : Sound codec s log) (careful : Careful codec s a)
    (grows : ¬ s.Grows codec a) : ∃ log', Sound codec (s.doAppend codec a) log' := by
  have inPlace : s.cursor = s.writeOffset := by
    by_contra away
    exact grows (careful.seeks away).1
  obtain ⟨z, file⟩ := h.behind.padded inPlace
  have room : s.writeOffset + ((s.record a).serialize codec).length ≤ s.fileLen :=
    not_lt.mp grows
  simp only [doAppend, if_neg grows]
  by_cases stops : ∃ n, a.fault = some (.writeAll n)
  · obtain ⟨n, fault⟩ := stops
    rw [fault]
    exact ⟨log, @Sound.torn codec s { s with nextSeqNo := s.nextSeqNo + 1 } log h (s.record a) n z
      careful.fits (fun same => (careful.checkpoint same).2 n fault) file inPlace rfl room h.within
      rfl⟩
  · exact ⟨log ++ [s.record a], @Sound.written codec s { s with nextSeqNo := s.nextSeqNo + 1 } log h
      (s.record a) a.fault (List.replicate z 0) _ careful.fits
      (fun same => (careful.checkpoint same).1) (fun n eq => stops ⟨n, eq⟩) file
      drop_replicate inPlace rfl room h.within rfl⟩

/-- An append that grows the file writes its record at the end. -/
theorem Sound.written_growing (h : Sound codec s log) (careful : Careful codec s a)
    (grows : s.Grows codec a) : ∃ log', Sound codec (s.doAppend codec a) log' := by
  obtain ⟨slot, z, file, inside, cursor, keeps⟩ := h.behind.slot (h.writeOffset ▸ h.room)
  have atEnd : slot = [] ∨ s.writeOffset < s.fileLen := by
    cases slot with
    | nil => exact .inl rfl
    | cons b rest =>
      rw [h.writeOffset]
      rw [length_append, length_cons] at inside
      exact .inr (by omega)
  obtain ⟨growTo, growTo_eq⟩ : ∃ growTo, max (s.writeOffset +
    ((s.record a).serialize codec).length) (s.fileLen + Wal.defaultPreallocateBytes) = growTo :=
      ⟨_, rfl⟩
  have longer : s.fileLen + (growTo - s.fileLen) = growTo := by omega
  have room : s.writeOffset + ((s.record a).serialize codec).length ≤ growTo := by omega
  obtain ⟨z', zeros, within⟩ := zeroed (growTo - s.fileLen) file inside h.within
  rw [longer] at within
  have goesOn : ∀ fault : Option Fault, (∀ n, fault ≠ some (.writeAll n)) →
      ((s.record a).recordType = .checkpoint → fault ≠ some .syncData) →
      Sound codec (write codec { s with
          file := writeAt s.file s.fileLen (List.replicate (growTo - s.fileLen) 0)
          cursor := s.writeOffset
          fileLen := growTo
          nextSeqNo := s.nextSeqNo + 1 } (s.record a) fault) (log ++ [s.record a]) := by
    intro fault whole acknowledges
    have covered : slot.length ≤ ((s.record a).serialize codec).length := by
      have short : s.fileLen < s.writeOffset + ((s.record a).serialize codec).length := grows
      rw [h.writeOffset] at short
      rw [length_append] at inside
      omega
    have padded : (slot ++ List.replicate z' 0).drop ((s.record a).serialize codec).length =
        List.replicate (z' - (((s.record a).serialize codec).length - slot.length)) 0 := by
      rw [drop_append, drop_of_length_le covered, nil_append, drop_replicate]
    exact h.written careful.fits acknowledges whole (by rw [← append_assoc]; exact zeros) padded
      rfl rfl room within rfl
  simp only [doAppend, if_pos grows, growTo_eq]
  cases hf : a.fault with
  | none =>
    exact ⟨_, goesOn none nofun fun _ => nofun⟩
  | some f =>
    cases f with
    | syncData =>
      refine ⟨_, goesOn (some .syncData) ?_ fun same => hf ▸ (careful.checkpoint same).1⟩
      intro n eq
      cases eq
    | writeAll n =>
      have inPlace : s.cursor = s.writeOffset := by
        by_contra away
        exact (careful.seeks away).2 n hf
      have nothing : slot = [] := cursor.resolve_right (not_not_intro inPlace)
      subst nothing
      rw [append_nil] at zeros
      exact ⟨log, h.torn careful.fits (fun same => (careful.checkpoint same).2 n hf) zeros rfl rfl
        room within rfl⟩
    | seekToEnd =>
      exact ⟨log, h.stays keeps file cursor rfl le_rfl h.within rfl⟩
    | zeroFill n =>
      simp only [grow, Bool.false_eq_true, if_false]
      obtain ⟨z1, zeros1, within1⟩ := zeroed (min n (growTo - s.fileLen)) file inside h.within
      refine ⟨log, h.stays keeps zeros1 ?_ rfl le_rfl (by simp only; omega) rfl⟩
      refine atEnd.imp_right fun ends => ?_
      simp only
      omega
    | syncAll =>
      simp only [grow, Bool.false_eq_true, if_false]
      refine ⟨log, h.stays keeps zeros ?_ rfl le_rfl (by simp only; omega) rfl⟩
      refine atEnd.imp_right fun ends => ?_
      simp only
      omega
    | seekBack =>
      simp only [grow, Bool.false_eq_true, if_false]
      refine ⟨log, h.stays keeps zeros ?_ rfl (by simp only; omega) within rfl⟩
      refine atEnd.imp_right fun ends => ?_
      simp only
      omega

theorem Sound.doAppend (h : Sound codec s log) (careful : Careful codec s a) :
    ∃ log', Sound codec (s.doAppend codec a) log' := by
  by_cases grows : s.Grows codec a
  · exact h.written_growing careful grows
  · exact h.written_inside careful grows

def State.step (codec : WalCodec) (s : State) (a : Append) : Option State :=
  some (s.doAppend codec a)

theorem sound_of_run {w : WalWriter} {records : List WalRecord} (h : Wal.Holds codec w records)
    (fits : ∀ r ∈ records, WalRecord.Fits codec r.payload) {acts : List Append}
    (careful : Run.Along (step codec) (Careful codec) (opened w records) acts)
    (run : Run.run (step codec) (opened w records) acts = some s) :
    ∃ log, Sound codec s log := by
  refine @Run.invariant_of_run _ _ _ _ (fun s => ∃ log, Sound codec s log) ?_ _ _ _
    ⟨records, sound_opened h fits⟩ careful run
  rintro s a _ ⟨log, h⟩ here eq
  cases eq
  exact h.doAppend here

theorem afterCheckpoint_append (records : List WalRecord) {l : List WalRecord}
    (quiet : ∀ x ∈ l, x.recordType ≠ .checkpoint) :
    Wal.afterCheckpoint (records ++ l) = Wal.afterCheckpoint records ++ l := by
  induction l using List.reverseRecOn with
  | nil => simp
  | append_singleton l x ih =>
    have here := quiet x (by simp)
    rw [← append_assoc, Wal.afterCheckpoint_snoc, if_neg here,
      ih fun y hy => quiet y (mem_append_left _ hy), append_assoc]

theorem recoverWal_superblock (behind : Bytes) : Wal.recoverWal codec (Wal.superblock ++ behind) =
      (Wal.readRecords codec (Wal.superblock ++ behind).length behind).map Wal.afterCheckpoint := by
  have start : (Wal.superblock ++ behind).drop Wal.headerSize = behind := drop_left' rfl
  simp only [Wal.recoverWal, Wal.dataStart_superblock, start]
  cases Wal.readRecords codec (Wal.superblock ++ behind).length behind <;> rfl

/-- What recovery reads from a sound file: the log, and at most one more record. -/
theorem Sound.recovers (lossless : codec.Lossless) (h : Sound codec s log) :
    ∃ l, Wal.recoverWal codec s.file =
      .ok ((Wal.afterCheckpoint log).map WalRecord.stored ++ l) := by
  have behind : ∃ behind, s.file = Wal.superblock ++ (Wal.serializeAll codec log ++ behind) ∧
      ∀ fuel, ∃ l, Wal.readRecords codec (fuel + 1) behind = .ok l ∧
        ∀ x ∈ l, x.recordType ≠ .checkpoint := by
    rcases h.behind with ⟨z, file⟩ | ⟨r, n, z, fits, quiet, file, _, _⟩
    · refine ⟨_, by rw [file, append_assoc], fun fuel => ⟨[], ?_, nofun⟩⟩
      exact Wal.readRecords_zeros _ z
    · refine ⟨_, by rw [file, append_assoc], fun fuel => ?_⟩
      exact WalRecord.torn_reads fits n z fuel quiet
  obtain ⟨behind, file, reads⟩ := behind
  have enough := Wal.serializeAll_length_le codec log
  have size := congrArg List.length file
  have header : Wal.superblock.length = Wal.headerSize := rfl
  have positive : 0 < Wal.headerSize := by decide
  rw [length_append, length_append] at size
  obtain ⟨fuel, fuel_eq⟩ : ∃ fuel, s.file.length = log.length + (fuel + 1) :=
    ⟨s.file.length - log.length - 1, by omega⟩
  obtain ⟨l, read, quiet⟩ := reads fuel
  refine ⟨l, ?_⟩
  rw [file, recoverWal_superblock, ← file, fuel_eq, Wal.readRecords_append lossless h.fits, read]
  simp only [Except.map]
  rw [afterCheckpoint_append _ quiet, Wal.afterCheckpoint_map_stored]

/-- Every record whose append returned `Ok` is returned by recovery, in append order, after the
last checkpoint. -/
def RecoversAcknowledged (codec : WalCodec) (s : State) : Prop :=
  ∃ records, Wal.recoverWal codec s.file = .ok records ∧
    ((Wal.afterCheckpoint s.acknowledged).map WalRecord.stored).Sublist records

/-- A log that is opened with whole records and padding in it keeps every acknowledged record
in a run whose appends do not rely on a position that a failure left behind. -/
theorem recovers_acknowledged_of_run (lossless : codec.Lossless) {w : WalWriter}
    {records : List WalRecord} (h : Wal.Holds codec w records)
    (fits : ∀ r ∈ records, WalRecord.Fits codec r.payload) {acts : List Append} {s : State}
    (careful : Run.Along (step codec) (Careful codec) (opened w records) acts)
    (run : Run.run (step codec) (opened w records) acts = some s) :
    RecoversAcknowledged codec s := by
  obtain ⟨log, h⟩ := sound_of_run h fits careful run
  obtain ⟨l, read⟩ := h.recovers lossless
  refine ⟨_, read, ?_⟩
  exact (h.acknowledged.map _).trans (sublist_append_left _ _)

/-- The log of a file that did not exist. -/
def newLog : State := opened WalCallers.State.fresh.writer []

/-- A flush that fails between two appends, and a write that stops after the last one. -/
def failedFlush : List Append :=
  [⟨.rowPut, [7], none⟩, ⟨.rowPut, [8], some .syncData⟩, ⟨.rowPut, [9], none⟩,
    ⟨.rowPut, [5], some (.writeAll 13)⟩]

theorem recovers_after_a_failed_flush :
    ∃ s, Run.run (step Wal.summing) newLog failedFlush = some s ∧
      RecoversAcknowledged Wal.summing s := by
  have careful : ∀ (s : State) (a : Append), s.cursor = s.writeOffset →
      WalRecord.Fits Wal.summing a.payload → a.recordType ≠ .checkpoint → Careful Wal.summing s a :=
    fun s a inPlace fits other => ⟨fits, fun away => absurd inPlace away,
      fun same => absurd same other⟩
  have holds : Wal.Holds Wal.summing WalCallers.State.fresh.writer [] := by
    obtain ⟨w, opens, holds⟩ := @Wal.holds_new Wal.summing
    obtain rfl := Except.ok.inj (opens.symm.trans (WalCallers.State.new_fresh _))
    exact holds
  refine ⟨_, rfl, @recovers_acknowledged_of_run _ Wal.lossless_summing _ [] holds nofun
    failedFlush _ ?_ rfl⟩
  refine ⟨careful _ _ (by decide +kernel) (by decide) (by decide), fun s eq => ?_⟩
  cases eq
  refine ⟨careful _ _ (by decide +kernel) (by decide) (by decide), fun s eq => ?_⟩
  cases eq
  refine ⟨careful _ _ (by decide +kernel) (by decide) (by decide), fun s eq => ?_⟩
  cases eq
  exact ⟨careful _ _ (by decide +kernel) (by decide) (by decide), fun _ _ => trivial⟩

/-- An append behind a write that stopped after the length field. -/
def tornWrite : List Append := [⟨.rowPut, [7], some (.writeAll 13)⟩, ⟨.rowPut, [8], none⟩]

def tornSlot : Bytes :=
  ((WalRecord.mk .rowPut 1 [7]).serialize Wal.summing).take 13 ++
    (WalRecord.mk .rowPut 2 [8]).serialize Wal.summing

/-- A record behind a failed write is in the log and is not read back. -/
theorem append_behind_a_torn_write_is_lost :
    WalWriter.new Wal.summing [] = .ok WalCallers.State.fresh.writer ∧
    ∃ s, Run.run (step Wal.summing) newLog tornWrite = some s ∧
      s.acknowledged = [⟨.rowPut, 2, [8]⟩] ∧ ¬ RecoversAcknowledged Wal.summing s := by
  obtain ⟨s, z, run, file, acknowledged⟩ : ∃ s z,
      Run.run (step Wal.summing) newLog tornWrite = some s ∧
        s.file = Wal.superblock ++ (tornSlot ++ List.replicate z 0) ∧
        s.acknowledged = [⟨.rowPut, 2, [8]⟩] :=
    ⟨_, _, rfl, rfl, by decide +kernel⟩
  refine ⟨WalCallers.State.new_fresh _, s, run, acknowledged, ?_⟩
  have starts : ¬ WalRecord.Starts Wal.summing (tornSlot ++ List.replicate z 0) := by
    rw [WalRecord.starts_append_iff (by decide) (by decide)]
    decide
  have torn : ¬ WalRecord.TornPayload (tornSlot ++ List.replicate z 0) := by
    rintro ⟨_, _, short⟩
    have field : Bytes.ofLe (((tornSlot ++ List.replicate z 0).drop 9).take 4) = 1 := rfl
    rw [field, length_append] at short
    have slot : tornSlot.length = 35 := by decide
    omega
  have nothing := (Wal.readRecords_eq_nil_iff (s.file.length - 1) _).mpr ⟨starts, torn⟩
  have positive : s.file.length - 1 + 1 = s.file.length := by
    rw [file]
    rfl
  rintro ⟨records, recovered, sublist⟩
  rw [file, recoverWal_superblock, ← file, ← positive, nothing] at recovered
  cases recovered
  rw [acknowledged] at sublist
  cases sublist

end WalFaults

end GalaxDb
