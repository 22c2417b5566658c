import GalaxDb.Lib.Bytes

/-!
# Write-ahead log

A pre-allocated file: a versioned superblock, the records one after the other, then
zero padding. A zero is no record type, so a reader stops at the padding. The checksum
and the compression of a record come from outside and are parameters.
-/

namespace GalaxDb

structure WalCodec where
  xxh3 : Bytes → UInt64
  lz4Compress : Bytes → Bytes
  lz4Decompress : Bytes → Option Bytes

def WalCodec.Lossless (codec : WalCodec) : Prop :=
  ∀ payload, codec.lz4Decompress (codec.lz4Compress payload) = some payload

inductive WalRecordType where
  | rowPut
  | rowDelete
  | deltaInsert
  | deltaTombstone
  | checkpoint
  | blobRef
  deriving DecidableEq

namespace WalRecordType

def toU8 : WalRecordType → UInt8
  | rowPut => 0x01
  | rowDelete => 0x02
  | deltaInsert => 0x03
  | deltaTombstone => 0x04
  | checkpoint => 0x05
  | blobRef => 0x06

def fromU8 (value : UInt8) : Option WalRecordType :=
  if value = 0x01 then some rowPut
  else if value = 0x02 then some rowDelete
  else if value = 0x03 then some deltaInsert
  else if value = 0x04 then some deltaTombstone
  else if value = 0x05 then some checkpoint
  else if value = 0x06 then some blobRef
  else none

@[simp] theorem fromU8_toU8 (t : WalRecordType) : fromU8 t.toU8 = some t := by
  cases t <;> rfl

end WalRecordType

structure WalRecord where
  recordType : WalRecordType
  seqNo : Nat
  payload : Bytes
  deriving DecidableEq

/-- The kinds of read error that recovery tells apart. -/
inductive IoError where
  | invalidData
  | unexpectedEof
  deriving DecidableEq

namespace WalRecord

variable (codec : WalCodec)

/-- The bytes under the checksum of a record. -/
def checksumInput (typeByte : UInt8) (seqNo length : Nat) (compressed : Bytes) : Bytes :=
  typeByte :: Bytes.toLe 8 seqNo ++ Bytes.toLe 4 length ++ compressed

/-- `[type:u8][seq_no:u64][length:u32][xxh3:u64][lz4_payload]`; the length field keeps the
32 low bits. -/
def serialize (r : WalRecord) : Bytes :=
  let compressed := codec.lz4Compress r.payload
  let length := compressed.length
  let checksum := codec.xxh3 (checksumInput r.recordType.toU8 r.seqNo length compressed)
  r.recordType.toU8 :: Bytes.toLe 8 r.seqNo ++ Bytes.toLe 4 length ++
    Bytes.toLe 8 checksum.toNat ++ compressed

/-- The record at the front of the input and what follows it; nothing when no whole
header is left. -/
def deserialize (input : Bytes) : Except IoError (Option (WalRecord × Bytes)) :=
  let header := input.take 21
  if header.length < 21 then .ok none
  else
    let typeByte := header.headD 0
    let seqNo := Bytes.ofLe ((header.drop 1).take 8)
    let length := Bytes.ofLe ((header.drop 9).take 4)
    let storedChecksum := Bytes.ofLe (header.drop 13)
    match WalRecordType.fromU8 typeByte with
    | none => .error .invalidData
    | some recordType =>
      let compressed := (input.drop 21).take length
      if compressed.length < length then .error .unexpectedEof
      else if (codec.xxh3 (checksumInput typeByte seqNo length compressed)).toNat ≠
          storedChecksum then .error .invalidData
      else
        match codec.lz4Decompress compressed with
        | none => .error .invalidData
        | some payload => .ok (some (⟨recordType, seqNo, payload⟩, input.drop (21 + length)))

end WalRecord

namespace Wal

/-- `format::WAL`: magic, format version 1, the writing engine 0.7.0, reserved zeros. -/
def superblock : Bytes :=
  [0x47, 0x57, 0x41, 0x4C] ++ Bytes.toLe 2 1 ++
    (Bytes.toLe 2 0 ++ Bytes.toLe 2 7 ++ Bytes.toLe 2 0) ++ [0, 0, 0, 0]

def headerSize : Nat := 16

def defaultPreallocateBytes : Nat := 64 * 1024 * 1024

/-- Where the records of a file begin: after a superblock of a readable version, or at
the start of a file without one. -/
def dataStart (file : Bytes) : Except IoError Nat :=
  if file.take 4 ≠ [0x47, 0x57, 0x41, 0x4C] then .ok 0
  else if (file.take headerSize).length < headerSize then .error .unexpectedEof
  else if Bytes.ofLe ((file.drop 4).take 2) = 1 then .ok headerSize
  else .error .invalidData

variable (codec : WalCodec)

/-- All records up to the first one that cannot be read. Reading stops for good at
invalid data, while any other error is returned. Every record takes at least one byte
of the input, so its length is enough fuel. -/
def readRecords : Nat → Bytes → Except IoError (List WalRecord)
  | 0, _ => .ok []
  | fuel + 1, input =>
    match WalRecord.deserialize codec input with
    | .ok none => .ok []
    | .ok (some (record, rest)) =>
      match readRecords fuel rest with
      | .ok records => .ok (record :: records)
      | .error e => .error e
    | .error .invalidData => .ok []
    | .error e => .error e

/-- The records after the last checkpoint. -/
def afterCheckpoint (records : List WalRecord) : List WalRecord :=
  (records.reverse.takeWhile (fun r => r.recordType ≠ .checkpoint)).reverse

def recoverWal (file : Bytes) : Except IoError (List WalRecord) :=
  match dataStart file with
  | .error e => .error e
  | .ok start =>
    match readRecords codec file.length (file.drop start) with
    | .error e => .error e
    | .ok records => .ok (afterCheckpoint records)

/-- The offset behind the last record that reads back. -/
def scanLogicalEnd : Nat → Bytes → Nat → Nat
  | 0, _, offset => offset
  | fuel + 1, input, offset =>
    match WalRecord.deserialize codec input with
    | .ok (some (record, rest)) =>
      scanLogicalEnd fuel rest (offset + (record.serialize codec).length)
    | _ => offset

end Wal

/-- The log file with its padding and the offset of the next record. -/
structure WalWriter where
  file : Bytes
  fileLen : Nat
  writeOffset : Nat
  nextSeqNo : Nat

namespace WalWriter

variable (codec : WalCodec)

/-- Zero bytes appended up to a length. -/
def zeroFill (file : Bytes) (len : Nat) : Bytes :=
  file ++ List.replicate (len - file.length) 0

def new (onDisk : Bytes) : Except IoError WalWriter :=
  let file := if onDisk = [] then Wal.superblock else onDisk
  match Wal.dataStart file with
  | .error e => .error e
  | .ok start =>
    let logicalEnd := Wal.scanLogicalEnd codec file.length (file.drop start) start
    let wantLen := max logicalEnd Wal.defaultPreallocateBytes
    let file := if file.length < wantLen then zeroFill file wantLen else file
    .ok ⟨file, file.length, logicalEnd, 1⟩

/-- New records overwrite the padding; the file grows by a chunk when it is too short. -/
def append (w : WalWriter) (recordType : WalRecordType) (payload : Bytes) : WalWriter :=
  let data := (WalRecord.mk recordType w.nextSeqNo payload).serialize codec
  let grown := w.fileLen < w.writeOffset + data.length
  let growTo := max (w.writeOffset + data.length) (w.fileLen + Wal.defaultPreallocateBytes)
  let file := if grown then zeroFill w.file growTo else w.file
  { file := file.take w.writeOffset ++ data ++ file.drop (w.writeOffset + data.length)
    fileLen := if grown then growTo else w.fileLen
    writeOffset := w.writeOffset + data.length
    nextSeqNo := w.nextSeqNo + 1 }

end WalWriter

end GalaxDb
