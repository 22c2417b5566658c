import GalaxDb.Storage.ScanColumnar

/-!
# Writing PAX blocks

Every column is compressed by a codec of its own and gets a descriptor with its place and its
zone map. Fixed-width columns may be stored as packed differences. Integers wrap as they do in
a release build.
-/

namespace GalaxDb.PaxBytes

open ScanColumnar (toComparableBytes)

/-- The codecs with the compressor, which may fail. -/
structure WriteCodecs extends Codecs where
  zstdEncode : Bytes → Option Bytes

namespace ColumnType

def toU8 : ColumnType → Nat
  | int8 => 0
  | int16 => 1
  | int32 => 2
  | int64 => 3
  | uint8 => 4
  | uint16 => 5
  | uint32 => 6
  | uint64 => 7
  | float32 => 8
  | float64 => 9
  | text => 10
  | blob => 11
  | json => 12
  | boolean => 13
  | embedding _ => 14

def byteSize : ColumnType → Option Nat
  | int8 | uint8 | boolean => some 1
  | int16 | uint16 => some 2
  | int32 | uint32 | float32 => some 4
  | int64 | uint64 | float64 => some 8
  | text | blob | json => none
  | embedding dims => some (dims * 4)

end ColumnType

def CodecId.toU8 : CodecId → Nat
  | .none => 0
  | .fastPFor => 1
  | .zstd => 2

structure ColumnData where
  colType : ColumnType
  values : List Bytes
  deriving DecidableEq

def compressNone (values : List Bytes) : Bytes :=
  values.flatMap fun value => Bytes.toLe 4 value.length ++ value

/-- `(value << 1) ^ (value >> 63)` of a signed number given by its 64 bits. -/
def zigzagEncode (value : Nat) : Nat :=
  if value < 2 ^ 63 then 2 * value else 2 * (2 ^ 64 - value) - 1

/-- From one value to the next, zigzag encoded where the type is signed. -/
def delta (signed : Bool) (prev next : Nat) : Nat :=
  let diff := (next + (2 ^ 64 - prev)) % 2 ^ 64
  if signed then zigzagEncode diff else diff

def deltas (signed : Bool) : List Nat → List Nat
  | prev :: next :: rest => delta signed prev next :: deltas signed (next :: rest)
  | _ => []

/-- The bits of the greatest difference: 64 less its leading zeros. -/
def maxBits (deltas : List Nat) : Nat :=
  let maxDelta := deltas.foldl max 0
  if maxDelta = 0 then 0 else maxDelta.log2 + 1

/-- The bits of one value, low bits first. The bytes are there already, as zeros. -/
def packBits : Nat → Bytes → Nat → Nat → Nat → Bytes
  | 0, output, _, _, _ => output
  | fuel + 1, output, value, remaining, bit =>
    if remaining = 0 then output
    else
      let taken := min remaining (8 - bit % 8)
      packBits fuel
        (output.modify (bit / 8) (· ||| UInt8.ofNat (value % 2 ^ taken * 2 ^ (bit % 8))))
        (value / 2 ^ taken) (remaining - taken) (bit + taken)

def packValues (bits : Nat) : List Nat → Bytes → Nat → Bytes
  | [], output, _ => output
  | value :: rest, output, bitOffset =>
    packValues bits rest (packBits bits output (value % 2 ^ min bits 64) bits bitOffset)
      (bitOffset + bits)

def bitpackEncode (values : List Nat) (bits : Nat) : Bytes :=
  if bits = 0 ∨ values = [] then []
  else packValues bits values (List.replicate ((values.length * bits + 7) / 8) 0) 0

def compressFastPFor (colType : ColumnType) (values : List Bytes) : Except Fault Bytes :=
  match colType.byteSize with
  | none => .error .error
  | some byteWidth =>
    match values with
    | [] => .ok [UInt8.ofNat byteWidth]
    | first :: _ =>
      let deltas := deltas colType.isSigned (values.map (bytesToU64 colType))
      let bits := maxBits deltas
      let packed := bitpackEncode deltas bits
      .ok (UInt8.ofNat byteWidth :: (first ++ UInt8.ofNat bits ::
        if 0 < bits ∧ deltas ≠ [] then Bytes.toLe 4 packed.length ++ packed else []))

def compress (codecs : WriteCodecs) (colType : ColumnType) (codec : CodecId)
    (values : List Bytes) : Except Fault Bytes :=
  match codec with
  | .none => .ok (compressNone values)
  | .fastPFor => compressFastPFor colType values
  | .zstd =>
    let raw := compressNone values
    match codecs.zstdEncode raw with
    | none => .error .error
    | some compressed => .ok (Bytes.toLe 4 raw.length ++ compressed)

/-- The first of the least values and the last of the greatest, in the order of their
comparable bytes. -/
def extractZoneMap (colType : ColumnType) (values : List Bytes) : Bytes × Bytes :=
  let order (a b : Bytes) := compare (toComparableBytes colType a) (toComparableBytes colType b)
  match values with
  | [] => ([], [])
  | value :: rest =>
    (rest.foldl (fun low v => if order v low = .lt then v else low) value,
      rest.foldl (fun high v => if order v high = .lt then high else v) value)

/-- The descriptors and the chunks, which follow the data written so far. -/
def writeColumns (codecs : WriteCodecs) :
    List (ColumnData × CodecId) → Bytes → Except Fault (List ColumnDescriptor × Bytes)
  | [], columnData => .ok ([], columnData)
  | (col, codec) :: rest, columnData =>
    match compress codecs col.colType codec col.values with
    | .error e => .error e
    | .ok compressed =>
      let zoneMap := extractZoneMap col.colType col.values
      (writeColumns codecs rest (columnData ++ compressed)).map fun written =>
        (⟨col.colType, codec, columnData.length % 2 ^ 64, compressed.length % 2 ^ 32, zoneMap.1,
          zoneMap.2⟩ :: written.1, written.2)

def rowSize (columns : List ColumnData) (row : Nat) : Nat :=
  (columns.map fun col => (col.values.getD row []).length % 2 ^ 32).sum % 2 ^ 32

/-- Where each row starts in the uncompressed layout, as far as 32 bits go. -/
def buildRowOffsets (columns : List ColumnData) : Nat → Nat → Nat → List Nat
  | 0, _, _ => []
  | rows + 1, row, cumulative =>
    cumulative :: buildRowOffsets columns rows (row + 1)
      (min (cumulative + rowSize columns row) (2 ^ 32 - 1))

/-- Only embeddings have their dimensions behind the type. -/
def serializeDims : ColumnType → Bytes
  | .embedding dims => Bytes.toLe 4 dims
  | _ => []

def serializeDescriptor (desc : ColumnDescriptor) : Bytes :=
  Bytes.toLe 1 desc.colType.toU8 ++ serializeDims desc.colType ++
    Bytes.toLe 1 desc.codec.toU8 ++ Bytes.toLe 8 desc.offset ++ Bytes.toLe 4 desc.compressedLen ++
    Bytes.toLe 4 desc.zoneMapMin.length ++ desc.zoneMapMin ++
    Bytes.toLe 4 desc.zoneMapMax.length ++ desc.zoneMapMax

def serializeHeader (header : PaxBlockHeader) : Bytes :=
  Bytes.toLe 4 header.magic ++ Bytes.toLe 1 header.formatVersion ++
    Bytes.toLe 8 header.blockId ++ Bytes.toLe 4 header.rowCount ++
    Bytes.toLe 8 header.commitTimestamp ++ Bytes.toLe 2 header.columnCount ++
    header.columnDescriptors.flatMap serializeDescriptor

def serializeRowOffsets (offsets : List Nat) : Bytes := offsets.flatMap (Bytes.toLe 4)

/-- The bytes that the checksum covers. -/
def blockBytes (header : PaxBlockHeader) (columnData : Bytes) (rowOffsets : List Nat) : Bytes :=
  serializeHeader header ++ columnData ++ serializeRowOffsets rowOffsets

def writeWithCodecs (codecs : WriteCodecs) (blockId commitTimestamp : UInt64)
    (columns : List ColumnData) (codecIds : List CodecId) : Except Fault RawBlock :=
  match columns with
  | [] => .error .error
  | first :: _ =>
    if codecIds.length ≠ columns.length then .error .error
    else if columns.any fun col => col.values.length ≠ first.values.length then .error .error
    else
      (writeColumns codecs (columns.zip codecIds) []).map fun written =>
        let rowOffsets := buildRowOffsets columns first.values.length 0 0
        let header : PaxBlockHeader := ⟨paxMagic, currentWrite, blockId.toNat,
          first.values.length % 2 ^ 32, commitTimestamp.toNat, columns.length % 2 ^ 16,
          written.1⟩
        ⟨header, written.2, rowOffsets,
          (codecs.xxh3 (blockBytes header written.2 rowOffsets)).toNat⟩

def serialize (block : RawBlock) : Bytes :=
  blockBytes block.header block.columnData block.rowOffsets ++ Bytes.toLe 8 block.checksum

end GalaxDb.PaxBytes
