import GalaxDb.Storage.SstFooter

/-!
# Reading the bytes of a PAX block

Header with one descriptor a column, the column chunks, the row offsets and a checksum of
all that. A block is refused as a whole, or one of its columns is; why is of no interest to
the readers, which pass over it either way. Integers wrap as they do in a release build.
-/

namespace GalaxDb.PaxBytes

/-- Checksum and decompressor that come from outside. -/
structure Codecs where
  xxh3 : Bytes → UInt64
  zstdDecode : Bytes → Option Bytes

/-- An error that is returned, or a slice out of range. -/
inductive Fault where
  | error
  | panic
  deriving DecidableEq

inductive ColumnType where
  | int8 | int16 | int32 | int64
  | uint8 | uint16 | uint32 | uint64
  | float32 | float64
  | text | blob | json
  | boolean
  | embedding (dims : Nat)
  deriving DecidableEq

namespace ColumnType

def fromU8 (value dims : Nat) : Option ColumnType :=
  match value with
  | 0 => some int8
  | 1 => some int16
  | 2 => some int32
  | 3 => some int64
  | 4 => some uint8
  | 5 => some uint16
  | 6 => some uint32
  | 7 => some uint64
  | 8 => some float32
  | 9 => some float64
  | 10 => some text
  | 11 => some blob
  | 12 => some json
  | 13 => some boolean
  | 14 => some (embedding dims)
  | _ => none

/-- The width of the integer that a value of the type is packed as, if it is packed. -/
def packedWidth : ColumnType → Option Nat
  | int8 | uint8 | boolean => some 1
  | int16 | uint16 => some 2
  | int32 | uint32 | float32 => some 4
  | int64 | uint64 | float64 => some 8
  | text | blob | json | embedding _ => none

def isSigned : ColumnType → Bool
  | int8 | int16 | int32 | int64 => true
  | _ => false

end ColumnType

inductive CodecId where
  | none
  | fastPFor
  | zstd
  deriving DecidableEq

def CodecId.fromU8 (value : Nat) : Option CodecId :=
  match value with
  | 0 => some .none
  | 1 => some .fastPFor
  | 2 => some .zstd
  | _ => Option.none

structure ColumnDescriptor where
  colType : ColumnType
  codec : CodecId
  offset : Nat
  compressedLen : Nat
  zoneMapMin : Bytes
  zoneMapMax : Bytes

structure PaxBlockHeader where
  magic : Nat
  formatVersion : Nat
  blockId : Nat
  rowCount : Nat
  commitTimestamp : Nat
  columnCount : Nat
  columnDescriptors : List ColumnDescriptor

structure RawBlock where
  header : PaxBlockHeader
  columnData : Bytes
  rowOffsets : List Nat
  checksum : Nat

/-- Values with their lengths in front. -/
def lengthPrefixed : Nat → Bytes → Except Fault (List Bytes)
  | 0, _ => .ok []
  | count + 1, data =>
    if data.length < 4 then .error .error
    else
      let len := Bytes.ofLe (data.take 4)
      let rest := data.drop 4
      if rest.length < len then .error .error
      else (lengthPrefixed count (rest.drop len)).map (rest.take len :: ·)

def bytesToU64 (colType : ColumnType) (bytes : Bytes) : Nat :=
  match colType.packedWidth with
  | some width => if bytes.length < width then 0 else Bytes.ofLe (bytes.take width)
  | none => 0

def u64ToBytes (colType : ColumnType) (value byteWidth : Nat) : Except Fault Bytes :=
  match colType.packedWidth with
  | some width => .ok (Bytes.toLe width value)
  | none => if 8 < byteWidth then .error .panic else .ok (Bytes.toLe byteWidth value)

/-- The bits of one packed value, low bits first; bytes past the end count as zero. -/
def unpackBits (data : Bytes) : Nat → Nat → Nat → Nat → Nat → Nat
  | 0, _, _, _, value => value
  | fuel + 1, remaining, bit, shift, value =>
    if remaining = 0 then value
    else
      let taken := min remaining (8 - bit % 8)
      let extracted := match data[bit / 8]? with
        | some byte => byte.toNat / 2 ^ (bit % 8) % 2 ^ taken
        | none => 0
      unpackBits data fuel (remaining - taken) (bit + taken) (shift + taken)
        (value ||| extracted * 2 ^ (shift % 64) % 2 ^ 64)

def bitpackDecode (data : Bytes) (bits count : Nat) : List Nat :=
  if bits = 0 then List.replicate count 0
  else (List.range count).map fun i =>
    unpackBits data bits bits (i * bits) 0 0 % 2 ^ min bits 64

/-- The next value from the one before it. Signed differences are zigzag encoded. -/
def applyDelta (signed : Bool) (prev delta : Nat) : Nat :=
  if signed then
    if delta % 2 = 0 then (prev + delta / 2) % 2 ^ 64
    else (prev + (2 ^ 64 - (delta / 2 + 1))) % 2 ^ 64
  else (prev + delta) % 2 ^ 64

def undelta (signed : Bool) : Nat → List Nat → List Nat
  | prev, [] => [prev]
  | prev, delta :: rest => prev :: undelta signed (applyDelta signed prev delta) rest

def decompressFastPFor (colType : ColumnType) (data : Bytes) (rowCount : Nat) :
    Except Fault (List Bytes) :=
  match data with
  | [] => .error .error
  | width :: data =>
    let byteWidth := width.toNat
    if rowCount = 0 then .ok []
    else if data.length < byteWidth then .error .error
    else
      let first := data.take byteWidth
      if rowCount = 1 then .ok [first]
      else
        match data.drop byteWidth with
        | [] => .error .error
        | maxBits :: data => do
          let deltas ← if maxBits = 0 then .ok (List.replicate (rowCount - 1) 0)
            else if data.length < 4 then .error .error
            else
              let packedLen := Bytes.ofLe (data.take 4)
              if (data.drop 4).length < packedLen then .error .error
              else .ok (bitpackDecode ((data.drop 4).take packedLen) maxBits.toNat (rowCount - 1))
          (undelta colType.isSigned (bytesToU64 colType first) deltas).mapM
            (u64ToBytes colType · byteWidth)

def decompress (codecs : Codecs) (colType : ColumnType) (codec : CodecId) (data : Bytes)
    (rowCount : Nat) : Except Fault (List Bytes) :=
  match codec with
  | .none => lengthPrefixed rowCount data
  | .fastPFor => decompressFastPFor colType data rowCount
  | .zstd =>
    -- the length in front of the compressed data is not looked at
    if data.length < 4 then .error .error
    else match codecs.zstdDecode (data.drop 4) with
      | none => .error .error
      | some raw => lengthPrefixed rowCount raw

def readExact (n : Nat) (cursor : Bytes) : Option (Bytes × Bytes) :=
  if cursor.length < n then none else some (cursor.take n, cursor.drop n)

def readLe (width : Nat) (cursor : Bytes) : Option (Nat × Bytes) :=
  (readExact width cursor).map fun p => (Bytes.ofLe p.1, p.2)

def readDescriptor (cursor : Bytes) : Option (ColumnDescriptor × Bytes) := do
  let (colTypeByte, cursor) ← readLe 1 cursor
  let (dims, cursor) ← if colTypeByte = 14 then readLe 4 cursor else some (0, cursor)
  let colType ← ColumnType.fromU8 colTypeByte dims
  let (codecByte, cursor) ← readLe 1 cursor
  let codec ← CodecId.fromU8 codecByte
  let (offset, cursor) ← readLe 8 cursor
  let (compressedLen, cursor) ← readLe 4 cursor
  let (minLen, cursor) ← readLe 4 cursor
  let (zoneMapMin, cursor) ← readExact minLen cursor
  let (maxLen, cursor) ← readLe 4 cursor
  let (zoneMapMax, cursor) ← readExact maxLen cursor
  some (⟨colType, codec, offset, compressedLen, zoneMapMin, zoneMapMax⟩, cursor)

def readDescriptors : Nat → Bytes → Option (List ColumnDescriptor × Bytes)
  | 0, cursor => some ([], cursor)
  | count + 1, cursor => do
    let (descriptor, cursor) ← readDescriptor cursor
    let (rest, cursor) ← readDescriptors count cursor
    some (descriptor :: rest, cursor)

def deserializeHeader (cursor : Bytes) : Option (PaxBlockHeader × Bytes) := do
  let (magic, cursor) ← readLe 4 cursor
  let (formatVersion, cursor) ← readLe 1 cursor
  let (blockId, cursor) ← readLe 8 cursor
  let (rowCount, cursor) ← readLe 4 cursor
  let (commitTimestamp, cursor) ← readLe 8 cursor
  let (columnCount, cursor) ← readLe 2 cursor
  let (columnDescriptors, cursor) ← readDescriptors columnCount cursor
  some (⟨magic, formatVersion, blockId, rowCount, commitTimestamp, columnCount,
    columnDescriptors⟩, cursor)

def paxMagic : Nat := 0x47414C41
def minReadable : Nat := 1
def currentWrite : Nat := 1

/-- The offsets behind the column chunks. -/
def readOffsets : Nat → Bytes → List Nat
  | 0, _ => []
  | count + 1, data => Bytes.ofLe (data.take 4) :: readOffsets count (data.drop 4)

/-- Checksum first, then magic number and version, then the parts. -/
def deserialize (codecs : Codecs) (data : Bytes) : Option RawBlock :=
  if data.length < 8 then none
  else
    let stored := Bytes.ofLe (data.drop (data.length - 8))
    let blockData := data.take (data.length - 8)
    if (codecs.xxh3 blockData).toNat ≠ stored then none
    else match deserializeHeader blockData with
      | none => none
      | some (header, cursor) =>
        if header.magic ≠ paxMagic then none
        else if header.formatVersion < minReadable ∨ currentWrite < header.formatVersion then none
        else
          let total := (header.columnDescriptors.map ColumnDescriptor.compressedLen).sum
          if cursor.length < total then none
          else if (cursor.drop total).length < header.rowCount * 4 then none
          else some ⟨header, cursor.take total, readOffsets header.rowCount (cursor.drop total),
            stored⟩

def readColumn (codecs : Codecs) (block : RawBlock) (col : Nat) : Except Fault (List Bytes) :=
  match block.header.columnDescriptors[col]? with
  | none => .error .error
  | some desc =>
    let stop := (desc.offset + desc.compressedLen) % 2 ^ 64
    if block.columnData.length < stop then .error .error
    else if stop < desc.offset then .error .panic
    else decompress codecs desc.colType desc.codec
      (SstBlockIndex.slice block.columnData desc.offset stop) block.header.rowCount

end GalaxDb.PaxBytes
