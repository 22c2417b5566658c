import GalaxDb.Storage.PaxCodecs
import Mathlib.Algebra.Order.BigOperators.Group.List

/-!
# Written blocks read back

A block whose fields are within the width they are stored in is deserialized as it was, and
every column is found at the place its descriptor names.
-/

namespace GalaxDb.PaxBytes

open Bytes List Option

section Header

theorem readExact_append (bytes rest : Bytes) :
    readExact bytes.length (bytes ++ rest) = some (bytes, rest) := by
  simp [readExact]

theorem readLe_append {width n : Nat} (rest : Bytes) (fits : n < 256 ^ width) :
    readLe width (toLe width n ++ rest) = some (n, rest) := by
  have read := readExact_append (toLe width n) rest
  rw [toLe_length] at read
  rw [readLe, read, map_some, ofLe_toLe_of_lt fits]

/-- Every field is within the width it is stored in. -/
structure ColumnDescriptor.Fits (desc : ColumnDescriptor) : Prop where
  dims : ∀ dims, desc.colType = .embedding dims → dims < 2 ^ 32
  offset : desc.offset < 2 ^ 64
  compressedLen : desc.compressedLen < 2 ^ 32
  zoneMapMin : desc.zoneMapMin.length < 2 ^ 32
  zoneMapMax : desc.zoneMapMax.length < 2 ^ 32

structure RawBlock.Fits (block : RawBlock) : Prop where
  magic : block.header.magic = paxMagic
  formatVersion : block.header.formatVersion = currentWrite
  blockId : block.header.blockId < 2 ^ 64
  rowCount : block.header.rowCount < 2 ^ 32
  commitTimestamp : block.header.commitTimestamp < 2 ^ 64
  columns : block.header.columnDescriptors.length < 2 ^ 16
  columnCount : block.header.columnCount = block.header.columnDescriptors.length
  descriptors : ∀ desc ∈ block.header.columnDescriptors, desc.Fits
  columnData : block.columnData.length =
    (block.header.columnDescriptors.map ColumnDescriptor.compressedLen).sum
  rowOffsets : block.rowOffsets.length = block.header.rowCount
  rowOffset : ∀ offset ∈ block.rowOffsets, offset < 2 ^ 32
  checksum : block.checksum < 2 ^ 64

theorem ColumnType.toU8_lt (colType : ColumnType) : colType.toU8 < 256 ^ 1 := by
  cases colType <;> simp [toU8]

theorem CodecId.toU8_lt (codec : CodecId) : codec.toU8 < 256 ^ 1 := by
  cases codec <;> decide

theorem CodecId.fromU8_toU8 (codec : CodecId) : CodecId.fromU8 codec.toU8 = some codec := by
  cases codec <;> rfl

variable {desc : ColumnDescriptor} {colType : ColumnType}

theorem ColumnType.fromU8_toU8 (plain : colType.toU8 ≠ 14) :
    fromU8 colType.toU8 0 = some colType ∧ serializeDims colType = [] := by
  cases colType with
  | embedding n => exact absurd rfl plain
  | _ => exact ⟨rfl, rfl⟩

theorem ColumnType.eq_embedding (sized : colType.toU8 = 14) :
    ∃ dims, colType = .embedding dims := by
  cases colType with
  | embedding dims => exact ⟨dims, rfl⟩
  | _ => exact absurd sized (by decide)

theorem readDescriptor_append (rest : Bytes) (fits : desc.Fits) :
    readDescriptor (serializeDescriptor desc ++ rest) = some (desc, rest) := by
  rw [readDescriptor]
  simp only [serializeDescriptor, append_assoc]
  refine bind_eq_some_iff.mpr ⟨_, readLe_append _ desc.colType.toU8_lt, ?_⟩
  by_cases sized : desc.colType.toU8 = 14
  on_goal 1 =>
    obtain ⟨dims, embedding⟩ := ColumnType.eq_embedding sized
    have typed : ColumnType.fromU8 desc.colType.toU8 dims = some desc.colType := by
      rw [embedding]
      rfl
    rw [if_pos sized, show serializeDims desc.colType = toLe 4 dims by rw [embedding]; rfl]
    refine bind_eq_some_iff.mpr ⟨_, @readLe_append 4 _ _ (fits.dims dims embedding), ?_⟩
    refine bind_eq_some_iff.mpr ⟨_, typed, ?_⟩
  on_goal 2 =>
    obtain ⟨typed, unsized⟩ := ColumnType.fromU8_toU8 sized
    rw [if_neg sized, unsized]
    refine bind_eq_some_iff.mpr ⟨_, rfl, ?_⟩
    refine bind_eq_some_iff.mpr ⟨_, typed, ?_⟩
  all_goals
    refine bind_eq_some_iff.mpr ⟨_, readLe_append _ desc.codec.toU8_lt, ?_⟩
    refine bind_eq_some_iff.mpr ⟨_, desc.codec.fromU8_toU8, ?_⟩
    refine bind_eq_some_iff.mpr ⟨_, @readLe_append 8 _ _ fits.offset, ?_⟩
    refine bind_eq_some_iff.mpr ⟨_, @readLe_append 4 _ _ fits.compressedLen, ?_⟩
    refine bind_eq_some_iff.mpr ⟨_, @readLe_append 4 _ _ fits.zoneMapMin, ?_⟩
    refine bind_eq_some_iff.mpr ⟨_, readExact_append _ _, ?_⟩
    refine bind_eq_some_iff.mpr ⟨_, @readLe_append 4 _ _ fits.zoneMapMax, ?_⟩
    exact bind_eq_some_iff.mpr ⟨_, readExact_append _ _, rfl⟩

theorem readDescriptors_append {descs : List ColumnDescriptor} (rest : Bytes)
    (fits : ∀ desc ∈ descs, desc.Fits) :
    readDescriptors descs.length (descs.flatMap serializeDescriptor ++ rest) =
      some (descs, rest) := by
  induction descs with
  | nil => rfl
  | cons desc descs ih =>
    have first := readDescriptor_append (descs.flatMap serializeDescriptor ++ rest)
      (fits desc (by simp))
    have later := ih fun d hd => fits d (by simp [hd])
    simp only [flatMap_cons, append_assoc, length_cons, readDescriptors, first,
      later, bind_eq_bind, bind_some]

variable {block : RawBlock}

theorem deserializeHeader_append (rest : Bytes) (fits : block.Fits) :
    deserializeHeader (serializeHeader block.header ++ rest) = some (block.header, rest) := by
  have magic : block.header.magic < 256 ^ 4 := by
    rw [fits.magic]
    decide
  have version : block.header.formatVersion < 256 ^ 1 := by
    rw [fits.formatVersion]
    decide
  have count : block.header.columnCount < 256 ^ 2 := by
    rw [fits.columnCount]
    exact fits.columns
  have descriptors := readDescriptors_append rest fits.descriptors
  rw [← fits.columnCount] at descriptors
  simp only [serializeHeader, append_assoc, deserializeHeader, readLe_append _ magic,
    readLe_append _ version, @readLe_append 8 _ _ fits.blockId, @readLe_append 4 _ _ fits.rowCount,
    @readLe_append 8 _ _ fits.commitTimestamp, readLe_append _ count, descriptors,
    bind_eq_bind, bind_some]

theorem length_serializeRowOffsets (offsets : List Nat) :
    (serializeRowOffsets offsets).length = offsets.length * 4 := by
  induction offsets with
  | nil => rfl
  | cons offset offsets ih =>
    simp only [serializeRowOffsets, flatMap_cons, length_append, toLe_length, length_cons] at ih ⊢
    omega

theorem readOffsets_serializeRowOffsets {offsets : List Nat}
    (fits : ∀ offset ∈ offsets, offset < 2 ^ 32) :
    readOffsets offsets.length (serializeRowOffsets offsets) = offsets := by
  induction offsets with
  | nil => rfl
  | cons offset offsets ih =>
    have first : ofLe (toLe 4 offset) = offset := ofLe_toLe_of_lt (fits offset (by simp))
    have later := ih fun o ho => fits o (by simp [ho])
    simp only [serializeRowOffsets] at later
    simp only [serializeRowOffsets, flatMap_cons, length_cons, readOffsets,
      take_left' (toLe_length 4 _), drop_left' (toLe_length 4 _), first, later]

theorem deserializeHeader_blockBytes (fits : block.Fits) :
    deserializeHeader (blockBytes block.header block.columnData block.rowOffsets) =
      some (block.header, block.columnData ++ serializeRowOffsets block.rowOffsets) := by
  rw [blockBytes, append_assoc]
  exact deserializeHeader_append _ fits

theorem take_serialize (block : RawBlock) : (serialize block).take ((serialize block).length - 8) =
      blockBytes block.header block.columnData block.rowOffsets := by
  simp [serialize]

theorem drop_serialize (block : RawBlock) :
    (serialize block).drop ((serialize block).length - 8) = toLe 8 block.checksum := by
  simp [serialize]

theorem deserialize_serialize {codecs : Codecs} (fits : block.Fits)
    (sealed : block.checksum = (codecs.xxh3
      (blockBytes block.header block.columnData block.rowOffsets)).toNat) :
    deserialize codecs (serialize block) = some block := by
  have long : ¬ (serialize block).length < 8 := by simp [serialize]
  have footer : ofLe (toLe 8 block.checksum) = block.checksum := ofLe_toLe_of_lt fits.checksum
  have offsets := readOffsets_serializeRowOffsets fits.rowOffset
  rw [fits.rowOffsets] at offsets
  have current : ¬ (block.header.formatVersion < minReadable ∨
      currentWrite < block.header.formatVersion) := by
    rw [fits.formatVersion]
    decide
  simp only [deserialize, long, take_serialize, drop_serialize, footer,
    deserializeHeader_blockBytes fits, ← sealed, fits.magic, ne_eq, not_true_eq_false, ↓reduceIte,
    current, ← fits.columnData, length_append, Nat.not_lt.mpr (Nat.le_add_right _ _),
    drop_left, length_serializeRowOffsets, fits.rowOffsets, lt_irrefl, take_left,
    offsets]

theorem length_serializeDescriptor (fits : desc.Fits) :
    (serializeDescriptor desc).length ≤ 2 ^ 34 := by
  have least := fits.zoneMapMin
  have greatest := fits.zoneMapMax
  have dims : (serializeDims desc.colType).length ≤ 4 := by
    cases desc.colType <;> simp [serializeDims]
  simp only [serializeDescriptor, length_append, toLe_length]
  omega

/-- The bytes of a block have a length that a word can hold. -/
theorem RawBlock.Fits.length_serialize (fits : block.Fits) : (serialize block).length < 2 ^ 64 := by
  have chunks : ∀ len ∈ block.header.columnDescriptors.map ColumnDescriptor.compressedLen,
      len ≤ 2 ^ 32 := by
    intro len mem
    obtain ⟨desc, at_desc, rfl⟩ := List.mem_map.mp mem
    exact (fits.descriptors desc at_desc).compressedLen.le
  have descs : ∀ len ∈ block.header.columnDescriptors.map fun d => (serializeDescriptor d).length,
      len ≤ 2 ^ 34 := by
    intro len mem
    obtain ⟨desc, at_desc, rfl⟩ := List.mem_map.mp mem
    exact length_serializeDescriptor (fits.descriptors desc at_desc)
  have chunk_total := sum_le_card_nsmul _ _ chunks
  have desc_total := sum_le_card_nsmul _ _ descs
  have columns := fits.columns
  have rows := fits.rowCount
  rw [← fits.columnData, length_map, Nat.nsmul_eq_mul] at chunk_total
  rw [length_map, Nat.nsmul_eq_mul] at desc_total
  simp only [serialize, blockBytes, serializeHeader, length_append, toLe_length,
    length_serializeRowOffsets, fits.rowOffsets, length_flatMap]
  omega

theorem length_columnData_le (block : RawBlock) :
    block.columnData.length ≤ (serialize block).length := by
  simp only [serialize, blockBytes, length_append]
  omega

end Header

section Chunks

variable {codecs : WriteCodecs} {pairs : List (ColumnData × CodecId)} {columnData : Bytes}

/-- The chunk of a column lies where its descriptor says. -/
def Chunk (codecs : WriteCodecs) (p : ColumnData × CodecId) (desc : ColumnDescriptor)
    (columnData : Bytes) : Prop :=
  ∃ pre chunk post, columnData = pre ++ chunk ++ post ∧
    compress codecs p.1.colType p.2 p.1.values = .ok chunk ∧
    desc = ⟨p.1.colType, p.2, pre.length % 2 ^ 64, chunk.length % 2 ^ 32,
      (extractZoneMap p.1.colType p.1.values).1, (extractZoneMap p.1.colType p.1.values).2⟩

/-- The chunks of the columns one after the other behind what was there. -/
structure Laid (codecs : WriteCodecs) (pairs : List (ColumnData × CodecId)) (columnData : Bytes)
    (written : List ColumnDescriptor × Bytes) : Prop where
  behind : ∃ tail, written.2 = columnData ++ tail ∧
    tail.length = (written.1.map ColumnDescriptor.compressedLen).sum
  count : written.1.length = pairs.length
  chunk : ∀ (i : Nat) p, pairs[i]? = some p →
    ∃ desc, written.1[i]? = some desc ∧ Chunk codecs p desc written.2

theorem writeColumns_isOk
    (each : ∀ p ∈ pairs, ∃ data, compress codecs p.1.colType p.2 p.1.values = .ok data) :
    ∃ written, writeColumns codecs pairs columnData = .ok written := by
  induction pairs generalizing columnData with
  | nil => exact ⟨_, rfl⟩
  | cons p rest ih =>
    obtain ⟨data, compressed⟩ := each p (by simp)
    obtain ⟨written, run⟩ := @ih (columnData ++ data) fun q hq => each q (by simp [hq])
    rw [writeColumns, compressed]
    exact ⟨_, congrArg (Except.map _) run⟩

theorem writeColumns_laid {written : List ColumnDescriptor × Bytes}
    (fits : ∀ p ∈ pairs, ∀ data, compress codecs p.1.colType p.2 p.1.values = .ok data →
      data.length < 2 ^ 32)
    (run : writeColumns codecs pairs columnData = .ok written) :
    Laid codecs pairs columnData written := by
  induction pairs generalizing columnData written with
  | nil =>
    obtain rfl := Except.ok.inj run
    exact ⟨⟨[], by simp, rfl⟩, rfl, by simp⟩
  | cons p rest ih =>
    rw [writeColumns] at run
    cases compressed : compress codecs p.1.colType p.2 p.1.values with
    | error e => simp [compressed] at run
    | ok data =>
      have small := fits p (by simp) data compressed
      simp only [compressed] at run
      cases later : writeColumns codecs rest (columnData ++ data) with
      | error e => simp [later, Except.map] at run
      | ok behind =>
        rw [later] at run
        obtain rfl := Except.ok.inj run
        have laid := ih (fun q hq => fits q (by simp [hq])) later
        obtain ⟨tail, whole, length⟩ := laid.behind
        refine ⟨⟨data ++ tail, by simp [whole], ?_⟩, by simp [laid.count], ?_⟩
        · simp only [length_append, map_cons, sum_cons, length, Nat.mod_eq_of_lt small]
        · intro i q at_i
          cases i with
          | zero =>
            obtain rfl : p = q := by simpa using at_i
            exact ⟨_, rfl, columnData, data, tail, whole, compressed, rfl⟩
          | succ i => exact laid.chunk i q (by simpa using at_i)

end Chunks

section Block

variable {codecs : WriteCodecs} {columns : List ColumnData} {codecIds : List CodecId}
  {blockId commitTimestamp : UInt64}

theorem foldl_choose_mem {α : Type*} {choose : α → α → α} {start : α} {l : List α}
    (one : ∀ a b, choose a b = a ∨ choose a b = b) : l.foldl choose start ∈ start :: l := by
  induction l generalizing start with
  | nil => simp
  | cons a l ih =>
    have later := @ih (choose start a)
    obtain first | first := one start a
    · simp only [foldl_cons, first, mem_cons] at later ⊢
      tauto
    · simp only [foldl_cons, first, mem_cons] at later ⊢
      tauto

theorem extractZoneMap_mem {colType : ColumnType} {values : List Bytes} (some : values ≠ []) :
    (extractZoneMap colType values).1 ∈ values ∧ (extractZoneMap colType values).2 ∈ values := by
  cases values with
  | nil => exact absurd rfl some
  | cons v rest =>
    constructor <;> refine foldl_choose_mem fun a b => ?_ <;> dsimp only <;> split <;> simp

theorem length_extractZoneMap {colType : ColumnType} {values : List Bytes} {bound : Nat}
    (positive : 0 < bound) (short : ∀ v ∈ values, v.length < bound) :
    (extractZoneMap colType values).1.length < bound ∧
      (extractZoneMap colType values).2.length < bound := by
  by_cases empty : values = []
  · subst empty
    exact ⟨positive, positive⟩
  · obtain ⟨least, greatest⟩ := @extractZoneMap_mem colType values empty
    exact ⟨short _ least, short _ greatest⟩

theorem buildRowOffsets_spec {rows row cumulative : Nat} (start : cumulative < 2 ^ 32) :
    (buildRowOffsets columns rows row cumulative).length = rows ∧
      ∀ offset ∈ buildRowOffsets columns rows row cumulative, offset < 2 ^ 32 := by
  induction rows generalizing row cumulative with
  | zero => simp [buildRowOffsets]
  | succ rows ih =>
    have next : min (cumulative + rowSize columns row) (2 ^ 32 - 1) < 2 ^ 32 := by omega
    obtain ⟨length, small⟩ := @ih (row + 1) _ next
    refine ⟨congrArg (· + 1) length, fun offset mem => ?_⟩
    obtain rfl | later := mem_cons.mp mem
    · exact start
    · exact small offset later

/-- Columns that the format has room for. -/
structure HasRoom (codecs : WriteCodecs) (columns : List ColumnData) (codecIds : List CodecId) :
    Prop where
  columns_ne : columns ≠ []
  codecs_each : codecIds.length = columns.length
  same_rows : ∀ col ∈ columns, ∀ col' ∈ columns, col.values.length = col'.values.length
  dims : ∀ col ∈ columns, ∀ dims, col.colType = .embedding dims → dims < 2 ^ 32
  column_count : columns.length < 2 ^ 16
  row_count : ∀ col ∈ columns, col.values.length < 2 ^ 32
  value_bytes : ∀ col ∈ columns, ∀ v ∈ col.values, v.length < 2 ^ 32
  chunk_bytes : ∀ p ∈ columns.zip codecIds, ∀ data,
    compress codecs p.1.colType p.2 p.1.values = .ok data → data.length < 2 ^ 32

/-- Columns that the format has room for, each with a codec for its type. -/
structure Writable (codecs : WriteCodecs) (columns : List ColumnData) (codecIds : List CodecId) :
    Prop extends HasRoom codecs columns codecIds where
  sound : ∀ p ∈ columns.zip codecIds, p.1.Sound p.2

/-- A block as it is written from the columns. -/
structure WrittenFrom (codecs : WriteCodecs) (blockId commitTimestamp : UInt64)
    (columns : List ColumnData) (codecIds : List CodecId) (block : RawBlock) : Prop where
  fits : block.Fits
  sealed : block.checksum = (codecs.xxh3
    (blockBytes block.header block.columnData block.rowOffsets)).toNat
  blockId : block.header.blockId = blockId.toNat
  commitTimestamp : block.header.commitTimestamp = commitTimestamp.toNat
  count : block.header.columnDescriptors.length = columns.length
  rowCount : ∀ col ∈ columns, block.header.rowCount = col.values.length
  chunk : ∀ (i : Nat) p, (columns.zip codecIds)[i]? = some p →
    ∃ desc, block.header.columnDescriptors[i]? = some desc ∧ Chunk codecs p desc block.columnData

/-- Columns that have room are written as a block. -/
theorem HasRoom.written (writable : HasRoom codecs columns codecIds)
    {written : List ColumnDescriptor × Bytes}
    (run : writeColumns codecs (columns.zip codecIds) [] = .ok written) :
    ∃ block, writeWithCodecs codecs blockId commitTimestamp columns codecIds = .ok block ∧
      WrittenFrom codecs blockId commitTimestamp columns codecIds block := by
  have laid := writeColumns_laid writable.chunk_bytes run
  obtain ⟨tail, whole, length⟩ := laid.behind
  have zipped : (columns.zip codecIds).length = columns.length := by
    simp [writable.codecs_each]
  have count : written.1.length = columns.length := laid.count.trans zipped
  have column_count := writable.column_count
  obtain ⟨first, rest, rfl⟩ := exists_cons_of_ne_nil writable.columns_ne
  have rows (col : ColumnData) (mem : col ∈ first :: rest) :
      first.values.length % 2 ^ 32 = col.values.length := by
    rw [Nat.mod_eq_of_lt (writable.row_count first (by simp))]
    exact writable.same_rows first (by simp) col mem
  have same : ¬ ((first :: rest).any fun col => col.values.length ≠ first.values.length) := by
    simp only [ne_eq, decide_not, List.any_eq_true, Bool.not_eq_eq_eq_not, Bool.not_true,
      decide_eq_false_iff_not, not_exists, not_and, Decidable.not_not]
    exact fun col mem => writable.same_rows col mem first (by simp)
  obtain ⟨offset_count, offset_fits⟩ :=
    @buildRowOffsets_spec (first :: rest) first.values.length 0 0 (Nat.two_pow_pos 32)
  have descriptor (desc : ColumnDescriptor) (mem : desc ∈ written.1) : desc.Fits := by
    obtain ⟨i, at_i⟩ := mem_iff_getElem?.mp mem
    have inside : i < ((first :: rest).zip codecIds).length := by
      rw [← laid.count]
      exact (List.getElem?_eq_some_iff.mp at_i).1
    obtain ⟨desc', at_i', pre, chunk, post, -, -, made⟩ :=
      laid.chunk i _ (getElem?_eq_getElem inside)
    obtain rfl : desc = desc' := some.inj (at_i.symm.trans at_i')
    have col_mem := (of_mem_zip (getElem_mem inside)).1
    obtain ⟨min_short, max_short⟩ :=
      @length_extractZoneMap _ _ _ (Nat.two_pow_pos 32) (writable.value_bytes _ col_mem)
    subst made
    exact ⟨writable.dims _ col_mem, Nat.mod_lt _ (Nat.two_pow_pos 64),
      Nat.mod_lt _ (Nat.two_pow_pos 32), min_short, max_short⟩
  let rowOffsets := buildRowOffsets (first :: rest) first.values.length 0 0
  let header : PaxBlockHeader := ⟨paxMagic, currentWrite, blockId.toNat,
    first.values.length % 2 ^ 32, commitTimestamp.toNat, (first :: rest).length % 2 ^ 16,
    written.1⟩
  refine ⟨⟨header, written.2, rowOffsets,
    (codecs.xxh3 (blockBytes header written.2 rowOffsets)).toNat⟩, ?_, ?_⟩
  · rw [writeWithCodecs, if_neg (by simp [writable.codecs_each]), if_neg same, run]
    rfl
  · exact
      { fits :=
          { magic := rfl
            formatVersion := rfl
            blockId := blockId.toNat_lt
            rowCount := Nat.mod_lt _ (Nat.two_pow_pos 32)
            commitTimestamp := commitTimestamp.toNat_lt
            columns := count ▸ column_count
            columnCount := (Nat.mod_eq_of_lt column_count).trans count.symm
            descriptors := descriptor
            columnData := by simpa [whole] using length
            rowOffsets := offset_count.trans
              (Nat.mod_eq_of_lt (writable.row_count first (by simp))).symm
            rowOffset := offset_fits
            checksum := UInt64.toNat_lt _ }
        sealed := rfl
        blockId := rfl
        commitTimestamp := rfl
        count := count
        rowCount := rows
        chunk := laid.chunk }

theorem Writable.written (lossless : codecs.Lossless) (writable :
    Writable codecs columns codecIds) :
    ∃ block, writeWithCodecs codecs blockId commitTimestamp columns codecIds = .ok block ∧
      WrittenFrom codecs blockId commitTimestamp columns codecIds block := by
  obtain ⟨written, run⟩ := @writeColumns_isOk codecs (columns.zip codecIds) [] fun p hp =>
    compress_isOk lossless (writable.sound p hp)
  exact writable.toHasRoom.written run

variable {block : RawBlock} {col : ColumnData} {i : Nat}

theorem HasRoom.writtenFrom (room : HasRoom codecs columns codecIds)
    (run : writeWithCodecs codecs blockId commitTimestamp columns codecIds = .ok block) :
    WrittenFrom codecs blockId commitTimestamp columns codecIds block := by
  cases ran : writeColumns codecs (columns.zip codecIds) [] with
  | error e =>
    obtain ⟨first, rest, rfl⟩ := exists_cons_of_ne_nil room.columns_ne
    rw [writeWithCodecs, ran] at run
    split at run
    · cases run
    · split at run <;> cases run
  | ok written =>
    obtain ⟨block', run', made⟩ := @HasRoom.written _ _ _ blockId commitTimestamp room _ ran
    obtain rfl := Except.ok.inj (run.symm.trans run')
    exact made

theorem RawBlock.Fits.columnData_lt (fits : block.Fits) : block.columnData.length < 2 ^ 64 :=
  lt_of_le_of_lt (length_columnData_le block) fits.length_serialize

/-- Where the bytes of a column are. -/
theorem Chunk.located {p : ColumnData × CodecId} {desc : ColumnDescriptor} (fits : block.Fits)
    (chunk : Chunk codecs p desc block.columnData)
    (small : ∀ data, compress codecs p.1.colType p.2 p.1.values = .ok data → data.length < 2 ^ 32) :
    desc.offset + desc.compressedLen ≤ block.columnData.length ∧
      compress codecs p.1.colType p.2 p.1.values =
        .ok (SstBlockIndex.slice block.columnData desc.offset
          (desc.offset + desc.compressedLen)) := by
  obtain ⟨pre, data, post, whole, compressed, made⟩ := chunk
  have word := fits.columnData_lt
  have length : block.columnData.length = pre.length + data.length + post.length := by
    rw [whole, length_append, length_append]
  have offset : desc.offset = pre.length := by
    rw [made]
    exact Nat.mod_eq_of_lt (by omega)
  have len : desc.compressedLen = data.length := by
    rw [made]
    exact Nat.mod_eq_of_lt (small data compressed)
  refine ⟨by omega, ?_⟩
  rw [compressed, whole, SstBlockIndex.slice_append offset (by rw [offset, len])]

variable {codec : CodecId}

/-- The descriptor of a column and what is stored where it points. -/
theorem WrittenFrom.column (writable : HasRoom codecs columns codecIds)
    (written : WrittenFrom codecs blockId commitTimestamp columns codecIds block)
    (at_i : columns[i]? = some col) (codec_at : codecIds[i]? = some codec) :
    ∃ desc, block.header.columnDescriptors[i]? = some desc ∧ desc.colType = col.colType ∧
      desc.codec = codec ∧ desc.offset + desc.compressedLen ≤ block.columnData.length ∧
      compress codecs col.colType codec col.values =
        .ok (SstBlockIndex.slice block.columnData desc.offset
          (desc.offset + desc.compressedLen)) ∧ (col, codec) ∈ columns.zip codecIds := by
  have pair : (columns.zip codecIds)[i]? = some (col, codec) :=
    getElem?_zip_eq_some.mpr ⟨at_i, codec_at⟩
  have mem := mem_of_getElem? pair
  obtain ⟨desc, at_desc, chunk⟩ := written.chunk i _ pair
  obtain ⟨within, compressed⟩ := chunk.located written.fits (writable.chunk_bytes _ mem)
  obtain ⟨pre, data, post, -, -, made⟩ := chunk
  exact ⟨desc, at_desc, by rw [made], by rw [made], within, compressed, mem⟩

theorem HasRoom.codec_at (writable : HasRoom codecs columns codecIds)
    (at_i : columns[i]? = some col) : ∃ codec, codecIds[i]? = some codec := by
  obtain ⟨inside, -⟩ := List.getElem?_eq_some_iff.mp at_i
  exact ⟨_, getElem?_eq_getElem (by rw [writable.codecs_each]; exact inside)⟩

theorem WrittenFrom.readColumn_eq (room : HasRoom codecs columns codecIds)
    (written : WrittenFrom codecs blockId commitTimestamp columns codecIds block)
    (at_i : columns[i]? = some col) (codec_at : codecIds[i]? = some codec) {data : Bytes}
    (compressed : compress codecs col.colType codec col.values = .ok data) :
    readColumn codecs.toCodecs block i =
      decompress codecs.toCodecs col.colType codec data col.values.length := by
  obtain ⟨desc, at_desc, col_type, codec_eq, within, found, mem⟩ :=
    written.column room at_i codec_at
  obtain rfl := Except.ok.inj (compressed.symm.trans found)
  have word := written.fits.columnData_lt
  have stop : (desc.offset + desc.compressedLen) % 2 ^ 64 = desc.offset + desc.compressedLen :=
    Nat.mod_eq_of_lt (by omega)
  simp only [readColumn, at_desc, stop, Nat.not_lt.mpr within, Nat.not_lt.mpr
    (Nat.le_add_right _ _), ↓reduceIte, col_type, codec_eq,
    written.rowCount _ (mem_of_getElem? at_i)]

theorem WrittenFrom.readColumn (lossless : codecs.Lossless)
    (writable : Writable codecs columns codecIds)
    (written : WrittenFrom codecs blockId commitTimestamp columns codecIds block)
    (at_i : columns[i]? = some col) : readColumn codecs.toCodecs block i = .ok col.values := by
  obtain ⟨codec, codec_at⟩ := writable.codec_at at_i
  obtain ⟨desc, -, -, -, -, compressed, mem⟩ := written.column writable.toHasRoom at_i codec_at
  rw [written.readColumn_eq writable.toHasRoom at_i codec_at compressed]
  exact decompress_compress lossless (writable.sound _ mem)
    (writable.value_bytes _ (mem_of_getElem? at_i)) compressed
    (writable.chunk_bytes _ mem _ compressed)

theorem WrittenFrom.zoneMaps (writable : Writable codecs columns codecIds)
    (written : WrittenFrom codecs blockId commitTimestamp columns codecIds block) :
    (block.header.columnDescriptors.map fun desc => (desc.zoneMapMin, desc.zoneMapMax)) =
      columns.map fun col => extractZoneMap col.colType col.values := by
  refine ext_getElem (by simp [written.count]) fun i h h' => ?_
  have inside : i < columns.length := by simpa using h'
  have zipped : i < (columns.zip codecIds).length := by simp [writable.codecs_each, inside]
  obtain ⟨desc, at_desc, pre, data, post, -, -, made⟩ :=
    written.chunk i _ (getElem?_eq_getElem zipped)
  obtain ⟨_, same⟩ := List.getElem?_eq_some_iff.mp at_desc
  rw [getElem_map, getElem_map, same, made]
  simp

/-- A written block is read back from its bytes as it was, and gives back every column. -/
theorem block_round_trip (lossless : codecs.Lossless) (blockId commitTimestamp : UInt64)
    (writable : Writable codecs columns codecIds) :
    ∃ block, writeWithCodecs codecs blockId commitTimestamp columns codecIds = .ok block ∧
      deserialize codecs.toCodecs (serialize block) = some block ∧
      block.header.blockId = blockId.toNat ∧
      block.header.commitTimestamp = commitTimestamp.toNat ∧
      (block.header.columnDescriptors.map fun desc => (desc.zoneMapMin, desc.zoneMapMax)) =
        (columns.map fun col => extractZoneMap col.colType col.values) ∧
      ∀ (i : Nat) col, columns[i]? = some col →
        readColumn codecs.toCodecs block i = .ok col.values := by
  obtain ⟨block, run, written⟩ :=
    @Writable.written codecs columns codecIds blockId commitTimestamp lossless writable
  refine ⟨block, run, deserialize_serialize written.fits written.sealed, written.blockId,
    written.commitTimestamp, written.zoneMaps writable, fun i col at_i => ?_⟩
  exact written.readColumn lossless writable at_i

/-- A compressor that only marks what it compressed, and a checksum that adds up the bytes. -/
def markingCodecs : WriteCodecs where
  xxh3 := fun data => UInt64.ofNat (data.map UInt8.toNat).sum
  zstdEncode := fun raw => some (40 :: raw)
  zstdDecode := fun data => if data.head? = some 40 then some data.tail else none

theorem lossless_markingCodecs : markingCodecs.Lossless := fun raw => ⟨40 :: raw, rfl, rfl⟩

/-- Three numbers that fall and rise across zero, texts and embeddings of no given length. -/
def sampleColumns : List ColumnData :=
  [⟨.int64, [Bytes.toLe 8 5, Bytes.toLe 8 (2 ^ 64 - 7), Bytes.toLe 8 (2 ^ 63)]⟩,
    ⟨.text, [[104, 105], [], [33]]⟩, ⟨.embedding 2, [[1], [], [2, 3]]⟩]

def sampleCodecs : List CodecId := [.fastPFor, .zstd, .none]

theorem writable_sampleColumns : Writable markingCodecs sampleColumns sampleCodecs where
  columns_ne := by decide
  codecs_each := rfl
  same_rows := by decide
  sound := by
    simp only [sampleColumns, sampleCodecs, zip_cons_cons, zip_nil_left, forall_mem_cons]
    refine ⟨⟨?_, fun _ => rfl⟩, ⟨?_, ?_⟩, ⟨?_, ?_⟩, by simp⟩ <;> simp [ColumnType.packedWidth]
  dims := by simp [sampleColumns]
  column_count := by decide
  row_count := by decide
  value_bytes := by decide
  chunk_bytes := by
    intro p mem data compressed
    simp only [sampleColumns, sampleCodecs, zip_cons_cons, zip_nil_left,
      mem_cons, not_mem_nil, or_false] at mem
    obtain rfl | rfl | rfl := mem <;> obtain rfl := Except.ok.inj compressed <;> decide +kernel

theorem block_round_trip_of_samples :
    ∃ block, writeWithCodecs markingCodecs 7 9 sampleColumns sampleCodecs = .ok block ∧
      deserialize markingCodecs.toCodecs (serialize block) = some block ∧
      readColumn markingCodecs.toCodecs block 0 =
        .ok [Bytes.toLe 8 5, Bytes.toLe 8 (2 ^ 64 - 7), Bytes.toLe 8 (2 ^ 63)] := by
  obtain ⟨block, run, read, -, -, -, columns⟩ :=
    block_round_trip lossless_markingCodecs 7 9 writable_sampleColumns
  exact ⟨block, run, read, columns 0 _ rfl⟩

end Block

end GalaxDb.PaxBytes
