import GalaxDb.Storage.PaxRoundTrip

/-!
# Reading one value from the bytes of a block

Two ways to one row of one column: over the deserialized block, or over the bytes with only
as much of the header parsed as the target column needs. The second takes every compressed
column for a column of blobs and leaves most of the header unchecked.
-/

namespace GalaxDb.PaxBytes

open Bytes SstBlockIndex ColumnDescriptor List Option

/-- Past the values in front of the row, then the row. -/
def singleRow : Nat → Bytes → Except Fault Bytes
  | row, data =>
    if data.length < 4 then .error .error
    else
      let len := ofLe (data.take 4)
      let rest := data.drop 4
      if rest.length < len then .error .error
      else match row with
        | 0 => .ok (rest.take len)
        | row + 1 => singleRow row (rest.drop len)

/-- One row of a chunk. Only an uncompressed chunk need not be decoded as a whole. -/
def decodeRow (codecs : Codecs) (colType : ColumnType) (codec : CodecId) (chunk : Bytes)
    (rowCount row : Nat) : Except Fault Bytes :=
  match codec with
  | .none => singleRow row chunk
  | codec =>
    match decompress codecs colType codec chunk rowCount with
    | .error e => .error e
    | .ok values =>
      match values[row]? with
      | none => .error .error
      | some value => .ok value

def readColumnRow (codecs : Codecs) (block : RawBlock) (col row : Nat) : Except Fault Bytes :=
  match block.header.columnDescriptors[col]? with
  | none => .error .error
  | some desc =>
    if block.header.rowCount ≤ row then .error .error
    else
      let stop := (desc.offset + desc.compressedLen) % 2 ^ 64
      if block.columnData.length < stop then .error .error
      else if stop < desc.offset then .error .panic
      else decodeRow codecs desc.colType desc.codec (slice block.columnData desc.offset stop)
        block.header.rowCount row

/-- Deserialize the block, then read the row. -/
def readThroughBlock (codecs : Codecs) (data : Bytes) (col row : Nat) : Except Fault Bytes :=
  match deserialize codecs data with
  | none => .error .error
  | some block => readColumnRow codecs block col row

/-- An integer at a position; past the end the slice panics. -/
def rawInt (width : Nat) (data : Bytes) (pos : Nat) : Except Fault Nat :=
  if data.length < pos + width then .error .panic
  else .ok (ofLe (slice data pos (pos + width)))

/-- What the raw read keeps of a descriptor. -/
structure RawTarget where
  offset : Nat
  compressedLen : Nat
  codec : Nat
  deriving DecidableEq

/-- The descriptor at a position, and the position behind it. -/
def skimDescriptor (data : Bytes) (pos : Nat) : Except Fault (RawTarget × Nat) :=
  if data.length ≤ pos then .error .error
  else do
    let colTypeByte ← rawInt 1 data pos
    let pos := pos + 1
    let pos := if colTypeByte = 14 then pos + 4 else pos
    let codec ← rawInt 1 data pos
    let pos := pos + 1
    let offset ← rawInt 8 data pos
    let pos := pos + 8
    let compressedLen ← rawInt 4 data pos
    let pos := pos + 4
    let minLen ← rawInt 4 data pos
    let pos := pos + (4 + minLen)
    let maxLen ← rawInt 4 data pos
    let pos := pos + (4 + maxLen)
    .ok (⟨offset, compressedLen, codec⟩, pos)

/-- Through all descriptors, of which the one of the target column is kept. -/
def skimDescriptors (data : Bytes) (target : Nat) :
    Nat → Nat → Nat → RawTarget → Except Fault (RawTarget × Nat)
  | 0, _, pos, found => .ok (found, pos)
  | remaining + 1, col, pos, found =>
    match skimDescriptor data pos with
    | .error e => .error e
    | .ok (desc, pos) =>
      skimDescriptors data target remaining (col + 1) pos (if col = target then desc else found)

/-- The row in the chunk that was found, wherever in the block that chunk is. -/
def extractRow (codecs : Codecs) (data : Bytes) (found : RawTarget) (headerEnd rowCount row : Nat) :
    Except Fault Bytes :=
  let start := (headerEnd + found.offset) % 2 ^ 64
  let stop := (start + found.compressedLen) % 2 ^ 64
  if data.length < stop then .error .error
  else if stop < start then .error .panic
  else
    match CodecId.fromU8 found.codec with
    | none => .error .error
    | some codec => decodeRow codecs .blob codec (slice data start stop) rowCount row

def readValueFromRawBlock (codecs : Codecs) (block : Bytes) (col row : Nat) : Except Fault Bytes :=
  if block.length < 8 then .error .error
  else
    let data := block.take (block.length - 8)
    if (codecs.xxh3 data).toNat ≠ ofLe (block.drop (block.length - 8)) then .error .error
    else if data.length < 27 then .error .error
    else
      let rowCount := ofLe (slice data 13 17)
      let columnCount := ofLe (slice data 25 27)
      if columnCount ≤ col then .error .error
      else if rowCount ≤ row then .error .error
      else
        match skimDescriptors data col columnCount 0 27 ⟨0, 0, 0⟩ with
        | .error e => .error e
        | .ok (found, headerEnd) => extractRow codecs data found headerEnd rowCount row

section Skim

variable {cursor data rest : Bytes} {n pos width : Nat}

theorem slice_eq_take (pos width : Nat) :
    slice data pos (pos + width) = (data.drop pos).take width := by
  rw [slice, drop_take, Nat.add_sub_cancel_left]

theorem readExact_eq_some {bytes : Bytes} (read : readExact n cursor = some (bytes, rest)) :
    n ≤ cursor.length ∧ bytes = cursor.take n ∧ rest = cursor.drop n := by
  rw [readExact] at read
  split at read
  · simp at read
  · obtain ⟨rfl, rfl⟩ := Prod.mk.inj (some.inj read)
    exact ⟨by omega, rfl, rfl⟩

theorem readLe_eq_some (read : readLe width cursor = some (n, rest)) :
    width ≤ cursor.length ∧ n = ofLe (cursor.take width) ∧ rest = cursor.drop width := by
  obtain ⟨⟨bytes, rest'⟩, exact_read, made⟩ := map_eq_some_iff.mp read
  obtain ⟨enough, rfl, rfl⟩ := readExact_eq_some exact_read
  obtain ⟨rfl, rfl⟩ := Prod.mk.inj made
  exact ⟨enough, rfl, rfl⟩

theorem readLe_lt (read : readLe width cursor = some (n, rest)) : n < 256 ^ width := by
  obtain ⟨enough, rfl, -⟩ := readLe_eq_some read
  have small := ofLe_lt (cursor.take width)
  rwa [length_take, min_eq_left enough] at small

/-- What is read behind a position is what the raw read takes at it. -/
theorem rawInt_of_readLe (positive : 0 < width)
    (read : readLe width (data.drop pos) = some (n, rest)) :
    rawInt width data pos = .ok n ∧ rest = data.drop (pos + width) ∧ pos + width ≤ data.length := by
  obtain ⟨enough, rfl, rfl⟩ := readLe_eq_some read
  rw [length_drop] at enough
  rw [rawInt, if_neg (by omega), slice_eq_take, drop_drop]
  exact ⟨rfl, rfl, by omega⟩

theorem bind_of_eq_ok {ε α β : Type} {x : Except ε α} {f : α → Except ε β} {a : α}
    {r : Except ε β} (first : x = .ok a) (then_ : f a = r) : x >>= f = r := by
  rw [first]
  exact then_

variable {desc : ColumnDescriptor}

/-- The dimensions are skipped exactly where they are read. -/
theorem dims_of_readDescriptor (read : readDescriptor (data.drop pos) = some (desc, rest)) :
    ∃ colTypeByte dims, rawInt 1 data pos = .ok colTypeByte ∧ pos + 1 ≤ data.length ∧ (do
      let colType ← ColumnType.fromU8 colTypeByte dims
      let (codecByte, cursor) ← readLe 1
        (data.drop (if colTypeByte = 14 then pos + 1 + 4 else pos + 1))
      let codec ← CodecId.fromU8 codecByte
      let (offset, cursor) ← readLe 8 cursor
      let (compressedLen, cursor) ← readLe 4 cursor
      let (minLen, cursor) ← readLe 4 cursor
      let (zoneMapMin, cursor) ← readExact minLen cursor
      let (maxLen, cursor) ← readLe 4 cursor
      let (zoneMapMax, cursor) ← readExact maxLen cursor
      some ((⟨colType, codec, offset, compressedLen, zoneMapMin, zoneMapMax⟩ :
        ColumnDescriptor), cursor)) = some (desc, rest) := by
  obtain ⟨⟨colTypeByte, cursor⟩, type_read, read⟩ := bind_eq_some_iff.mp read
  obtain ⟨type_raw, rfl, type_end⟩ := rawInt_of_readLe one_pos type_read
  dsimp only at read
  by_cases sized : colTypeByte = 14
  · rw [if_pos sized] at read
    obtain ⟨⟨dims, cursor⟩, dims_read, read⟩ := bind_eq_some_iff.mp read
    obtain ⟨-, rfl, -⟩ := rawInt_of_readLe (by decide) dims_read
    refine ⟨colTypeByte, dims, type_raw, type_end, ?_⟩
    rw [if_pos sized]
    exact read
  · rw [if_neg sized] at read
    refine ⟨colTypeByte, 0, type_raw, type_end, ?_⟩
    rw [if_neg sized]
    exact read

/-- A descriptor that is readable behind a position is skimmed to the same place. -/
theorem skimDescriptor_of_readDescriptor (read :
    readDescriptor (data.drop pos) = some (desc, rest)) :
    ∃ codec pos', skimDescriptor data pos = .ok (⟨desc.offset, desc.compressedLen, codec⟩, pos') ∧
      CodecId.fromU8 codec = some desc.codec ∧ rest = data.drop pos' ∧ pos' ≤ data.length ∧
      desc.compressedLen < 2 ^ 32 := by
  obtain ⟨colTypeByte, dims, type_raw, type_end, read⟩ := dims_of_readDescriptor read
  have started : ¬ data.length ≤ pos := by omega
  obtain ⟨colType, -, read⟩ := bind_eq_some_iff.mp read
  obtain ⟨⟨codecByte, cursor⟩, codec_read, read⟩ := bind_eq_some_iff.mp read
  obtain ⟨codec_raw, rfl, -⟩ := rawInt_of_readLe one_pos codec_read
  obtain ⟨codec, codec_known, read⟩ := bind_eq_some_iff.mp read
  obtain ⟨⟨offset, cursor⟩, offset_read, read⟩ := bind_eq_some_iff.mp read
  obtain ⟨offset_raw, rfl, -⟩ := rawInt_of_readLe (by decide) offset_read
  obtain ⟨⟨compressedLen, cursor⟩, len_read, read⟩ := bind_eq_some_iff.mp read
  have len_lt := readLe_lt len_read
  obtain ⟨len_raw, rfl, -⟩ := rawInt_of_readLe (by decide) len_read
  obtain ⟨⟨minLen, cursor⟩, min_len_read, read⟩ := bind_eq_some_iff.mp read
  obtain ⟨min_len_raw, rfl, -⟩ := rawInt_of_readLe (by decide) min_len_read
  obtain ⟨⟨zoneMapMin, cursor⟩, min_read, read⟩ := bind_eq_some_iff.mp read
  obtain ⟨-, -, rfl⟩ := readExact_eq_some min_read
  rw [drop_drop, add_assoc _ 4 minLen] at read
  obtain ⟨⟨maxLen, cursor⟩, max_len_read, read⟩ := bind_eq_some_iff.mp read
  obtain ⟨max_len_raw, rfl, max_len_end⟩ := rawInt_of_readLe (by decide) max_len_read
  obtain ⟨⟨zoneMapMax, cursor⟩, max_read, read⟩ := bind_eq_some_iff.mp read
  obtain ⟨enough, -, rfl⟩ := readExact_eq_some max_read
  obtain ⟨rfl, rfl⟩ := Prod.mk.inj (some.inj read)
  rw [length_drop] at enough
  refine ⟨codecByte, _, ?_, codec_known, by rw [drop_drop, add_assoc _ 4 maxLen], ?_, len_lt⟩
  · rw [skimDescriptor, if_neg started]
    refine bind_of_eq_ok type_raw (bind_of_eq_ok codec_raw (bind_of_eq_ok offset_raw
      (bind_of_eq_ok len_raw (bind_of_eq_ok min_len_raw (bind_of_eq_ok max_len_raw rfl)))))
  · omega

theorem skimDescriptors_of_readDescriptors {data rest : Bytes} {target count col pos : Nat}
    {descs : List ColumnDescriptor} {found : RawTarget} (inside : pos ≤ data.length)
    (read : readDescriptors count (data.drop pos) = some (descs, rest)) :
    descs.length = count ∧ ∃ found' pos',
      skimDescriptors data target count col pos found = .ok (found', pos') ∧
      rest = data.drop pos' ∧ pos' ≤ data.length ∧
      (target < col → found' = found) ∧
      ∀ desc, col ≤ target → descs[target - col]? = some desc →
        desc.compressedLen < 2 ^ 32 ∧ ∃ codec, found' = ⟨desc.offset, desc.compressedLen, codec⟩ ∧
          CodecId.fromU8 codec = some desc.codec := by
  induction count generalizing col pos descs found with
  | zero =>
    obtain ⟨rfl, rfl⟩ := Prod.mk.inj (some.inj read)
    exact ⟨rfl, found, pos, rfl, rfl, inside, fun _ => rfl, by simp⟩
  | succ count ih =>
    obtain ⟨⟨desc, cursor⟩, first, read⟩ := bind_eq_some_iff.mp read
    obtain ⟨⟨later, cursor'⟩, others, read⟩ := bind_eq_some_iff.mp read
    obtain ⟨rfl, rfl⟩ := Prod.mk.inj (some.inj read)
    obtain ⟨codec, pos', skimmed, known, rfl, within, len_lt⟩ :=
      skimDescriptor_of_readDescriptor first
    obtain ⟨length, found', stop, run, behind, bound, before, at_target⟩ :=
      @ih (col + 1) pos' later
        (if col = target then ⟨desc.offset, desc.compressedLen, codec⟩ else found) within others
    refine ⟨by simp [length], found', stop, ?_, behind, bound, fun passed => ?_, ?_⟩
    · simp only [skimDescriptors, skimmed, run]
    · rw [before (by omega), if_neg (by omega)]
    · intro d reached at_d
      obtain here | further := Nat.eq_or_lt_of_le reached
      · subst here
        obtain rfl : desc = d := by simpa using at_d
        exact ⟨len_lt, codec, by rw [before (by omega), if_pos rfl], known⟩
      · rw [show target - col = target - (col + 1) + 1 by omega, getElem?_cons_succ] at at_d
        exact at_target d further at_d

theorem fields_of_deserializeHeader {header : PaxBlockHeader}
    (read : deserializeHeader data = some (header, rest)) :
    27 ≤ data.length ∧ header.rowCount = ofLe (slice data 13 17) ∧
      header.columnCount = ofLe (slice data 25 27) ∧
      readDescriptors header.columnCount (data.drop 27) =
        some (header.columnDescriptors, rest) := by
  obtain ⟨⟨magic, cursor⟩, first, read⟩ := bind_eq_some_iff.mp read
  obtain ⟨-, -, rfl⟩ := readLe_eq_some first
  obtain ⟨⟨formatVersion, cursor⟩, second, read⟩ := bind_eq_some_iff.mp read
  obtain ⟨-, rfl, -⟩ := rawInt_of_readLe (by decide) second
  obtain ⟨⟨blockId, cursor⟩, third, read⟩ := bind_eq_some_iff.mp read
  obtain ⟨-, rfl, -⟩ := rawInt_of_readLe (by decide) third
  obtain ⟨⟨rowCount, cursor⟩, fourth, read⟩ := bind_eq_some_iff.mp read
  obtain ⟨-, row_count, rfl⟩ := readLe_eq_some fourth
  rw [drop_drop] at read
  obtain ⟨⟨commitTimestamp, cursor⟩, fifth, read⟩ := bind_eq_some_iff.mp read
  obtain ⟨-, rfl, -⟩ := rawInt_of_readLe (by decide) fifth
  obtain ⟨⟨columnCount, cursor⟩, sixth, read⟩ := bind_eq_some_iff.mp read
  obtain ⟨enough, column_count, rfl⟩ := readLe_eq_some sixth
  rw [drop_drop] at read
  obtain ⟨⟨descs, cursor⟩, last, read⟩ := bind_eq_some_iff.mp read
  obtain ⟨rfl, rfl⟩ := Prod.mk.inj (some.inj read)
  rw [length_drop] at enough
  refine ⟨by omega, ?_, ?_, last⟩
  · rw [row_count]
    exact congrArg ofLe (slice_eq_take 13 4).symm
  · rw [column_count]
    exact congrArg ofLe (slice_eq_take 25 2).symm

/-- The bytes that the checksum at the end covers. -/
def covered (block : Bytes) : Bytes := block.take (block.length - 8)

/-- The bytes end in their checksum. -/
def Checked (codecs : Codecs) (block : Bytes) : Prop :=
  8 ≤ block.length ∧ (codecs.xxh3 (covered block)).toNat = ofLe (block.drop (block.length - 8))

/-- With a readable header the raw read looks where the descriptor points, and takes what it finds
for blobs. -/
theorem readValueFromRawBlock_eq {codecs : Codecs} {block rest : Bytes} {header : PaxBlockHeader}
    {col row : Nat} {desc : ColumnDescriptor} (short : block.length < 2 ^ 64)
    (checked : Checked codecs block)
    (read : deserializeHeader (covered block) = some (header, rest))
    (at_col : header.columnDescriptors[col]? = some desc) (in_rows : row < header.rowCount) :
    desc.compressedLen < 2 ^ 32 ∧ (desc.offset + desc.compressedLen ≤ rest.length →
      readValueFromRawBlock codecs block col row = decodeRow codecs .blob desc.codec
        (slice rest desc.offset (desc.offset + desc.compressedLen)) header.rowCount row) := by
  obtain ⟨long, row_count, column_count, descs⟩ := fields_of_deserializeHeader read
  obtain ⟨count, found, stop, run, rfl, bound, -, target⟩ :=
    @skimDescriptors_of_readDescriptors _ _ col _ 0 27 _ ⟨0, 0, 0⟩ long descs
  obtain ⟨len_lt, codec, rfl, known⟩ :=
    target desc (Nat.zero_le col) (by exact at_col)
  have in_columns : col < header.columnCount := by
    rw [← count]
    exact (List.getElem?_eq_some_iff.mp at_col).1
  refine ⟨len_lt, fun within => ?_⟩
  rw [length_drop] at within
  have covered_eq : block.take (block.length - 8) = covered block := rfl
  have total : (covered block).length ≤ block.length := length_take_le' _ _
  have start : (stop + desc.offset) % 2 ^ 64 = stop + desc.offset := Nat.mod_eq_of_lt (by omega)
  have last : (stop + desc.offset + desc.compressedLen) % 2 ^ 64 =
      stop + desc.offset + desc.compressedLen := Nat.mod_eq_of_lt (by omega)
  simp only [readValueFromRawBlock, not_lt.mpr checked.1, covered_eq, checked.2, ne_eq,
    not_true_eq_false, ↓reduceIte, not_lt.mpr long, ← column_count, ← row_count,
    not_le.mpr in_columns, not_le.mpr in_rows, run, extractRow, start, last, known,
    not_lt.mpr (Nat.le_add_right _ _), slice_eq_take, drop_drop,
    show ¬ (covered block).length < stop + desc.offset + desc.compressedLen by omega]

end Skim

section Rows

variable {values : List Bytes} {data value : Bytes} {count width : Nat}

theorem lengthPrefixed_succ (all : lengthPrefixed (count + 1) data = .ok values) :
    ¬ data.length < 4 ∧ ¬ (data.drop 4).length < ofLe (data.take 4) ∧
      ∃ rest, lengthPrefixed count ((data.drop 4).drop (ofLe (data.take 4))) = .ok rest ∧
        values = (data.drop 4).take (ofLe (data.take 4)) :: rest := by
  rw [lengthPrefixed] at all
  by_cases short : data.length < 4
  · simp [short] at all
  · rw [if_neg short] at all
    by_cases cut : (data.drop 4).length < ofLe (data.take 4)
    · simp only [cut, ↓reduceIte, reduceCtorEq] at all
    · simp only [cut, ↓reduceIte] at all
      cases later : lengthPrefixed count ((data.drop 4).drop (ofLe (data.take 4))) with
      | error e => simp only [later, Except.map, reduceCtorEq] at all
      | ok rest =>
        rw [later] at all
        exact ⟨short, cut, rest, rfl, (Except.ok.inj all).symm⟩

variable {row : Nat}

theorem singleRow_of_lengthPrefixed (all : lengthPrefixed count data = .ok values)
    (at_row : values[row]? = some value) : singleRow row data = .ok value := by
  induction count generalizing row data values with
  | zero =>
    obtain rfl := Except.ok.inj all
    simp at at_row
  | succ count ih =>
    obtain ⟨short, cut, rest, later, rfl⟩ := lengthPrefixed_succ all
    rw [singleRow, if_neg short]
    cases row with
    | zero =>
      obtain rfl : (data.drop 4).take (ofLe (data.take 4)) = value := by simpa using at_row
      simp only [cut, ↓reduceIte]
    | succ row =>
      simp only [cut, ↓reduceIte]
      exact ih later (by simpa using at_row)

theorem length_lengthPrefixed (all : lengthPrefixed count data = .ok values) :
    values.length = count := by
  induction count generalizing data values with
  | zero =>
    obtain rfl := Except.ok.inj all
    rfl
  | succ count ih =>
    obtain ⟨-, -, rest, later, rfl⟩ := lengthPrefixed_succ all
    simp [ih later]

/-- Where the values end, if each is as long as the number in front of it says. -/
def valuesEnd : Nat → Bytes → Nat
  | 0, _ => 0
  | count + 1, data =>
    4 + ofLe (data.take 4) + valuesEnd count ((data.drop 4).drop (ofLe (data.take 4)))

theorem lengthPrefixed_error_iff :
    lengthPrefixed count data = .error .error ↔ data.length < valuesEnd count data := by
  induction count generalizing data with
  | zero => simp [lengthPrefixed, valuesEnd]
  | succ count ih =>
    rw [lengthPrefixed, valuesEnd]
    by_cases short : data.length < 4
    · simp only [short, ↓reduceIte, true_iff]
      omega
    by_cases cut : (data.drop 4).length < ofLe (data.take 4)
    · simp only [short, cut, ↓reduceIte, true_iff]
      rw [length_drop] at cut
      omega
    have rest := @ih ((data.drop 4).drop (ofLe (data.take 4)))
    simp only [short, cut, ↓reduceIte]
    rw [length_drop, length_drop] at rest
    rw [length_drop] at cut
    have whole : lengthPrefixed count ((data.drop 4).drop (ofLe (data.take 4))) = .error .error ↔
        data.length < 4 + ofLe (data.take 4) +
          valuesEnd count ((data.drop 4).drop (ofLe (data.take 4))) := by
      rw [rest]
      omega
    rw [← whole]
    cases lengthPrefixed count ((data.drop 4).drop (ofLe (data.take 4))) <;> simp [Except.map]

theorem singleRow_error_iff :
    singleRow row data = .error .error ↔ data.length < valuesEnd (row + 1) data := by
  induction row generalizing data with
  | zero =>
    rw [singleRow, valuesEnd]
    by_cases short : data.length < 4
    · simp only [short, ↓reduceIte, true_iff]
      omega
    · simp only [short, ↓reduceIte, valuesEnd, length_drop]
      split <;> simp <;> omega
  | succ row ih =>
    rw [singleRow, valuesEnd]
    by_cases short : data.length < 4
    · simp only [short, ↓reduceIte, true_iff]
      omega
    by_cases cut : (data.drop 4).length < ofLe (data.take 4)
    · simp only [short, cut, ↓reduceIte, true_iff]
      rw [length_drop] at cut
      omega
    simp only [short, cut, ↓reduceIte, ih]
    rw [length_drop] at cut
    rw [length_drop, length_drop]
    omega

theorem decodeRow_of_decompress {codecs : Codecs} {colType : ColumnType} {codec : CodecId}
    {chunk value : Bytes} {rowCount row : Nat} {values : List Bytes}
    (all : decompress codecs colType codec chunk rowCount = .ok values)
    (at_row : values[row]? = some value) :
    decodeRow codecs colType codec chunk rowCount row = .ok value := by
  cases codec with
  | none => exact singleRow_of_lengthPrefixed all at_row
  | fastPFor => simp only [decodeRow, all, at_row]
  | zstd => simp only [decodeRow, all, at_row]

theorem getElem?_undelta {ds : List Nat} {prev row : Nat} (word : prev < 2 ^ 64)
    (inside : row ≤ ds.length) :
    (undelta false prev ds)[row]? = some ((prev + (ds.take row).sum) % 2 ^ 64) := by
  induction ds generalizing prev row with
  | nil =>
    obtain rfl : row = 0 := by simpa using inside
    exact congrArg some (Nat.mod_eq_of_lt word).symm
  | cons d ds ih =>
    cases row with
    | zero => exact congrArg some (Nat.mod_eq_of_lt word).symm
    | succ row =>
      have next := @ih (applyDelta false prev d) row (Nat.mod_lt _ (Nat.two_pow_pos 64))
        (by simpa using inside)
      rw [undelta, getElem?_cons_succ, next]
      simp only [applyDelta, Bool.false_eq_true, ↓reduceIte, take_succ_cons, sum_cons,
        Nat.mod_add_mod, add_assoc]

theorem mapM_u64ToBytes_blob (at_most : width ≤ 8) (l : List Nat) :
    l.mapM (u64ToBytes .blob · width) = .ok (l.map (toLe width)) := by
  have each (n : Nat) : u64ToBytes .blob n width = .ok (toLe width n) := by
    simp only [u64ToBytes, ColumnType.packedWidth, not_lt.mpr at_most, ↓reduceIte]
  induction l with
  | nil => rfl
  | cons n l ih =>
    rw [mapM_cons, ih, each]
    rfl

theorem toLe_word (at_most : width ≤ 8) (n : Nat) : toLe width (n % 2 ^ 64) = toLe width n := by
  have cut : 256 ^ width ∣ 2 ^ 64 := by
    exact Nat.pow_dvd_pow 256 at_most
  rw [← toLe_mod, Nat.mod_mod_of_dvd _ cut, toLe_mod]

theorem toLe_eq_iff {n : Nat} :
    toLe value.length n = value ↔ ofLe value = n % 256 ^ value.length := by
  constructor
  · intro same
    rw [← ofLe_toLe, same]
  · intro same
    rw [← toLe_mod, ← same, toLe_ofLe]

/-- The differences up to the row, as they are stored, add up to its value. -/
def SumsTo (col : ColumnData) (row : Nat) : Prop :=
  ∃ value, col.values[row]? = some value ∧ ofLe value = ((deltas col.colType.isSigned
      (col.values.map (bytesToU64 col.colType))).take row).sum % 256 ^ value.length

/-- Packed values that are read as blobs begin at zero and add up what is stored. -/
theorem decodeRow_fastPFor_blob {codecs : Codecs} {col : ColumnData}
    (packed : col.colType.packedWidth = some width) (widths : ∀ v ∈ col.values, v.length = width)
    (compressed : compressFastPFor col.colType col.values = .ok data) (short : data.length < 2 ^ 32)
    (many : col.values.length ≠ 1) (at_row : col.values[row]? = some value) :
    decodeRow codecs .blob .fastPFor data col.values.length row = .ok value ↔ SumsTo col row := by
  obtain ⟨colType, values⟩ := col
  match values with
  | [] => simp at at_row
  | [_] => exact absurd rfl many
  | first :: second :: rest =>
    have at_most := (packedWidth_bounds packed).2
    have inside : row < (first :: second :: rest).length := (List.getElem?_eq_some_iff.mp at_row).1
    have all : decompress codecs .blob .fastPFor data (first :: second :: rest).length = _ :=
      decompressFastPFor_many packed (widths first (by simp)) compressed short
    rw [mapM_u64ToBytes_blob at_most] at all
    have summed := @getElem?_undelta (deltas colType.isSigned
      ((first :: second :: rest).map (bytesToU64 colType))) 0 row (Nat.two_pow_pos 64)
      (by rw [map_cons, length_deltas, length_map]; exact Nat.le_of_lt_succ inside)
    have decoded := @decodeRow_of_decompress codecs _ _ _ _ _ row _ all
      (by rw [getElem?_map]; exact congrArg (Option.map (toLe width)) summed)
    rw [decoded, toLe_word at_most, zero_add, Except.ok.injEq,
      ← widths value (mem_of_getElem? at_row), toLe_eq_iff]
    constructor
    · exact fun same => ⟨value, at_row, same⟩
    · rintro ⟨value', at_row', same⟩
      obtain rfl : value = value' := some.inj (at_row.symm.trans at_row')
      exact same

end Rows

section Packed

theorem length_undelta (signed : Bool) (prev : Nat) (ds : List Nat) :
    (undelta signed prev ds).length = ds.length + 1 := by
  induction ds generalizing prev with
  | nil => rfl
  | cons d ds ih => simp [undelta, ih]

theorem mapM_u64ToBytes_ne_error (colType : ColumnType) (byteWidth : Nat) (l : List Nat) :
    l.mapM (u64ToBytes colType · byteWidth) ≠ .error .error := by
  induction l with
  | nil => simp [pure, Except.pure]
  | cons n l ih =>
    rw [mapM_cons]
    cases first : u64ToBytes colType n byteWidth with
    | error e =>
      rw [u64ToBytes] at first
      split at first
      · simp at first
      · split at first
        · obtain rfl := Except.error.inj first
          simp [bind, Except.bind]
        · simp at first
    | ok bytes =>
      cases rest : l.mapM (u64ToBytes colType · byteWidth) with
      | error e =>
        rw [rest] at ih
        simpa [bind, Except.bind] using ih
      | ok values => simp [bind, Except.bind, pure, Except.pure]

variable {colType : ColumnType} {values : List Bytes} {chunk data : Bytes} {codec : CodecId}
  {rowCount : Nat}

theorem length_mapM_u64ToBytes {byteWidth : Nat} {l : List Nat}
    (run : l.mapM (u64ToBytes colType · byteWidth) = .ok values) : values.length = l.length := by
  induction l generalizing values with
  | nil =>
    obtain rfl := Except.ok.inj run
    rfl
  | cons n l ih =>
    rw [mapM_cons] at run
    cases first : u64ToBytes colType n byteWidth with
    | error e => simp [first, bind, Except.bind] at run
    | ok bytes =>
      cases rest : l.mapM (u64ToBytes colType · byteWidth) with
      | error e => simp [first, rest, bind, Except.bind] at run
      | ok later =>
        simp only [first, rest, bind, Except.bind, pure, Except.pure, Except.ok.injEq] at run
        subst run
        simp [ih rest]

/-- The first value is there, and behind it a number of bits and the bytes that hold as many of
each difference. -/
def HoldsPacked (data : Bytes) (rowCount : Nat) : Prop :=
  ∃ width rest, data = width :: rest ∧ width.toNat ≤ rest.length ∧
    (rowCount ≤ 1 ∨ ∃ bits packed, rest.drop width.toNat = bits :: packed ∧
      (bits = 0 ∨ 4 ≤ packed.length ∧ ofLe (packed.take 4) ≤ (packed.drop 4).length))

/-- What packed data holds does not depend on the type it is read as, only the arithmetic that
rebuilds the values does. -/
theorem decompressFastPFor_cases (data : Bytes) (rows : 0 < rowCount) :
    (¬ HoldsPacked data rowCount ∧
      ∀ colType, decompressFastPFor colType data rowCount = .error .error) ∨
    HoldsPacked data rowCount ∧
      ((rowCount = 1 ∧ ∃ value, ∀ colType, decompressFastPFor colType data rowCount = .ok [value]) ∨
      ∃ (first : Bytes) (ds : List Nat) (width : UInt8), ds.length + 1 = rowCount ∧
        1 < rowCount ∧ data.head? = some width ∧
        ∀ colType, decompressFastPFor colType data rowCount =
          (undelta colType.isSigned (bytesToU64 colType first) ds).mapM
            (u64ToBytes colType · width.toNat)) := by
  cases data with
  | nil => exact .inl ⟨by simp [HoldsPacked], fun _ => rfl⟩
  | cons width data =>
    simp only [decompressFastPFor, HoldsPacked, cons.injEq, rows.ne', ↓reduceIte]
    by_cases cut : data.length < width.toNat
    · refine .inl ⟨?_, fun _ => by simp only [cut, ↓reduceIte]⟩
      rintro ⟨_, _, ⟨rfl, rfl⟩, enough, -⟩
      omega
    by_cases one : rowCount = 1
    · subst one
      refine .inr ⟨⟨width, data, ⟨rfl, rfl⟩, by omega, .inl (le_refl 1)⟩, .inl ⟨rfl,
        data.take width.toNat, fun _ => by simp only [cut, ↓reduceIte]⟩⟩
    simp only [cut, one, ↓reduceIte, false_and, false_or]
    have many : ¬ rowCount ≤ 1 := by omega
    cases behind : data.drop width.toNat with
    | nil =>
      refine .inl ⟨?_, fun _ => rfl⟩
      rintro ⟨_, _, ⟨rfl, rfl⟩, -, few | ⟨_, _, more, -⟩⟩
      · exact many few
      · rw [behind] at more
        cases more
    | cons maxBits packed =>
      by_cases zero : maxBits = 0
      · refine .inr ⟨⟨width, data, ⟨rfl, rfl⟩, by omega, .inr ⟨_, _, behind, .inl zero⟩⟩,
          data.take width.toNat, List.replicate (rowCount - 1) 0, width,
          by rw [length_replicate]; omega, by omega, rfl, fun _ => ?_⟩
        simp only [zero, ↓reduceIte]
        rfl
      by_cases held : 4 ≤ packed.length ∧ ofLe (packed.take 4) ≤ (packed.drop 4).length
      · refine .inr ⟨⟨width, data, ⟨rfl, rfl⟩, by omega, .inr ⟨_, _, behind, .inr held⟩⟩,
          data.take width.toNat, bitpackDecode ((packed.drop 4).take (ofLe (packed.take 4)))
            maxBits.toNat (rowCount - 1), width, ?_, by omega, rfl, fun _ => ?_⟩
        · rw [bitpackDecode]
          split <;> simp <;> omega
        · simp only [zero, not_lt.mpr held.1, not_lt.mpr held.2, ↓reduceIte]
          rfl
      · refine .inl ⟨?_, fun _ => ?_⟩
        · rintro ⟨_, _, ⟨rfl, rfl⟩, -, few | ⟨_, _, more, none | room⟩⟩
          · exact many few
          · rw [behind] at more
            exact zero ((cons.inj more).1.trans none)
          · rw [behind] at more
            obtain ⟨rfl, rfl⟩ := cons.inj more
            exact held room
        · by_cases no_len : packed.length < 4
          · simp only [zero, no_len, ↓reduceIte]
            rfl
          · have no_bits : (packed.drop 4).length < ofLe (packed.take 4) := by omega
            simp only [zero, no_len, no_bits, ↓reduceIte]
            rfl

theorem length_decompressFastPFor (rows : 0 < rowCount)
    (all : decompressFastPFor colType data rowCount = .ok values) : values.length = rowCount := by
  obtain ⟨-, refused⟩ | ⟨-, ⟨one, value, plain⟩ | ⟨first, ds, width, length, -, -, rebuilt⟩⟩ :=
    decompressFastPFor_cases data rows
  · rw [refused] at all
    cases all
  · rw [plain] at all
    obtain rfl := Except.ok.inj all
    exact one.symm
  · rw [rebuilt] at all
    rw [length_mapM_u64ToBytes all, length_undelta, length]

theorem decompressFastPFor_error_iff (rows : 0 < rowCount) :
    decompressFastPFor colType data rowCount = .error .error ↔ ¬ HoldsPacked data rowCount := by
  obtain ⟨missing, refused⟩ | ⟨held, ⟨-, value, plain⟩ | ⟨_, _, _, -, -, -, rebuilt⟩⟩ :=
    decompressFastPFor_cases data rows
  · simp [missing, refused colType]
  · simp [held, plain colType]
  · simp [held, rebuilt colType, mapM_u64ToBytes_ne_error]

/-- A type that is not packed by itself is read like a column of blobs. -/
theorem decompressFastPFor_unpacked (unpacked : colType.packedWidth = none) :
    decompressFastPFor colType = decompressFastPFor .blob := by
  cases colType <;> first | rfl | cases unpacked

theorem decompressFastPFor_blob_isOk_iff {width : UInt8} (many : 1 < rowCount)
    (front : data.head? = some width) :
    (∃ values, decompressFastPFor .blob data rowCount = .ok values) ↔
      width.toNat ≤ 8 ∧ HoldsPacked data rowCount := by
  obtain ⟨missing, refused⟩ | ⟨held, ⟨one, -⟩ | ⟨first, ds, width', -, -, front', rebuilt⟩⟩ :=
    decompressFastPFor_cases data (Nat.lt_of_succ_lt many)
  · simp [missing, refused .blob]
  · omega
  · obtain rfl := some.inj (front.symm.trans front')
    simp only [rebuilt .blob, held, and_true]
    by_cases word : width.toNat ≤ 8
    · simp [word, mapM_u64ToBytes_blob word]
    · have fails : u64ToBytes .blob (bytesToU64 .blob first) width.toNat = .error .panic :=
        if_pos (not_le.mp word)
      have panics : (undelta ColumnType.blob.isSigned (bytesToU64 .blob first) ds).mapM
          (u64ToBytes .blob · width.toNat) = .error .panic := by
        cases ds <;> rw [undelta, mapM_cons, fails] <;> rfl
      simp [word, panics]

variable {codecs : Codecs} {rowCount row : Nat}

/-- The chunk has the row, as its codec lays out the values. -/
def RowStored (codecs : Codecs) (codec : CodecId) (chunk : Bytes) (rowCount row : Nat) : Prop :=
  match codec with
  | .none => valuesEnd (row + 1) chunk ≤ chunk.length
  | .fastPFor => HoldsPacked chunk rowCount
  | .zstd => 4 ≤ chunk.length ∧ ∃ raw, codecs.zstdDecode (chunk.drop 4) = some raw ∧
      valuesEnd rowCount raw ≤ raw.length

theorem decodeRow_all (in_rows : row < rowCount) (compressed : codec ≠ .none)
    (lengths : ∀ values, decompress codecs colType codec chunk rowCount = .ok values →
      values.length = rowCount) :
    decodeRow codecs colType codec chunk rowCount row = .error .error ↔
      decompress codecs colType codec chunk rowCount = .error .error := by
  have whole : decodeRow codecs colType codec chunk rowCount row =
      match decompress codecs colType codec chunk rowCount with
      | .error e => .error e
      | .ok values => match values[row]? with
        | none => .error .error
        | some value => .ok value := by
    cases codec <;> first | exact absurd rfl compressed | rfl
  rw [whole]
  cases all : decompress codecs colType codec chunk rowCount with
  | error e => simp
  | ok values =>
    have inside : row < values.length := by rw [lengths values all]; exact in_rows
    simp [getElem?_eq_getElem inside]

/-- Whether a row is refused depends on how it is stored, not on its type. -/
theorem decodeRow_error_iff (in_rows : row < rowCount) :
    decodeRow codecs colType codec chunk rowCount row = .error .error ↔
      ¬ RowStored codecs codec chunk rowCount row := by
  cases codec with
  | none => exact singleRow_error_iff.trans not_le.symm
  | fastPFor =>
    refine (decodeRow_all in_rows (by decide) fun values all => ?_).trans
      (decompressFastPFor_error_iff (Nat.zero_lt_of_lt in_rows))
    exact length_decompressFastPFor (Nat.zero_lt_of_lt in_rows) all
  | zstd =>
    have unfolded : decompress codecs colType .zstd chunk rowCount =
        if chunk.length < 4 then .error .error
        else match codecs.zstdDecode (chunk.drop 4) with
          | none => .error .error
          | some raw => lengthPrefixed rowCount raw := rfl
    refine (decodeRow_all in_rows (by decide) fun values all => ?_).trans ?_
    · rw [unfolded] at all
      split at all
      · cases all
      · split at all
        · cases all
        · exact length_lengthPrefixed all
    · rw [unfolded, RowStored]
      by_cases short : chunk.length < 4
      · simp [short]
      cases decoded : codecs.zstdDecode (chunk.drop 4) with
      | none => simp [short]
      | some raw => simp [short, lengthPrefixed_error_iff, not_lt.mp short]

end Packed

section WrittenBlocks

variable {codecs : WriteCodecs} {columns : List ColumnData} {codecIds : List CodecId}
  {blockId commitTimestamp : UInt64} {block : RawBlock} {i row : Nat} {col : ColumnData}
  {codec : CodecId} {value : Bytes}

theorem WrittenFrom.checked
    (written : WrittenFrom codecs blockId commitTimestamp columns codecIds block) :
    Checked codecs.toCodecs (serialize block) := by
  refine ⟨by simp [serialize], ?_⟩
  rw [covered, take_serialize, drop_serialize, ofLe_toLe_of_lt written.fits.checksum,
    written.sealed]

variable {data : Bytes}

theorem WrittenFrom.readColumnRow_eq (room : HasRoom codecs columns codecIds)
    (written : WrittenFrom codecs blockId commitTimestamp columns codecIds block)
    (at_i : columns[i]? = some col) (codec_at : codecIds[i]? = some codec)
    (in_rows : row < col.values.length)
    (compressed : compress codecs col.colType codec col.values = .ok data) :
    readColumnRow codecs.toCodecs block i row =
      decodeRow codecs.toCodecs col.colType codec data col.values.length row := by
  obtain ⟨desc, at_desc, col_type, codec_eq, within, found, mem⟩ :=
    written.column room at_i codec_at
  obtain rfl := Except.ok.inj (compressed.symm.trans found)
  have word := written.fits.columnData_lt
  have stop : (desc.offset + desc.compressedLen) % 2 ^ 64 = desc.offset + desc.compressedLen :=
    Nat.mod_eq_of_lt (by omega)
  have rows := written.rowCount _ (mem_of_getElem? at_i)
  simp only [readColumnRow, at_desc, rows, not_le.mpr in_rows, stop, not_lt.mpr within,
    not_lt.mpr (Nat.le_add_right _ _), ↓reduceIte, col_type, codec_eq]

/-- The raw read finds the same bytes but takes them for a column of blobs. -/
theorem WrittenFrom.readValueFromRawBlock (room : HasRoom codecs columns codecIds)
    (written : WrittenFrom codecs blockId commitTimestamp columns codecIds block)
    (at_i : columns[i]? = some col) (codec_at : codecIds[i]? = some codec)
    (in_rows : row < col.values.length) :
    ∃ data, compress codecs col.colType codec col.values = .ok data ∧
      readValueFromRawBlock codecs.toCodecs (serialize block) i row =
        decodeRow codecs.toCodecs .blob codec data col.values.length row := by
  obtain ⟨desc, at_desc, -, codec_eq, within, compressed, -⟩ :=
    written.column room at_i codec_at
  have rows := written.rowCount _ (mem_of_getElem? at_i)
  have header : deserializeHeader (covered (serialize block)) =
      some (block.header, block.columnData ++ serializeRowOffsets block.rowOffsets) := by
    rw [covered, take_serialize]
    exact deserializeHeader_blockBytes written.fits
  have raw := (readValueFromRawBlock_eq written.fits.length_serialize written.checked header at_desc
    (by rw [rows]; exact in_rows)).2 (by rw [length_append]; omega)
  have chunk : slice (block.columnData ++ serializeRowOffsets block.rowOffsets) desc.offset
      (desc.offset + desc.compressedLen) =
      slice block.columnData desc.offset (desc.offset + desc.compressedLen) := by
    rw [slice_eq_take, slice_eq_take, drop_append_of_le_length (by omega),
      take_append_of_le_length]
    rw [length_drop]
    omega
  exact ⟨_, compressed, by rw [raw, chunk, codec_eq, rows]⟩

/-- The three reads of one row give the same bytes. -/
def ReadsAgree (codecs : Codecs) (bytes : Bytes) (col row : Nat) : Prop :=
  ∃ value block values, readValueFromRawBlock codecs bytes col row = .ok value ∧
    deserialize codecs bytes = some block ∧ readColumnRow codecs block col row = .ok value ∧
    readColumn codecs block col = .ok values ∧ values[row]? = some value

def ColumnData.RightWidth (col : ColumnData) : Prop :=
  ∀ width, col.colType.byteSize = some width → ∀ v ∈ col.values, v.length = width

/-- Packed embeddings can be rebuilt: what a byte keeps of their width is at most a word, and what
lies behind as much of the first one is no bits, or bits that are there. -/
def Rebuilds (col : ColumnData) : Prop :=
  ∃ dims first, col.colType = .embedding dims ∧ col.values.head? = some first ∧
    dims * 4 % 2 ^ 8 ≤ 8 ∧
    HoldsPacked (UInt8.ofNat (dims * 4) :: (first ++ [0])) col.values.length

/-- The raw read of a row gives its value unless the column is packed, has several rows, and
the stored differences do not happen to add up. -/
theorem decodeRow_blob_iff (lossless : codecs.Lossless) (sound : col.Sound codec)
    (short : ∀ v ∈ col.values, v.length < 2 ^ 32) (fits : data.length < 2 ^ 32)
    (compressed : compress codecs col.colType codec col.values = .ok data)
    (at_row : col.values[row]? = some value) :
    decodeRow codecs.toCodecs .blob codec data col.values.length row = .ok value ↔
      codec ≠ .fastPFor ∨ col.values.length = 1 ∨ SumsTo col row := by
  have decoded := decompress_compress lossless sound short compressed fits
  cases codec with
  | none =>
    have read := @decodeRow_of_decompress codecs.toCodecs .blob .none _ _ _ row _ decoded at_row
    simp [read]
  | zstd =>
    have read := @decodeRow_of_decompress codecs.toCodecs .blob .zstd _ _ _ row _ decoded at_row
    simp [read]
  | fastPFor =>
    obtain ⟨width, packed⟩ := isSome_iff_exists.mp (sound.packed rfl)
    have widths := sound.widths width packed
    by_cases single : col.values.length = 1
    · obtain ⟨only, only_eq⟩ := length_eq_one_iff.mp single
      rw [only_eq] at compressed at_row
      have all := @decompressFastPFor_single _ .blob _ _ _ packed
        (widths only (by simp [only_eq])) compressed
      have read := @decodeRow_of_decompress codecs.toCodecs .blob .fastPFor _ _ _ row _ all at_row
      simp [only_eq, read]
    · rw [decodeRow_fastPFor_blob packed widths compressed fits single at_row]
      simp [single]

theorem deltas_zeros {α : Type*} (l : List α) : ∀ d ∈ deltas false (l.map fun _ => 0), d = 0 := by
  have zero : delta false 0 0 = 0 := by simp [delta]
  induction l with
  | nil => simp [deltas]
  | cons a l ih =>
    cases l with
    | nil => simp [deltas]
    | cons b l =>
      intro d mem
      obtain first | later := mem_cons.mp mem
      · exact first.trans zero
      · exact ih d later

/-- No embedding is looked at but the first. -/
theorem compressFastPFor_embedding {dims : Nat} {first : Bytes} {rest : List Bytes} :
    compressFastPFor (.embedding dims) (first :: rest) =
      .ok (UInt8.ofNat (dims * 4) :: (first ++ [0])) := by
  have none : maxBits (deltas false ((first :: rest).map (bytesToU64 (.embedding dims)))) = 0 := by
    have most := @foldl_max_lt 1 0 _ one_pos fun d mem =>
      Nat.lt_one_iff.mpr (deltas_zeros (first :: rest) d mem)
    exact if_pos (Nat.lt_one_iff.mp most)
  have signed : (ColumnType.embedding dims).isSigned = false := rfl
  have sized : (ColumnType.embedding dims).byteSize = some (dims * 4) := rfl
  have no_bits : UInt8.ofNat 0 = 0 := rfl
  simp only [compressFastPFor, sized, signed, none, no_bits, lt_irrefl, false_and, ↓reduceIte]

theorem isOk_embedding_iff (unpacked : col.colType.packedWidth = none) (width : col.RightWidth)
    (compressed : compressFastPFor col.colType col.values = .ok data)
    (in_rows : row < col.values.length) :
    (∃ values, decompressFastPFor .blob data col.values.length = .ok values) ↔
      col.values.length = 1 ∨ Rebuilds col := by
  obtain ⟨colType, values⟩ := col
  obtain ⟨dims, rfl⟩ : ∃ dims, colType = .embedding dims := by
    cases colType with
    | embedding dims => exact ⟨dims, rfl⟩
    | text | blob | json =>
      exact absurd compressed (by simp [compressFastPFor, ColumnType.byteSize])
    | _ => cases unpacked
  cases values with
  | nil => simp at in_rows
  | cons first rest =>
    rw [compressFastPFor_embedding] at compressed
    obtain rfl := Except.ok.inj compressed
    by_cases single : (first :: rest).length = 1
    · have length : first.length = dims * 4 := width _ rfl first mem_cons_self
      have held : HoldsPacked (UInt8.ofNat (dims * 4) :: (first ++ [0])) 1 := by
        refine ⟨_, _, rfl, ?_, .inl (le_refl 1)⟩
        rw [UInt8.toNat_ofNat', length_append]
        omega
      simp only [single, true_or, iff_true]
      obtain ⟨missing, -⟩ | ⟨-, ⟨-, value, plain⟩ | ⟨_, _, _, -, many, -⟩⟩ :=
        decompressFastPFor_cases (UInt8.ofNat (dims * 4) :: (first ++ [0])) one_pos
      · exact absurd held missing
      · exact ⟨_, plain .blob⟩
      · omega
    · have many : 1 < (first :: rest).length := by
        rw [length_cons] at single ⊢
        omega
      rw [decompressFastPFor_blob_isOk_iff many rfl, UInt8.toNat_ofNat']
      simp only [single, false_or]
      constructor
      · rintro ⟨word, held⟩
        exact ⟨dims, first, rfl, rfl, word, held⟩
      · rintro ⟨_, _, ⟨⟩, ⟨⟩, word, held⟩
        exact ⟨word, held⟩

/-- The reads of a written row agree exactly where its column is not packed, has one row, its
stored differences add up to the value, or it holds embeddings that can be rebuilt. -/
theorem WrittenFrom.reads_agree_iff (lossless : codecs.Lossless)
    (room : HasRoom codecs columns codecIds)
    (written : WrittenFrom codecs blockId commitTimestamp columns codecIds block)
    (at_i : columns[i]? = some col) (codec_at : codecIds[i]? = some codec) (width : col.RightWidth)
    (in_rows : row < col.values.length) :
    (ReadsAgree codecs.toCodecs (serialize block) i row ↔
      codec ≠ .fastPFor ∨ col.values.length = 1 ∨
        col.colType.packedWidth.isSome ∧ SumsTo col row ∨ Rebuilds col) ∧
    (col.colType.packedWidth = none →
      PaxBytes.readValueFromRawBlock codecs.toCodecs (serialize block) i row =
        readThroughBlock codecs.toCodecs (serialize block) i row) := by
  obtain ⟨data, compressed, raw⟩ := written.readValueFromRawBlock room at_i codec_at in_rows
  have read := deserialize_serialize written.fits written.sealed
  have row_read := written.readColumnRow_eq room at_i codec_at in_rows compressed
  have column_read := written.readColumn_eq room at_i codec_at compressed
  have mem : (col, codec) ∈ columns.zip codecIds :=
    mem_of_getElem? (getElem?_zip_eq_some.mpr ⟨at_i, codec_at⟩)
  have same_type (unpacked : col.colType.packedWidth = none) :
      decompress codecs.toCodecs col.colType codec = decompress codecs.toCodecs .blob codec := by
    cases codec with
    | fastPFor => exact decompressFastPFor_unpacked unpacked
    | _ => rfl
  have agree_of {value value' : Bytes} {values : List Bytes}
      (all : decompress codecs.toCodecs col.colType codec data col.values.length = .ok values)
      (at_row : values[row]? = some value)
      (blob : decodeRow codecs.toCodecs .blob codec data col.values.length row = .ok value') :
      ReadsAgree codecs.toCodecs (serialize block) i row ↔ value' = value := by
    constructor
    · rintro ⟨seen, block', values', raw', read', -, column', at_row'⟩
      obtain rfl := some.inj (read.symm.trans read')
      obtain rfl := Except.ok.inj ((column_read.trans all).symm.trans column')
      obtain rfl := Except.ok.inj ((raw.trans blob).symm.trans raw')
      exact some.inj (at_row'.symm.trans at_row)
    · rintro rfl
      exact ⟨_, block, values, raw.trans blob, read,
        row_read.trans (decodeRow_of_decompress all at_row), column_read.trans all, at_row⟩
  constructor
  · by_cases sound : col.Sound codec
    · have at_row := getElem?_eq_getElem in_rows
      have short := room.value_bytes _ (mem_of_getElem? at_i)
      have fits := room.chunk_bytes _ mem data compressed
      have all := decompress_compress lossless sound short compressed fits
      have blob := decodeRow_blob_iff lossless sound short fits compressed at_row
      have packed : codec = .fastPFor → ¬ Rebuilds col := by
        rintro fast ⟨_, _, embedding, -⟩
        have packed := sound.packed fast
        rw [embedding] at packed
        cases packed
      have split : (codec ≠ .fastPFor ∨ col.values.length = 1 ∨
          col.colType.packedWidth.isSome ∧ SumsTo col row ∨ Rebuilds col) ↔
          (codec ≠ .fastPFor ∨ col.values.length = 1 ∨ SumsTo col row) := by
        by_cases fast : codec = .fastPFor
        · simp [fast, sound.packed fast, packed fast]
        · simp [fast]
      rw [split, ← blob]
      constructor
      · rintro ⟨seen, block', values, raw', read', row_read', column', at_row'⟩
        obtain rfl := some.inj (read.symm.trans read')
        obtain rfl := Except.ok.inj ((column_read.trans all).symm.trans column')
        obtain rfl := some.inj (at_row.symm.trans at_row')
        exact raw.symm.trans raw'
      · exact fun seen => (agree_of all at_row seen).mpr rfl
    · have fast : codec = .fastPFor := by
        by_contra other
        exact sound ⟨fun w packed => width w (byteSize_of_packedWidth packed),
          fun fast => absurd fast other⟩
      have unpacked : col.colType.packedWidth = none := by
        by_contra packed
        exact sound ⟨fun w packed => width w (byteSize_of_packedWidth packed),
          fun _ => isSome_iff_ne_none.mpr packed⟩
      subst fast
      have isOk := isOk_embedding_iff unpacked width compressed in_rows
      simp only [unpacked, ne_eq, not_true_eq_false, false_or, isSome_none,
        Bool.false_eq_true, false_and, ← isOk]
      constructor
      · rintro ⟨_, block', values, -, read', -, column', -⟩
        obtain rfl := some.inj (read.symm.trans read')
        rw [column_read, same_type unpacked] at column'
        exact ⟨values, column'⟩
      · rintro ⟨values, all⟩
        have enough : row < values.length := by
          rw [length_decompressFastPFor (Nat.zero_lt_of_lt in_rows) all]
          exact in_rows
        have at_row := getElem?_eq_getElem enough
        have blob :=
          @decodeRow_of_decompress codecs.toCodecs .blob .fastPFor data _ _ row _ all at_row
        refine (agree_of ?_ at_row blob).mpr rfl
        rw [same_type unpacked]
        exact all
  · intro unpacked
    rw [raw, readThroughBlock, read]
    dsimp only
    rw [row_read]
    cases codec with
    | none => rfl
    | _ => simp only [decodeRow, same_type unpacked]

end WrittenBlocks

section Layout

variable {data : Bytes} {pos : Nat}

/-- Where the codec of a descriptor stands: behind the type, and the dimensions of an embedding. -/
def codecAt (data : Bytes) (pos : Nat) : Nat :=
  if ofLe (slice data pos (pos + 1)) = 14 then pos + 5 else pos + 1

/-- Where the length of the largest value stands: behind the codec, the offset, the length of the
chunk and the smallest value. -/
def maxLenAt (data : Bytes) (pos : Nat) : Nat :=
  codecAt data pos + 17 + ofLe (slice data (codecAt data pos + 13) (codecAt data pos + 17))

/-- What a descriptor at the position says of its chunk. -/
def targetAt (data : Bytes) (pos : Nat) : RawTarget where
  offset := ofLe (slice data (codecAt data pos + 1) (codecAt data pos + 9))
  compressedLen := ofLe (slice data (codecAt data pos + 9) (codecAt data pos + 13))
  codec := ofLe (slice data (codecAt data pos) (codecAt data pos + 1))

/-- Where the descriptors begin, if each is as long as it says. -/
def descriptorAt (data : Bytes) : Nat → Nat
  | 0 => 27
  | k + 1 =>
    let maxLen := maxLenAt data (descriptorAt data k)
    maxLen + 4 + ofLe (slice data maxLen (maxLen + 4))

/-- The descriptor is there up to the length of its largest value. -/
def WholeAt (data : Bytes) (k : Nat) : Prop :=
  maxLenAt data (descriptorAt data k) + 4 ≤ data.length

theorem codecAt_le_maxLenAt (data : Bytes) (pos : Nat) :
    pos + 1 ≤ codecAt data pos ∧ codecAt data pos + 17 ≤ maxLenAt data pos := by
  refine ⟨?_, Nat.le_add_right _ _⟩
  rw [codecAt]
  split <;> omega

theorem rawInt_bind_panic {α : Type} {width : Nat} {f : Nat → Except Fault α}
    (next : pos + width ≤ data.length → f (ofLe (slice data pos (pos + width))) = .error .panic) :
    rawInt width data pos >>= f = .error .panic := by
  rw [rawInt]
  split
  · rfl
  · exact next (by omega)

theorem rawInt_of_le {width : Nat} (inside : pos + width ≤ data.length) :
    rawInt width data pos = .ok (ofLe (slice data pos (pos + width))) := if_neg (by omega)

theorem skimDescriptor_eq (k : Nat) : skimDescriptor data (descriptorAt data k) =
    if data.length ≤ descriptorAt data k then .error .error
    else if data.length < maxLenAt data (descriptorAt data k) + 4 then .error .panic
    else .ok (targetAt data (descriptorAt data k), descriptorAt data (k + 1)) := by
  rw [descriptorAt]
  generalize descriptorAt data k = pos
  rw [skimDescriptor]
  by_cases ended : data.length ≤ pos
  · simp only [ended, ↓reduceIte]
  simp only [ended, ↓reduceIte]
  have codec_eq : (if ofLe (slice data pos (pos + 1)) = 14 then pos + 1 + 4 else pos + 1) =
      codecAt data pos := rfl
  have max_eq : codecAt data pos + 1 + 8 + 4 +
      (4 + ofLe (slice data (codecAt data pos + 1 + 8 + 4) (codecAt data pos + 1 + 8 + 4 + 4))) =
      maxLenAt data pos := by
    rw [show codecAt data pos + 1 + 8 + 4 = codecAt data pos + 13 from rfl,
      show codecAt data pos + 13 + 4 = codecAt data pos + 17 from rfl, maxLenAt]
    omega
  split
  · next cut =>
    refine rawInt_bind_panic fun _ => ?_
    rw [codec_eq]
    refine rawInt_bind_panic fun _ => rawInt_bind_panic fun _ => rawInt_bind_panic fun _ =>
      rawInt_bind_panic fun _ => ?_
    exact rawInt_bind_panic fun inside => absurd inside (by omega)
  · next whole =>
    refine bind_of_eq_ok (rawInt_of_le (by omega)) ?_
    rw [codec_eq]
    refine bind_of_eq_ok (rawInt_of_le (by omega)) (bind_of_eq_ok (rawInt_of_le (by omega))
      (bind_of_eq_ok (rawInt_of_le (by omega)) (bind_of_eq_ok (rawInt_of_le (by omega)) ?_)))
    rw [max_eq]
    exact bind_of_eq_ok (rawInt_of_le (by omega)) (congrArg Except.ok
      (Prod.ext rfl (add_assoc _ _ _).symm))

theorem skimDescriptors_cases {target remaining col : Nat} {found : RawTarget} :
    let run := skimDescriptors data target remaining col (descriptorAt data col) found
    (∃ k, col ≤ k ∧ k < col + remaining ∧ (∀ j, col ≤ j → j < k → WholeAt data j) ∧
      ¬ WholeAt data k ∧
        run = .error (if data.length ≤ descriptorAt data k then .error else .panic)) ∨
    (∀ j, col ≤ j → j < col + remaining → WholeAt data j) ∧
      run = .ok (if col ≤ target ∧ target < col + remaining then
        targetAt data (descriptorAt data target) else found,
          descriptorAt data (col + remaining)) := by
  induction remaining generalizing col found with
  | zero =>
    have none : ¬ (col ≤ target ∧ target < col + 0) := by omega
    refine .inr ⟨by omega, ?_⟩
    rw [if_neg none]
    rfl
  | succ remaining ih =>
    rw [skimDescriptors, skimDescriptor_eq]
    by_cases whole : WholeAt data col
    · have behind := codecAt_le_maxLenAt data (descriptorAt data col)
      have started : ¬ data.length ≤ descriptorAt data col := by
        rw [WholeAt] at whole
        omega
      simp only [started, ↓reduceIte, not_lt.mpr whole]
      obtain ⟨k, reached, inside, before, cut, run⟩ | ⟨all, run⟩ :=
        @ih (col + 1) (if col = target then targetAt data (descriptorAt data col) else found)
      · refine .inl ⟨k, by omega, by omega, fun j le lt => ?_, cut, run⟩
        obtain rfl | later := Nat.eq_or_lt_of_le le
        · exact whole
        · exact before j later lt
      · refine .inr ⟨fun j le lt => ?_, ?_⟩
        · obtain rfl | later := Nat.eq_or_lt_of_le le
          · exact whole
          · exact all j later (by omega)
        · rw [run, add_right_comm]
          refine congrArg Except.ok (Prod.ext ?_ rfl)
          by_cases here : col = target
          · subst here
            simp
          · have same : col + 1 ≤ target ∧ target < col + remaining + 1 ↔
                col ≤ target ∧ target < col + (remaining + 1) := by omega
            simp only [here, ↓reduceIte, same]
    · refine .inl ⟨col, le_refl col, by omega, by omega, whole, ?_⟩
      rw [WholeAt] at whole
      by_cases ended : data.length ≤ descriptorAt data col
      · simp only [ended, ↓reduceIte]
      · simp only [ended, ↓reduceIte, not_le.mp whole]

end Layout

section ForeignBlocks

variable {codecs : Codecs} {block : Bytes} {col row : Nat}

/-- The further checks of the block as a whole: a header of known types and codecs, the magic
number, the version, the room for the columns and the row offsets, and the end of the chunk. -/
def PassesBlockChecks (block : Bytes) (col : Nat) : Prop :=
  ∃ header rest desc, deserializeHeader (covered block) = some (header, rest) ∧
    header.magic = paxMagic ∧
    minReadable ≤ header.formatVersion ∧ header.formatVersion ≤ currentWrite ∧
    (header.columnDescriptors.map compressedLen).sum + header.rowCount * 4 ≤ rest.length ∧
    header.columnDescriptors[col]? = some desc ∧
    (desc.offset + desc.compressedLen) % 2 ^ 64 ≤ (header.columnDescriptors.map compressedLen).sum

/-- The chunk ends behind the block, its codec is unknown, or it has no such row. -/
def ChunkMissing (codecs : Codecs) (data : Bytes) (target : RawTarget)
    (headerEnd rowCount row : Nat) : Prop :=
  let start := (headerEnd + target.offset) % 2 ^ 64
  let stop := (start + target.compressedLen) % 2 ^ 64
  data.length < stop ∨ start ≤ stop ∧ ∀ codec, CodecId.fromU8 target.codec = some codec →
    ¬ RowStored codecs codec (slice data start stop) rowCount row

/-- There is no such row: the bytes fail their checksum, the column or the row is out of range,
the descriptors end early, behind one of them, or the chunk that is pointed at has no row. -/
def NothingThere (codecs : Codecs) (block : Bytes) (col row : Nat) : Prop :=
  let data := covered block
  let columnCount := ofLe (slice data 25 27)
  let rowCount := ofLe (slice data 13 17)
  ¬ Checked codecs block ∨ data.length < 27 ∨ columnCount ≤ col ∨ rowCount ≤ row ∨
    (∃ k < columnCount, (∀ j < k, WholeAt data j) ∧ data.length ≤ descriptorAt data k) ∨
    (∀ j < columnCount, WholeAt data j) ∧ ChunkMissing codecs data
      (targetAt data (descriptorAt data col)) (descriptorAt data columnCount) rowCount row

theorem extractRow_error_iff {data : Bytes} {target : RawTarget} {headerEnd rowCount : Nat}
    (in_rows : row < rowCount) :
    extractRow codecs data target headerEnd rowCount row = .error .error ↔
      ChunkMissing codecs data target headerEnd rowCount row := by
  simp only [extractRow, ChunkMissing]
  generalize (headerEnd + target.offset) % 2 ^ 64 = start
  generalize (start + target.compressedLen) % 2 ^ 64 = stop
  by_cases past : data.length < stop
  · simp [past]
  by_cases wrapped : stop < start
  · have no_chunk : ¬ start ≤ stop := by omega
    simp [past, wrapped, no_chunk]
  · have chunk : start ≤ stop := by omega
    simp only [past, wrapped, ↓reduceIte, chunk, true_and, false_or]
    cases CodecId.fromU8 target.codec <;> simp [decodeRow_error_iff in_rows]

theorem skimDescriptors_error_iff {data : Bytes} {target count : Nat} {found : RawTarget} :
    skimDescriptors data target count 0 27 found = .error .error ↔
      ∃ k < count, (∀ j < k, WholeAt data j) ∧ data.length ≤ descriptorAt data k := by
  obtain ⟨k, -, inside, before, cut, run⟩ | ⟨all, run⟩ :=
    @skimDescriptors_cases data target count 0 found
  · rw [show skimDescriptors data target count 0 27 found = _ from run]
    constructor
    · intro refused
      refine ⟨k, by omega, fun j => before j (Nat.zero_le j), ?_⟩
      by_contra started
      rw [if_neg started] at refused
      cases refused
    · rintro ⟨k', -, before', ended⟩
      obtain lt | rfl | gt := lt_trichotomy k k'
      · exact absurd (before' k lt) cut
      · rw [if_pos ended]
      · have whole := before k' (Nat.zero_le k') gt
        have behind := codecAt_le_maxLenAt data (descriptorAt data k')
        rw [WholeAt] at whole
        omega
  · rw [show skimDescriptors data target count 0 27 found = _ from run]
    simp only [reduceCtorEq, false_iff, not_exists, not_and, Nat.not_le]
    intro k lt before
    have whole := all k (Nat.zero_le k) (by omega)
    have behind := codecAt_le_maxLenAt data (descriptorAt data k)
    rw [WholeAt] at whole
    omega

theorem readValueFromRawBlock_error_iff :
    readValueFromRawBlock codecs block col row = .error .error ↔
      NothingThere codecs block col row := by
  have covered_eq : block.take (block.length - 8) = covered block := rfl
  simp only [readValueFromRawBlock, NothingThere, covered_eq]
  by_cases long : block.length < 8
  · have unchecked : ¬ Checked codecs block := fun checked => absurd checked.1 (by omega)
    simp [long, unchecked]
  by_cases sealed : (codecs.xxh3 (covered block)).toNat = ofLe (block.drop (block.length - 8))
  · have checked : Checked codecs block := ⟨by omega, sealed⟩
    simp only [long, sealed, ne_eq, not_true_eq_false, ↓reduceIte, checked, false_or]
    by_cases header : (covered block).length < 27
    · simp only [header, ↓reduceIte, true_or]
    by_cases columns : ofLe (slice (covered block) 25 27) ≤ col
    · simp only [header, columns, ↓reduceIte, true_or, or_true]
    by_cases rows : ofLe (slice (covered block) 13 17) ≤ row
    · simp only [header, columns, rows, ↓reduceIte, true_or, or_true]
    have ended := @skimDescriptors_error_iff (covered block) col
      (ofLe (slice (covered block) 25 27)) ⟨0, 0, 0⟩
    simp only [header, columns, rows, ↓reduceIte, false_or, ← ended]
    obtain ⟨k, -, inside, before, cut, run⟩ | ⟨all, run⟩ := @skimDescriptors_cases
      (covered block) col (ofLe (slice (covered block) 25 27)) 0 ⟨0, 0, 0⟩
    · have short : ¬ ∀ j < ofLe (slice (covered block) 25 27), WholeAt (covered block) j :=
        fun whole => cut (whole k (by omega))
      rw [show skimDescriptors (covered block) col _ 0 27 ⟨0, 0, 0⟩ = _ from run]
      simp [short]
    · have inside : 0 ≤ col ∧ col < 0 + ofLe (slice (covered block) 25 27) := by omega
      have whole : ∀ j < ofLe (slice (covered block) 25 27), WholeAt (covered block) j :=
        fun j lt => all j (Nat.zero_le j) (by omega)
      rw [if_pos inside, zero_add] at run
      rw [show skimDescriptors (covered block) col _ 0 27 ⟨0, 0, 0⟩ = _ from run]
      rw [and_iff_right whole]
      simp [extractRow_error_iff (not_le.mp rows)]
  · have unchecked : ¬ Checked codecs block := fun checked => sealed checked.2
    simp [long, sealed, unchecked]

/-- A block whose checks are passed is deserialized, and its chunk lies where the raw read
looks. -/
theorem readThroughBlock_error_of_passes (short : block.length < 2 ^ 64)
    (passes : PassesBlockChecks block col)
    (refused : readThroughBlock codecs block col row = .error .error) :
    readValueFromRawBlock codecs block col row = .error .error := by
  by_cases checked : Checked codecs block
  · obtain ⟨header, rest, desc, read, magic, current, readable, room, at_col, chunk_end⟩ := passes
    generalize total_eq : (header.columnDescriptors.map compressedLen).sum = total at room chunk_end
    have deserialized : ∃ offsets stored, deserialize codecs block =
        some ⟨header, rest.take total, offsets, stored⟩ := by
      have version : ¬ (header.formatVersion < minReadable ∨
          currentWrite < header.formatVersion) := by omega
      have covered_eq : block.take (block.length - 8) = covered block := rfl
      have no_room : ¬ (rest.drop total).length < header.rowCount * 4 := by
        rw [length_drop]
        omega
      refine ⟨readOffsets header.rowCount (rest.drop total),
        ofLe (block.drop (block.length - 8)), ?_⟩
      simp only [deserialize, not_lt.mpr checked.1, covered_eq, checked.2, ne_eq,
        not_true_eq_false, ↓reduceIte, read, magic, version, total_eq,
        show ¬ rest.length < total by omega, no_room]
    obtain ⟨offsets, stored, deserialized⟩ := deserialized
    simp only [readThroughBlock, deserialized, readColumnRow, at_col] at refused
    obtain ⟨long, row_count, column_count, descs⟩ := fields_of_deserializeHeader read
    by_cases in_rows : header.rowCount ≤ row
    · exact readValueFromRawBlock_error_iff.mpr
        (.inr (.inr (.inr (.inl (by rw [← row_count]; exact in_rows)))))
    obtain ⟨len_lt, raw⟩ := readValueFromRawBlock_eq short checked read at_col (not_le.mp in_rows)
    simp only [in_rows, ↓reduceIte, length_take, min_eq_left
      (show total ≤ rest.length by omega), not_lt.mpr chunk_end] at refused
    by_cases wrapped : (desc.offset + desc.compressedLen) % 2 ^ 64 < desc.offset
    · simp only [wrapped, ↓reduceIte, Except.error.injEq, reduceCtorEq] at refused
    have plain : (desc.offset + desc.compressedLen) % 2 ^ 64 =
        desc.offset + desc.compressedLen := by omega
    rw [if_neg wrapped, plain] at refused
    have chunk : slice rest desc.offset (desc.offset + desc.compressedLen) =
        slice (rest.take total) desc.offset (desc.offset + desc.compressedLen) := by
      rw [slice_eq_take, slice_eq_take, drop_take, take_take, min_eq_left (by omega)]
    rw [raw (by omega), chunk]
    exact (decodeRow_error_iff (by omega)).mpr ((decodeRow_error_iff (by omega)).mp refused)
  · exact readValueFromRawBlock_error_iff.mpr (.inl checked)

theorem passes_of_readThroughBlock
    (accepted : readThroughBlock codecs block col row ≠ .error .error) :
    PassesBlockChecks block col := by
  rw [readThroughBlock] at accepted
  cases deserialized : deserialize codecs block with
  | none => simp [deserialized] at accepted
  | some b =>
    simp only [deserialized, readColumnRow] at accepted
    have covered_eq : block.take (block.length - 8) = covered block := rfl
    simp only [deserialize, covered_eq] at deserialized
    by_cases long : block.length < 8
    · simp [long] at deserialized
    by_cases sealed : (codecs.xxh3 (covered block)).toNat = ofLe (block.drop (block.length - 8))
    · cases read : deserializeHeader (covered block) with
      | none => simp [long, sealed, read] at deserialized
      | some parsed =>
        obtain ⟨header, rest⟩ := parsed
        simp only [long, sealed, read, ne_eq, not_true_eq_false, ↓reduceIte] at deserialized
        by_cases magic : header.magic = paxMagic
        · by_cases version : header.formatVersion < minReadable ∨
              currentWrite < header.formatVersion
          · simp [magic, version] at deserialized
          by_cases columns : rest.length < (header.columnDescriptors.map compressedLen).sum
          · simp [magic, version, columns] at deserialized
          by_cases offsets : (rest.drop (header.columnDescriptors.map compressedLen).sum).length <
              header.rowCount * 4
          · simp only [magic, version, columns, offsets, not_true_eq_false, ↓reduceIte,
              reduceCtorEq] at deserialized
          simp only [magic, version, columns, offsets, not_true_eq_false, ↓reduceIte,
            some.injEq] at deserialized
          subst deserialized
          cases at_col : header.columnDescriptors[col]? with
          | none => simp [at_col] at accepted
          | some desc =>
            rw [length_drop] at offsets
            refine ⟨header, rest, desc, read, magic, by omega, by omega, by omega, at_col, ?_⟩
            by_contra behind
            have past : (rest.take (header.columnDescriptors.map compressedLen).sum).length <
                (desc.offset + desc.compressedLen) % 2 ^ 64 := by
              rw [length_take]
              omega
            simp only [at_col, past, ↓reduceIte, ite_self, ne_eq, not_true_eq_false] at accepted
        · simp [magic] at deserialized
    · simp [long, sealed] at deserialized

/-- Where the full read is refused the raw read is too, unless one of the checks that it leaves
out fails and there is something to be read all the same. -/
theorem refused_alike_iff (short : block.length < 2 ^ 64) :
    (readThroughBlock codecs block col row = .error .error →
      readValueFromRawBlock codecs block col row = .error .error) ↔
      PassesBlockChecks block col ∨ NothingThere codecs block col row := by
  constructor
  · intro alike
    by_cases refused : readThroughBlock codecs block col row = .error .error
    · exact .inr (readValueFromRawBlock_error_iff.mp (alike refused))
    · exact .inl (passes_of_readThroughBlock refused)
  · rintro (passes | nothing) refused
    · exact readThroughBlock_error_of_passes short passes refused
    · exact readValueFromRawBlock_error_iff.mpr nothing

end ForeignBlocks

/-- The three reads agree on a row of a written block exactly where its column is not packed, has
one row, its stored differences add up to the value or its embeddings can be rebuilt; and what the
full read refuses the raw read does exactly where the bytes pass the checks that it leaves out or
have no such row. -/
theorem raw_read_agrees_iff {codecs : WriteCodecs} (lossless : codecs.Lossless) :
    (∀ blockId commitTimestamp columns codecIds block, HasRoom codecs columns codecIds →
      writeWithCodecs codecs blockId commitTimestamp columns codecIds = .ok block →
      ∀ (i row : Nat) col codec, columns[i]? = some col → codecIds[i]? = some codec →
        col.RightWidth → row < col.values.length →
        (ReadsAgree codecs.toCodecs (serialize block) i row ↔
          codec ≠ .fastPFor ∨ col.values.length = 1 ∨
            col.colType.packedWidth.isSome ∧ SumsTo col row ∨ Rebuilds col) ∧
        (col.colType.packedWidth = none →
          readValueFromRawBlock codecs.toCodecs (serialize block) i row =
            readThroughBlock codecs.toCodecs (serialize block) i row)) ∧
    ∀ (bytes : Bytes) (col row : Nat), bytes.length < 2 ^ 64 →
      ((readThroughBlock codecs.toCodecs bytes col row = .error .error →
        readValueFromRawBlock codecs.toCodecs bytes col row = .error .error) ↔
        PassesBlockChecks bytes col ∨ NothingThere codecs.toCodecs bytes col row) := by
  refine ⟨?_, fun bytes col row short => refused_alike_iff short⟩
  intro blockId commitTimestamp columns codecIds block room run i row col codec at_i codec_at
    width in_rows
  exact (room.writtenFrom run).reads_agree_iff lossless room at_i codec_at width in_rows

/-- Two embeddings of one dimension, packed. -/
def packedEmbeddings : List ColumnData := [⟨.embedding 1, [[1, 2, 3, 4], [5, 6, 7, 8]]⟩]

theorem hasRoom_packedEmbeddings : HasRoom markingCodecs packedEmbeddings [.fastPFor] where
  columns_ne := by decide
  codecs_each := rfl
  same_rows := by decide
  dims := by simp [packedEmbeddings]
  column_count := by decide
  row_count := by decide
  value_bytes := by decide
  chunk_bytes := by
    intro p mem data compressed
    simp only [packedEmbeddings, zip_cons_cons, zip_nil_left, mem_singleton] at mem
    obtain rfl := mem
    obtain rfl := Except.ok.inj compressed
    decide +kernel

theorem raw_read_agrees_on_samples :
    (∃ block, writeWithCodecs markingCodecs 7 9 sampleColumns sampleCodecs = .ok block ∧
      ReadsAgree markingCodecs.toCodecs (serialize block) 1 0) ∧
    (∃ block, writeWithCodecs markingCodecs 7 9 packedEmbeddings [.fastPFor] = .ok block ∧
      ReadsAgree markingCodecs.toCodecs (serialize block) 0 1) ∧
    (readThroughBlock markingCodecs.toCodecs [] 0 0 = .error .error →
      readValueFromRawBlock markingCodecs.toCodecs [] 0 0 = .error .error) := by
  obtain ⟨written, foreign⟩ := raw_read_agrees_iff lossless_markingCodecs
  refine ⟨?_, ?_, ?_⟩
  · obtain ⟨block, run, -⟩ :=
      @Writable.written _ _ _ 7 9 lossless_markingCodecs writable_sampleColumns
    have agree := (written 7 9 _ _ block writable_sampleColumns.toHasRoom run 1 0 _ _ rfl rfl
      (by rintro width ⟨⟩) (by decide)).1
    exact ⟨block, run, agree.mpr (.inl (by decide))⟩
  · refine ⟨_, rfl, ?_⟩
    have agree := (written 7 9 _ _ _ hasRoom_packedEmbeddings rfl 0 1 _ _ rfl rfl
      (by rintro width ⟨⟩; decide) (by decide)).1
    refine agree.mpr (.inr (.inr (.inr ⟨1, [1, 2, 3, 4], rfl, rfl, by decide, ?_⟩)))
    exact ⟨4, [1, 2, 3, 4, 0], rfl, by decide, .inr ⟨0, [], rfl, .inl rfl⟩⟩
  · exact (foreign [] 0 0 (by decide)).mpr (.inr (.inl fun checked => absurd checked.1 (by decide)))

/-- Two bytes stored as packed differences. -/
def packedPair : List ColumnData := [⟨.uint8, [[5], [7]]⟩]

/-- A block of one uncompressed value under another magic number. -/
def foreignBlock : Bytes :=
  let body := blockBytes ⟨0, 1, 1, 1, 1, 1, [⟨.blob, .none, 0, 5, [], []⟩]⟩ [1, 0, 0, 0, 9] [0]
  body ++ toLe 8 (markingCodecs.xxh3 body).toNat

/-- The raw read of a packed cell, which the whole block holds, answers zero. -/
theorem packed_row_is_read_as_zero :
    (∃ block, writeWithCodecs markingCodecs 1 1 packedPair [.fastPFor] = .ok block ∧
      readColumnRow markingCodecs.toCodecs block 0 0 = .ok [5] ∧
      readValueFromRawBlock markingCodecs.toCodecs (serialize block) 0 0 = .ok [0]) ∧
    readThroughBlock markingCodecs.toCodecs foreignBlock 0 0 = .error .error ∧
    readValueFromRawBlock markingCodecs.toCodecs foreignBlock 0 0 = .ok [9] :=
  ⟨⟨_, rfl, by decide +kernel, by decide +kernel⟩, by decide +kernel, by decide +kernel⟩

end GalaxDb.PaxBytes
