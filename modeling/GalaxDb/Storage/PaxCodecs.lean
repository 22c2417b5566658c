import GalaxDb.Lib.Bits
import GalaxDb.Storage.PaxWrite

/-!
# Column codecs invert

Packed differences are one number whose digits they are, written and read bit by bit. Every
codec gives back the values that it was given, provided they have the width of their type.
-/

namespace GalaxDb.PaxBytes

open Bytes List

theorem packBits_spec {fuel value remaining bit : Nat} {output : Bytes} (enough : remaining ≤ fuel)
    (room : bit + remaining ≤ 8 * output.length) (free : ofLe output < 2 ^ bit) :
    ofLe (packBits fuel output value remaining bit) =
        ofLe output + value % 2 ^ remaining * 2 ^ bit ∧
      (packBits fuel output value remaining bit).length = output.length := by
  induction fuel generalizing value remaining bit output with
  | zero =>
    obtain rfl : remaining = 0 := by omega
    simp [packBits, Nat.mod_one]
  | succ fuel ih =>
    rw [packBits]
    by_cases none : remaining = 0
    · subst none
      simp [Nat.mod_one]
    · rw [if_neg none]
      generalize taken_eq : min remaining (8 - bit % 8) = taken
      have small : value % 2 ^ taken < 2 ^ taken := Nat.mod_lt _ (Nat.two_pow_pos taken)
      have written := ofLe_or_bits (by omega) free small (by omega)
      have next_free : ofLe output + value % 2 ^ taken * 2 ^ bit < 2 ^ (bit + taken) := by
        calc ofLe output + value % 2 ^ taken * 2 ^ bit
            < 2 ^ bit + value % 2 ^ taken * 2 ^ bit := by omega
          _ = (value % 2 ^ taken + 1) * 2 ^ bit := by ring
          _ ≤ 2 ^ taken * 2 ^ bit := Nat.mul_le_mul_right _ small
          _ = 2 ^ (bit + taken) := by rw [pow_add, mul_comm]
      obtain ⟨number, length⟩ := @ih (value / 2 ^ taken) (remaining - taken) (bit + taken)
        (output.modify (bit / 8) (· ||| UInt8.ofNat (value % 2 ^ taken * 2 ^ (bit % 8))))
        (by omega) (by rw [length_modify]; omega) (by rw [written]; exact next_free)
      refine ⟨?_, by rw [length, length_modify]⟩
      have split : value % 2 ^ remaining =
          value % 2 ^ taken + 2 ^ taken * (value / 2 ^ taken % 2 ^ (remaining - taken)) := by
        rw [← Nat.mod_mul, ← pow_add, Nat.add_sub_cancel' (by omega)]
      rw [number, written, split, pow_add]
      ring

theorem unpackBits_spec {data : Bytes} {fuel remaining bit shift value : Nat}
    (enough : remaining ≤ fuel) (within : bit + remaining ≤ 8 * data.length)
    (fits : shift + remaining ≤ 64) (low : value < 2 ^ shift) :
    unpackBits data fuel remaining bit shift value =
      value + ofLe data / 2 ^ bit % 2 ^ remaining * 2 ^ shift := by
  induction fuel generalizing remaining bit shift value with
  | zero =>
    obtain rfl : remaining = 0 := by omega
    simp [unpackBits, Nat.mod_one]
  | succ fuel ih =>
    rw [unpackBits]
    by_cases none : remaining = 0
    · subst none
      simp [Nat.mod_one]
    · rw [if_neg none]
      generalize taken_eq : min remaining (8 - bit % 8) = taken
      obtain ⟨byte, at_byte⟩ : ∃ byte, data[bit / 8]? = some byte :=
        ⟨_, getElem?_eq_getElem (by omega)⟩
      have piece := bits_of_byte at_byte (show bit % 8 + taken ≤ 8 by omega)
      simp only [at_byte, ← piece]
      generalize read : ofLe data / 2 ^ bit % 2 ^ taken = extracted
      have small : extracted < 2 ^ taken := by
        rw [← read]
        exact Nat.mod_lt _ (Nat.two_pow_pos taken)
      have in_word : extracted * 2 ^ shift < 2 ^ (shift + taken) := by
        rw [pow_add, mul_comm]
        exact (Nat.mul_lt_mul_left (Nat.two_pow_pos shift)).mpr small
      have word : 2 ^ (shift + taken) ≤ 2 ^ 64 := Nat.pow_le_pow_right (by omega) (by omega)
      have joined : value ||| extracted * 2 ^ (shift % 64) % 2 ^ 64 =
          value + extracted * 2 ^ shift := by
        rw [Nat.mod_eq_of_lt (a := shift) (by omega),
          Nat.mod_eq_of_lt (lt_of_lt_of_le in_word word),
          Nat.or_comm, mul_comm, ← Nat.two_pow_add_eq_or_of_lt low, add_comm]
      have next_low : value + extracted * 2 ^ shift < 2 ^ (shift + taken) := by
        calc value + extracted * 2 ^ shift < 2 ^ shift + extracted * 2 ^ shift := by omega
          _ = (extracted + 1) * 2 ^ shift := by ring
          _ ≤ 2 ^ taken * 2 ^ shift := Nat.mul_le_mul_right _ small
          _ = 2 ^ (shift + taken) := by rw [pow_add, mul_comm]
      rw [joined, ih (by omega) (by omega) (by omega) next_low]
      have split : ofLe data / 2 ^ bit % 2 ^ remaining =
          extracted + 2 ^ taken * (ofLe data / 2 ^ (bit + taken) % 2 ^ (remaining - taken)) := by
        rw [← read, pow_add 2 bit, ← Nat.div_div_eq_div_mul, ← Nat.mod_mul, ← pow_add,
          Nat.add_sub_cancel' (by omega)]
      rw [split, pow_add]
      ring

variable {values : List Nat} {bits : Nat}

theorem packValues_spec {offset : Nat} {output : Bytes} (width : bits ≤ 64)
    (small : ∀ value ∈ values, value < 2 ^ bits)
    (room : offset + values.length * bits ≤ 8 * output.length) (free : ofLe output < 2 ^ offset) :
    ofLe (packValues bits values output offset) =
        ofLe output + Nat.ofDigits (2 ^ bits) values * 2 ^ offset ∧
      (packValues bits values output offset).length = output.length := by
  induction values generalizing offset output with
  | nil => simp [packValues]
  | cons value rest ih =>
    have first : value % 2 ^ min bits 64 % 2 ^ bits = value := by
      rw [min_eq_left width, Nat.mod_mod, Nat.mod_eq_of_lt (small value (by simp))]
    have room' : offset + bits + rest.length * bits ≤ 8 * output.length := by
      have whole : (value :: rest).length * bits = bits + rest.length * bits := by
        rw [length_cons]
        ring
      omega
    obtain ⟨number, length⟩ := @packBits_spec bits (value % 2 ^ min bits 64) bits offset output
      (le_refl bits) (by omega) free
    rw [first] at number
    have next_free : ofLe (packBits bits output (value % 2 ^ min bits 64) bits offset) <
        2 ^ (offset + bits) := by
      rw [number]
      calc ofLe output + value * 2 ^ offset < 2 ^ offset + value * 2 ^ offset := by omega
        _ = (value + 1) * 2 ^ offset := by ring
        _ ≤ 2 ^ bits * 2 ^ offset := Nat.mul_le_mul_right _ (small value (by simp))
        _ = 2 ^ (offset + bits) := by rw [pow_add, mul_comm]
    obtain ⟨rest_number, rest_length⟩ := ih (fun v hv => small v (by simp [hv]))
      (by rw [length]; exact room') next_free
    rw [packValues, rest_number, rest_length, length, number, Nat.ofDigits_cons, pow_add]
    exact ⟨by ring, rfl⟩

theorem digit_eq {base i : Nat} (positive : 0 < base) (small : ∀ value ∈ values, value < base)
    (h : i < values.length) : Nat.ofDigits base values / base ^ i % base = values[i] := by
  rw [Nat.ofDigits_div_pow_eq_ofDigits_drop i positive values small,
    drop_eq_getElem_cons h, Nat.ofDigits_cons, Nat.add_mul_mod_self_left,
    Nat.mod_eq_of_lt (small _ (getElem_mem h))]

theorem bitpackDecode_bitpackEncode (positive : 0 < bits) (width : bits ≤ 64)
    (small : ∀ value ∈ values, value < 2 ^ bits) :
    bitpackDecode (bitpackEncode values bits) bits values.length = values := by
  by_cases empty : values = []
  · subst empty
    simp [bitpackDecode]
  · have start : ofLe (List.replicate ((values.length * bits + 7) / 8) 0) < 2 ^ 0 := by simp
    obtain ⟨number, length⟩ := packValues_spec width small (by rw [length_replicate]; omega) start
    rw [bitpackEncode, if_neg (by simp [empty]; omega), bitpackDecode, if_neg (by omega)]
    refine ext_getElem (by simp) fun i _ h => ?_
    have inside : i * bits + bits ≤ values.length * bits := by
      calc i * bits + bits = (i + 1) * bits := by ring
        _ ≤ values.length * bits := Nat.mul_le_mul_right _ h
    have read := @unpackBits_spec
      (packValues bits values (List.replicate ((values.length * bits + 7) / 8) 0) 0) bits bits
      (i * bits) 0 0 (le_refl bits) (by rw [length, length_replicate]; omega) (by omega)
      (by simp)
    rw [getElem_map, getElem_range, read, number, min_eq_left width,
      ofLe_replicate_zero, mul_comm i, pow_mul]
    simp only [zero_add, pow_zero, mul_one, Nat.mod_mod]
    exact digit_eq (Nat.two_pow_pos bits) small h

section Deltas

variable {signed : Bool}

theorem delta_lt (prev next : Nat) : delta signed prev next < 2 ^ 64 := by
  have word : (next + (2 ^ 64 - prev)) % 2 ^ 64 < 2 ^ 64 := Nat.mod_lt _ (Nat.two_pow_pos 64)
  cases signed with
  | false => simpa [delta] using word
  | true =>
    simp only [delta, zigzagEncode, ↓reduceIte]
    split <;> omega

theorem applyDelta_delta {prev next : Nat} (hp : prev < 2 ^ 64) (hn : next < 2 ^ 64) :
    applyDelta signed prev (delta signed prev next) = next := by
  cases signed with
  | false =>
    simp only [applyDelta, delta, Bool.false_eq_true, ↓reduceIte]
    omega
  | true =>
    simp only [applyDelta, delta, zigzagEncode, ↓reduceIte]
    generalize diff_eq : (next + (2 ^ 64 - prev)) % 2 ^ 64 = diff
    by_cases low : diff < 2 ^ 63
    · have even : 2 * diff % 2 = 0 := by omega
      simp only [low, ↓reduceIte, even]
      omega
    · have odd : (2 * (2 ^ 64 - diff) - 1) % 2 ≠ 0 := by omega
      simp only [low, ↓reduceIte, odd]
      omega

@[simp] theorem length_deltas (signed : Bool) (v : Nat) (rest : List Nat) :
    (deltas signed (v :: rest)).length = rest.length := by
  induction rest generalizing v with
  | nil => rfl
  | cons w rest ih => simp [deltas, ih]

theorem deltas_lt {values : List Nat} : ∀ d ∈ deltas signed values, d < 2 ^ 64 := by
  induction values with
  | nil => simp [deltas]
  | cons v rest ih =>
    cases rest with
    | nil => simp [deltas]
    | cons w rest =>
      intro d hd
      simp only [deltas, mem_cons] at hd
      obtain rfl | later := hd
      · exact delta_lt v w
      · exact ih d later

theorem undelta_deltas {v : Nat} {rest : List Nat} (word : ∀ x ∈ v :: rest, x < 2 ^ 64) :
    undelta signed v (deltas signed (v :: rest)) = v :: rest := by
  induction rest generalizing v with
  | nil => rfl
  | cons w rest ih =>
    have next := @applyDelta_delta signed v w (word v (by simp)) (word w (by simp))
    rw [deltas, undelta, next, ih fun x hx => word x (mem_cons_of_mem v hx)]

variable {l : List Nat}

theorem le_foldl_max (start : Nat) :
    start ≤ l.foldl max start ∧ ∀ d ∈ l, d ≤ l.foldl max start := by
  induction l generalizing start with
  | nil => simp
  | cons d l ih =>
    obtain ⟨first, rest⟩ := ih (max start d)
    refine ⟨le_trans (le_max_left _ _) first, fun x hx => ?_⟩
    obtain rfl | later := mem_cons.mp hx
    · exact le_trans (le_max_right _ _) first
    · exact rest x later

theorem foldl_max_lt {bound start : Nat} {l : List Nat} (hs : start < bound)
    (hl : ∀ d ∈ l, d < bound) : l.foldl max start < bound := by
  induction l generalizing start with
  | nil => exact hs
  | cons d l ih =>
    exact ih (max_lt hs (hl d (by simp))) fun x hx => hl x (by simp [hx])

theorem maxBits_le (word : ∀ d ∈ l, d < 2 ^ 64) : maxBits l ≤ 64 := by
  have bound := foldl_max_lt (Nat.two_pow_pos 64) word
  rw [maxBits]
  split
  · omega
  · next some => exact (Nat.log2_lt some).mpr bound

theorem lt_of_maxBits : ∀ d ∈ l, d < 2 ^ maxBits l := by
  intro d hd
  have below := (le_foldl_max (l := l) 0).2 d hd
  rw [maxBits]
  split
  · omega
  · exact lt_of_le_of_lt below Nat.lt_log2_self

end Deltas

section FixedWidth

variable {colType : ColumnType} {width : Nat}

theorem byteSize_of_packedWidth (packed : colType.packedWidth = some width) :
    colType.byteSize = some width := by
  cases colType <;> simp_all [ColumnType.packedWidth, ColumnType.byteSize]

theorem packedWidth_bounds (packed : colType.packedWidth = some width) : 0 < width ∧ width ≤ 8 := by
  cases colType <;> simp only [ColumnType.packedWidth, Option.some.injEq, reduceCtorEq] at packed
    <;> omega

variable {value : Bytes}

theorem bytesToU64_eq (packed : colType.packedWidth = some width)
    (exact_width : value.length = width) : bytesToU64 colType value = ofLe value := by
  have whole : value.take width = value := take_of_length_le exact_width.le
  simp only [bytesToU64, packed, exact_width, lt_irrefl, ↓reduceIte, whole]

theorem bytesToU64_lt (packed : colType.packedWidth = some width)
    (exact_width : value.length = width) : bytesToU64 colType value < 2 ^ 64 := by
  have small := ofLe_lt value
  have word : 256 ^ value.length ≤ 256 ^ 8 :=
    Nat.pow_le_pow_right (by omega) (by rw [exact_width]; exact (packedWidth_bounds packed).2)
  rw [bytesToU64_eq packed exact_width]
  exact lt_of_lt_of_le small (by simpa using word)

theorem u64ToBytes_bytesToU64 (packed : colType.packedWidth = some width)
    (exact_width : value.length = width) :
    u64ToBytes colType (bytesToU64 colType value) width = .ok value := by
  rw [bytesToU64_eq packed exact_width]
  simp only [u64ToBytes, packed, toLe_eq_of_length exact_width]

theorem mapM_u64ToBytes {values : List Bytes} (packed : colType.packedWidth = some width)
    (widths : ∀ value ∈ values, value.length = width) :
    (values.map (bytesToU64 colType)).mapM (u64ToBytes colType · width) = .ok values := by
  induction values with
  | nil => rfl
  | cons value rest ih =>
    have first := u64ToBytes_bytesToU64 packed (widths value (by simp))
    have later := ih fun v hv => widths v (by simp [hv])
    simp only [map_cons, mapM_cons, first, later]
    rfl

end FixedWidth

section Codecs

variable {codecs : WriteCodecs} {values : List Bytes} {colType : ColumnType} {col : ColumnData}
  {codec : CodecId}

theorem lengthPrefixed_compressNone (rest : Bytes) (short :
    ∀ value ∈ values, value.length < 2 ^ 32) :
    lengthPrefixed values.length (compressNone values ++ rest) = .ok values := by
  induction values with
  | nil => rfl
  | cons value later ih =>
    have len : ofLe (toLe 4 value.length) = value.length :=
      ofLe_toLe_of_lt (short value (by simp))
    have tail := ih fun v hv => short v (by simp [hv])
    have front : compressNone (value :: later) ++ rest =
        toLe 4 value.length ++ (value ++ (compressNone later ++ rest)) := by
      simp [compressNone]
    have enough : ¬ (toLe 4 value.length ++ (value ++ (compressNone later ++ rest))).length <
        4 := by
      simp
    rw [front, length_cons, lengthPrefixed, if_neg enough,
      take_left' (toLe_length 4 _), drop_left' (toLe_length 4 _), len]
    simp only [length_append, not_lt.mpr (Nat.le_add_right _ _), ↓reduceIte,
      take_left, drop_left, tail, Except.map]

variable {data : Bytes} {width : Nat}

theorem toNat_width (at_most : width ≤ 8) : (UInt8.ofNat width).toNat = width := by
  rw [UInt8.toNat_ofNat', Nat.mod_eq_of_lt (by omega)]

/-- One value is stored as it is, whatever type it is read as. -/
theorem decompressFastPFor_single {colType readAs : ColumnType} {width : Nat} {value data : Bytes}
    (packed : colType.packedWidth = some width) (exact_width : value.length = width)
    (compressed : compressFastPFor colType [value] = .ok data) :
    decompressFastPFor readAs data 1 = .ok [value] := by
  rw [compressFastPFor, byteSize_of_packedWidth packed] at compressed
  obtain rfl := Except.ok.inj compressed
  simp only [decompressFastPFor, toNat_width (packedWidth_bounds packed).2, length_append,
    exact_width, not_lt.mpr (Nat.le_add_right _ _), ↓reduceIte, take_left' exact_width,
    Nat.one_ne_zero]

/-- Two or more values are rebuilt from the differences that were stored, in the arithmetic of
the type they are read as. -/
theorem decompressFastPFor_many {readAs : ColumnType} {first second : Bytes} {rest : List Bytes}
    (packed : colType.packedWidth = some width) (first_width : first.length = width)
    (compressed : compressFastPFor colType (first :: second :: rest) = .ok data)
    (short : data.length < 2 ^ 32) :
    decompressFastPFor readAs data (first :: second :: rest).length =
      (undelta readAs.isSigned (bytesToU64 readAs first) (deltas colType.isSigned
        ((first :: second :: rest).map (bytesToU64 colType)))).mapM (u64ToBytes readAs · width) :=
          by
  have width_byte := toNat_width (packedWidth_bounds packed).2
  rw [compressFastPFor, byteSize_of_packedWidth packed] at compressed
  obtain rfl := Except.ok.inj compressed
  generalize deltas_eq :
    deltas colType.isSigned ((first :: second :: rest).map (bytesToU64 colType)) = ds at short
  have count : ds.length = rest.length + 1 := by
    rw [← deltas_eq, map_cons, length_deltas, length_map, length_cons]
  have word : ∀ d ∈ ds, d < 2 ^ 64 := by
    rw [← deltas_eq]
    exact deltas_lt
  have bits_le : maxBits ds ≤ 64 := maxBits_le word
  have bits_byte : (UInt8.ofNat (maxBits ds)).toNat = maxBits ds := by
    rw [UInt8.toNat_ofNat', Nat.mod_eq_of_lt (by omega)]
  have zero_iff : UInt8.ofNat (maxBits ds) = 0 ↔ maxBits ds = 0 := by
    rw [← UInt8.toNat_inj, bits_byte]
    rfl
  have many : (first :: second :: rest).length - 1 = ds.length := by simp [count]
  simp only [decompressFastPFor, width_byte, length_append, first_width,
    not_lt.mpr (Nat.le_add_right _ _), ↓reduceIte, take_left' first_width,
    drop_left' first_width, many, zero_iff, bits_byte]
  by_cases none : maxBits ds = 0
  · have zeros : List.replicate ds.length 0 = ds := by
      refine (eq_replicate_iff.mpr ⟨rfl, fun d hd => ?_⟩).symm
      have small := lt_of_maxBits d hd
      rw [none] at small
      omega
    simp only [none, ↓reduceIte, zeros]
    rfl
  · have some : 0 < maxBits ds ∧ ds ≠ [] := by
      refine ⟨pos_of_ne_zero none, ?_⟩
      rintro rfl
      simp at count
    have len : ofLe (toLe 4 (bitpackEncode ds (maxBits ds)).length) =
        (bitpackEncode ds (maxBits ds)).length := by
      refine ofLe_toLe_of_lt ?_
      simp only [some, and_self, ↓reduceIte, length_cons, length_append,
        ne_eq, not_false_eq_true] at short
      omega
    have decoded := bitpackDecode_bitpackEncode some.1 bits_le lt_of_maxBits
    simp only [none, ↓reduceIte, some, and_self, ne_eq, not_false_eq_true,
      take_left' (toLe_length 4 _), drop_left' (toLe_length 4 _), len,
      length_append, toLe_length, not_lt.mpr (Nat.le_add_right _ _),
      lt_irrefl, take_length, decoded]
    rfl

theorem decompressFastPFor_compressFastPFor (packed : colType.packedWidth = some width)
    (widths : ∀ value ∈ values, value.length = width)
    (compressed : compressFastPFor colType values = .ok data) (short : data.length < 2 ^ 32) :
    decompressFastPFor colType data values.length = .ok values := by
  match values with
  | [] =>
    rw [compressFastPFor, byteSize_of_packedWidth packed] at compressed
    obtain rfl := Except.ok.inj compressed
    simp [decompressFastPFor]
  | [value] => exact decompressFastPFor_single packed (widths value (by simp)) compressed
  | first :: second :: rest =>
    have numbers : undelta colType.isSigned (bytesToU64 colType first) (deltas colType.isSigned
        ((first :: second :: rest).map (bytesToU64 colType))) =
        (first :: second :: rest).map (bytesToU64 colType) := by
      refine undelta_deltas fun x hx => ?_
      rw [← map_cons] at hx
      obtain ⟨value, mem, rfl⟩ := mem_map.mp hx
      exact bytesToU64_lt packed (widths value mem)
    rw [decompressFastPFor_many packed (widths first (by simp)) compressed short, numbers]
    exact mapM_u64ToBytes packed widths

/-- What was compressed is there again after decompression. -/
def WriteCodecs.Lossless (codecs : WriteCodecs) : Prop :=
  ∀ raw, ∃ compressed, codecs.zstdEncode raw = some compressed ∧
    codecs.zstdDecode compressed = some raw

/-- Values of the width of their type under a codec that the type allows. -/
structure ColumnData.Sound (col : ColumnData) (codec : CodecId) : Prop where
  widths : ∀ width, col.colType.packedWidth = some width → ∀ v ∈ col.values, v.length = width
  packed : codec = .fastPFor → col.colType.packedWidth.isSome

theorem compress_isOk (lossless : codecs.Lossless) (sound : col.Sound codec) :
    ∃ data, compress codecs col.colType codec col.values = .ok data := by
  cases codec with
  | none => exact ⟨_, rfl⟩
  | fastPFor =>
    obtain ⟨width, packed⟩ := Option.isSome_iff_exists.mp (sound.packed rfl)
    simp only [compress, compressFastPFor, byteSize_of_packedWidth packed]
    cases col.values with
    | nil => exact ⟨_, rfl⟩
    | cons first rest => exact ⟨_, rfl⟩
  | zstd =>
    obtain ⟨compressed, encoded, -⟩ := lossless (compressNone col.values)
    simp only [compress, encoded]
    exact ⟨_, rfl⟩

theorem decompress_compress (lossless : codecs.Lossless) (sound : col.Sound codec)
    (short : ∀ v ∈ col.values, v.length < 2 ^ 32)
    (compressed : compress codecs col.colType codec col.values = .ok data)
    (fits : data.length < 2 ^ 32) :
    decompress codecs.toCodecs col.colType codec data col.values.length = .ok col.values := by
  have prefixed := lengthPrefixed_compressNone [] short
  rw [append_nil] at prefixed
  cases codec with
  | none =>
    obtain rfl := Except.ok.inj compressed
    exact prefixed
  | fastPFor =>
    obtain ⟨width, packed⟩ := Option.isSome_iff_exists.mp (sound.packed rfl)
    exact decompressFastPFor_compressFastPFor packed (sound.widths width packed) compressed fits
  | zstd =>
    obtain ⟨packed, encoded, decoded⟩ := lossless (compressNone col.values)
    simp only [compress, encoded, Except.ok.injEq] at compressed
    subst compressed
    have enough : ¬ (toLe 4 (compressNone col.values).length ++ packed).length < 4 := by simp
    simp only [decompress, enough, ↓reduceIte, drop_left' (toLe_length 4 _), decoded, prefixed]

end Codecs

end GalaxDb.PaxBytes
