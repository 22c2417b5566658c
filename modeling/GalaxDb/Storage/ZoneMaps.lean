import GalaxDb.Lib.OrderedKeys
import GalaxDb.Storage.PaxRoundTrip
import GalaxDb.Storage.ScanMerge

/-!
# What a zone map rules out

The comparable bytes of integers order them as numbers, so that the least and the greatest
stored value bound every cell of a column. The placeholder of a NULL slot counts among the
stored values, and an empty bound counts as an empty column.
-/

namespace Bytes

/-- Turned round, little-endian bytes are the number's big-endian ones. -/
theorem reverse_eq_toBe (l : Bytes) : l.reverse = toBe l.length (ofLe l) := by
  induction l with
  | nil => rfl
  | cons b l ih =>
    have low := b.toNat_lt
    have rest : (b.toNat + 256 * ofLe l) / 256 = ofLe l := by omega
    have last : (b.toNat + 256 * ofLe l) % 256 = b.toNat := by omega
    rw [List.reverse_cons, ih, List.length_cons, toBe_snoc, ofLe, rest, last, UInt8.ofNat_toNat]

variable {a b : Bytes} {w : Nat}

theorem compare_reverse (same : a.length = b.length) :
    compare a.reverse b.reverse = compare (ofLe a) (ofLe b) := by
  have hb := ofLe_lt b
  rw [← same] at hb
  rw [reverse_eq_toBe, reverse_eq_toBe, ← same, compare_toBe (ofLe_lt a) hb]

/-- Two's complement. -/
def toSigned (l : Bytes) : Int :=
  if 2 * ofLe l < 256 ^ l.length then ofLe l else (ofLe l : Int) - 256 ^ l.length

/-- The most significant byte first, its sign bit flipped. -/
def flipSign (l : Bytes) : Bytes :=
  match l.reverse with
  | [] => []
  | top :: rest => (top ^^^ 0x80) :: rest

theorem toNat_xor_sign (b : UInt8) : (b ^^^ 0x80).toNat = (b.toNat + 128) % 256 := by
  have all : ∀ n : Fin 256, n.val ^^^ 128 = (n.val + 128) % 256 := by decide +kernel
  exact all ⟨b.toNat, b.toNat_lt⟩

theorem flipSign_eq {l : Bytes} (width : l.length = w + 1) :
    flipSign l = toBe (w + 1) ((ofLe l + 128 * 256 ^ w) % 256 ^ (w + 1)) := by
  have positive : 0 < 256 ^ w := Nat.pow_pos (by decide)
  have top : (ofLe l + 128 * 256 ^ w) / 256 ^ w = ofLe l / 256 ^ w + 128 :=
    Nat.add_mul_div_right _ _ positive
  have low : toBe w (ofLe l + 128 * 256 ^ w) = toBe w (ofLe l) := by
    rw [← toBe_mod, Nat.add_mul_mod_self_right, toBe_mod]
  have flipped : UInt8.ofNat (ofLe l / 256 ^ w % 256) ^^^ 0x80 =
      UInt8.ofNat ((ofLe l / 256 ^ w + 128) % 256) := by
    rw [← UInt8.toNat_inj, toNat_xor_sign, UInt8.toNat_ofNat', UInt8.toNat_ofNat']
    omega
  rw [flipSign, reverse_eq_toBe, width, toBe_mod, toBe, toBe, top, low]
  exact congrArg (· :: toBe w (ofLe l)) flipped

theorem compare_flipSign (ha : a.length = w + 1) (hb : b.length = w + 1) :
    compare (flipSign a) (flipSign b) = compare (toSigned a) (toSigned b) := by
  have positive : 0 < 256 ^ (w + 1) := Nat.pow_pos (by decide)
  have half : 256 ^ (w + 1) = 2 * (128 * 256 ^ w) := by
    omega
  have shifted (l : Bytes) (width : l.length = w + 1) :
      (((ofLe l + 128 * 256 ^ w) % 256 ^ (w + 1) : Nat) : Int) =
        toSigned l + (128 * 256 ^ w : Nat) := by
    have small := ofLe_lt l
    rw [width] at small
    rw [toSigned, width]
    have power : ((256 : Int) ^ (w + 1)) = ((256 ^ (w + 1) : Nat) : Int) := by rfl
    rw [power, half]
    rw [half] at small
    generalize 128 * 256 ^ w = h at small
    by_cases low : 2 * ofLe l < 2 * h
    · rw [if_pos low, Nat.mod_eq_of_lt (by omega)]
      omega
    · rw [if_neg low, show ofLe l + h = ofLe l - h + 2 * h by omega, Nat.add_mod_right,
        Nat.mod_eq_of_lt (by omega)]
      omega
  rw [flipSign_eq ha, flipSign_eq hb, compare_toBe (Nat.mod_lt _ positive) (Nat.mod_lt _ positive)]
  have left := shifted a ha
  have right := shifted b hb
  generalize (ofLe a + 128 * 256 ^ w) % 256 ^ (w + 1) = m at left
  generalize (ofLe b + 128 * 256 ^ w) % 256 ^ (w + 1) = n at right
  rcases Nat.lt_trichotomy m n with below | same | above
  · rw [Nat.compare_eq_lt.mpr below, eq_comm, Int.compare_eq_lt]
    omega
  · rw [Nat.compare_eq_eq.mpr same, eq_comm, Int.compare_eq_eq]
    omega
  · rw [Nat.compare_eq_gt.mpr above, eq_comm, Int.compare_eq_gt]
    omega

end Bytes

namespace GalaxDb

open PaxBytes Bytes

/-- Whether values that compare so satisfy the comparison. -/
def PruneOp.holds : PruneOp → Ordering → Bool
  | .eq, o => o == .eq
  | .ne, o => o != .eq
  | .lt, o => o == .lt
  | .le, o => o != .gt
  | .gt, o => o == .gt
  | .ge, o => o != .lt

open PruneOp

namespace ScanColumnar

/-- Numbers of an integer type, truth values and bytes have an order that the zone maps are
meant to keep. -/
def isOrdered : ColumnType → Bool
  | .float32 | .float64 | .embedding _ => false
  | _ => true

/-- The order of the values of a type: of the numbers, or bytewise. -/
def typeOrder : ColumnType → Bytes → Bytes → Ordering
  | .int8, a, b | .int16, a, b | .int32, a, b | .int64, a, b => compare (toSigned a) (toSigned b)
  | .uint8, a, b | .uint16, a, b | .uint32, a, b | .uint64, a, b | .boolean, a, b =>
    compare (ofLe a) (ofLe b)
  | _, a, b => compare a b

section Comparable

variable {colType : ColumnType} {a b : Bytes}

/-- A value of the type: of its width, if it has one. -/
def HasWidth (colType : ColumnType) (value : Bytes) : Prop :=
  ∀ width, colType.packedWidth = some width → value.length = width

theorem compare_toComparableBytes (ordered : isOrdered colType) (ha : HasWidth colType a)
    (hb : HasWidth colType b) :
    compare (toComparableBytes colType a) (toComparableBytes colType b) =
      typeOrder colType a b := by
  have signed {w : Nat} (packed : colType.packedWidth = some (w + 1)) :
      compare (flipSign a) (flipSign b) = compare (toSigned a) (toSigned b) :=
    compare_flipSign (ha _ packed) (hb _ packed)
  have unsigned {w : Nat} (packed : colType.packedWidth = some w) :
      compare a.reverse b.reverse = compare (ofLe a) (ofLe b) :=
    compare_reverse ((ha _ packed).trans (hb _ packed).symm)
  have single (value : Bytes) (packed : colType.packedWidth = some 1)
      (width : HasWidth colType value) : value.reverse = value := by
    obtain ⟨byte, rfl⟩ := List.length_eq_one_iff.mp (width 1 packed)
    rfl
  cases colType with
  | float32 | float64 | embedding => simp [isOrdered] at ordered
  | text | blob | json => rfl
  | int8 | int16 | int32 | int64 =>
    simp only [toComparableBytes, ColumnType.packedWidth, ha _ rfl, hb _ rfl, ne_eq,
      not_true_eq_false, ↓reduceIte]
    exact signed rfl
  | uint8 | boolean =>
    have plain := unsigned rfl
    rw [single a rfl ha, single b rfl hb] at plain
    simp only [toComparableBytes, ite_self]
    exact plain
  | uint16 | uint32 | uint64 =>
    simp only [toComparableBytes, ColumnType.packedWidth, ha _ rfl, hb _ rfl, ne_eq,
      not_true_eq_false, ↓reduceIte]
    exact unsigned rfl

end Comparable

section Bounds

/-- The least and the greatest stored value bound them all. -/
theorem extractZoneMap_bounds {colType : ColumnType} {values : List Bytes} {v : Bytes}
    (mem : v ∈ values) :
    (compare (toComparableBytes colType (extractZoneMap colType values).1)
        (toComparableBytes colType v)).isLE ∧
      (compare (toComparableBytes colType v)
        (toComparableBytes colType (extractZoneMap colType values).2)).isLE := by
  cases values with
  | nil => simp at mem
  | cons first rest =>
    have least := Engine.foldl_min_isLE (rest.map (toComparableBytes colType))
      (toComparableBytes colType first)
    have greatest := Engine.foldl_max_isLE (rest.map (toComparableBytes colType))
      (toComparableBytes colType first)
    rw [List.foldl_map] at least greatest
    have least_eq : toComparableBytes colType (extractZoneMap colType (first :: rest)).1 =
        rest.foldl (fun m x => if compare (toComparableBytes colType x) m = .lt then
          toComparableBytes colType x else m) (toComparableBytes colType first) := by
      refine (List.foldl_hom (toComparableBytes colType) fun m x => ?_).symm
      split <;> rfl
    have greatest_eq : toComparableBytes colType (extractZoneMap colType (first :: rest)).2 =
        rest.foldl (fun m x => if compare (toComparableBytes colType x) m = .lt then m else
          toComparableBytes colType x) (toComparableBytes colType first) := by
      refine (List.foldl_hom (toComparableBytes colType) fun m x => ?_).symm
      split <;> rfl
    rw [least_eq, greatest_eq]
    obtain rfl | later := List.mem_cons.mp mem
    · exact ⟨least.1, greatest.1⟩
    · exact ⟨least.2 _ (List.mem_map_of_mem later), greatest.2 _ (List.mem_map_of_mem later)⟩

variable {colType : ColumnType} {op : PruneOp} {const high low value : Bytes}

/-- Between two bounds that are not empty, a satisfying value is not ruled out. -/
theorem zoneMapCanMatch_of_comparable (low_ne : low ≠ []) (high_ne : high ≠ [])
    (above : (compare (toComparableBytes colType low) (toComparableBytes colType value)).isLE)
    (below : (compare (toComparableBytes colType value) (toComparableBytes colType high)).isLE)
    (satisfied : op.holds
      (compare (toComparableBytes colType value) (toComparableBytes colType const))) :
    zoneMapCanMatch colType low high op const := by
  simp only [zoneMapCanMatch, low_ne, high_ne, or_self, ↓reduceIte]
  generalize toComparableBytes colType low = l at above
  generalize toComparableBytes colType value = v at above below satisfied
  generalize toComparableBytes colType const = c at satisfied
  cases op with
  | eq =>
    obtain rfl : v = c := Std.LawfulEqOrd.eq_of_compare (by simpa [holds] using satisfied)
    simp only [bne_iff_ne, ne_eq, Bool.and_eq_true]
    exact ⟨Ordering.isLE_iff_ne_gt.mp above, Ordering.isLE_iff_ne_gt.mp below⟩
  | ne =>
    have apart : compare v c ≠ .eq := by simpa [holds] using satisfied
    simp only [Bool.not_eq_true', Bool.and_eq_false_imp, beq_iff_eq, beq_eq_false_iff_ne]
    rintro rfl rfl
    exact apart (Std.OrientedCmp.isLE_antisymm below above)
  | lt =>
    have smaller : compare v c = .lt := by simpa [holds] using satisfied
    simpa using Std.TransCmp.lt_of_isLE_of_lt above smaller
  | le =>
    have at_most : (compare v c).isLE :=
      Ordering.isLE_iff_ne_gt.mpr (by simpa [holds] using satisfied)
    simpa using Ordering.isLE_iff_ne_gt.mp (Std.TransCmp.isLE_trans above at_most)
  | gt =>
    have greater : compare v c = .gt := by simpa [holds] using satisfied
    simpa using Std.TransCmp.gt_of_isGE_of_gt (Std.OrientedCmp.isGE_of_isLE below) greater
  | ge =>
    have at_least : (compare v c).isGE :=
      Ordering.isGE_iff_ne_lt.mpr (by simpa [holds] using satisfied)
    simpa using Ordering.isGE_iff_ne_lt.mp
      (Std.TransCmp.isGE_trans (Std.OrientedCmp.isGE_of_isLE below) at_least)

theorem zoneMapCanMatch_of_bounds (ordered : isOrdered colType) (hv : HasWidth colType value)
    (hc : HasWidth colType const) (low_ne : low ≠ []) (high_ne : high ≠ [])
    (above : (compare (toComparableBytes colType low) (toComparableBytes colType value)).isLE)
    (below : (compare (toComparableBytes colType value) (toComparableBytes colType high)).isLE)
    (satisfied : op.holds (typeOrder colType value const)) :
    zoneMapCanMatch colType low high op const := by
  rw [← compare_toComparableBytes ordered hv hc] at satisfied
  exact zoneMapCanMatch_of_comparable low_ne high_ne above below satisfied

end Bounds

section Stored

/-- A column of cells as it is stored, with the placeholder in the NULL slots. -/
def storedCells (colType : ColumnType) (cells : List (Option Bytes)) : List Bytes :=
  cells.map fun cell => cell.getD (placeholderBytes colType)

theorem getElem?_flatMap_pair {α β : Type*} (f g : α → β) (l : List α) (i : Nat) :
    (l.flatMap fun x => [f x, g x])[2 * i]? = l[i]?.map f := by
  induction l generalizing i with
  | nil => simp
  | cons x l ih =>
    cases i with
    | zero => rfl
    | succ i =>
      rw [List.flatMap_cons, show 2 * (i + 1) = 2 * i + 1 + 1 by ring]
      simpa using ih i

theorem getElem?_flatMap_pair_succ {α β : Type*} (f g : α → β) (l : List α) (i : Nat) :
    (l.flatMap fun x => [f x, g x])[2 * i + 1]? = l[i]?.map g := by
  induction l generalizing i with
  | nil => simp
  | cons x l ih =>
    cases i with
    | zero => rfl
    | succ i =>
      rw [List.flatMap_cons, show 2 * (i + 1) + 1 = 2 * i + 1 + 1 + 1 by ring]
      simpa using ih i

/-- The typed columns of a flush are the columns of the cells so stored. -/
theorem columnarDataColumns_typed {splitter : RowColumnSplitter} {values : List (Option Bytes)}
    {columns : List (List Bytes)} (split : columnarDataColumns splitter values = some columns)
    {c : Nat} {colType : ColumnType} (at_c : splitter.columnTypes[c]? = some colType) :
    ∃ rows, values.mapM (rowCells splitter) = some rows ∧
      columns[2 * c]? = some (storedCells colType (rows.map fun cells => cells[c]?.join)) := by
  rw [columnarDataColumns] at split
  split at split
  · simp at split
  · obtain ⟨rows, cut, rfl⟩ := Option.map_eq_some_iff.mp split
    refine ⟨rows, cut, ?_⟩
    rw [getElem?_flatMap_pair, List.getElem?_zipIdx, at_c]
    simp [storedCells]

variable {colType : ColumnType} {cells : List (Option Bytes)} {v : Bytes}

theorem hasWidth_placeholder : HasWidth colType (placeholderBytes colType) := by
  intro width packed
  cases colType <;> simp_all [placeholderBytes, ColumnType.packedWidth]

theorem mem_storedCells (mem : some v ∈ cells) : v ∈ storedCells colType cells :=
  List.mem_map.mpr ⟨some v, mem, rfl⟩

/-- Stored cells are empty only where the type has no width and a cell is empty or NULL. -/
theorem nil_mem_storedCells_iff (ordered : isOrdered colType)
    (widths : ∀ v, some v ∈ cells → HasWidth colType v) :
    [] ∈ storedCells colType cells ↔
      colType.packedWidth = none ∧ ∃ cell ∈ cells, cell.getD [] = [] := by
  constructor
  · intro mem
    obtain ⟨cell, at_cell, empty⟩ := List.mem_map.mp mem
    have none : colType.packedWidth = none := by
      cases packed : colType.packedWidth with
      | none => rfl
      | some width =>
        have positive := (packedWidth_bounds packed).1
        have length : (cell.getD (placeholderBytes colType)).length = width := by
          cases cell with
          | none => exact hasWidth_placeholder width packed
          | some v => exact widths v at_cell width packed
        rw [empty] at length
        simp at length
        omega
    refine ⟨none, cell, at_cell, ?_⟩
    cases cell with
    | none => rfl
    | some v => exact empty
  · rintro ⟨none, cell, at_cell, empty⟩
    refine List.mem_map.mpr ⟨cell, at_cell, ?_⟩
    cases cell with
    | none => cases colType <;> simp_all [placeholderBytes, isOrdered, ColumnType.packedWidth]
    | some v => exact empty

/-- A least stored value is empty as soon as one of the values without width is. -/
theorem extractZoneMap_nil {values : List Bytes} (unsized : colType.packedWidth = none)
    (mem : [] ∈ values) : (extractZoneMap colType values).1 = [] := by
  have plain (value : Bytes) : toComparableBytes colType value = value := by
    simp [toComparableBytes, unsized]
  have least := (@extractZoneMap_bounds colType values [] mem).1
  rw [plain, plain] at least
  cases first : (extractZoneMap colType values).1 with
  | nil => rfl
  | cons b rest => simp [first] at least

/-- A column is never ruled out wrongly exactly where its type has a width, or no slot is NULL
and no cell empty, or no cell is there at all. -/
theorem zone_map_is_conservative_iff (ordered : isOrdered colType)
    (widths : ∀ v, some v ∈ cells → HasWidth colType v) :
    (∀ op const, HasWidth colType const →
      (∃ v, some v ∈ cells ∧ op.holds (typeOrder colType v const)) →
      zoneMapCanMatch colType (extractZoneMap colType (storedCells colType cells)).1
        (extractZoneMap colType (storedCells colType cells)).2 op const) ↔
      colType.packedWidth.isSome ∨ (∀ cell ∈ cells, cell.getD [] ≠ []) ∨
        ∀ cell ∈ cells, cell = none := by
  constructor
  · intro conservative
    by_contra missed
    push Not at missed
    obtain ⟨unsized, ⟨cell, at_cell, empty⟩, present, at_present, some_cell⟩ := missed
    obtain ⟨v, rfl⟩ := Option.ne_none_iff_exists'.mp some_cell
    have none : colType.packedWidth = none := by simpa using unsized
    have nil_stored := (nil_mem_storedCells_iff ordered widths).mpr ⟨none, cell, at_cell, empty⟩
    have same : eq.holds (typeOrder colType v v) := by
      rw [← compare_toComparableBytes ordered (widths v at_present) (widths v at_present)]
      simp [holds]
    have found := conservative .eq v (widths v at_present) ⟨v, at_present, same⟩
    simp [zoneMapCanMatch, extractZoneMap_nil none nil_stored] at found
  · intro fine op const const_width
    rintro ⟨v, at_v, satisfied⟩
    have no_nil : [] ∉ storedCells colType cells := by
      rw [nil_mem_storedCells_iff ordered widths]
      rintro ⟨unsized, cell, at_cell, empty⟩
      obtain sized | full | absent := fine
      · simp [unsized] at sized
      · exact full cell at_cell empty
      · simpa using absent _ at_v
    have stored : v ∈ storedCells colType cells := mem_storedCells at_v
    have bounds := @extractZoneMap_bounds colType _ v stored
    have ends := @extractZoneMap_mem colType _ (List.ne_nil_of_mem stored)
    refine zoneMapCanMatch_of_bounds ordered (widths v at_v) const_width ?_ ?_ bounds.1 bounds.2
      satisfied
    · exact fun low => no_nil (low ▸ ends.1)
    · exact fun high => no_nil (high ▸ ends.2)

theorem zone_map_is_conservative_on_numbers : zoneMapCanMatch .int16
      (extractZoneMap .int16 (storedCells .int16 [some [254, 255], none, some [3, 0]])).1
      (extractZoneMap .int16 (storedCells .int16 [some [254, 255], none, some [3, 0]])).2
      .lt [255, 255] := by
  have widths : ∀ v, some v ∈ [some [254, 255], none, some [3, 0]] → HasWidth .int16 v := by
    intro v mem width packed
    obtain rfl : 2 = width := Option.some.inj packed
    obtain rfl | rfl : v = [254, 255] ∨ v = [3, 0] := by simpa using mem
    · rfl
    · rfl
  have fine := (zone_map_is_conservative_iff rfl widths).mpr (.inl rfl)
  refine fine .lt [255, 255] ?_ ⟨[254, 255], by simp, by decide⟩
  rintro width ⟨⟩
  rfl

/-- One NULL beside a text, and the text is ruled out. -/
theorem null_rules_out_its_column : eq.holds (typeOrder .text [98] [98]) ∧
      zoneMapCanMatch .text (extractZoneMap .text (storedCells .text [some [98], none])).1
        (extractZoneMap .text (storedCells .text [some [98], none])).2 .eq [98] = false := by
  decide

end Stored

end ScanColumnar

end GalaxDb
