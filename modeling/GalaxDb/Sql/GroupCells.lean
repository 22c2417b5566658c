import GalaxDb.Sql.Filter
import GalaxDb.Sql.RowRoundTrip
import GalaxDb.Versioning.Export
import Mathlib.Data.Set.Function
import Mathlib.Data.UInt

/-!
# The group cell of a stored row

A query reads the group of a row from its text, an export is given it. A cell whose text ends in
a backslash takes the separator after it, and the group cell with it when that comes next. Such a
row has no group for a query and keeps its group for an export.
-/

namespace GalaxDb.Sql

open Bytes Representatives Versioning List

section Cells

/-- The text of the cell ends in a backslash. -/
def EndsOpen (c : Bytes × Value) : Prop := (valueDisplay c.2).getLast? = some 92

instance (c : Bytes × Value) : Decidable (EndsOpen c) :=
  inferInstanceAs (Decidable ((valueDisplay c.2).getLast? = some 92))

/-- No name has an equals sign or a bar. -/
def PlainNames (cols : Columns) : Prop := ∀ c ∈ cols, 61 ∉ c.1 ∧ 124 ∉ c.1

variable {name : Bytes} {c : Bytes × Value} {cols rest : Columns} {column : Bytes}

/-- The rest of a cell ends the part, or goes on into the next cell. -/
theorem decodeParts_rest (plain : 61 ∉ name) (value : Bytes) (c : Bytes × Value) (rest : Columns) :
    ∃ value', decodeParts (name ++ 61 :: value)
        (escapeBars (valueDisplay c.2) ++ if rest = [] then [] else 124 :: encodeRow rest) false =
      if EndsOpen c ∧ rest ≠ [] then
        decodeParts (name ++ 61 :: value') (encodeRow rest) false
      else (name, valueFromStr (value ++ valueDisplay c.2)) :: decodeRow (encodeRow rest) := by
  by_cases merges : EndsOpen c ∧ rest ≠ []
  · obtain ⟨start, display⟩ := getLast?_eq_some_iff.mp merges.1
    refine ⟨value ++ start ++ [124], ?_⟩
    have escaped : escapeBars (valueDisplay c.2) ++ 124 :: encodeRow rest =
        escapeBars start ++ 92 :: 124 :: encodeRow rest := by
      rw [display]
      simp [escapeBars]
    rw [if_pos merges, if_neg merges.2, escaped, decodeParts, split_escaped _ _ _ _ (by simp),
      splitRespectingEscape, decodeParts]
    simp
  · refine ⟨[], ?_⟩
    rw [if_neg merges, decodeParts, split_escaped _ _ _ _ (by
      intro ends
      by_cases last : rest = []
      · simp [last]
      · exact absurd ⟨ends, last⟩ merges)]
    by_cases last : rest = []
    · subst last
      simp [splitRespectingEscape, splitOnce_cell plain, encodeRow, joinWith, decodeRow]
    · rw [if_neg last, splitRespectingEscape, filterMap_cons, append_assoc, cons_append,
        splitOnce_cell plain]
      exact congrArg _ (decodeParts_flag [] (encodeRow rest) true false)

/-- A cell at the start of a part. -/
theorem decodeRow_cons (plain : 61 ∉ c.1 ∧ 124 ∉ c.1) (rest : Columns) :
    ∃ value, decodeRow (encodeRow (c :: rest)) =
      if EndsOpen c ∧ rest ≠ [] then decodeParts (c.1 ++ 61 :: value) (encodeRow rest) false
      else (c.1, valueFromStr (valueDisplay c.2)) :: decodeRow (encodeRow rest) := by
  obtain ⟨value, eq⟩ := decodeParts_rest plain.1 [] c rest
  refine ⟨value, ?_⟩
  rw [nil_append] at eq
  rw [← eq, encodeRow_cons, ← singleton_append, ← append_assoc, decodeRow,
    split_plain [] _ false (by simpa using plain.2) (by simp), nil_append, decodeParts]

/-- A cell that the part under construction goes on into. -/
theorem decodeParts_cons (plain : 61 ∉ name) (bars : 124 ∉ c.1) (value : Bytes) (rest : Columns) :
    ∃ value' value'', decodeParts (name ++ 61 :: value) (encodeRow (c :: rest)) false =
      if EndsOpen c ∧ rest ≠ [] then decodeParts (name ++ 61 :: value') (encodeRow rest) false
      else (name, value'') :: decodeRow (encodeRow rest) := by
  obtain ⟨value', eq⟩ := decodeParts_rest plain (value ++ c.1 ++ [61]) c rest
  refine ⟨value', valueFromStr (value ++ c.1 ++ [61] ++ valueDisplay c.2), ?_⟩
  rw [← eq, encodeRow_cons, decodeParts, split_plain _ _ false bars (by simp),
    split_byte false (by decide) (by simp), decodeParts]
  simp

variable {before : Columns} {v : Value}

theorem cell_cons_of_ne (other : name ≠ column) :
    cell ((name, v) :: cols) column = cell cols column := by
  simp [cell, other]

/-- A column that no cell has is not read. -/
theorem cell_absent (plain : PlainNames cols) (free : ∀ c ∈ cols, c.1 ≠ column) :
    cell (decodeRow (encodeRow cols)) column = none ∧ ∀ name value, 61 ∉ name → name ≠ column →
      cell (decodeParts (name ++ 61 :: value) (encodeRow cols) false) column = none := by
  induction cols with
  | nil =>
    refine ⟨rfl, fun name value equals other => ?_⟩
    have single : decodeParts (name ++ 61 :: value) (encodeRow []) false =
        [(name, valueFromStr value)] := by
      simp [decodeParts, encodeRow, joinWith, splitRespectingEscape, splitOnce_cell equals]
    rw [single, cell_cons_of_ne other]
    rfl
  | cons c rest ih =>
    obtain ⟨closed, opened⟩ := ih (fun d mem => plain d (mem_cons_of_mem _ mem))
      fun d mem => free d (mem_cons_of_mem _ mem)
    have plain_c := plain c mem_cons_self
    have free_c := free c mem_cons_self
    constructor
    · obtain ⟨value, eq⟩ := decodeRow_cons plain_c rest
      rw [eq]
      split
      · exact opened _ value plain_c.1 free_c
      · rwa [cell_cons_of_ne free_c]
    · intro name value equals other
      obtain ⟨value', value'', eq⟩ := decodeParts_cons equals plain_c.2 value rest
      rw [eq]
      split
      · exact opened name value' equals other
      · rwa [cell_cons_of_ne other]

/-- The last cell before the column ends in a backslash, or the part was open before. -/
def swallowed (isOpen : Bool) : Columns → Bool
  | [] => isOpen
  | c :: rest => swallowed (decide (EndsOpen c)) rest

/-- A column is read back unless the cell before it takes it. -/
theorem cell_behind {after : Columns} (plain : PlainNames (before ++ (column, v) :: after))
    (free : ∀ c ∈ before ++ after, c.1 ≠ column) (closes : ¬EndsOpen (column, v)) :
    cell (decodeRow (encodeRow (before ++ (column, v) :: after))) column =
        (if swallowed false before then none else some (valueFromStr (valueDisplay v))) ∧
      ∀ name value, 61 ∉ name → name ≠ column →
        cell (decodeParts (name ++ 61 :: value) (encodeRow (before ++ (column, v) :: after)) false)
            column =
          if swallowed true before then none else some (valueFromStr (valueDisplay v)) := by
  induction before with
  | nil =>
    rw [nil_append] at plain free ⊢
    have plain_c := plain (column, v) mem_cons_self
    have rest := cell_absent (fun d mem => plain d (mem_cons_of_mem _ mem)) free
    constructor
    · obtain ⟨value, eq⟩ := decodeRow_cons plain_c after
      rw [eq, if_neg fun both => closes both.1]
      simp [cell, swallowed]
    · intro name value equals other
      obtain ⟨value', value'', eq⟩ := decodeParts_cons equals plain_c.2 value after
      rw [eq, if_neg fun both => closes both.1, cell_cons_of_ne other, rest.1]
      rfl
  | cons c before ih =>
    rw [cons_append] at plain free ⊢
    obtain ⟨closed, opened⟩ := ih (fun d mem => plain d (mem_cons_of_mem _ mem))
      fun d mem => free d (mem_cons_of_mem _ mem)
    have plain_c := plain c mem_cons_self
    have free_c := free c mem_cons_self
    have more : before ++ (column, v) :: after ≠ [] := by simp
    constructor
    · obtain ⟨value, eq⟩ := decodeRow_cons plain_c (before ++ (column, v) :: after)
      rw [eq, swallowed]
      by_cases ends : EndsOpen c
      · rw [if_pos ⟨ends, more⟩, decide_eq_true ends]
        exact opened _ value plain_c.1 free_c
      · rw [if_neg fun both => ends both.1, decide_eq_false ends, cell_cons_of_ne free_c]
        exact closed
    · intro name value equals other
      obtain ⟨value', value'', eq⟩ :=
        decodeParts_cons equals plain_c.2 value (before ++ (column, v) :: after)
      rw [eq, swallowed]
      by_cases ends : EndsOpen c
      · rw [if_pos ⟨ends, more⟩, decide_eq_true ends]
        exact opened name value' equals other
      · rw [if_neg fun both => ends both.1, decide_eq_false ends, cell_cons_of_ne other]
        exact closed

theorem swallowed_iff {isOpen : Bool} : swallowed isOpen before = true ↔ match before.getLast? with
    | none => isOpen = true
    | some c => EndsOpen c := by
  induction before generalizing isOpen with
  | nil => simp [swallowed]
  | cons c rest ih =>
    rw [swallowed, ih, getLast?_cons]
    cases rest.getLast? <;> simp

end Cells

theorem u64AsI64_injective {m n : Nat} (small : m < 2 ^ 64) (small' : n < 2 ^ 64)
    (same : u64AsI64 m = u64AsI64 n) : m = n := by
  rw [u64AsI64, u64AsI64] at same
  split at same <;> split at same <;> omega

theorem natDigits_eq_intDisplay (n : Nat) : natDigits n = intDisplay n := by
  rfl

theorem parseI64_natDigits_eq_none {n : Nat} (large : i64Max < n) :
    parseI64 (natDigits n) = none := by
  have digits : (natDigits n).all isDigit = true :=
    all_eq_true.mpr fun b hb => natDigits_digit hb
  have beyond : ¬(i64Min ≤ (n : Int) ∧ (n : Int) ≤ i64Max) := fun both => by omega
  simp only [parseI64, takeSign_natDigits, natDigits_ne_nil, digits, Bool.true_eq_false, or_self,
    ↓reduceIte, Bool.false_eq_true, digitsToNat_natDigits, beyond]

/-- Digits come back as a number or, where they are too many for a signed one, as a text. -/
theorem valueFromStr_natDigits (n : Nat) : valueFromStr (natDigits n) =
    if (n : Int) ≤ i64Max then .integer n else .text (natDigits n) := by
  split
  · next small =>
    exact valueFromStr_intDisplay (by rw [i64Min]; omega) small
  · next large =>
    have parsed := parseI64_natDigits_eq_none (not_le.mp large)
    have absent : ∀ b : UInt8, isDigit b = false → b ∉ natDigits n := by
      intro b other mem
      rw [natDigits_digit mem] at other
      cases other
    have literal : ∀ word : Bytes, (∃ b ∈ word, isDigit b = false) → natDigits n ≠ word := by
      rintro word ⟨b, mem, other⟩ rfl
      exact absent b other mem
    rw [valueFromStr, if_neg (literal _ ⟨78, by decide, by decide⟩),
      if_neg (literal _ ⟨116, by decide, by decide⟩),
        if_neg (literal _ ⟨102, by decide, by decide⟩),
      parsed]
    dsimp only
    split
    · next f _ =>
      rw [if_neg]
      rintro (dot | e | e)
      · exact absent 46 (by decide) dot
      · exact absent 101 (by decide) e
      · exact absent 69 (by decide) e
    · rfl

def groupColumn : Bytes := ascii "_near_duplicate_group"

/-- How a row has its group: without a cell, as NULL, as a signed number, or by its digits. -/
inductive GroupCell where
  | absent
  | null
  | signed (group : UInt64)
  | digits (group : UInt64)
  deriving DecidableEq

def GroupCell.group : GroupCell → Option UInt64
  | .signed group | .digits group => some group
  | _ => none

def GroupCell.value : GroupCell → Option Value
  | .absent => none
  | .null => some .null
  | .signed group => some (.integer (u64AsI64 group.toNat))
  | .digits group => some (.text (natDigits group.toNat))

/-- A row with the cells around that of its group. -/
structure GroupedRow where
  key : Bytes
  before : Columns
  groupCell : GroupCell
  after : Columns
  free : ∀ c ∈ before ++ after, c.1 ≠ groupColumn

namespace GroupedRow

def group (r : GroupedRow) : Option UInt64 := r.groupCell.group

def columns (r : GroupedRow) : Columns :=
  match r.groupCell.value with
  | none => r.before ++ r.after
  | some v => r.before ++ (groupColumn, v) :: r.after

/-- The row as a query buffers it. -/
def buffered (r : GroupedRow) : BufferedRow := (r.key, decodeRow (encodeRow r.columns))

/-- The group as a query reads it. -/
def readGroup (r : GroupedRow) : Option Int := rowGroupId (decodeRow (encodeRow r.columns))

def exported {F : Type} (fields : GroupedRow → List F) (r : GroupedRow) : ExportedRow F :=
  ⟨r.key, fields r, r.group⟩

/-- The row has a group, and the cell before it ends in a backslash. -/
def Lost (r : GroupedRow) : Prop := r.group.isSome ∧ ∃ c ∈ r.before.getLast?, EndsOpen c

instance (r : GroupedRow) : Decidable r.Lost :=
  inferInstanceAs (Decidable (r.group.isSome ∧ ∃ c ∈ r.before.getLast?, EndsOpen c))

variable {r : GroupedRow}

variable {g : GroupCell} {cols : Columns} {v : Value}

theorem rowGroupId_absent (none_read : cell cols groupColumn = none) : rowGroupId cols = none := by
  rw [rowGroupId, ← groupColumn, none_read]

/-- Every id is read back, whether it was written as a signed number or by its digits. -/
theorem rowGroupId_of_cell (written : g.value = some v)
    (read : cell cols groupColumn = some (valueFromStr (valueDisplay v))) :
    rowGroupId cols = g.group.map fun group => u64AsI64 group.toNat := by
  rw [rowGroupId, ← groupColumn, read]
  cases g with
  | absent => cases written
  | null =>
    obtain rfl := Option.some.inj written
    rfl
  | signed group =>
    obtain rfl := Option.some.inj written
    obtain ⟨low, high⟩ := u64AsI64_range group.toNat_lt
    rw [valueDisplay, valueFromStr_intDisplay low high]
    rfl
  | digits group =>
    obtain rfl := Option.some.inj written
    rw [valueDisplay, valueFromStr_natDigits]
    split_ifs with small
    · have below : group.toNat < 2 ^ 63 := by
        rw [i64Max] at small
        omega
      simp only [GroupCell.group, Option.map_some, u64AsI64, below, ↓reduceIte]
    · have notNull : natDigits group.toNat ≠ ascii "NULL" := by
        intro same
        have digit : isDigit 78 = true := natDigits_digit (n := group.toNat) (same ▸ by decide)
        cases digit
      simp only [notNull, ↓reduceIte, parseI64_natDigits_eq_none (not_le.mp small),
        parseU64_natDigits group.toNat_lt, Option.map_some, GroupCell.group]

theorem not_endsOpen (written : g.value = some v) : ¬EndsOpen (groupColumn, v) := by
  have digitsEnd : ∀ n : Nat, (natDigits n).getLast? ≠ some 92 := by
    intro n last
    exact absurd (natDigits_digit (mem_of_getLast? last)) (by decide)
  rw [EndsOpen]
  cases g with
  | absent => cases written
  | null =>
    obtain rfl := Option.some.inj written
    decide
  | signed group =>
    obtain rfl := Option.some.inj written
    rw [valueDisplay, intDisplay]
    split
    · rw [getLast?_cons]
      intro last
      cases ends : (natDigits (u64AsI64 group.toNat).natAbs).getLast? with
      | none => exact absurd (getLast?_eq_none_iff.mp ends) (natDigits_ne_nil _)
      | some b =>
        rw [ends, Option.getD_some] at last
        exact digitsEnd _ (ends.trans last)
    · exact digitsEnd _
  | digits group =>
    obtain rfl := Option.some.inj written
    exact digitsEnd _

/-- The group is read back unless it is lost. -/
theorem readGroup_eq (plain : PlainNames r.columns) :
    r.readGroup = if r.Lost then none else r.group.map fun group => u64AsI64 group.toNat := by
  rw [readGroup]
  cases written : r.groupCell.value with
  | none =>
    have alone : r.group = none := by
      rw [group]
      cases cell : r.groupCell <;> simp_all [GroupCell.value, GroupCell.group]
    have cols : r.columns = r.before ++ r.after := by rw [columns, written]
    rw [cols] at plain ⊢
    rw [rowGroupId_absent (cell_absent plain r.free).1, alone]
    simp
  | some v =>
    have cols : r.columns = r.before ++ (groupColumn, v) :: r.after := by rw [columns, written]
    rw [cols] at plain ⊢
    have read := (cell_behind plain r.free (not_endsOpen written)).1
    have open_iff : swallowed false r.before = true ↔ ∃ c ∈ r.before.getLast?, EndsOpen c := by
      rw [swallowed_iff]
      cases r.before.getLast? <;> simp
    by_cases taken : swallowed false r.before = true
    · rw [if_pos taken] at read
      rw [rowGroupId_absent read]
      by_cases alone : r.group.isSome
      · rw [if_pos ⟨alone, open_iff.mp taken⟩]
      · rw [Option.not_isSome_iff_eq_none.mp alone]
        simp
    · rw [if_neg taken] at read
      rw [if_neg fun lost => taken (open_iff.mpr lost.2), rowGroupId_of_cell written read]
      rfl

end GroupedRow

section Agreement

open GroupedRow

variable {F : Type} {fields : GroupedRow → List F} {rows : List GroupedRow} {r s : GroupedRow}

def keptByQuery (rows : List GroupedRow) : List Bytes :=
  (applyNotDuplicatePass (rows.map GroupedRow.buffered)).map Prod.fst

def keptByExport (fields : GroupedRow → List F) (rows : List GroupedRow) : List Bytes :=
  (applyDedupFilter (rows.map (exported fields))).map ExportedRow.primaryKey

theorem beaten_map {α β κ : Type} {f : α → β} {groupOf : β → Option κ} {keyOf : β → Bytes}
    {items : List α} {a : α} : Beaten groupOf keyOf (items.map f) (f a) ↔
      Beaten (fun a => groupOf (f a)) (fun a => keyOf (f a)) items a := by
  simp [Beaten]

/-- The least key that a query finds is that of the groups it reads. -/
theorem representative_eq (rows : List BufferedRow) (group : Int) :
    representative rows group = smallest (fun r => rowGroupId r.2) Prod.fst rows group := by
  unfold representative smallest
  congr
  funext best r
  split
  · cases best <;> rfl
  · rfl

theorem isRepresentative_iff {rows : List BufferedRow} {row : BufferedRow} (mem : row ∈ rows) :
    isRepresentative rows row = true ↔
      ¬Beaten (fun r : BufferedRow => rowGroupId r.2) Prod.fst rows row := by
  rw [isRepresentative]
  split
  · next alone => simp [Beaten, alone]
  · next group inside =>
    rw [decide_eq_true_iff, representative_eq]
    exact @smallest_eq_key BufferedRow Int Bytes _ (fun r => rowGroupId r.2) Prod.fst rows group row
      _ _ _ inside mem

theorem mem_keptByQuery (distinct : (rows.map key).Nodup) (mem : r ∈ rows) :
    r.key ∈ keptByQuery rows ↔ ¬Beaten readGroup key rows r := by
  have answer := isRepresentative_iff (mem_map_of_mem (f := GroupedRow.buffered) mem)
  rw [beaten_map] at answer
  rw [keptByQuery, applyNotDuplicatePass, mem_map]
  constructor
  · rintro ⟨_, kept, same⟩
    obtain ⟨inside, represents⟩ := mem_filter.mp kept
    obtain ⟨s, mem_s, rfl⟩ := mem_map.mp inside
    obtain rfl : s = r := inj_on_of_nodup_map distinct mem_s mem same
    exact answer.mp represents
  · intro unbeaten
    exact ⟨r.buffered, mem_filter.mpr ⟨mem_map_of_mem mem, answer.mpr unbeaten⟩, rfl⟩

theorem mem_keptByExport (distinct : (rows.map key).Nodup) (mem : r ∈ rows) :
    r.key ∈ keptByExport fields rows ↔ ¬Beaten group key rows r := by
  have answer := isKept_iff (mem_map_of_mem (f := exported fields) mem)
  rw [beaten_map] at answer
  rw [keptByExport, applyDedupFilter, mem_map]
  constructor
  · rintro ⟨_, kept, same⟩
    obtain ⟨inside, represents⟩ := mem_filter.mp kept
    obtain ⟨s, mem_s, rfl⟩ := mem_map.mp inside
    obtain rfl : s = r := inj_on_of_nodup_map distinct mem_s mem same
    exact answer.mp represents
  · intro unbeaten
    exact ⟨r.exported fields, mem_filter.mpr ⟨mem_map_of_mem mem, answer.mpr unbeaten⟩, rfl⟩

/-- The keys that are kept are keys of the rows. -/
theorem keptByQuery_subset {k : Bytes} (mem : k ∈ keptByQuery rows) : k ∈ rows.map key := by
  obtain ⟨_, kept, rfl⟩ := mem_map.mp mem
  obtain ⟨r, mem_r, rfl⟩ := mem_map.mp (mem_filter.mp kept).1
  exact mem_map_of_mem mem_r

theorem keptByExport_subset {k : Bytes} (mem : k ∈ keptByExport fields rows) :
    k ∈ rows.map key := by
  obtain ⟨_, kept, rfl⟩ := mem_map.mp mem
  obtain ⟨r, mem_r, rfl⟩ := mem_map.mp (mem_filter.mp kept).1
  exact mem_map_of_mem mem_r

/-- Both are filters of the rows, so they are the same if each row is kept by both or neither. -/
theorem kept_eq_iff (distinct : (rows.map key).Nodup) :
    keptByQuery rows = keptByExport fields rows ↔
      ∀ r ∈ rows, Beaten readGroup key rows r ↔ Beaten group key rows r := by
  constructor
  · intro same r mem
    have query := mem_keptByQuery distinct mem
    rw [same, mem_keptByExport distinct mem] at query
    exact not_iff_not.mp query.symm
  · intro same
    have byQuery : keptByQuery rows =
        (rows.filter fun r => isRepresentative (rows.map GroupedRow.buffered) r.buffered).map key :=
          by
      rw [keptByQuery, applyNotDuplicatePass, filter_map, map_map]
      rfl
    have byExport : keptByExport fields rows =
        (rows.filter fun r => isKept (rows.map (exported fields)) (r.exported fields)).map key := by
      rw [keptByExport, applyDedupFilter, filter_map, map_map]
      rfl
    rw [byQuery, byExport]
    refine congrArg _ (filter_congr fun r mem => Bool.eq_iff_iff.mpr ?_)
    rw [isRepresentative_iff (mem_map_of_mem mem), isKept_iff (mem_map_of_mem mem),
      beaten_map, beaten_map]
    exact not_congr (same r mem)

/-- The same rows are kept, all without a group and one of each group, in any order. -/
structure Agree (fields : GroupedRow → List F) (rows : List GroupedRow) : Prop where
  same : keptByQuery rows = keptByExport fields rows
  ungrouped : ∀ r ∈ rows, r.group = none →
    r.key ∈ keptByQuery rows ∧ r.key ∈ keptByExport fields rows
  single : ∀ g, (∃ r ∈ rows, r.group = some g) →
    (∃! r, r ∈ rows ∧ r.group = some g ∧ r.key ∈ keptByQuery rows) ∧
      ∃! r, r ∈ rows ∧ r.group = some g ∧ r.key ∈ keptByExport fields rows
  order : ∀ rows' : List GroupedRow, rows'.Perm rows → ∀ k,
    (k ∈ keptByQuery rows' ↔ k ∈ keptByQuery rows) ∧
      (k ∈ keptByExport fields rows' ↔ k ∈ keptByExport fields rows)

theorem exists_unbeaten {κ : Type} [DecidableEq κ] {groupOf : GroupedRow → Option κ} {g : κ}
    (mem : r ∈ rows) (inside : groupOf r = some g) :
    ∃ s ∈ rows, groupOf s = some g ∧ ¬Beaten groupOf key rows s := by
  cases found : smallest groupOf key rows g with
  | none => exact absurd inside (smallest_eq_none.mp found r mem)
  | some least =>
    obtain ⟨s, mem_s, group_s, rfl⟩ := (smallest_spec found).1
    exact ⟨s, mem_s, group_s, (smallest_eq_key group_s mem_s).mp found⟩

/-- Of two rows of a group one beats the other. -/
theorem unbeaten_unique (distinct : (rows.map key).Nodup) {κ : Type} [DecidableEq κ]
    {groupOf : GroupedRow → Option κ} {g : κ} (mem : r ∈ rows) (mem' : s ∈ rows)
    (inside : groupOf r = some g) (inside' : groupOf s = some g)
    (unbeaten : ¬Beaten groupOf key rows r) (unbeaten' : ¬Beaten groupOf key rows s) : r = s := by
  have least := (smallest_eq_key inside mem).mpr unbeaten
  have least' := (smallest_eq_key inside' mem').mpr unbeaten'
  exact inj_on_of_nodup_map distinct mem mem' (Option.some.inj (least.symm.trans least'))

theorem agree_iff (distinct : (rows.map key).Nodup) : Agree fields rows ↔
    ∀ r ∈ rows, Beaten readGroup key rows r ↔ Beaten group key rows r := by
  have kept : keptByQuery rows = keptByExport fields rows ↔ _ := kept_eq_iff distinct
  rw [← kept]
  refine ⟨Agree.same, fun same => ?_⟩
  have ungrouped : ∀ r ∈ rows, r.group = none → r.key ∈ keptByExport fields rows := by
    intro r mem alone
    rw [mem_keptByExport distinct mem]
    rintro ⟨g, inside, -⟩
    rw [alone] at inside
    cases inside
  have single : ∀ g, (∃ r ∈ rows, r.group = some g) →
      ∃! r, r ∈ rows ∧ r.group = some g ∧ r.key ∈ keptByExport fields rows := by
    rintro g ⟨r, mem, inside⟩
    obtain ⟨s, mem_s, group_s, unbeaten⟩ := exists_unbeaten mem inside
    refine ⟨s, ⟨mem_s, group_s, (mem_keptByExport distinct mem_s).mpr unbeaten⟩, ?_⟩
    rintro t ⟨mem_t, group_t, kept⟩
    exact unbeaten_unique distinct mem_t mem_s group_t group_s
      ((mem_keptByExport distinct mem_t).mp kept) unbeaten
  refine ⟨same, fun r mem alone => ?_, fun g some_row => ?_, ?_⟩
  · rw [same]
    exact ⟨ungrouped r mem alone, ungrouped r mem alone⟩
  · rw [same]
    exact ⟨single g some_row, single g some_row⟩
  · intro rows' perm k
    have distinct' : (rows'.map key).Nodup := (perm.map key).nodup_iff.mpr distinct
    by_cases known : k ∈ rows.map key
    · obtain ⟨r, mem, rfl⟩ := mem_map.mp known
      have mem' := perm.mem_iff.mpr mem
      rw [mem_keptByQuery distinct mem, mem_keptByQuery distinct' mem',
        mem_keptByExport distinct mem,
        mem_keptByExport distinct' mem']
      exact ⟨not_congr (beaten_congr fun a => perm.mem_iff),
        not_congr (beaten_congr fun a => perm.mem_iff)⟩
    · have unknown : k ∉ rows'.map key := fun mem => known ((perm.map key).mem_iff.mp mem)
      exact ⟨iff_of_false (fun mem => unknown (keptByQuery_subset mem))
          fun mem => known (keptByQuery_subset mem),
        iff_of_false (fun mem => unknown (keptByExport_subset mem))
          fun mem => known (keptByExport_subset mem)⟩

/-- A group that is read is the one the row has. -/
theorem readGroup_eq_some (plain : PlainNames r.columns) {g : Int} (read : r.readGroup = some g) :
    ¬r.Lost ∧ ∃ group, r.group = some group ∧ u64AsI64 group.toNat = g := by
  rw [readGroup_eq plain] at read
  split at read
  · cases read
  · next kept => exact ⟨kept, Option.map_eq_some_iff.mp read⟩

theorem readGroup_of_group (plain : PlainNames r.columns) (kept : ¬r.Lost) {group : UInt64}
    (inside : r.group = some group) : r.readGroup = some (u64AsI64 group.toNat) := by
  rw [readGroup_eq plain, if_neg kept, inside]
  rfl

/-- With plain names a row matters whose group is lost, unless it is alone in its group. -/
theorem beaten_iff_lost (distinct : (rows.map key).Nodup)
    (plain : ∀ r ∈ rows, PlainNames r.columns) :
    (∀ r ∈ rows, Beaten readGroup key rows r ↔ Beaten group key rows r) ↔
      ∀ r ∈ rows, r.Lost → ∀ s ∈ rows, s.group = r.group → s = r := by
  have injective : ∀ {g g' : UInt64}, u64AsI64 g.toNat = u64AsI64 g'.toNat → g = g' :=
    fun same =>
      UInt64.toNat_inj.mp (u64AsI64_injective (UInt64.toNat_lt _) (UInt64.toNat_lt _) same)
  constructor
  · intro same r mem lost s mem_s together
    by_contra other
    obtain ⟨g, inside⟩ := Option.isSome_iff_exists.mp lost.1
    rw [inside] at together
    have unread : ¬Beaten readGroup key rows r := by
      rintro ⟨_, read, -⟩
      exact (readGroup_eq_some (plain r mem) read).1 lost
    have unbeaten : ¬Beaten group key rows r := fun beaten => unread ((same r mem).mpr beaten)
    have beats : ∀ t ∈ rows, t.group = some g → t ≠ r → Beaten group key rows t := by
      intro t mem_t group_t apart
      by_contra unbeaten_t
      exact apart (unbeaten_unique distinct mem_t mem group_t inside unbeaten_t unbeaten)
    obtain ⟨h, read_s, -⟩ := (same s mem_s).mpr (beats s mem_s together other)
    obtain ⟨m, mem_m, read_m, least⟩ := exists_unbeaten mem_s read_s
    obtain ⟨kept_m, g', group_m, value⟩ := readGroup_eq_some (plain m mem_m) read_m
    obtain ⟨-, g'', group_s, value'⟩ := readGroup_eq_some (plain s mem_s) read_s
    obtain rfl := Option.some.inj (together.symm.trans group_s)
    obtain rfl := injective (value.trans value'.symm)
    have apart : m ≠ r := by
      rintro rfl
      exact kept_m lost
    exact least ((same m mem_m).mpr (beats m mem_m group_m apart))
  · intro alone r mem
    constructor
    · rintro ⟨g, read, s, mem_s, read_s, less⟩
      obtain ⟨-, group, inside, rfl⟩ := readGroup_eq_some (plain r mem) read
      obtain ⟨-, group', inside', value⟩ := readGroup_eq_some (plain s mem_s) read_s
      obtain rfl := injective value
      exact ⟨group', inside, s, mem_s, inside', less⟩
    · rintro ⟨g, inside, s, mem_s, inside', less⟩
      have apart : s ≠ r := by
        rintro rfl
        simp at less
      have kept : ¬r.Lost := fun lost =>
        apart (alone r mem lost s mem_s (inside'.trans inside.symm))
      have kept' : ¬s.Lost := fun lost =>
        apart (alone s mem_s lost r mem (inside.trans inside'.symm)).symm
      exact ⟨_, readGroup_of_group (plain r mem) kept inside, s, mem_s,
        readGroup_of_group (plain s mem_s) kept' inside', less⟩

/-- Queries and exports keep the same rows if and only if the groups that queries read beat the
same rows as the groups do. Where no column name has an equals sign or a bar, that is if and only
if every row whose group cell follows a cell that ends in a backslash is alone in its group. -/
theorem notDuplicate_agrees_iff {F : Type} (fields : GroupedRow → List F) (rows : List GroupedRow)
    (distinct : (rows.map key).Nodup) :
    (Agree fields rows ↔ ∀ r ∈ rows, Beaten readGroup key rows r ↔ Beaten group key rows r) ∧
      ((∀ r ∈ rows, PlainNames r.columns) → (Agree fields rows ↔
        ∀ r ∈ rows, r.Lost → ∀ s ∈ rows, s.group = r.group → s = r)) :=
  ⟨agree_iff distinct, fun plain => (agree_iff distinct).trans (beaten_iff_lost distinct plain)⟩

/-- Two documents of one group, the first with a text of its own. -/
def twoDocs (body : String) (cell : UInt64 → GroupCell) : List GroupedRow :=
  [⟨ascii "docs:1", [(ascii "id", .integer 1), (ascii "body", .text (ascii body))],
    cell (2 ^ 63 + 7), [],
      by simpa using ⟨by decide, by decide⟩⟩,
    ⟨ascii "docs:2", [(ascii "id", .integer 2), (ascii "body", .text (ascii "b"))],
      .digits (2 ^ 63 + 7), [], by simpa using ⟨by decide, by decide⟩⟩]

/-- Signed in one row and by its digits in the other, a group above the signed range is one. -/
theorem notDuplicate_agrees_twoDocs : ((twoDocs "a" .signed).map key).Nodup ∧
    Agree (fun _ => ([] : List Unit)) (twoDocs "a" .signed) := by
  have distinct : ((twoDocs "a" .signed).map key).Nodup := by decide
  refine ⟨distinct, ((notDuplicate_agrees_iff _ _ distinct).2 ?_).mpr ?_⟩
  · unfold PlainNames
    decide
  · intro r mem lost
    have none_lost : ∀ r ∈ twoDocs "a" .signed, ¬r.Lost := by decide
    exact absurd lost (none_lost r mem)

/-- The body of the first document ends in a backslash: the query keeps both, the export one. -/
theorem notDuplicate_keeps_backslash : ((twoDocs "a\\" .digits).map key).Nodup ∧
    keptByQuery (twoDocs "a\\" .digits) = [ascii "docs:1", ascii "docs:2"] ∧
    keptByExport (fun _ => ([] : List Unit)) (twoDocs "a\\" .digits) = [ascii "docs:1"] ∧
    ¬Agree (fun _ => ([] : List Unit)) (twoDocs "a\\" .digits) := by
  have byQuery : keptByQuery (twoDocs "a\\" .digits) = [ascii "docs:1", ascii "docs:2"] := by
    decide +kernel
  have byExport : keptByExport (fun _ => ([] : List Unit)) (twoDocs "a\\" .digits) =
      [ascii "docs:1"] := by decide +kernel
  refine ⟨by decide, byQuery, byExport, fun agree => ?_⟩
  have same := agree.same
  rw [byQuery, byExport] at same
  cases same

end Agreement

end GalaxDb.Sql
