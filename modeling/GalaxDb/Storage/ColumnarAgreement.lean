import GalaxDb.Lib.Collect
import GalaxDb.Lib.KeepNewest
import GalaxDb.Storage.Snapshot
import GalaxDb.Storage.ZoneMaps
import Mathlib.Data.List.Perm.Subperm

/-!
# Column-major scans and the newest rows

A column-major scan decides for each key on the newest version that it sees, whichever of the
layouts holds it. It gives the cells of that version, unless a predicate's zone map rules out
the block; this goes wrong where the column of the predicate has an empty slot.
-/

namespace GalaxDb

open Std Row PaxBytes KeepNewest Engine List Option

namespace ScanColumnar

/-- A visible row and where it is: at a place of a block, or in the memtable. -/
structure Place where
  row : Row Bytes Bytes
  source : Option (PaxBlock × Nat)

section Visit

variable {columnZone : ColumnZone} {req : Request} {pfx : Bytes} {readTs : Timestamp}

def rowPlace (pfx : Bytes) (readTs : Timestamp) (block : PaxBlock) (r : SstRow × Nat) :
    Option Place :=
  if pfx.isPrefixOf r.1.key ∧ r.1.ts ≤ readTs then some ⟨r.1.toRow, some (block, r.2)⟩ else none

def memtablePlace (pfx : Bytes) (readTs : Timestamp) (entry : Bytes × VersionedValue) :
    Option Place :=
  if pfx.isPrefixOf entry.1 then
    (entry.2.getAtWithTs readTs).map fun found => ⟨⟨entry.1, found.2, found.1⟩, none⟩
  else none

/-- The visible rows under a prefix, in the order of a scan. -/
def places (e : Engine) (order : IterOrder) (pfx : Bytes) (readTs : Timestamp) : List Place :=
  (e.scanBlocks order).flatMap (fun block =>
      block.rows.zipIdx.filterMap (rowPlace pfx readTs block)) ++
    e.memtableMgr.active.iterAll.filterMap (memtablePlace pfx readTs)

/-- What a scan makes of a row whose value splits. -/
def staged (columnZone : ColumnZone) (req : Request) (p : Place) : Staged :=
  match p.row.val, p.source with
  | none, _ => .tombstone
  | some value, none => .cells (project req.proj ((req.reg.splitter.split value).getD []))
  | some value, some (block, row) =>
    if pruned columnZone req block then .excluded
    else if isColumnar req block then .cells (req.proj.map (typedCell block row))
    else .cells (project req.proj ((req.reg.splitter.split value).getD []))

abbrev Kept := ExtTreeMap Bytes Place compare

def keepPlace : Kept → Place → Kept := keep (·.row.key) (·.row.ts)

/-- The winners that the kept places make. -/
def stage (columnZone : ColumnZone) (req : Request) (kept : Kept) : Winners :=
  kept.map fun _ p => (p.row.ts, staged columnZone req p)

variable {kept : Kept} {p : Place}

theorem stage_insert {key : Bytes} : stage columnZone req (kept.insert key p) =
      (stage columnZone req kept).insert key (p.row.ts, staged columnZone req p) := by
  refine ExtTreeMap.ext_getElem? fun k => ?_
  rw [stage, stage, ExtTreeMap.getElem?_map, ExtTreeMap.getElem?_insert,
    ExtTreeMap.getElem?_insert, ExtTreeMap.getElem?_map]
  split
  · rfl
  · rfl

/-- To consider a place as it is staged is to keep it, and to stage what is kept. -/
theorem consider_stage :
    consider (stage columnZone req kept) p.row.key p.row.ts (staged columnZone req p) =
      stage columnZone req (keepPlace kept p) := by
  have found : (stage columnZone req kept)[p.row.key]? =
      (kept[p.row.key]?).map fun q => (q.row.ts, staged columnZone req q) :=
    ExtTreeMap.getElem?_map
  rw [consider, found, keepPlace, keep]
  cases kept[p.row.key]? with
  | none => exact stage_insert.symm
  | some q =>
    simp only [map_some]
    split
    · rfl
    · exact stage_insert.symm

/-- Every visible value splits. -/
def Splits (splitter : RowColumnSplitter) (p : Place) : Prop :=
  ∀ value, p.row.val = some value → (splitter.split value).isSome

theorem blockRow_stage {block : PaxBlock} {r : SstRow × Nat}
    (splits : ∀ p, rowPlace req.reg.pfx req.readTs block r = some p → Splits req.reg.splitter p) :
    blockRow columnZone req block (stage columnZone req kept) r = stage columnZone req
        ((rowPlace req.reg.pfx req.readTs block r).elim kept (keepPlace kept)) := by
  by_cases seen : req.reg.pfx.isPrefixOf r.1.key ∧ r.1.ts ≤ req.readTs
  · have place : rowPlace req.reg.pfx req.readTs block r =
        some ⟨r.1.toRow, some (block, r.2)⟩ := if_pos seen
    have split := splits _ place
    rw [place, elim_some, ← consider_stage, blockRow]
    simp only [seen.1, Bool.not_true, Bool.false_eq_true, ↓reduceIte, Nat.not_lt_of_le seen.2]
    by_cases dead : r.1.value = []
    · simp [dead, staged, SstRow.toRow]
    · obtain ⟨full, cut⟩ := isSome_iff_exists.mp (split r.1.value (if_neg dead))
      simp only [dead, ↓reduceIte, staged, SstRow.toRow, cut, getD_some]
      split
      · rfl
      · split <;> rfl
  · have hidden : rowPlace req.reg.pfx req.readTs block r = none := if_neg seen
    rw [hidden, elim_none, blockRow]
    by_cases inside : req.reg.pfx.isPrefixOf r.1.key
    · have later : req.readTs < r.1.ts := Nat.lt_of_not_le fun le => seen ⟨inside, le⟩
      simp [inside, later]
    · simp [inside]

theorem memtableRow_stage {entry : Bytes × VersionedValue}
    (splits : ∀ p, memtablePlace req.reg.pfx req.readTs entry = some p →
      Splits req.reg.splitter p) :
    memtableRow req (stage columnZone req kept) entry = stage columnZone req
        ((memtablePlace req.reg.pfx req.readTs entry).elim kept (keepPlace kept)) := by
  by_cases inside : req.reg.pfx.isPrefixOf entry.1
  · cases found : entry.2.getAtWithTs req.readTs with
    | none => simp [memtableRow, memtablePlace, inside, found]
    | some version =>
      obtain ⟨value, ts⟩ := version
      have place : memtablePlace req.reg.pfx req.readTs entry =
          some ⟨⟨entry.1, ts, value⟩, none⟩ := by
        simp [memtablePlace, inside, found]
      have split := splits _ place
      rw [place, elim_some, ← consider_stage, memtableRow]
      simp only [inside, Bool.not_true, Bool.false_eq_true, ↓reduceIte, found]
      cases value with
      | none => rfl
      | some value =>
        obtain ⟨full, cut⟩ := isSome_iff_exists.mp (split value rfl)
        simp only [staged, cut, getD_some]
  · simp [memtableRow, memtablePlace, inside]

theorem foldl_stage {α : Type*} {visit : Winners → α → Winners} {place : α → Option Place}
    {items : List α} {kept : Kept}
    (one : ∀ a ∈ items, ∀ kept, visit (stage columnZone req kept) a =
      stage columnZone req ((place a).elim kept (keepPlace kept))) :
    items.foldl visit (stage columnZone req kept) =
      stage columnZone req ((items.filterMap place).foldl keepPlace kept) := by
  induction items generalizing kept with
  | nil => rfl
  | cons a items ih =>
    rw [foldl_cons, one a mem_cons_self, filterMap_cons]
    have rest := @ih ((place a).elim kept (keepPlace kept)) fun b mem => one b (by simp [mem])
    cases seen : place a with
    | none =>
      rw [seen] at rest
      exact rest
    | some p =>
      rw [seen] at rest
      exact rest

/-- The winners of a scan are the places that decide, as they are staged. -/
theorem winners_eq {e : Engine} {order : IterOrder}
    (splits : ∀ p ∈ places e order req.reg.pfx req.readTs, Splits req.reg.splitter p) :
    e.memtableMgr.active.iterAll.foldl (memtableRow req)
        ((e.scanBlocks order).foldl (blockRows columnZone req) ∅) =
      stage columnZone req ((places e order req.reg.pfx req.readTs).foldl keepPlace ∅) := by
  have stored (blocks : List PaxBlock) (splits : ∀ block ∈ blocks, ∀ p ∈ block.rows.zipIdx.filterMap
        (rowPlace req.reg.pfx req.readTs block), Splits req.reg.splitter p) (kept : Kept) :
      blocks.foldl (blockRows columnZone req) (stage columnZone req kept) =
        stage columnZone req ((blocks.flatMap fun block => block.rows.zipIdx.filterMap
          (rowPlace req.reg.pfx req.readTs block)).foldl keepPlace kept) := by
    induction blocks generalizing kept with
    | nil => rfl
    | cons block blocks ih =>
      rw [foldl_cons, blockRows, foldl_stage, ih, flatMap_cons, foldl_append]
      · exact fun b mem => splits b (by simp [mem])
      · intro r mem kept
        refine blockRow_stage fun p place => splits block (by simp) p ?_
        exact mem_filterMap.mpr ⟨r, mem, place⟩
  have empty : (∅ : Winners) = stage columnZone req ∅ := rfl
  rw [places] at splits ⊢
  rw [empty, stored, foldl_stage, foldl_append]
  · intro entry mem kept
    refine memtableRow_stage fun p place => splits p (mem_append_right _ ?_)
    exact mem_filterMap.mpr ⟨entry, mem, place⟩
  · intro block mem p inside
    refine splits p (mem_append_left _ ?_)
    exact mem_flatMap.mpr ⟨block, mem, inside⟩

end Visit

section Live

variable {e : Engine} {order : IterOrder} {pfx : Bytes} {readTs : Timestamp}

theorem mem_places {p : Place} : p ∈ places e order pfx readTs ↔ pfx.isPrefixOf p.row.key ∧
      ((∃ block row r, block ∈ e.scanBlocks order ∧ block.rows[row]? = some r ∧ r.ts ≤ readTs ∧
          p = ⟨r.toRow, some (block, row)⟩) ∨
        ∃ v, e.memtableMgr.active.map[p.row.key]? = some v ∧
          v.getAtWithTs readTs = some (p.row.val, p.row.ts) ∧ p.source = none) := by
  rw [places, mem_append, mem_flatMap, mem_filterMap]
  constructor
  · rintro (⟨block, at_block, mem⟩ | ⟨entry, at_entry, place⟩)
    · obtain ⟨r, at_r, place⟩ := mem_filterMap.mp mem
      rw [rowPlace] at place
      split at place
      · next seen =>
        obtain rfl := some.inj place
        exact ⟨seen.1, .inl ⟨block, r.2, r.1, at_block, mem_zipIdx_iff_getElem?.mp at_r,
          seen.2, rfl⟩⟩
      · cases place
    · rw [memtablePlace] at place
      split at place
      · next inside =>
        obtain ⟨version, read, rfl⟩ := map_eq_some_iff.mp place
        exact ⟨inside, .inr ⟨entry.2, Memtable.mem_iterAll.mp at_entry, read, rfl⟩⟩
      · cases place
  · rintro ⟨inside, ⟨block, row, r, at_block, at_row, le, rfl⟩ | ⟨v, found, read, memory⟩⟩
    · refine .inl ⟨block, at_block, mem_filterMap.mpr ⟨(r, row), ?_, if_pos ⟨inside, le⟩⟩⟩
      exact mem_zipIdx_iff_getElem?.mpr at_row
    · refine .inr ⟨(p.row.key, v), Memtable.mem_iterAll.mpr found, ?_⟩
      obtain ⟨row, source⟩ := p
      obtain rfl : source = none := memory
      rw [memtablePlace, if_pos inside, read]
      rfl

theorem exists_place_iff {x : Row Bytes Bytes} : (∃ p ∈ places e order pfx readTs, p.row = x) ↔
      x ∈ e.visitedRows order readTs ∧ pfx.isPrefixOf x.key := by
  have stored : x ∈ e.storedRows ↔ ∃ block ∈ e.scanBlocks order, ∃ r ∈ block.rows, r.toRow = x := by
    rw [storedRows, List.mem_map]
    simp only [← mem_scanRows order, scanRows, mem_flatMap]
    tauto
  rw [mem_visitedRows, stored]
  constructor
  · rintro ⟨p, mem, rfl⟩
    obtain ⟨inside, ⟨block, row, r, at_block, at_row, le, rfl⟩ | ⟨v, found, read, _⟩⟩ :=
      mem_places.mp mem
    · exact ⟨.inl ⟨⟨block, at_block, r, mem_of_getElem? at_row, rfl⟩, le⟩, inside⟩
    · exact ⟨.inr ⟨v, found, read⟩, inside⟩
  · rintro ⟨⟨⟨block, at_block, r, at_r, rfl⟩, le⟩ | ⟨v, found, read⟩, inside⟩
    · obtain ⟨row, at_row⟩ := mem_iff_getElem?.mp at_r
      refine ⟨⟨r.toRow, some (block, row)⟩, mem_places.mpr ⟨inside, .inl ?_⟩, rfl⟩
      exact ⟨block, row, r, at_block, at_row, le, rfl⟩
    · exact ⟨⟨x, none⟩, mem_places.mpr ⟨inside, .inr ⟨v, found, read, rfl⟩⟩, rfl⟩

/-- The place that decides holds the newest visible row of its key. -/
theorem newest_of_decides (distinct : Distinct e.allRows)
    (chained : e.memtableMgr.active.Chained) {p : Place}
    (decides : Decides (·.row.key) (·.row.ts) (places e order pfx readTs) p) :
    Newest (visible readTs e.allRows) p.row.key p.row := by
  rw [← newest_visitedRows distinct chained order readTs]
  obtain ⟨visited, inside⟩ := exists_place_iff.mp ⟨p, decides.mem, rfl⟩
  refine ⟨visited, rfl, fun x hx same => ?_⟩
  obtain ⟨q, hq, rfl⟩ := exists_place_iff.mpr ⟨hx, same ▸ inside⟩
  exact decides.newest hq same

theorem exists_decides (distinct : Distinct e.allRows) (chained : e.memtableMgr.active.Chained)
    {n : Row Bytes Bytes} (newest : Newest (visible readTs e.allRows) n.key n)
    (inside : pfx.isPrefixOf n.key) :
    ∃ p, Decides (·.row.key) (·.row.ts) (places e order pfx readTs) p ∧ p.row = n := by
  have visited := (newest_visitedRows distinct chained order readTs).mpr newest
  obtain ⟨q, hq, rfl⟩ := exists_place_iff.mpr ⟨visited.1, inside⟩
  cases found : ((places e order pfx readTs).foldl keepPlace ∅)[q.row.key]? with
  | none => exact absurd rfl (foldl_keep_eq_none found q hq)
  | some p =>
    obtain ⟨decides, same⟩ := foldl_keep_iff.mp found
    refine ⟨p, decides, ?_⟩
    have newest' := newest_of_decides distinct chained decides
    rw [same] at newest'
    exact newest_unique (distinct.sublist fun x hx => (mem_visible.mp hx).1) newest' newest

end Live

section Cells

/-- The typed columns of a block are the ones that the splitter of a table cuts from its values,
and their zone maps are in its header. -/
structure OwnColumns (columnZone : ColumnZone) (splitter : RowColumnSplitter) (block : PaxBlock) :
    Prop where
  cut : ∃ values, values.map (·.getD []) = block.rows.map SstRow.value ∧
    columnarDataColumns splitter values = some block.dataColumns
  zone : ∀ c colType column, splitter.columnTypes[c]? = some colType →
    block.dataColumns[2 * c]? = some column →
    columnZone block (dataColumnIndex c) = some (extractZoneMap colType column)

variable {columnZone : ColumnZone} {splitter : RowColumnSplitter} {block : PaxBlock} {row c : Nat}
  {r : SstRow} {full : List (Option Bytes)}

variable {colType : ColumnType}

/-- The slot of a live row in its typed column, and its cell. -/
theorem OwnColumns.slot (own : OwnColumns columnZone splitter block)
    (at_row : block.rows[row]? = some r) (live : r.value ≠ [])
    (split : splitter.split r.value = some full) (at_c : splitter.columnTypes[c]? = some colType) :
    ∃ column, block.dataColumns[2 * c]? = some column ∧
      column[row]? = some ((full[c]?.join).getD (placeholderBytes colType)) ∧
      typedCell block row c = full[c]?.join := by
  obtain ⟨values, same, cut⟩ := own.cut
  have at_value : values[row]? = some (some r.value) := by
    have mapped := congrArg (·[row]?) same
    simp only [getElem?_map, at_row, map_some] at mapped
    obtain ⟨value, at_value, eq⟩ := map_eq_some_iff.mp mapped
    cases value with
    | none => exact absurd eq.symm live
    | some value => rw [at_value, ← show value = r.value from eq]
  rw [columnarDataColumns] at cut
  split at cut
  · cases cut
  · obtain ⟨rows, made, columns⟩ := map_eq_some_iff.mp cut
    obtain ⟨cells, row_cells, at_cells⟩ := Collect.getElem?_mapM made at_value
    obtain rfl : full = cells := by
      simp only [rowCells, split, bind_some, ite_none_right_eq_some,
        some.injEq] at row_cells
      exact row_cells.2
    have data : block.dataColumns[2 * c]? =
        some (rows.map fun cells => (cells[c]?.join).getD (placeholderBytes colType)) := by
      rw [← columns, getElem?_flatMap_pair, getElem?_zipIdx, at_c]
      simp
    have valid : block.dataColumns[2 * c + 1]? =
        some (rows.map fun cells => [if (cells[c]?.join).isSome then 1 else 0]) := by
      rw [← columns, getElem?_flatMap_pair_succ, getElem?_zipIdx, at_c]
      simp
    refine ⟨_, data, by rw [getElem?_map, at_cells]; rfl, ?_⟩
    rw [typedCell, data, valid]
    simp only [bind_some, getElem?_map, at_cells, map_some, getD_some]
    cases full[c]?.join <;> simp

/-- The cells that a splitter cuts have the width of their types. -/
def Typed (splitter : RowColumnSplitter) : Prop :=
  ∀ value full, splitter.split value = some full → ∀ (c : Nat) (colType : ColumnType) (v : Bytes),
    splitter.columnTypes[c]? = some colType → full[c]?.join = some v → HasWidth colType v

def TypedConstants (splitter : RowColumnSplitter) (predicates : List ColumnPredicate) : Prop :=
  ∀ p ∈ predicates, ∀ colType, splitter.columnTypes[p.column]? = some colType →
    HasWidth colType p.value

/-- The order of numbers and of bytes, and of the bits of floats. -/
def valueOrder (colType : ColumnType) (a b : Bytes) : Ordering :=
  if isOrdered colType then typeOrder colType a b
  else compare (toComparableBytes colType a) (toComparableBytes colType b)

/-- No NULL satisfies a predicate. -/
def Satisfies (splitter : RowColumnSplitter) (predicates : List ColumnPredicate)
    (full : List (Option Bytes)) : Prop :=
  ∀ p ∈ predicates, ∃ colType v, splitter.columnTypes[p.column]? = some colType ∧
    full[p.column]?.join = some v ∧ p.op.holds (valueOrder colType v p.value)

theorem valueOrder_eq {a b : Bytes} (ha : HasWidth colType a) (hb : HasWidth colType b) :
    valueOrder colType a b =
      compare (toComparableBytes colType a) (toComparableBytes colType b) := by
  rw [valueOrder]
  split
  · next ordered => exact (compare_toComparableBytes ordered ha hb).symm
  · rfl

/-- A column with an empty slot has no width. -/
theorem OwnColumns.unsized (own : OwnColumns columnZone splitter block) (typed : Typed splitter)
    (at_c : splitter.columnTypes[c]? = some colType) {column : List Bytes}
    (at_column : block.dataColumns[2 * c]? = some column) (empty : [] ∈ column) :
    colType.packedWidth = none := by
  obtain ⟨values, _, cut⟩ := own.cut
  obtain ⟨rows, made, at_data⟩ := columnarDataColumns_typed cut at_c
  obtain rfl := some.inj (at_column.symm.trans at_data)
  cases packed : colType.packedWidth with
  | none => rfl
  | some width =>
    obtain ⟨cell, at_cell, empty⟩ := List.mem_map.mp empty
    have positive := (packedWidth_bounds packed).1
    have length : (cell.getD (placeholderBytes colType)).length = width := by
      cases cell with
      | none => exact hasWidth_placeholder width packed
      | some v =>
        obtain ⟨cells, at_cells, same⟩ := List.mem_map.mp at_cell
        obtain ⟨n, at_n⟩ := mem_iff_getElem?.mp at_cells
        obtain ⟨value, _, split⟩ := Collect.getElem?_of_mapM made at_n
        cases value with
        | none =>
          obtain rfl := some.inj split
          rw [getElem?_replicate] at same
          split at same <;> cases same
        | some value =>
          rw [rowCells, bind_eq_some_iff] at split
          obtain ⟨parts, cut, whole⟩ := split
          split at whole
          · obtain rfl := some.inj whole
            exact typed value parts cut c colType v at_c same width packed
          · cases whole
    rw [empty] at length
    simp at length
    omega

/-- A block with a satisfying row is ruled out only by a column with an empty slot. -/
theorem pruned_iff {req : Request} (own : OwnColumns columnZone req.reg.splitter block)
    (typed : Typed req.reg.splitter) (constants : TypedConstants req.reg.splitter req.predicates)
    (counted : isColumnar req block) (at_row : block.rows[row]? = some r) (live : r.value ≠ [])
    (split : req.reg.splitter.split r.value = some full)
    (satisfied : Satisfies req.reg.splitter req.predicates full) :
    pruned columnZone req block ↔
      ∃ p ∈ req.predicates, ∃ column, block.dataColumns[2 * p.column]? = some column ∧
        [] ∈ column := by
  rw [pruned, counted, Bool.true_and, List.any_eq_true]
  refine exists_congr fun p => and_congr_right fun mem => ?_
  obtain ⟨colType, v, at_c, cell, holds⟩ := satisfied p mem
  obtain ⟨column, at_column, slot, _⟩ := own.slot at_row live split at_c
  have inside : v ∈ column := by
    rw [cell] at slot
    exact mem_of_getElem? slot
  have width : HasWidth colType v := typed _ full split _ colType v at_c cell
  have bounds := @extractZoneMap_bounds colType column v inside
  have ends := @extractZoneMap_mem colType column (ne_nil_of_mem inside)
  rw [valueOrder_eq width (constants p mem colType at_c)] at holds
  simp only [own.zone _ colType column at_c at_column, at_c, Bool.not_eq_true', at_column,
    some.injEq, exists_eq_left']
  constructor
  · intro ruled_out
    by_contra filled
    have low : (extractZoneMap colType column).1 ≠ [] := fun eq => filled (eq ▸ ends.1)
    have high : (extractZoneMap colType column).2 ≠ [] := fun eq => filled (eq ▸ ends.2)
    have matched := zoneMapCanMatch_of_comparable low high bounds.1 bounds.2 holds
    simp [ruled_out] at matched
  · intro empty
    have least := extractZoneMap_nil (own.unsized typed at_c at_column empty) empty
    simp [zoneMapCanMatch, least]

end Cells

section Agreement

/-- The cells of a row that is not deleted. -/
def Place.cells (splitter : RowColumnSplitter) (p : Place) : Option (List (Option Bytes)) :=
  p.row.val.bind splitter.split

/-- The blocks that have as many columns as the table, and rows of it, have the table's columns. -/
def TableBlocks (columnZone : ColumnZone) (reg : SplitterRegistration) (blocks : List PaxBlock) :
    Prop :=
  ∀ block ∈ blocks, block.dataColumns ≠ [] →
    block.dataColumns.length = 2 * reg.splitter.columnTypes.length →
    (∃ r ∈ block.rows, reg.pfx.isPrefixOf r.key) → OwnColumns columnZone reg.splitter block

/-- A batch of rows, by column. -/
def batchOf (splitter : RowColumnSplitter) (proj : List Nat)
    (rows : List (List (Option Bytes))) : ColumnarBatch :=
  { numRows := rows.length
    columns := proj.map fun c =>
      (splitter.columnTypes.getD c .blob, rows.map fun full => full[c]?.join) }

/-- The rows of a table that are live for a reader, by key and with all cells. -/
structure LiveRows (e : Engine) (reg : SplitterRegistration) (readTs : Timestamp)
    (live : List (Bytes × List (Option Bytes))) : Prop where
  ordered : live.Pairwise fun a b => compare a.1 b.1 = .lt
  mem : ∀ k full, (k, full) ∈ live ↔ reg.pfx.isPrefixOf k ∧
    ∃ v ts, Newest (visible readTs e.allRows) k ⟨k, ts, some v⟩ ∧ reg.splitter.split v = some full

variable {e : Engine} {order : IterOrder} {columnZone : ColumnZone} {req : Request}

def deciding (e : Engine) (order : IterOrder) (req : Request) : List (Bytes × Place) :=
  ((places e order req.reg.pfx req.readTs).foldl keepPlace ∅).toList

variable {splitter : RowColumnSplitter} {full : List (Option Bytes)} {p : Place} {k : Bytes}

theorem mem_deciding : (k, p) ∈ deciding e order req ↔
      Decides (·.row.key) (·.row.ts) (places e order req.reg.pfx req.readTs) p ∧ p.row.key = k := by
  rw [deciding, ExtTreeMap.mem_toList_iff_getElem?_eq_some]
  exact foldl_keep_iff

theorem ordered_deciding : (deciding e order req).Pairwise fun a b => compare a.1 b.1 = .lt :=
  ExtTreeMap.ordered_keys_toList

/-- The rows of the places that pass a test, by key. -/
def rowsOf (splitter : RowColumnSplitter) (test : Place → Bool) (decided : List (Bytes × Place)) :
    List (Bytes × List (Option Bytes)) :=
  decided.filterMap fun d =>
    if test d.2 then (d.2.cells splitter).map fun full => (d.1, full) else none

variable {decided : List (Bytes × Place)} {test : Place → Bool}

theorem mem_rowsOf : (k, full) ∈ rowsOf splitter test decided ↔
      ∃ p, (k, p) ∈ decided ∧ test p ∧ p.cells splitter = some full := by
  simp only [rowsOf, mem_filterMap, ite_none_right_eq_some, map_eq_some_iff,
    Prod.mk.injEq, Prod.exists]
  constructor
  · rintro ⟨_, p, mem, passed, _, cells, rfl, rfl⟩
    exact ⟨p, mem, passed, cells⟩
  · rintro ⟨p, mem, passed, cells⟩
    exact ⟨k, p, mem, passed, full, cells, rfl, rfl⟩

theorem rowsOf_sublist :
    (rowsOf splitter test decided).Sublist (rowsOf splitter (fun _ => true) decided) := by
  induction decided with
  | nil => exact List.Sublist.refl _
  | cons d decided ih =>
    rw [rowsOf, rowsOf, filterMap_cons, filterMap_cons]
    by_cases passed : test d.2
    · simp only [passed, ↓reduceIte]
      cases d.2.cells splitter with
      | none => exact ih
      | some full => exact ih.cons_cons _
    · simp only [passed, Bool.false_eq_true, ↓reduceIte]
      cases d.2.cells splitter with
      | none => exact ih
      | some full => exact ih.cons _

theorem liveRows_rowsOf (distinct : Distinct e.allRows) (chained : e.memtableMgr.active.Chained) :
    LiveRows e req.reg req.readTs
      (rowsOf req.reg.splitter (fun _ => true) (deciding e order req)) := by
  constructor
  · refine List.Pairwise.filterMap _ (fun a b before a' ha b' hb => ?_) ordered_deciding
    simp only [↓reduceIte, map_eq_some_iff] at ha hb
    obtain ⟨_, _, rfl⟩ := ha
    obtain ⟨_, _, rfl⟩ := hb
    exact before
  · intro k full
    rw [mem_rowsOf]
    constructor
    · rintro ⟨p, mem, -, cells⟩
      obtain ⟨decides, rfl⟩ := mem_deciding.mp mem
      obtain ⟨v, live, split⟩ := bind_eq_some_iff.mp cells
      have newest := newest_of_decides distinct chained decides
      obtain ⟨⟨key, ts, val⟩, source⟩ := p
      obtain rfl : val = some v := live
      exact ⟨(mem_places.mp decides.mem).1, v, ts, newest, split⟩
    · rintro ⟨inside, v, ts, newest, split⟩
      obtain ⟨p, decides, row⟩ := exists_decides distinct chained newest inside
      refine ⟨p, mem_deciding.mpr ⟨decides, by rw [row]⟩, rfl, ?_⟩
      rw [Place.cells, row]
      exact split

/-- Whether a scan gives the row of a place, if it is live. -/
def given (columnZone : ColumnZone) (req : Request) (p : Place) : Bool :=
  staged columnZone req p != .excluded

/-- The cells of the newest versions that are read from typed columns are the ones that the
splitter cuts. -/
def CellsRead (e : Engine) (order : IterOrder) (reg : SplitterRegistration) (readTs : Timestamp) :
    Prop :=
  ∀ p, Decides (·.row.key) (·.row.ts) (places e order reg.pfx readTs) p →
    ∀ full, p.cells reg.splitter = some full → ∀ block row, p.source = some (block, row) →
      block.dataColumns.length = 2 * reg.splitter.columnTypes.length →
      ∀ c < reg.splitter.columnTypes.length, typedCell block row c = full[c]?.join

theorem isColumnar_iff {block : PaxBlock} : isColumnar req block ↔
    block.dataColumns.length = 2 * req.reg.splitter.columnTypes.length := by
  rw [isColumnar, beq_iff_eq]
  omega

/-- A row that is live is staged with its projected cells, unless its block is ruled out. -/
theorem cells_staged (read : CellsRead e order req.reg req.readTs)
    (inRange : ∀ c ∈ req.proj, c < req.reg.splitter.columnTypes.length)
    (decides : Decides (·.row.key) (·.row.ts) (places e order req.reg.pfx req.readTs) p)
    (splits : Splits req.reg.splitter p) :
    (staged columnZone req p).cells? =
      if given columnZone req p then (p.cells req.reg.splitter).map (project req.proj)
      else none := by
  have read := read p decides
  obtain ⟨⟨key, ts, val⟩, source⟩ := p
  cases val with
  | none => simp [staged, Staged.cells?, given, Place.cells]
  | some value =>
    obtain ⟨full, split⟩ := isSome_iff_exists.mp (splits value rfl)
    cases source with
    | none => simp [staged, Staged.cells?, given, Place.cells, split]
    | some at_row =>
      obtain ⟨block, row⟩ := at_row
      by_cases ruled_out : pruned columnZone req block
      · simp [staged, ruled_out, Staged.cells?, given]
      · by_cases counted : isColumnar req block
        · have typed : req.proj.map (typedCell block row) = project req.proj full :=
            map_congr_left fun c at_c =>
              read full split block row rfl (isColumnar_iff.mp counted) c (inRange c at_c)
          simp [staged, ruled_out, counted, Staged.cells?, given, Place.cells, split, typed]
        · simp [staged, ruled_out, counted, Staged.cells?, given, Place.cells, split]

theorem rows_staged : (stage columnZone req
      ((places e order req.reg.pfx req.readTs).foldl keepPlace ∅)).toList.filterMap
        (fun w => w.2.2.cells?) =
      (deciding e order req).filterMap fun d => (staged columnZone req d.2).cells? := by
  rw [stage, ExtTreeMap.toList_map, filterMap_map, deciding]
  rfl

/-- The batch of a scan has the projected cells of the live rows whose block is not ruled out. -/
theorem assemble_eq (read : CellsRead e order req.reg req.readTs)
    (inRange : ∀ c ∈ req.proj, c < req.reg.splitter.columnTypes.length)
    (splits : ∀ p ∈ places e order req.reg.pfx req.readTs, Splits req.reg.splitter p) :
    assemble req (stage columnZone req
        ((places e order req.reg.pfx req.readTs).foldl keepPlace ∅)) =
      batchOf req.reg.splitter req.proj
        ((rowsOf req.reg.splitter (given columnZone req) (deciding e order req)).map Prod.snd) := by
  have rows : (stage columnZone req
      ((places e order req.reg.pfx req.readTs).foldl keepPlace ∅)).toList.filterMap
        (fun w => w.2.2.cells?) =
      ((rowsOf req.reg.splitter (given columnZone req) (deciding e order req)).map
        Prod.snd).map (project req.proj) := by
    rw [rows_staged, rowsOf, map_filterMap, map_filterMap]
    refine filterMap_congr fun d mem => ?_
    have decides := (mem_deciding.mp mem).1
    simp only [cells_staged read inRange decides (splits _ decides.mem)]
    by_cases shown : given columnZone req d.2
    · simp only [shown, ↓reduceIte, Option.map_map]
      rfl
    · simp [shown]
  rw [assemble, batchOf, rows]
  refine congrArg₂ ColumnarBatch.mk (by simp) (ext_getElem? fun i => ?_)
  rw [getElem?_map, getElem?_map, getElem?_zipIdx, Option.map_map]
  cases at_i : req.proj[i]? with
  | none => rfl
  | some c => simp [project, at_i]

/-- The columns that a scan gives for a projection. -/
def columnsOf (splitter : RowColumnSplitter) (projection : List Nat) : List Nat :=
  if projection = [] then List.range splitter.columnTypes.length else projection

variable {registrations : List SplitterRegistration} {reg : SplitterRegistration}
  {projection : List Nat} {predicates : List ColumnPredicate} {readTs : Timestamp}

theorem columnsOf_inRange (inRange : ∀ c ∈ projection, c < reg.splitter.columnTypes.length) :
    ∀ c ∈ columnsOf reg.splitter projection, c < reg.splitter.columnTypes.length := by
  intro c mem
  rw [columnsOf] at mem
  split at mem
  · exact mem_range.mp mem
  · exact inRange c mem

theorem scan_assembles (registered : registrations.find? (fun r => r.pfx == reg.pfx) = some reg)
    (inRange : ∀ c ∈ projection, c < reg.splitter.columnTypes.length)
    (splits : ∀ p ∈ places e order reg.pfx readTs, Splits reg.splitter p) :
    let req : Request := ⟨reg, columnsOf reg.splitter projection, predicates, readTs⟩
    scan columnZone registrations (e.scanBlocks order) e.memtableMgr.active reg.pfx projection
        predicates readTs =
      .ok (assemble req (stage columnZone req
        ((places e order reg.pfx readTs).foldl keepPlace ∅))) := by
  have none_outside : (columnsOf reg.splitter projection).find?
      (fun p => reg.splitter.columnTypes.length ≤ p) = none := by
    refine find?_eq_none.mpr fun c mem => ?_
    simpa using columnsOf_inRange inRange c mem
  have winners := @winners_eq columnZone
    ⟨reg, columnsOf reg.splitter projection, predicates, readTs⟩ e order splits
  dsimp only
  rw [← winners]
  rw [columnsOf] at none_outside ⊢
  simp only [scan, registered, none_outside]

theorem scan_eq (registered : registrations.find? (fun r => r.pfx == reg.pfx) = some reg)
    (inRange : ∀ c ∈ projection, c < reg.splitter.columnTypes.length)
    (read : CellsRead e order reg readTs)
    (splits : ∀ p ∈ places e order reg.pfx readTs, Splits reg.splitter p) :
    scan columnZone registrations (e.scanBlocks order) e.memtableMgr.active reg.pfx projection
        predicates readTs =
      .ok (batchOf reg.splitter (columnsOf reg.splitter projection) ((rowsOf reg.splitter
          (given columnZone ⟨reg, columnsOf reg.splitter projection, predicates, readTs⟩)
          (deciding e order ⟨reg, columnsOf reg.splitter projection, predicates, readTs⟩)).map
            Prod.snd)) := by
  rw [scan_assembles registered inRange splits]
  exact congrArg Except.ok (@assemble_eq e order columnZone
    ⟨reg, columnsOf reg.splitter projection, predicates, readTs⟩ read
    (columnsOf_inRange inRange) splits)

/-- No block is ruled out that the newest version of a satisfying row is read from. -/
def BlocksKept (columnZone : ColumnZone) (e : Engine) (order : IterOrder)
    (reg : SplitterRegistration) (readTs : Timestamp) (predicates : List ColumnPredicate) : Prop :=
  ∀ p, Decides (·.row.key) (·.row.ts) (places e order reg.pfx readTs) p →
    ∀ full, p.cells reg.splitter = some full → Satisfies reg.splitter predicates full →
      ∀ block row, p.source = some (block, row) →
        ¬ pruned columnZone ⟨reg, [], predicates, readTs⟩ block

/-- The row that decides on a key is live, satisfies the predicates and lies in a block with the
columns of the table: then the columns that they are about have no empty slot there. -/
def NoEmptySlot (e : Engine) (order : IterOrder) (reg : SplitterRegistration) (readTs : Timestamp)
    (predicates : List ColumnPredicate) : Prop :=
  ∀ p, Decides (·.row.key) (·.row.ts) (places e order reg.pfx readTs) p →
    ∀ full, p.cells reg.splitter = some full → Satisfies reg.splitter predicates full →
      ∀ block row, p.source = some (block, row) →
        block.dataColumns.length = 2 * reg.splitter.columnTypes.length →
        ∀ q ∈ predicates, ∀ column, block.dataColumns[2 * q.column]? = some column → [] ∉ column

/-- The scan gives some of the live rows, projected and by key: all that satisfy the predicates. -/
def Agrees (columnZone : ColumnZone) (registrations : List SplitterRegistration) (e : Engine)
    (order : IterOrder) (reg : SplitterRegistration) (readTs : Timestamp)
    (predicates : List ColumnPredicate) (projection : List Nat) : Prop :=
  ∃ live kept, LiveRows e reg readTs live ∧ kept.Sublist live ∧
    (∀ r ∈ live, Satisfies reg.splitter predicates r.2 → r ∈ kept) ∧
    (predicates = [] → kept = live) ∧
    scan columnZone registrations (e.scanBlocks order) e.memtableMgr.active reg.pfx projection
        predicates readTs =
      .ok (batchOf reg.splitter (columnsOf reg.splitter projection) (kept.map Prod.snd))

theorem given_iff (cells : p.cells req.reg.splitter = some full) : given columnZone req p ↔
      ∀ block row, p.source = some (block, row) → ¬ pruned columnZone req block := by
  obtain ⟨value, at_value, split⟩ := bind_eq_some_iff.mp cells
  cases source : p.source with
  | none => simp [given, staged, at_value, source]
  | some at_row =>
    obtain ⟨block, row⟩ := at_row
    rw [given, staged, at_value, source]
    by_cases ruled_out : pruned columnZone req block
    · simp [ruled_out]
    · have shown : ∀ block' row', some (block, row) = some (block', row') →
          ¬ pruned columnZone req block' := by
        rintro _ _ ⟨⟩
        exact ruled_out
      simp only [ruled_out, Bool.false_eq_true, ↓reduceIte]
      refine iff_of_true ?_ shown
      split <;> rfl

section Own

variable (blocks : TableBlocks columnZone reg (e.scanBlocks order))
include blocks

/-- A live row of a block with the table's columns is a row of the table. -/
theorem own_of_decides (decides : Decides (·.row.key) (·.row.ts) (places e order reg.pfx readTs) p)
    (cells : p.cells reg.splitter = some full) {block : PaxBlock} {row : Nat}
    (source : p.source = some (block, row))
    (counted : block.dataColumns.length = 2 * reg.splitter.columnTypes.length) :
    reg.splitter.columnTypes = [] ∨ OwnColumns columnZone reg.splitter block ∧
      ∃ r, block.rows[row]? = some r ∧ r.value ≠ [] ∧ reg.splitter.split r.value = some full := by
  obtain ⟨value, at_value, split⟩ := bind_eq_some_iff.mp cells
  obtain ⟨inside, ⟨block', row', r, at_block, at_row, -, rfl⟩ | ⟨_, _, _, memory⟩⟩ :=
    mem_places.mp decides.mem
  · obtain ⟨rfl, rfl⟩ := Prod.mk.inj (some.inj source)
    by_cases untyped : block'.dataColumns = []
    · left
      rw [untyped, length_nil] at counted
      exact length_eq_zero_iff.mp (by omega)
    · refine .inr ⟨blocks block' at_block untyped counted ⟨r, mem_of_getElem? at_row, inside⟩,
        r, at_row, ?_⟩
      simp only [SstRow.toRow] at at_value
      split at at_value
      · cases at_value
      · next live => exact ⟨live, some.inj at_value ▸ split⟩
  · rw [memory] at source
    cases source

theorem cellsRead_of_tableBlocks : CellsRead e order reg readTs := by
  intro p decides full cells block row source counted c inside
  obtain untyped | ⟨own, r, at_row, live, split⟩ :=
    own_of_decides blocks decides cells source counted
  · simp [untyped] at inside
  · obtain ⟨_, _, _, cell⟩ := own.slot at_row live split (getElem?_eq_getElem inside)
    exact cell

theorem blocksKept_iff (typed : Typed reg.splitter)
    (constants : TypedConstants reg.splitter predicates) :
    BlocksKept columnZone e order reg readTs predicates ↔
      NoEmptySlot e order reg readTs predicates := by
  refine forall₂_congr fun p decides => forall₃_congr fun full cells satisfied =>
    forall₃_congr fun block row source => ?_
  by_cases counted : block.dataColumns.length = 2 * reg.splitter.columnTypes.length
  · have columnar : isColumnar ⟨reg, [], predicates, readTs⟩ block := isColumnar_iff.mpr counted
    obtain untyped | ⟨own, r, at_row, live, split⟩ :=
      own_of_decides blocks decides cells source counted
    · have none_asked : predicates = [] := by
        refine eq_nil_iff_forall_not_mem.mpr fun q mem => ?_
        obtain ⟨colType, _, at_type, _⟩ := satisfied q mem
        simp [untyped] at at_type
      simp [pruned, none_asked]
    · rw [@pruned_iff _ _ _ _ _ ⟨reg, [], predicates, readTs⟩ own typed constants columnar at_row
        live split satisfied]
      constructor
      · exact fun filled _ q at_q column at_column empty =>
          filled ⟨q, at_q, column, at_column, empty⟩
      · rintro filled ⟨q, at_q, column, at_column, empty⟩
        exact filled counted q at_q column at_column empty
  · have plain : ¬ isColumnar ⟨reg, [], predicates, readTs⟩ block :=
      fun columnar => counted (isColumnar_iff.mp columnar)
    exact iff_of_true (by simp [pruned, plain]) fun same => absurd same counted

end Own

theorem satisfies_project :
    Satisfies splitter predicates (project (List.range splitter.columnTypes.length) full) ↔
      Satisfies splitter predicates full := by
  refine forall₂_congr fun q _ => exists₂_congr fun colType v => and_congr_right fun at_c => ?_
  have inside := (List.getElem?_eq_some_iff.mp at_c).1
  simp [project, inside]

/-- With all columns a batch tells the cells of its rows. -/
theorem rows_of_batch {rows rows' : List (List (Option Bytes))}
    (same : batchOf splitter (List.range splitter.columnTypes.length) rows =
      batchOf splitter (List.range splitter.columnTypes.length) rows') :
    rows.map (project (List.range splitter.columnTypes.length)) =
      rows'.map (project (List.range splitter.columnTypes.length)) := by
  have length : rows.length = rows'.length := congrArg ColumnarBatch.numRows same
  have columns := congrArg ColumnarBatch.columns same
  simp only [batchOf] at columns
  rw [map_inj_left] at columns
  refine ext_getElem (by simp [length]) fun i hi hi' => ?_
  rw [getElem_map, getElem_map, project, project, map_inj_left]
  intro c at_c
  have column := (Prod.mk.inj (columns c at_c)).2
  have cell := congrArg (·[i]?) column
  rw [length_map] at hi hi'
  simpa [hi, hi'] using cell

theorem eq_of_deciding {q : Place} (hp : (k, p) ∈ deciding e order req)
    (hq : (k, q) ∈ deciding e order req) : p = q := by
  rw [deciding, ExtTreeMap.mem_toList_iff_getElem?_eq_some] at hp hq
  exact some.inj (hp.symm.trans hq)

theorem nodup_of_ordered {live : List (Bytes × List (Option Bytes))}
    (ordered : live.Pairwise fun a b => compare a.1 b.1 = .lt) : live.Nodup := by
  refine ordered.imp fun {a b} before same => ?_
  simp [same] at before

/-- The rows that a scan gives are those that satisfy, if as many satisfying ones are given. -/
theorem mem_of_same_cells {α β : Type*} {live given kept : List α} {cells : α → β}
    {test : β → Prop} (nodup : live.Nodup) (sub : given.Sublist live)
    (all : ∀ a ∈ live, test (cells a) → a ∈ kept) (same : given.map cells = kept.map cells)
    {a : α} (mem : a ∈ live) (passed : test (cells a)) : a ∈ given := by
  classical
  have count : given.countP (fun a => test (cells a)) = kept.countP (fun a => test (cells a)) := by
    have mapped := congrArg (List.countP fun b => test b) same
    rw [countP_map, countP_map] at mapped
    exact mapped
  have at_most : (live.filter fun a => test (cells a)).length ≤
      (kept.filter fun a => test (cells a)).length := by
    refine (subperm_of_subset (nodup.filter _) fun a mem => ?_).length_le
    obtain ⟨inside, passed⟩ := mem_filter.mp mem
    exact mem_filter.mpr ⟨all a inside (by simpa using passed), passed⟩
  rw [← countP_eq_length_filter, ← countP_eq_length_filter, ← count,
    countP_eq_length_filter, countP_eq_length_filter] at at_most
  have equal := (sub.filter fun a => decide (test (cells a))).eq_of_length_le at_most
  have listed : a ∈ live.filter fun a => test (cells a) :=
    mem_filter.mpr ⟨mem, by simpa using passed⟩
  exact (mem_filter.mp (equal ▸ listed)).1

theorem eq_of_filterMap_eq {α β : Type*} {f g : α → Option β} {l : List α}
    (some_iff : ∀ a ∈ l, (f a).isSome = (g a).isSome) (same : l.filterMap f = l.filterMap g) :
    ∀ a ∈ l, f a = g a := by
  induction l with
  | nil => simp
  | cons x l ih =>
    have first := some_iff x mem_cons_self
    rw [filterMap_cons, filterMap_cons] at same
    have both : f x = g x ∧ l.filterMap f = l.filterMap g := by
      cases hf : f x with
      | none =>
        rw [hf] at first same
        have none_too : g x = none := by simpa using first.symm
        rw [none_too] at same ⊢
        exact ⟨rfl, same⟩
      | some y =>
        rw [hf] at first same
        obtain ⟨z, hg⟩ := isSome_iff_exists.mp first.symm
        rw [hg] at same ⊢
        obtain ⟨rfl, rest⟩ := cons.inj same
        exact ⟨rfl, rest⟩
    intro a mem
    obtain rfl | mem := mem_cons.mp mem
    · exact both.1
    · exact ih (fun b at_b => some_iff b (mem_cons_of_mem x at_b)) both.2 a mem

/-- With all columns an assembled batch is a batch of the rows as they are staged. -/
theorem assemble_range {winners : Winners} :
    assemble ⟨reg, List.range reg.splitter.columnTypes.length, predicates, readTs⟩ winners =
      batchOf reg.splitter (List.range reg.splitter.columnTypes.length)
        (winners.toList.filterMap fun w => w.2.2.cells?) := by
  refine congrArg₂ ColumnarBatch.mk rfl (ext_getElem? fun i => ?_)
  by_cases inside : i < reg.splitter.columnTypes.length
  · simp [getElem?_range inside]
  · simp [inside]

theorem live_eq_rowsOf (distinct : Distinct e.allRows)
    (chained : e.memtableMgr.active.Chained) {live : List (Bytes × List (Option Bytes))}
    (rows : LiveRows e reg readTs live) :
    live = rowsOf reg.splitter (fun _ => true)
      (deciding e order ⟨reg, columnsOf reg.splitter projection, predicates, readTs⟩) := by
  have mine := @liveRows_rowsOf e order
    ⟨reg, columnsOf reg.splitter projection, predicates, readTs⟩ distinct chained
  refine Bytes.eq_of_ordered_of_mem_iff Prod.fst rows.ordered mine.ordered ?_
  exact fun ⟨k, full⟩ => (rows.mem k full).trans (mine.mem k full).symm

section Accepted

variable (registered : registrations.find? (fun r => r.pfx == reg.pfx) = some reg)
  (distinct : Distinct e.allRows) (chained : e.memtableMgr.active.Chained)
  (splits : ∀ p ∈ places e order reg.pfx readTs, Splits reg.splitter p)
include registered distinct chained splits

/-- Without predicates a scan of all columns shows each cell that it reads. -/
theorem cellsRead_of_agrees (agrees : Agrees columnZone registrations e order reg readTs [] []) :
    CellsRead e order reg readTs := by
  obtain ⟨live, kept, rows, -, -, all, same⟩ := agrees
  obtain rfl := all rfl
  obtain rfl := @live_eq_rowsOf e order reg [] [] readTs distinct chained _ rows
  rw [scan_assembles registered (by simp) splits] at same
  have cells_same := rows_of_batch (assemble_range.symm.trans (Except.ok.inj same))
  have unpruned (block : PaxBlock) : pruned columnZone
      ⟨reg, columnsOf reg.splitter [], [], readTs⟩ block = false := by
    simp [pruned]
  have staged_rows := @rows_staged e order columnZone ⟨reg, columnsOf reg.splitter [], [], readTs⟩
  rw [staged_rows, rowsOf, map_filterMap, map_filterMap, map_filterMap] at cells_same
  have pointwise := eq_of_filterMap_eq ?_ cells_same
  · intro p decides full cells block row source counted c inside
    have here := pointwise (p.row.key, p)
      ((@mem_deciding e order ⟨reg, columnsOf reg.splitter [], [], readTs⟩ p p.row.key).mpr
        ⟨decides, rfl⟩)
    obtain ⟨value, at_value, split⟩ := bind_eq_some_iff.mp cells
    have columnar : isColumnar ⟨reg, columnsOf reg.splitter [], [], readTs⟩ block :=
      isColumnar_iff.mpr counted
    simp only [staged, at_value, source, unpruned, columnar,
      Bool.false_eq_true, ↓reduceIte, Staged.cells?, cells, map_some, some.injEq,
      project] at here
    rw [map_inj_left] at here
    have cell := here c (mem_range.mpr inside)
    simpa [columnsOf, inside] using cell
  · rintro ⟨k, p⟩ mem
    have split := splits p (mem_deciding.mp mem).1.mem
    cases at_value : p.row.val with
    | none => simp [staged, at_value, Staged.cells?, Place.cells]
    | some value =>
      obtain ⟨full, cut⟩ := isSome_iff_exists.mp (split value at_value)
      cases source : p.source with
      | none => simp [staged, at_value, source, Staged.cells?, Place.cells, cut]
      | some at_row =>
        simp only [staged, at_value, source, unpruned, Bool.false_eq_true,
          ↓reduceIte, Place.cells, bind_some, cut, map_some, isSome_map,
          isSome_some]
        split <;> rfl

theorem blocksKept_of_agrees (read : CellsRead e order reg readTs)
    (agrees : Agrees columnZone registrations e order reg readTs predicates []) :
    BlocksKept columnZone e order reg readTs predicates := by
  intro p decides full cells satisfied
  obtain ⟨live, kept, rows, sub, all, -, same⟩ := agrees
  rw [scan_eq registered (by simp) read splits] at same
  have cells_same := rows_of_batch (Except.ok.inj same)
  rw [List.map_map, List.map_map] at cells_same
  have live_eq := @live_eq_rowsOf e order reg [] predicates readTs distinct chained _ rows
  have decided : (p.row.key, p) ∈ deciding e order
      ⟨reg, columnsOf reg.splitter [], predicates, readTs⟩ := mem_deciding.mpr ⟨decides, rfl⟩
  have listed : (p.row.key, full) ∈ live := by
    rw [live_eq]
    exact mem_rowsOf.mpr ⟨p, decided, rfl, cells⟩
  have shown := mem_of_same_cells (nodup_of_ordered rows.ordered) (live_eq ▸ rowsOf_sublist)
    (fun r mem passed => all r mem (satisfies_project.mp passed)) cells_same listed
    (satisfies_project.mpr satisfied)
  obtain ⟨q, at_q, given_q, -⟩ := mem_rowsOf.mp shown
  rw [eq_of_deciding at_q decided] at given_q
  have free := (@given_iff columnZone ⟨reg, columnsOf reg.splitter [], predicates, readTs⟩ full p
    cells).mp given_q
  exact free

theorem agrees_of_read (read : CellsRead e order reg readTs)
    (kept : BlocksKept columnZone e order reg readTs predicates)
    (inRange : ∀ c ∈ projection, c < reg.splitter.columnTypes.length) :
    Agrees columnZone registrations e order reg readTs predicates projection := by
  have mine := @liveRows_rowsOf e order
    ⟨reg, columnsOf reg.splitter projection, predicates, readTs⟩ distinct chained
  have shown {k : Bytes} {full : List (Option Bytes)}
      (mem : (k, full) ∈ rowsOf reg.splitter (fun _ => true)
        (deciding e order ⟨reg, columnsOf reg.splitter projection, predicates, readTs⟩))
      (satisfied : Satisfies reg.splitter predicates full) :
      (k, full) ∈ rowsOf reg.splitter
        (given columnZone ⟨reg, columnsOf reg.splitter projection, predicates, readTs⟩)
        (deciding e order ⟨reg, columnsOf reg.splitter projection, predicates, readTs⟩) := by
    obtain ⟨p, decided, -, cells⟩ := mem_rowsOf.mp mem
    refine mem_rowsOf.mpr ⟨p, decided, (given_iff cells).mpr ?_, cells⟩
    exact kept p (mem_deciding.mp decided).1 full cells satisfied
  refine ⟨_, _, mine, rowsOf_sublist, fun r mem => shown mem, ?_,
    scan_eq registered inRange read splits⟩
  rintro rfl
  refine rowsOf_sublist.eq_of_length_le ?_
  exact (subperm_of_subset (nodup_of_ordered mine.ordered) fun r mem =>
    shown mem (by simp [Satisfies])).length_le

end Accepted

/-- A column-major scan agrees with the live rows in every projection exactly where the typed
cells that it reads are the splitter's and no satisfying row lies in a block that is ruled out;
among the table's own blocks these are the ones with an empty slot in a predicate's column. -/
theorem scan_columnar_agrees_iff
    (registered : registrations.find? (fun r => r.pfx == reg.pfx) = some reg)
    (distinct : Distinct e.allRows) (chained : e.memtableMgr.active.Chained)
    (accepts : ∀ r ∈ e.allRows, reg.pfx.isPrefixOf r.key → ∀ v, r.val = some v →
      (reg.splitter.split v).isSome) :
    ((∀ projection, (∀ c ∈ projection, c < reg.splitter.columnTypes.length) →
        Agrees columnZone registrations e order reg readTs [] projection ∧
          Agrees columnZone registrations e order reg readTs predicates projection) ↔
      CellsRead e order reg readTs ∧ BlocksKept columnZone e order reg readTs predicates) ∧
    (TableBlocks columnZone reg (e.scanBlocks order) → CellsRead e order reg readTs ∧
        (Typed reg.splitter → TypedConstants reg.splitter predicates →
          (BlocksKept columnZone e order reg readTs predicates ↔
            NoEmptySlot e order reg readTs predicates))) := by
  have splits : ∀ p ∈ places e order reg.pfx readTs, Splits reg.splitter p := by
    intro p mem value at_value
    obtain ⟨visited, inside⟩ := exists_place_iff.mp ⟨p, mem, rfl⟩
    have stored := (visitedRows_spec chained order readTs).1 _ visited
    exact accepts p.row (mem_visible.mp stored).1 inside value at_value
  refine ⟨⟨fun agrees => ?_, ?_⟩, fun blocks => ⟨cellsRead_of_tableBlocks blocks, ?_⟩⟩
  · obtain ⟨plain, asked⟩ := agrees [] (by simp)
    have read := cellsRead_of_agrees registered distinct chained splits plain
    exact ⟨read, blocksKept_of_agrees registered distinct chained splits read asked⟩
  · rintro ⟨read, kept⟩ projection inRange
    refine ⟨agrees_of_read registered distinct chained splits read ?_ inRange,
      agrees_of_read registered distinct chained splits read kept inRange⟩
    intro p _ full _ _ block row _
    simp [pruned]
  · exact blocksKept_iff blocks

/-- One text column; a zero stands for NULL. -/
def nameSplitter : RowColumnSplitter :=
  ⟨[.text], fun value => some [if value = [0] then none else some value]⟩

def names : SplitterRegistration := ⟨[116, 58], nameSplitter⟩

/-- The zone maps of typed columns as they are written. -/
def writtenZone (splitter : RowColumnSplitter) : ColumnZone := fun block i =>
  match splitter.columnTypes[(i - 3) / 2]?, block.dataColumns[i - 3]? with
  | some colType, some column => some (extractZoneMap colType column)
  | _, _ => none

/-- A name and a NULL in one block, and another name in the memtable. -/
def storedNames : Engine :=
  (Run.run (step .plain) { fresh .plain .default with columnar := [registrationOf names] }
    [.put [116, 58, 1] [98], .put [116, 58, 2] [0], .flush .byId, .put [116, 58, 3] [99]]).getD
      (fresh .plain .default)

theorem tableBlocks_storedNames :
    TableBlocks (writtenZone nameSplitter) names (storedNames.scanBlocks .byId) := by
  have written : (storedNames.scanBlocks .byId).map
      (fun block => (block.rows.map SstRow.value, block.dataColumns)) =
        [([[98], [0]], [[[98], []], [[1], [0]]])] := by
    decide +kernel
  intro block mem _ _ _
  have here := List.mem_map_of_mem mem
    (f := fun block : PaxBlock => (block.rows.map SstRow.value, block.dataColumns))
  rw [written, mem_singleton] at here
  obtain ⟨values, columns⟩ := Prod.mk.inj here
  constructor
  · refine ⟨[some [98], some [0]], values.symm, ?_⟩
    rw [columns]
    decide
  · intro c colType column at_c at_column
    simp only [writtenZone, dataColumnIndex, Nat.add_sub_cancel_left, Nat.mul_div_cancel_left c
      Nat.two_pos]
    rw [show nameSplitter.columnTypes[c]? = some colType from at_c, at_column]

theorem typed_nameSplitter : Typed nameSplitter := by
  intro value full _ c colType v at_c _ width packed
  have text := mem_of_getElem? at_c
  rw [show nameSplitter.columnTypes = [.text] from rfl, mem_singleton] at text
  subst text
  cases packed

/-- A name in the memtable is found, although the block has a NULL. -/
theorem scan_columnar_agrees_on_new_name :
    Agrees (writtenZone nameSplitter) [names] storedNames .byId names 9 [⟨0, .eq, [99]⟩] [0] := by
  obtain ⟨agrees, own⟩ := @scan_columnar_agrees_iff storedNames .byId (writtenZone nameSplitter)
    [names] names [⟨0, .eq, [99]⟩] 9 rfl (by decide +kernel) (by decide +kernel)
    fun _ _ _ _ _ => rfl
  obtain ⟨read, kept⟩ := own tableBlocks_storedNames
  refine (agrees.mpr ⟨read, (kept typed_nameSplitter ?_).mpr ?_⟩ [0] (by decide)).2
  · intro p _ colType at_c width packed
    have text := mem_of_getElem? at_c
    rw [show names.splitter.columnTypes = [.text] from rfl, mem_singleton] at text
    subst text
    cases packed
  · have others : ∀ p ∈ places storedNames .byId names.pfx 9, p.source.isSome →
        ∀ full ∈ p.cells names.splitter, full[0]?.join ≠ some [99] := by
      decide +kernel
    intro p decides full cells satisfied block row source
    obtain ⟨colType, v, at_c, cell, holds⟩ := satisfied ⟨0, .eq, [99]⟩ (by simp)
    obtain rfl := some.inj at_c
    have same : v = [99] := by
      simpa [PruneOp.holds, valueOrder, isOrdered, typeOrder] using holds
    exact absurd (same ▸ cell) (others p decides.mem (by simp [source]) full cells)

/-- The name beside a NULL is lost. -/
theorem scan_columnar_loses_name_beside_null :
    ¬ Agrees (writtenZone nameSplitter) [names] storedNames .byId names 9 [⟨0, .eq, [98]⟩] [] := by
  rintro ⟨live, kept, rows, sub, all, -, same⟩
  have scanned : scan (writtenZone nameSplitter) [names] (storedNames.scanBlocks .byId)
      storedNames.memtableMgr.active names.pfx [] [⟨0, .eq, [98]⟩] 9 =
        .ok ⟨1, [(.text, [some [99]])]⟩ := by
    decide +kernel
  have newest :
      Newest (visible 9 storedNames.allRows) [116, 58, 1] ⟨[116, 58, 1], 1, some [98]⟩ := by
    decide +kernel
  rw [scanned] at same
  have listed := (rows.mem [116, 58, 1] [some [98]]).mpr ⟨rfl, [98], 1, newest, rfl⟩
  have shown := all _ listed (by
    intro p mem
    obtain rfl := mem_singleton.mp mem
    exact ⟨.text, [98], rfl, rfl, by decide⟩)
  have column := congrArg ColumnarBatch.columns (Except.ok.inj same)
  have texts : ([some [99]] : List (Option Bytes)) = (kept.map Prod.snd).map
      fun full : List (Option Bytes) => full[0]?.join := by
    simpa [batchOf, columnsOf, names, nameSplitter] using column
  have mem : some ([98] : Bytes) ∈ (kept.map Prod.snd).map
      fun full : List (Option Bytes) => full[0]?.join :=
    List.mem_map.mpr ⟨_, List.mem_map_of_mem shown, rfl⟩
  rw [← texts] at mem
  simp at mem

end Agreement

end ScanColumnar

end GalaxDb
