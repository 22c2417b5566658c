import GalaxDb.Storage.Engine
import GalaxDb.Storage.PaxBytes

/-!
# Column-major scans

The analytical read path: rows of one table from the typed columns of its blocks where they
have them, and from the row values where they do not. Blocks that the predicates rule out by
their zone maps still count for the version that wins a key.
-/

namespace GalaxDb

open PaxBytes (ColumnType)

/-- Splits a stored row value into one cell a column. -/
structure RowColumnSplitter where
  columnTypes : List ColumnType
  split : Bytes → Option (List (Option Bytes))

structure SplitterRegistration where
  pfx : Bytes
  splitter : RowColumnSplitter

inductive PruneOp where
  | eq
  | ne
  | lt
  | le
  | gt
  | ge
  deriving DecidableEq

structure ColumnPredicate where
  column : Nat
  op : PruneOp
  value : Bytes

structure ColumnarBatch where
  numRows : Nat
  columns : List (ColumnType × List (Option Bytes))
  deriving DecidableEq

inductive ColumnarError where
  | noRegistration (pfx : Bytes)
  | projectionOutOfRange (index columns : Nat)
  deriving DecidableEq

namespace ScanColumnar

/-- Width-exact placeholder of a NULL slot. -/
def placeholderBytes : ColumnType → Bytes
  | .embedding dims => List.replicate (dims * 4) 0
  | ct => List.replicate (ct.packedWidth.getD 0) 0

/-- The cells of one row, a tombstone having only NULLs. -/
def rowCells (splitter : RowColumnSplitter) : Option Bytes → Option (List (Option Bytes))
  | none => some (List.replicate splitter.columnTypes.length none)
  | some value => (splitter.split value).bind fun parts =>
    if parts.length = splitter.columnTypes.length then some parts else none

/-- The pair of typed column and validity column for each column of the table. -/
def columnarDataColumns (splitter : RowColumnSplitter) (values : List (Option Bytes)) :
    Option (List (List Bytes)) :=
  if splitter.columnTypes = [] then none
  else (values.mapM (rowCells splitter)).map fun rows =>
    splitter.columnTypes.zipIdx.flatMap fun c =>
      [rows.map fun cells => (cells[c.2]?.join).getD (placeholderBytes c.1),
        rows.map fun cells => [if (cells[c.2]?.join).isSome then 1 else 0]]

/-- What the flush needs of a registration. -/
def registrationOf (r : SplitterRegistration) : ColumnarRegistration :=
  ⟨r.pfx, columnarDataColumns r.splitter⟩

/-- The most significant byte first, with the sign bit flipped or all bits of a negative float. -/
def toComparableBytes (colType : ColumnType) (value : Bytes) : Bytes :=
  if colType.packedWidth ≠ some value.length then value
  else
    match colType with
    | .int8 | .int16 | .int32 | .int64 =>
      match value.reverse with
      | [] => []
      | top :: rest => (top ^^^ 0x80) :: rest
    | .uint16 | .uint32 | .uint64 => value.reverse
    | .float32 | .float64 =>
      match value.reverse with
      | [] => []
      | top :: rest =>
        if 0x80 ≤ top then (top :: rest).map (~~~ ·) else (top ^^^ 0x80) :: rest
    | _ => value

/-- Whether a block whose column lies between the bounds may hold a row that satisfies the
comparison. -/
def zoneMapCanMatch (colType : ColumnType) (zoneMin zoneMax : Bytes) (op : PruneOp)
    (value : Bytes) : Bool :=
  if zoneMin = [] ∨ zoneMax = [] then false
  else
    let cmin := toComparableBytes colType zoneMin
    let cmax := toComparableBytes colType zoneMax
    let cval := toComparableBytes colType value
    match op with
    | .eq => compare cmin cval != .gt && compare cval cmax != .gt
    | .gt => compare cmax cval == .gt
    | .ge => compare cmax cval != .lt
    | .lt => compare cmin cval == .lt
    | .le => compare cmin cval != .gt
    | .ne => !(cmin == cmax && cmin == cval)

/-- A staged row. One of a pruned block fails the predicates, but hides older versions. -/
inductive Staged where
  | tombstone
  | excluded
  | cells (cells : List (Option Bytes))
  deriving DecidableEq

def Staged.cells? : Staged → Option (List (Option Bytes))
  | .cells found => some found
  | _ => none

abbrev Winners := Std.ExtTreeMap Bytes (Timestamp × Staged) compare

def consider (winners : Winners) (key : Bytes) (ts : Timestamp) (staged : Staged) : Winners :=
  match winners[key]? with
  | some (cur, _) => if ts < cur then winners else winners.insert key (ts, staged)
  | none => winners.insert key (ts, staged)

/-- What a scan is asked for. -/
structure Request where
  reg : SplitterRegistration
  proj : List Nat
  predicates : List ColumnPredicate
  readTs : Timestamp

def project (proj : List Nat) (full : List (Option Bytes)) : List (Option Bytes) :=
  proj.map fun c => full[c]?.join

/-- The zone map that the header of a block has for one of its columns. -/
abbrev ColumnZone := PaxBlock → Nat → Option (Bytes × Bytes)

def dataColumnIndex (k : Nat) : Nat := 3 + 2 * k

def isColumnar (req : Request) (block : PaxBlock) : Bool :=
  3 + block.dataColumns.length == 3 + 2 * req.reg.splitter.columnTypes.length

def pruned (columnZone : ColumnZone) (req : Request) (block : PaxBlock) : Bool :=
  isColumnar req block && req.predicates.any fun p =>
    match columnZone block (dataColumnIndex p.column), req.reg.splitter.columnTypes[p.column]? with
    | some zone, some colType => !zoneMapCanMatch colType zone.1 zone.2 p.op p.value
    | _, _ => false

/-- The cell of a typed column, if the validity column beside it says so. -/
def typedCell (block : PaxBlock) (row c : Nat) : Option Bytes :=
  let valid := (block.dataColumns[2 * c + 1]?).bind (·[row]?)
  if (valid.getD []).head? = some 1 then (block.dataColumns[2 * c]?).bind (·[row]?) else none

def blockRow (columnZone : ColumnZone) (req : Request) (block : PaxBlock) (winners : Winners)
    (r : SstRow × Nat) : Winners :=
  if !req.reg.pfx.isPrefixOf r.1.key then winners
  else if req.readTs < r.1.ts then winners
  else if r.1.value = [] then consider winners r.1.key r.1.ts .tombstone
  else if pruned columnZone req block then consider winners r.1.key r.1.ts .excluded
  else if isColumnar req block then
    consider winners r.1.key r.1.ts (.cells (req.proj.map (typedCell block r.2)))
  else match req.reg.splitter.split r.1.value with
    | some full => consider winners r.1.key r.1.ts (.cells (project req.proj full))
    | none => winners

def blockRows (columnZone : ColumnZone) (req : Request) (winners : Winners) (block : PaxBlock) :
    Winners :=
  block.rows.zipIdx.foldl (blockRow columnZone req block) winners

/-- A memtable row whose value does not split is passed over. -/
def memtableRow (req : Request) (winners : Winners) (entry : Bytes × VersionedValue) : Winners :=
  if !req.reg.pfx.isPrefixOf entry.1 then winners
  else match entry.2.getAtWithTs req.readTs with
    | some (some value, ts) =>
      match req.reg.splitter.split value with
      | some full => consider winners entry.1 ts (.cells (project req.proj full))
      | none => winners
    | some (none, ts) => consider winners entry.1 ts .tombstone
    | none => winners

/-- Column-major output, ordered by key. -/
def assemble (req : Request) (winners : Winners) : ColumnarBatch :=
  let rows := winners.toList.filterMap fun w => w.2.2.cells?
  { numRows := rows.length
    columns := req.proj.zipIdx.map fun c =>
      (req.reg.splitter.columnTypes.getD c.1 .blob, rows.map fun cells => cells[c.2]?.join) }

/-- `scan_columnar` over the blocks that could be read and the active memtable. -/
def scan (columnZone : ColumnZone) (registrations : List SplitterRegistration)
    (blocks : List PaxBlock) (active : Memtable) (pfx : Bytes) (projection : List Nat)
    (predicates : List ColumnPredicate) (readTs : Timestamp) :
    Except ColumnarError ColumnarBatch :=
  match registrations.find? fun r => r.pfx == pfx with
  | none => .error (.noRegistration pfx)
  | some reg =>
    let n := reg.splitter.columnTypes.length
    let proj := if projection = [] then List.range n else projection
    match proj.find? fun p => n ≤ p with
    | some p => .error (.projectionOutOfRange p n)
    | none =>
      let req : Request := ⟨reg, proj, predicates, readTs⟩
      .ok (assemble req (active.iterAll.foldl (memtableRow req)
        (blocks.foldl (blockRows columnZone req) ∅)))

end ScanColumnar

end GalaxDb
