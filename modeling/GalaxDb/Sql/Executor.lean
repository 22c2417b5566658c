import GalaxDb.Sql.Classify
import GalaxDb.Sql.Transaction

/-!
# Statements

What a statement reads and writes, as a function of the rows its context sees. Writes are
planned first, from one scan, and then carried out row by row.
-/

namespace GalaxDb.Sql

open Std Bytes

inductive QueryPlan where
  | insert (table : Bytes) (columns : List Bytes) (values : List Value)
  | bulkInsert (table : Bytes) (columns : List Bytes) (rows : List (List Bytes))
  | update (table : Bytes) (assignments : List (Bytes × ScalarExpr)) (filter : Option FilterExpr)
  | delete (table : Bytes) (filter : Option FilterExpr)
  | fullScan (table : Bytes) (filter : Option FilterExpr) (columns : List Bytes)
  | pointLookup (table key : Bytes)

/-- Two rows of one key are the same row. -/
def KeysDetermine {α : Type*} (rows : List (Bytes × α)) : Prop :=
  ∀ r ∈ rows, ∀ r' ∈ rows, r.1 = r'.1 → r = r'

theorem keysDetermine_toList {α : Type*} (m : ExtTreeMap Bytes α compare) :
    KeysDetermine m.toList := by
  rintro ⟨k, v⟩ h ⟨k', v'⟩ h' same
  have found := ExtTreeMap.mem_toList_iff_getElem?_eq_some.mp h
  have found' := ExtTreeMap.mem_toList_iff_getElem?_eq_some.mp h'
  simp_all

theorem KeysDetermine.filter {α : Type*} {rows : List (Bytes × α)} (h : KeysDetermine rows)
    (p : Bytes × α → Bool) : KeysDetermine (rows.filter p) :=
  fun r hr r' hr' => h r (List.mem_filter.mp hr).1 r' (List.mem_filter.mp hr').1

/-- What a statement sees: the rows of a table and single rows by key. -/
structure Reader where
  tableRows : Bytes → List (Bytes × Bytes)
  get : Bytes → Option Bytes
  determined : ∀ table, KeysDetermine (tableRows table)

namespace Reader

/-- The latest committed state. -/
def latest (e : Engine) (order : IterOrder) : Reader where
  tableRows table := (e.scanAllWithPrefix order (some (tablePrefix table))).filter
    fun r => (tablePrefix table).isPrefixOf r.1
  get := e.get
  determined _ := (keysDetermine_toList _).filter _

def overlayWrite (rows : ExtTreeMap Bytes Bytes compare) (w : Bytes × Option Bytes) :
    ExtTreeMap Bytes Bytes compare :=
  match w.2 with
  | some value => rows.insert w.1 value
  | none => rows.erase w.1

/-- Rows under a prefix, with the buffered writes under it laid over them. -/
def overlaid (pfx : Bytes) (rows : List (Bytes × Bytes)) (writes : WriteBuffer) :
    ExtTreeMap Bytes Bytes compare :=
  (writes.toList.filter fun w => pfx.isPrefixOf w.1).foldl overlayWrite
    (rows.foldl (fun map r => map.insert r.1 r.2) ∅)

/-- The snapshot of a transaction under its own writes. -/
def snapshot (e : Engine) (order : IterOrder) (txn : TxnHandle) : Reader where
  tableRows table := (overlaid (tablePrefix table)
    ((e.scanAllAtWithPrefix order (tablePrefix table) txn.readTs).map fun r => (r.1, r.2.1))
    txn.writes).toList
  get key :=
    match txn.writes[key]? with
    | some buffered => buffered
    | none => e.getAt order key txn.readTs
  determined _ := keysDetermine_toList _

end Reader

/-- `index` gives the keys under which a secondary index files the rows of a predicate, if
one covers it. -/
structure ExecutorContext where
  catalog : List TableEntry
  index : Bytes → FilterExpr → Option (List Bytes)
  reader : Reader

/-- Indexes do not know what a transaction has buffered, so it does without them. -/
def ExecutorContext.inTxn (catalog : List TableEntry) (e : Engine) (order : IterOrder)
    (txn : TxnHandle) : ExecutorContext :=
  ⟨catalog, fun _ _ => none, Reader.snapshot e order txn⟩

/-- What a statement asks for: rows for the client by key, writes in order, keys for the
read set. A statement that fails on its way still has the writes before the failure. -/
structure Effect where
  rows : List BufferedRow
  writes : List (Bytes × Option Bytes)
  reads : List Bytes
  failure : Option SqlError

namespace Executor

def getTable (catalog : List TableEntry) (table : Bytes) : Except SqlError TableEntry :=
  match catalog.find? fun entry => entry.name = table with
  | some entry => .ok entry
  | none => .error (.tableNotFound table)

def decodeRows (rows : List (Bytes × Bytes)) : List BufferedRow :=
  rows.map fun r => (r.1, decodeRow r.2)

/-- The rows that pass the filter; no filter passes all. -/
def matching (filter : Option FilterExpr) (rows : List BufferedRow) : List BufferedRow :=
  rows.filter fun r => rowPasses filter r.2

def project (columns : List Bytes) (cols : Columns) : Columns :=
  columns.map fun name => (name, (cell cols name).getD .null)

/-- Replaces the cell, or adds it at the end. -/
def setCell (name : Bytes) (value : Value) : Columns → Columns
  | [] => [(name, value)]
  | c :: rest => if c.1 = name then (c.1, value) :: rest else c :: setCell name value rest

/-- The new values; every expression sees the old row. -/
def newValues (cols : Columns) : List (Bytes × ScalarExpr) → Except SqlError Columns
  | [] => .ok []
  | (name, e) :: rest =>
    (e.eval cols).bind fun v => (newValues cols rest).map fun later => (name, v) :: later

def updateRow (assignments : List (Bytes × ScalarExpr)) (cols : Columns) :
    Except SqlError Columns :=
  (newValues cols assignments).map fun new =>
    new.foldl (fun cols c => setCell c.1 c.2 cols) cols

/-- New rows in scan order, up to the first that cannot be evaluated. -/
def updateWrites (assignments : List (Bytes × ScalarExpr)) :
    List BufferedRow → List (Bytes × Option Bytes) × Option SqlError
  | [] => ([], none)
  | (key, cols) :: rest =>
    match updateRow assignments cols with
    | .error e => ([], some e)
    | .ok new =>
      let later := updateWrites assignments rest
      ((key, some (encodeRow new)) :: later.1, later.2)

def checkAppendOnly (entry : TableEntry) (table operation : Bytes) : Except SqlError Unit :=
  if entry.appendOnly then .error (.appendOnlyTable table operation) else .ok ()

/-- The first assignment to an embedding source is refused. -/
def checkEmbeddingSource (entry : TableEntry) : List (Bytes × ScalarExpr) → Except SqlError Unit
  | [] => .ok ()
  | (name, _) :: rest =>
    match entry.columns.find? fun c => c.name = name with
    | some column =>
      if column.isEmbeddingSource then .error (.embeddingSourceUpdate name)
      else checkEmbeddingSource entry rest
    | none => checkEmbeddingSource entry rest

def planInsert (ctx : ExecutorContext) (table : Bytes) (columns : List Bytes)
    (values : List Value) : Except SqlError Effect := do
  let entry ← getTable ctx.catalog table
  let ordered ← alignValues entry columns values
  let key ← buildPrimaryKey table entry ordered
  match entry.columns.find? CatalogColumn.primaryKey with
  | some pk =>
    if (ctx.reader.get key).isSome then
      .error (.uniqueViolation table pk.name (((cell ordered pk.name).map valueDisplay).getD []))
    else .ok ⟨[], [(key, some (encodeRow ordered))], [], none⟩
  | none => .ok ⟨[], [(key, some (encodeRow ordered))], [], none⟩

def bulkPair (entry : TableEntry) (table : Bytes) (columns : List Bytes) (tokens : List Bytes) :
    Except SqlError (Bytes × Bytes) := do
  let ordered ← alignValues entry columns (tokens.map valueFromStr)
  let key ← buildPrimaryKey table entry ordered
  .ok (key, encodeRow ordered)

def bulkPairs (entry : TableEntry) (table : Bytes) (columns : List Bytes) :
    List (List Bytes) → Except SqlError (List (Bytes × Bytes))
  | [] => .ok []
  | tokens :: rest =>
    (bulkPair entry table columns tokens).bind fun p =>
      (bulkPairs entry table columns rest).map fun later => p :: later

/-- `i` is the number of the first of the rows. -/
def checkBulkCounts (expected : Nat) : Nat → List (List Bytes) → Except SqlError Unit
  | _, [] => .ok ()
  | i, row :: rest =>
    if row.length ≠ expected then
      .error (.internal (ascii "BULK INSERT row " ++ natDigits i ++ ascii " has " ++
        natDigits row.length ++ ascii " values, expected " ++ natDigits expected))
    else checkBulkCounts expected (i + 1) rest

def checkBulkColumns (entry : TableEntry) : List Bytes → Except SqlError Unit
  | [] => .ok ()
  | name :: rest =>
    if entry.columns.any fun c => c.name = name then checkBulkColumns entry rest
    else .error (.internal (ascii "BULK INSERT references unknown column '" ++ name ++ ascii "'"))

/-- Every row is encoded before the first is written. No key is looked up. -/
def planBulkInsert (ctx : ExecutorContext) (table : Bytes) (columns : List Bytes)
    (rows : List (List Bytes)) : Except SqlError Effect := do
  let entry ← getTable ctx.catalog table
  if rows = [] then .ok ⟨[], [], [], none⟩
  else
    checkBulkCounts (if columns = [] then entry.columns.length else columns.length) 0 rows
    checkBulkColumns entry columns
    let pairs ← bulkPairs entry table columns rows
    .ok ⟨[], pairs.map fun p => (p.1, some p.2), [], none⟩

def planUpdate (ctx : ExecutorContext) (table : Bytes) (assignments : List (Bytes × ScalarExpr))
    (filter : Option FilterExpr) : Except SqlError Effect := do
  let entry ← getTable ctx.catalog table
  checkAppendOnly entry table (ascii "UPDATE")
  checkEmbeddingSource entry assignments
  let planned :=
    updateWrites assignments (matching filter (decodeRows (ctx.reader.tableRows table)))
  .ok ⟨[], planned.1, [], planned.2⟩

def planDelete (ctx : ExecutorContext) (table : Bytes) (filter : Option FilterExpr) :
    Except SqlError Effect := do
  let entry ← getTable ctx.catalog table
  checkAppendOnly entry table (ascii "DELETE")
  let doomed := matching filter (decodeRows (ctx.reader.tableRows table))
  .ok ⟨[], doomed.map fun r => (r.1, none), [], none⟩

/-- Candidate keys of an index; a dedup pass looks at all rows. -/
def indexPks (ctx : ExecutorContext) (table : Bytes) (filter : Option FilterExpr) :
    Option (List Bytes) :=
  if filter.any filterHasNotDuplicate then none else filter.bind (ctx.index table)

def accessRows (ctx : ExecutorContext) (table : Bytes) (filter : Option FilterExpr) :
    List (Bytes × Bytes) :=
  match indexPks ctx table filter with
  | some pks => pks.filterMap fun pk => (ctx.reader.get pk).map fun value => (pk, value)
  | none => ctx.reader.tableRows table

/-- The filter is applied again to the rows an index has found. -/
def scanBuffered (ctx : ExecutorContext) (table : Bytes) (filter : Option FilterExpr) :
    List BufferedRow :=
  let passed := matching filter (decodeRows (accessRows ctx table filter))
  if filter.any filterHasNotDuplicate then applyNotDuplicatePass passed else passed

def planFullScan (ctx : ExecutorContext) (table : Bytes) (filter : Option FilterExpr)
    (columns : List Bytes) : Except SqlError Effect := do
  let entry ← getTable ctx.catalog table
  let projected := if columns = [] then entry.columns.map CatalogColumn.name else columns
  .ok ⟨(scanBuffered ctx table filter).map fun r => (r.1, project projected r.2), [],
    [sireadSentinel table], none⟩

def planPointLookup (ctx : ExecutorContext) (table key : Bytes) : Except SqlError Effect := do
  let entry ← getTable ctx.catalog table
  let found := (ctx.reader.get key).toList.map fun value =>
    (key, project (entry.columns.map CatalogColumn.name) (decodeRow value))
  .ok ⟨found, [], [key], none⟩

def planEffect (ctx : ExecutorContext) : QueryPlan → Except SqlError Effect
  | .insert table columns values => planInsert ctx table columns values
  | .bulkInsert table columns rows => planBulkInsert ctx table columns rows
  | .update table assignments filter => planUpdate ctx table assignments filter
  | .delete table filter => planDelete ctx table filter
  | .fullScan table filter columns => planFullScan ctx table filter columns
  | .pointLookup table key => planPointLookup ctx table key

def valueTypeRank : Value → Nat
  | .null => 0
  | .bool _ => 1
  | .integer _ => 2
  | .float _ => 2
  | .text _ => 3
  | .blob _ => 4
  | .array _ => 5

/-- Floats that do not compare count as equal. -/
def floatCmp (a b : Float) : Ordering :=
  if a < b then .lt else if b < a then .gt else .eq

def valueCmp : Value → Value → Ordering
  | .integer a, .integer b => compare a b
  | .float a, .float b => floatCmp a b
  | .integer a, .float b => floatCmp (Float.ofInt a) b
  | .float a, .integer b => floatCmp a (Float.ofInt b)
  | .text a, .text b => compare a b
  | .bool a, .bool b => compare a b
  | .blob a, .blob b => compare a b
  | a, b => compare (valueTypeRank a) (valueTypeRank b)

/-- Where NULL goes does not depend on the direction. -/
def sortKeyCmp (key : SortKey) (a b : Columns) : Ordering :=
  let va := (cell a key.column).getD .null
  let vb := (cell b key.column).getD .null
  match Scalar.isNull va, Scalar.isNull vb with
  | true, true => .eq
  | true, false => if key.nullsFirst then .lt else .gt
  | false, true => if key.nullsFirst then .gt else .lt
  | false, false => if key.descending then (valueCmp va vb).swap else valueCmp va vb

def sortCmp (keys : List SortKey) (a b : Columns) : Ordering :=
  keys.foldl (fun ord key => ord.then (sortKeyCmp key a b)) .eq

/-- Sorted, then cut by OFFSET and LIMIT. -/
def page (s : SortLimit) (rows : List BufferedRow) : List BufferedRow :=
  let sorted := rows.mergeSort fun a b => sortCmp s.orderBy a.2 b.2 ≠ .gt
  let skipped := sorted.drop (s.offset.getD 0)
  match s.limit with
  | some n => skipped.take n
  | none => skipped

/-- The scan takes all columns, so that every sort key is there. -/
def sortedScan (ctx : ExecutorContext) (table : Bytes) (filter : Option FilterExpr)
    (columns : List Bytes) (s : SortLimit) : Except SqlError Effect :=
  (planFullScan ctx table filter []).map fun scan =>
    { scan with rows := if columns = [] then page s scan.rows
        else (page s scan.rows).map fun r => (r.1, project columns r.2) }

end Executor

end GalaxDb.Sql
