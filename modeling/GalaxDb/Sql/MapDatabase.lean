import GalaxDb.Sql.CatalogStore
import GalaxDb.Sql.Plans
import GalaxDb.Sql.Readers

/-!
# The database over a map

The statements outside of transactions, with all the keys they write: rows, index entries
and definitions, catalog records, roles and grants. The engine is the map that its callers
see, which a restart keeps; the catalog in memory is read from it again.
-/

namespace GalaxDb.Sql

open Bytes Executor

/-- The rows of a map. -/
def Reader.ofStore (store : Store) : Reader where
  tableRows table := store.scanPrefix (tablePrefix table)
  get key := store[key]?
  determined _ := (keysDetermine_toList store).filter _

structure MapDatabase where
  store : Store
  catalog : List StoredTable

inductive ExecuteResult where
  | rowCount (n : Nat)
  | ok (message : Bytes)
  deriving DecidableEq

namespace Executor

section Rows

/-- The key and the columns of the row that an INSERT writes. -/
def insertedRow (ctx : ExecutorContext) (table : Bytes) (columns : List Bytes)
    (values : List Value) : Except SqlError (Bytes × Columns) := do
  let entry ← getTable ctx.catalog table
  let ordered ← alignValues entry columns values
  let key ← buildPrimaryKey table entry ordered
  match entry.columns.find? CatalogColumn.primaryKey with
  | some pk =>
    if (ctx.reader.get key).isSome then
      .error (.uniqueViolation table pk.name (((cell ordered pk.name).map valueDisplay).getD []))
    else .ok (key, ordered)
  | none => .ok (key, ordered)

theorem planInsert_eq (ctx : ExecutorContext) (table : Bytes) (columns : List Bytes)
    (values : List Value) :
    planInsert ctx table columns values = (insertedRow ctx table columns values).map
      fun r => ⟨[], [(r.1, some (encodeRow r.2))], [], none⟩ := by
  simp only [planInsert, insertedRow, bind, Except.bind]
  cases getTable ctx.catalog table with
  | error e => simp [Except.map]
  | ok entry =>
  cases aligned : alignValues entry columns values with
  | error e => simp [aligned, Except.map]
  | ok ordered =>
  cases built : buildPrimaryKey table entry ordered with
  | error e => simp [aligned, built, Except.map]
  | ok key =>
  simp only [aligned, built]
  cases entry.columns.find? CatalogColumn.primaryKey with
  | none => rfl
  | some pk => by_cases taken : (ctx.reader.get key).isSome <;> simp [taken, Except.map]

def bulkRow (entry : TableEntry) (table : Bytes) (columns tokens : List Bytes) :
    Except SqlError (Bytes × Columns) := do
  let ordered ← alignValues entry columns (tokens.map valueFromStr)
  let key ← buildPrimaryKey table entry ordered
  .ok (key, ordered)

def bulkRows (entry : TableEntry) (table : Bytes) (columns : List Bytes) :
    List (List Bytes) → Except SqlError (List (Bytes × Columns))
  | [] => .ok []
  | tokens :: rest =>
    (bulkRow entry table columns tokens).bind fun r =>
      (bulkRows entry table columns rest).map fun later => r :: later

/-- The rows that a BULK INSERT writes. -/
def insertedRows (ctx : ExecutorContext) (table : Bytes) (columns : List Bytes)
    (rows : List (List Bytes)) : Except SqlError (List (Bytes × Columns)) := do
  let entry ← getTable ctx.catalog table
  if rows = [] then .ok []
  else
    checkBulkCounts (if columns = [] then entry.columns.length else columns.length) 0 rows
    checkBulkColumns entry columns
    bulkRows entry table columns rows

/-- The matching rows that an UPDATE may rewrite. -/
def updatableRows (ctx : ExecutorContext) (table : Bytes)
    (assignments : List (Bytes × ScalarExpr)) (filter : Option FilterExpr) :
    Except SqlError (List BufferedRow) := do
  let entry ← getTable ctx.catalog table
  checkAppendOnly entry table (ascii "UPDATE")
  checkEmbeddingSource entry assignments
  .ok (matching filter (decodeRows (ctx.reader.tableRows table)))

def doomedRows (ctx : ExecutorContext) (table : Bytes) (filter : Option FilterExpr) :
    Except SqlError (List BufferedRow) := do
  let entry ← getTable ctx.catalog table
  checkAppendOnly entry table (ascii "DELETE")
  .ok (matching filter (decodeRows (ctx.reader.tableRows table)))

theorem planUpdate_eq (ctx : ExecutorContext) (table : Bytes)
    (assignments : List (Bytes × ScalarExpr)) (filter : Option FilterExpr) :
    planUpdate ctx table assignments filter = (updatableRows ctx table assignments filter).map
      fun rows =>
        ⟨[], (updateWrites assignments rows).1, [], (updateWrites assignments rows).2⟩ := by
  simp only [planUpdate, updatableRows, bind, Except.bind]
  cases getTable ctx.catalog table with
  | error e => rfl
  | ok entry =>
  cases open' : checkAppendOnly entry table (ascii "UPDATE") with
  | error e => simp [open', Except.map]
  | ok _ => cases allowed : checkEmbeddingSource entry assignments <;>
      simp [open', allowed, Except.map]

theorem planDelete_eq (ctx : ExecutorContext) (table : Bytes) (filter : Option FilterExpr) :
    planDelete ctx table filter = (doomedRows ctx table filter).map
      fun rows => ⟨[], rows.map fun r => (r.1, none), [], none⟩ := by
  simp only [planDelete, doomedRows, bind, Except.bind]
  cases getTable ctx.catalog table with
  | error e => rfl
  | ok entry => cases open' : checkAppendOnly entry table (ascii "DELETE") <;>
      simp [open', Except.map]

variable {ctx : ExecutorContext} {columns : List Bytes} {r : Bytes × Columns} {table : Bytes}
  {entry : TableEntry}

variable {pairs : List (Bytes × Columns)} {rows : List (List Bytes)} {filter : Option FilterExpr}
  {values : List Value}

theorem insertedRow_ok (ok : insertedRow ctx table columns values = .ok r) :
    ∃ entry, getTable ctx.catalog table = .ok entry ∧ alignValues entry columns values = .ok r.2 ∧
      buildPrimaryKey table entry r.2 = .ok r.1 := by
  simp only [insertedRow, bind, Except.bind] at ok
  split at ok
  · cases ok
  rename_i entry found
  split at ok
  · cases ok
  rename_i ordered aligned
  split at ok
  · cases ok
  rename_i key built
  have row : r = (key, ordered) := by
    split at ok
    · split at ok
      · cases ok
      · exact (Except.ok.inj ok).symm
    · exact (Except.ok.inj ok).symm
  subst row
  exact ⟨entry, found, aligned, built⟩

theorem insertedRow_own (ok : insertedRow ctx table columns values = .ok r) :
    tablePrefix table <+: r.1 := by
  obtain ⟨entry, -, -, built⟩ := insertedRow_ok ok
  exact List.isPrefixOf_iff_prefix.mp (prefix_of_buildPrimaryKey built)

theorem bulkRow_own {tokens : List Bytes} (ok : bulkRow entry table columns tokens = .ok r) :
    tablePrefix table <+: r.1 := by
  simp only [bulkRow, bind, Except.bind] at ok
  split at ok
  · cases ok
  split at ok
  · cases ok
  rename_i built
  obtain rfl := Except.ok.inj ok
  exact List.isPrefixOf_iff_prefix.mp (prefix_of_buildPrimaryKey built)

theorem bulkRows_own (ok : bulkRows entry table columns rows = .ok pairs) :
    ∀ r ∈ pairs, tablePrefix table <+: r.1 := by
  induction rows generalizing pairs with
  | nil =>
    obtain rfl := Except.ok.inj ok
    simp
  | cons tokens rest ih =>
    rw [bulkRows] at ok
    cases first : bulkRow entry table columns tokens with
    | error e => simp [first, Except.bind] at ok
    | ok r =>
    cases later : bulkRows entry table columns rest with
    | error e => simp [first, later, Except.bind, Except.map] at ok
    | ok more =>
      simp only [first, later, Except.bind, Except.map, Except.ok.injEq] at ok
      subst ok
      intro r' hr'
      rcases List.mem_cons.mp hr' with rfl | hr'
      · exact bulkRow_own first
      · exact ih later r' hr'

theorem insertedRows_ok (ok : insertedRows ctx table columns rows = .ok pairs) :
    (∃ entry, getTable ctx.catalog table = .ok entry) ∧ ∀ r ∈ pairs, tablePrefix table <+: r.1 := by
  simp only [insertedRows, bind, Except.bind] at ok
  split at ok
  · cases ok
  rename_i entry found
  refine ⟨⟨entry, found⟩, ?_⟩
  split at ok
  · obtain rfl := Except.ok.inj ok
    simp
  split at ok
  · cases ok
  split at ok
  · cases ok
  · exact bulkRows_own ok

theorem checkAppendOnly_ok {operation : Bytes} (ok :
    checkAppendOnly entry table operation = .ok ()) :
    entry.appendOnly = false := by
  simpa [checkAppendOnly] using ok

theorem updatableRows_ok {assignments : List (Bytes × ScalarExpr)} {rows : List BufferedRow}
    (ok : updatableRows ctx table assignments filter = .ok rows) :
    (∃ entry, getTable ctx.catalog table = .ok entry ∧ entry.appendOnly = false) ∧
      rows = matching filter (decodeRows (ctx.reader.tableRows table)) := by
  simp only [updatableRows, bind, Except.bind] at ok
  split at ok
  · cases ok
  rename_i entry found
  split at ok
  · cases ok
  rename_i allowed
  refine ⟨⟨entry, found, checkAppendOnly_ok allowed⟩, ?_⟩
  split at ok
  · cases ok
  · exact (Except.ok.inj ok).symm

theorem doomedRows_ok {rows : List BufferedRow} (ok : doomedRows ctx table filter = .ok rows) :
    (∃ entry, getTable ctx.catalog table = .ok entry ∧ entry.appendOnly = false) ∧
      rows = matching filter (decodeRows (ctx.reader.tableRows table)) := by
  simp only [doomedRows, bind, Except.bind] at ok
  split at ok
  · cases ok
  rename_i entry found
  split at ok
  · cases ok
  · next allowed => exact ⟨⟨entry, found, checkAppendOnly_ok allowed⟩, (Except.ok.inj ok).symm⟩

end Rows

end Executor

namespace MapDatabase

open SecondaryIndex CatalogStore AuthStore

def empty : MapDatabase := ⟨∅, []⟩

def context (db : MapDatabase) : ExecutorContext :=
  ⟨db.catalog.map StoredTable.entry, indexPkSet db.store, Reader.ofStore db.store⟩

/-- The same database when every query scans. -/
def withoutIndex (db : MapDatabase) : ExecutorContext :=
  ⟨db.catalog.map StoredTable.entry, fun _ _ => none, Reader.ofStore db.store⟩

section Dml

variable (db : MapDatabase)

def insertRow (store : Store) (table : Bytes) (r : Bytes × Columns) : Store :=
  onRowInserted (store.insert r.1 (encodeRow r.2)) table r.2 r.1

def execInsert (table : Bytes) (columns : List Bytes) (values : List Value) :
    MapDatabase × Except SqlError ExecuteResult :=
  match insertedRow db.context table columns values with
  | .error e => (db, .error e)
  | .ok r => ({ db with store := insertRow db.store table r }, .ok (.rowCount 1))

def putRows (store : Store) (rows : List (Bytes × Columns)) : Store :=
  store.apply (rows.map fun r => (r.1, some (encodeRow r.2)))

/-- All rows are written before the first of them is indexed. -/
def insertAll (store : Store) (table : Bytes) (rows : List (Bytes × Columns)) : Store :=
  rows.foldl (fun s r => onRowInserted s table r.2 r.1) (putRows store rows)

def execBulkInsert (table : Bytes) (columns : List Bytes) (rows : List (List Bytes)) :
    MapDatabase × Except SqlError ExecuteResult :=
  match insertedRows db.context table columns rows with
  | .error e => (db, .error e)
  | .ok pairs =>
    ({ db with store := insertAll db.store table pairs }, .ok (.rowCount pairs.length))

/-- Row by row, up to the first that cannot be evaluated. -/
def updateAll (table : Bytes) (assignments : List (Bytes × ScalarExpr)) :
    Store → List BufferedRow → Store × Option SqlError
  | store, [] => (store, none)
  | store, (key, cols) :: rest =>
    match updateRow assignments cols with
    | .error e => (store, some e)
    | .ok new =>
      updateAll table assignments
        (onRowUpdated (store.insert key (encodeRow new)) table cols new key) rest

def execUpdate (table : Bytes) (assignments : List (Bytes × ScalarExpr))
    (filter : Option FilterExpr) : MapDatabase × Except SqlError ExecuteResult :=
  match updatableRows db.context table assignments filter with
  | .error e => (db, .error e)
  | .ok rows =>
    let updated := updateAll table assignments db.store rows
    ({ db with store := updated.1 }, match updated.2 with
      | some e => .error e
      | none => .ok (.rowCount rows.length))

/-- All rows are deleted before their entries. -/
def deleteAll (store : Store) (table : Bytes) (rows : List BufferedRow) : Store :=
  rows.foldl (fun s r => onRowDeleted s table r.2 r.1) (store.apply (rows.map fun r => (r.1, none)))

def execDelete (table : Bytes) (filter : Option FilterExpr) :
    MapDatabase × Except SqlError ExecuteResult :=
  match doomedRows db.context table filter with
  | .error e => (db, .error e)
  | .ok rows =>
    ({ db with store := deleteAll db.store table rows }, .ok (.rowCount rows.length))

end Dml

section Ddl

variable (db : MapDatabase)

def isSystemAppendOnlyTable (name : Bytes) : Bool := name = ascii "_galaxdb_training_exports"

def newTable (name : Bytes) (columns : List StoredColumn) : StoredTable :=
  ⟨name, columns, columns.any fun c => c.isEmbeddingSource, isSystemAppendOnlyTable name, .columnar⟩

def tableExists (name : Bytes) : Bool := db.catalog.any fun t => t.name = name

def execCreateTable (name : Bytes) (columns : List StoredColumn) :
    MapDatabase × Except SqlError ExecuteResult :=
  if db.tableExists name then (db, .error (.tableAlreadyExists name))
  else
    let t := newTable name columns
    (⟨db.store.insert (catalogKey t.name) (encodeTableEntry t), db.catalog ++ [t]⟩,
      .ok (.ok (ascii "CREATE TABLE " ++ name)))

/-- The definition goes from the catalog and from the store, and nothing else. -/
def execDropTable (name : Bytes) (ifExists : Bool) : MapDatabase × Except SqlError ExecuteResult :=
  if db.tableExists name then
    (⟨db.store.erase (catalogKey name), db.catalog.filter fun t => t.name ≠ name⟩,
      .ok (.ok (ascii "DROP TABLE " ++ name)))
  else if ifExists then (db, .ok (.ok (ascii "DROP TABLE IF EXISTS " ++ name)))
  else (db, .error (.tableNotFound name))

def execCreateIndex (d : IndexDef) (ifNotExists : Bool) :
    MapDatabase × Except SqlError ExecuteResult :=
  match getTable db.context.catalog d.table with
  | .error e => (db, .error e)
  | .ok entry =>
    if entry.columns.any (fun c => c.name = d.column) = false then
      (db, .error (.columnNotFound (d.table ++ ascii "." ++ d.column)))
    else if (getDef db.store d.name).isSome ∧ ifNotExists then
      (db, .ok (.ok (ascii "CREATE INDEX " ++ d.name ++ ascii " (already exists)")))
    else
      match createDef db.store d with
      | .error e => (db, .error e)
      | .ok store =>
        ({ db with store := buildFromTable store d },
          .ok (.ok (ascii "CREATE INDEX " ++ d.name ++ ascii " ON " ++ d.table ++ ascii " (" ++
            d.column ++ ascii "): " ++ natDigits (buildEntries store d).length ++
            ascii " rows indexed")))

/-- The entries of an index and its definition. -/
def dropEntries (store : Store) (name : Bytes) : Store :=
  store.apply (((store.scanPrefix (entryPrefixForIndex name)).map fun r => (r.1, none)) ++
    [(defKey name, none)])

def execDropIndex (name : Bytes) (ifExists : Bool) : MapDatabase × Except SqlError ExecuteResult :=
  match getDef db.store name with
  | some _ =>
    ({ db with store := dropEntries db.store name }, .ok (.ok (ascii "DROP INDEX " ++ name)))
  | none =>
    if ifExists then (db, .ok (.ok (ascii "DROP INDEX " ++ name)))
    else (db, .error (.internal (ascii "index '" ++ name ++ ascii "' does not exist")))

end Ddl

section Roles

variable (db : MapDatabase)

def noSuchRole (name : Bytes) : SqlError :=
  .internal (ascii "role '" ++ name ++ ascii "' does not exist")

def execCreateRole (r : RoleRecord) : MapDatabase × Except SqlError ExecuteResult :=
  if (getRole db.store r.name).isSome then
    (db, .error (.internal (ascii "role '" ++ r.name ++ ascii "' already exists")))
  else ({ db with store := db.store.insert (roleKey r.name) r.toBytes },
    .ok (.ok (ascii "CREATE ROLE " ++ r.name)))

/-- The role, and then the grants that are listed as its own. -/
def dropRole (store : Store) (name : Bytes) : Store :=
  let dropped : Store := store.erase (roleKey name)
  dropped.apply (((listGrants dropped).filter fun g => g.1 = name).map
    fun g => (grantKey g.1 g.2.1 g.2.2, none))

def execDropRole (name : Bytes) (ifExists : Bool) : MapDatabase × Except SqlError ExecuteResult :=
  match getRole db.store name with
  | some _ =>
    ({ db with store := dropRole db.store name }, .ok (.ok (ascii "DROP ROLE " ++ name)))
  | none =>
    if ifExists then (db, .ok (.ok (ascii "DROP ROLE " ++ name)))
      else (db, .error (noSuchRole name))

/-- The table need not exist. -/
def execGrant (role table : Bytes) (privilege : Action) (revoke : Bool) :
    MapDatabase × Except SqlError ExecuteResult :=
  match getRole db.store role with
  | none => (db, .error (noSuchRole role))
  | some _ =>
    if revoke then
      ({ db with store := db.store.erase (grantKey role table privilege) },
        .ok (.ok (ascii "REVOKE " ++ privilege.label ++ ascii " ON " ++ table ++
          ascii " FROM " ++ role)))
    else
      ({ db with store := db.store.insert (grantKey role table privilege) [1] },
        .ok (.ok (ascii "GRANT " ++ privilege.label ++ ascii " ON " ++ table ++
          ascii " TO " ++ role)))

end Roles

inductive Op where
  | insert (table : Bytes) (columns : List Bytes) (values : List Value)
  | bulkInsert (table : Bytes) (columns : List Bytes) (rows : List (List Bytes))
  | update (table : Bytes) (assignments : List (Bytes × ScalarExpr)) (filter : Option FilterExpr)
  | delete (table : Bytes) (filter : Option FilterExpr)
  | createTable (name : Bytes) (columns : List StoredColumn)
  | dropTable (name : Bytes) (ifExists : Bool)
  | createIndex (d : IndexDef) (ifNotExists : Bool)
  | dropIndex (name : Bytes) (ifExists : Bool)
  | createRole (r : RoleRecord)
  | dropRole (name : Bytes) (ifExists : Bool)
  | grant (role table : Bytes) (privilege : Action) (revoke : Bool)

def exec (db : MapDatabase) : Op → MapDatabase × Except SqlError ExecuteResult
  | .insert table columns values => db.execInsert table columns values
  | .bulkInsert table columns rows => db.execBulkInsert table columns rows
  | .update table assignments filter => db.execUpdate table assignments filter
  | .delete table filter => db.execDelete table filter
  | .createTable name columns => db.execCreateTable name columns
  | .dropTable name ifExists => db.execDropTable name ifExists
  | .createIndex d ifNotExists => db.execCreateIndex d ifNotExists
  | .dropIndex name ifExists => db.execDropIndex name ifExists
  | .createRole r => db.execCreateRole r
  | .dropRole name ifExists => db.execDropRole name ifExists
  | .grant role table privilege revoke => db.execGrant role table privilege revoke

/-- Closed and opened again. -/
def reopen (db : MapDatabase) : Except SqlError MapDatabase :=
  (loadAll db.store).map fun loaded => ⟨db.store, catalogOf loaded⟩

/-- Statements, and restarts, which are refused when a record cannot be read. -/
inductive Act where
  | statement (op : Op)
  | restart

def step (db : MapDatabase) : Act → Option MapDatabase
  | .statement op => some (db.exec op).1
  | .restart => db.reopen.toOption

end MapDatabase

end GalaxDb.Sql
