import GalaxDb.Sql.DropTable
import GalaxDb.Sql.Session

/-!
# Training lineage

A successful export of a training dataset puts one row into a system table, around the
executor and under a number that the process counts. Statements, transactions and restarts
come in between; the executor refuses UPDATE and DELETE of the table.
-/

namespace GalaxDb.Sql

open Bytes Executor MapDatabase

structure TrainingExportLineage where
  tagName : Bytes
  filterExpr : Option Bytes
  precision : Bytes
  dedup : Bool
  rowCount : UInt64
  exportedAt : UInt64
  contentHash : Bytes
  deriving DecidableEq

def trainingExportsTable : Bytes := ascii "_galaxdb_training_exports"

/-- The columns that `ensure_training_exports_table` declares. -/
def trainingExportsColumns : List StoredColumn :=
  [⟨⟨ascii "lineage_id", true, false⟩, ascii "BIGINT", true⟩,
    ⟨⟨ascii "exported_at", false, false⟩, ascii "BIGINT", true⟩,
    ⟨⟨ascii "tag_name", false, false⟩, ascii "TEXT", true⟩,
    ⟨⟨ascii "filter_expr", false, false⟩, ascii "TEXT", true⟩,
    ⟨⟨ascii "precision", false, false⟩, ascii "TEXT", true⟩,
    ⟨⟨ascii "dedup", false, false⟩, ascii "TEXT", true⟩,
    ⟨⟨ascii "curriculum", false, false⟩, ascii "TEXT", true⟩,
    ⟨⟨ascii "row_count", false, false⟩, ascii "BIGINT", true⟩,
    ⟨⟨ascii "content_hash", false, false⟩, ascii "TEXT", true⟩]

/-- The row of an export. -/
def lineageRow (id : UInt64) (l : TrainingExportLineage) : Columns :=
  [(ascii "lineage_id", .integer (u64AsI64 id.toNat)),
    (ascii "exported_at", .integer (u64AsI64 l.exportedAt.toNat)),
    (ascii "tag_name", .text l.tagName),
    (ascii "filter_expr", match l.filterExpr with
      | some s => .text s
      | none => .null),
    (ascii "precision", .text l.precision),
    (ascii "dedup", .bool l.dedup),
    (ascii "curriculum", .null),
    (ascii "row_count", .integer (u64AsI64 l.rowCount.toNat)),
    (ascii "content_hash", .text l.contentHash)]

def lineageKey (id : UInt64) : Bytes := tablePrefix trainingExportsTable ++ natDigits id.toNat

/-- A transaction reads the store as it was at its begin, under its own writes. -/
structure OpenTxn where
  snapshot : Store
  writes : WriteBuffer

namespace OpenTxn

def seen (t : OpenTxn) : Store := t.snapshot.apply t.writes.toList

def context (t : OpenTxn) (catalog : List StoredTable) : ExecutorContext :=
  ⟨catalog.map StoredTable.entry, fun _ _ => none, Reader.ofStore t.seen⟩

def buffer (t : OpenTxn) (writes : List (Bytes × Option Bytes)) : OpenTxn :=
  { t with writes := writes.foldl (fun m w => m.insert w.1 w.2) t.writes }

end OpenTxn

/-- A database, the counter `LINEAGE_ROW_ID` of its process, the open transactions, and the
exports that have succeeded under the numbers they got. -/
structure LineageDb where
  db : MapDatabase
  nextId : UInt64
  txns : List OpenTxn
  exported : List (UInt64 × TrainingExportLineage)

namespace LineageDb

def fresh : LineageDb := ⟨.empty, 1, [], []⟩

/-- Statements outside and inside of transactions; `kept` says how many writes of a statement
find their locks free. An export that fails has declared the table all the same, and another
database of the process takes a number for its export. A restart may be that of the process. -/
inductive Act where
  | statement (op : Op)
  | begin
  | exec (i : Nat) (r : Request) (kept : Nat)
  | commit (i : Nat)
  | rollback (i : Nat)
  | trainingDataset (l : TrainingExportLineage)
  | failedExport
  | elsewhere
  | restart (newProcess : Bool)

def ensureTrainingExportsTable (db : MapDatabase) : MapDatabase :=
  if db.tableExists trainingExportsTable then db
  else (db.exec (.createTable trainingExportsTable trainingExportsColumns)).1

/-- The row goes to the engine directly, whatever is under its key. -/
def record (s : LineageDb) (l : TrainingExportLineage) : LineageDb where
  db := { s.db with store :=
    s.db.store.insert (lineageKey s.nextId) (encodeRow (lineageRow s.nextId l)) }
  nextId := s.nextId + 1
  txns := s.txns
  exported := s.exported ++ [(s.nextId, l)]

def execInTxn (s : LineageDb) (i : Nat) (t : OpenTxn) (r : Request) (kept : Nat) : LineageDb :=
  match requestEffect (t.context s.db.catalog) r with
  | .error _ => s
  | .ok effect => { s with txns := s.txns.set i (t.buffer (effect.writes.take kept)) }

/-- The hooks of the executor do not run. -/
def commitTxn (s : LineageDb) (i : Nat) (t : OpenTxn) : LineageDb :=
  { s with db := { s.db with store := s.db.store.apply t.writes.toList }, txns :=
    s.txns.eraseIdx i }

def step (s : LineageDb) : Act → Option LineageDb
  | .statement op => some { s with db := (s.db.exec op).1 }
  | .begin => some { s with txns := s.txns ++ [⟨s.db.store, ∅⟩] }
  | .exec i r kept => s.txns[i]?.map fun t => s.execInTxn i t r kept
  | .commit i => s.txns[i]?.map fun t => s.commitTxn i t
  | .rollback i => s.txns[i]?.map fun _ => { s with txns := s.txns.eraseIdx i }
  | .trainingDataset l => some (record { s with db := ensureTrainingExportsTable s.db } l)
  | .failedExport => some { s with db := ensureTrainingExportsTable s.db }
  | .elsewhere => some { s with nextId := s.nextId + 1 }
  | .restart newProcess => s.db.reopen.toOption.map fun db =>
    ⟨db, if newProcess then 1 else s.nextId, [], s.exported⟩

/-- What `SELECT * FROM _galaxdb_training_exports` returns: keys, and cells as they are shown. -/
def selected (db : MapDatabase) : List (Bytes × List (Bytes × Bytes)) :=
  match planFullScan db.context trainingExportsTable none [] with
  | .ok effect => effect.rows.map fun r => (r.1, rendered r.2)
  | .error _ => []

/-- What the successful exports have recorded. -/
def recorded (s : LineageDb) : List (Bytes × List (Bytes × Bytes)) :=
  s.exported.map fun e => (lineageKey e.1, rendered (lineageRow e.1 e.2))

/-- Every successful export has a row of its own, with what it recorded. -/
def Complete (s : LineageDb) : Prop := s.recorded.Subperm (selected s.db)

end LineageDb

end GalaxDb.Sql
