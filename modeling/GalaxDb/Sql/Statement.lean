import GalaxDb.Sql.Executor

/-!
# Statements and their entry points

A parsed statement reaches the executor through one of four doors. Each of them translates
the WHERE clause with `filterFromExpr`.
-/

namespace GalaxDb.Sql

open Bytes Executor

inductive Statement where
  | select (q : Query)
  | update (table : Bytes) (assignments : List (Bytes × Expr)) (selection : Option Expr)
  | delete (tables : List Bytes) (selection : Option Expr)

/-- `execute` also stands for a prepared statement run under the exclusive lock. -/
inductive EntryPoint where
  | execute
  | dmlConcurrent
  | boundDmlConcurrent
  | inTxn
  deriving DecidableEq

/-- `elsewhere` is a query that another engine answers. -/
inductive Outcome where
  | error (e : SqlError)
  | elsewhere
  | native (effect : Effect)

/-- A statement that fails on its way returns the failure. -/
def Outcome.of : Except SqlError Effect → Outcome
  | .error e => .error e
  | .ok effect =>
    match effect.failure with
    | some e => .error e
    | none => .native effect

def Statement.selection : Statement → Option Expr
  | .select q => querySelection q
  | .update _ _ selection => selection
  | .delete _ selection => selection

def Statement.isSelect : Statement → Bool
  | .select _ => true
  | _ => false

def assignmentsFromExprs : List (Bytes × Expr) → Except SqlError (List (Bytes × ScalarExpr))
  | [] => .ok []
  | (name, e) :: rest =>
    (scalarFromExpr e).bind fun s => (assignmentsFromExprs rest).map fun later => (name, s) :: later

namespace Database

def semanticInTxn : SqlError :=
  .featureNotSupported (ascii "SEMANTIC_MATCH is not supported inside a transaction (v1)")

def analyticalInTxn : SqlError :=
  .featureNotSupported (ascii "analytical queries (joins/aggregates/subqueries/GROUP BY/" ++
    ascii "DISTINCT) are not supported inside an explicit transaction (v1); the columnar " ++
    ascii "analytical engine cannot see a transaction's uncommitted write buffer")

def nativeScan (ctx : ExecutorContext) (q : Query) : Except SqlError Effect :=
  planFullScan ctx (extractTable q) (extractProjectionAndFilter q).2
    (extractProjectionAndFilter q).1

/-- The concurrent path does not classify its queries; the bound one takes none. -/
def execSelect (ctx : ExecutorContext) (q : Query) : EntryPoint → Outcome
  | .execute =>
    if isFromLessSelect q || queryHasSemanticMatch q then .elsewhere
    else if !queryHasNotDuplicate q && classifyQuery q == .analytical then .elsewhere
    else .of (nativeScan ctx q)
  | .dmlConcurrent => .of (nativeScan ctx q)
  | .boundDmlConcurrent =>
    .error (.internal (ascii "execute_bound_dml_concurrent: unexpected statement"))
  | .inTxn =>
    if queryHasSemanticMatch q then .error semanticInTxn
    else
      match simpleSortLimit q with
      | some s => .of (sortedScan ctx (extractTable q) (extractProjectionAndFilter q).2
          (extractProjectionAndFilter q).1 s)
      | none =>
        if classifyQuery q = .analytical then .error analyticalInTxn
        else .of (nativeScan ctx q)

def execUpdate (ctx : ExecutorContext) (table : Bytes) (assignments : List (Bytes × Expr))
    (selection : Option Expr) : Outcome :=
  .of ((assignmentsFromExprs assignments).bind fun a =>
    planUpdate ctx table a (selection.bind filterFromExpr))

/-- Only `execute` takes a DELETE without a table for a statement that deletes nothing. -/
def execDelete (ctx : ExecutorContext) (tables : List Bytes) (selection : Option Expr)
    (entry : EntryPoint) : Outcome :=
  let table := tables.head?.getD []
  if table = [] ∧ entry = .execute then .native ⟨[], [], [], none⟩
  else .of (planDelete ctx table (selection.bind filterFromExpr))

def exec (ctx : ExecutorContext) (entry : EntryPoint) : Statement → Outcome
  | .select q => execSelect ctx q entry
  | .update table assignments selection => execUpdate ctx table assignments selection
  | .delete tables selection => execDelete ctx tables selection entry

end Database

/-- The table a statement is about. -/
def Statement.table : Statement → Bytes
  | .select q => extractTable q
  | .update table _ _ => table
  | .delete tables _ => tables.head?.getD []

end GalaxDb.Sql
