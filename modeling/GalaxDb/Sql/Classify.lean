import GalaxDb.Sql.Translate

/-!
# Where a SELECT runs

A query is native when it is a filtered scan of one table; joins, aggregates and the rest
go to the analytical engine. The WHERE clause plays no part in the decision, apart from
`SEMANTIC_MATCH` and `NOT DUPLICATE`.
-/

namespace GalaxDb.Sql

open Bytes

/-- A relation of the FROM clause and the number of its joins. -/
structure TableWithJoins where
  relation : Bytes
  isTable : Bool
  joins : Nat
  deriving DecidableEq

inductive SelectItem where
  | wildcard
  | unnamedExpr (e : Expr)
  | exprWithAlias (e : Expr) (name : Bytes)
  deriving DecidableEq

/-- `groupBy` is `none` for `GROUP BY ALL`, else the number of its expressions. -/
structure Select where
  projection : List SelectItem
  «from» : List TableWithJoins
  selection : Option Expr
  distinct : Bool
  having : Bool
  groupBy : Option Nat
  deriving DecidableEq

structure OrderByExpr where
  expr : Expr
  asc : Option Bool
  nullsFirst : Option Bool
  deriving DecidableEq

/-- The body is `none` for a set operation, a subquery or a list of values. -/
structure Query where
  body : Option Select
  orderBy : List OrderByExpr
  limit : Option Expr
  offset : Option Expr
  deriving DecidableEq

inductive StatementClass where
  | native
  | analytical
  deriving DecidableEq

def aggregates : List Bytes :=
  [ascii "COUNT", ascii "SUM", ascii "AVG", ascii "MIN", ascii "MAX", ascii "STDDEV",
    ascii "STDDEV_POP", ascii "STDDEV_SAMP", ascii "VARIANCE", ascii "VAR_POP",
    ascii "VAR_SAMP", ascii "ARRAY_AGG", ascii "STRING_AGG"]

def exprHasAggregateOrWindow : Expr → Bool
  | .function name hasOver _ _ => hasOver || aggregates.any (eqIgnoreCase name)
  | .binaryOp left _ right => exprHasAggregateOrWindow left || exprHasAggregateOrWindow right
  | .unaryOp _ e => exprHasAggregateOrWindow e
  | .nested e => exprHasAggregateOrWindow e
  | .cast e _ => exprHasAggregateOrWindow e
  | _ => false

def projectionIsAnalytical : SelectItem → Bool
  | .wildcard => false
  | .unnamedExpr e => exprHasAggregateOrWindow e
  | .exprWithAlias e _ => exprHasAggregateOrWindow e

def bodyIsNativeSingleTable (q : Query) : Bool :=
  match q.body with
  | none => false
  | some select =>
    match select.from with
    | [table] => table.joins == 0 && table.isTable && !select.distinct && !select.having &&
        select.groupBy == some 0 && !select.projection.any projectionIsAnalytical
    | _ => false

def hasOrderBy (q : Query) : Bool := !q.orderBy.isEmpty

def classifyQuery (q : Query) : StatementClass :=
  if hasOrderBy q || q.limit.isSome || q.offset.isSome then .analytical
  else if bodyIsNativeSingleTable q then .native
  else .analytical

structure SortKey where
  column : Bytes
  descending : Bool
  nullsFirst : Bool
  deriving DecidableEq

structure SortLimit where
  orderBy : List SortKey
  limit : Option Nat
  offset : Option Nat
  deriving DecidableEq

/-- A literal count, as `usize`. -/
def exprToUsize : Expr → Option Nat
  | .value (.number text) => parseU64 text
  | _ => none

def sortKeyFromExpr (o : OrderByExpr) : Option SortKey :=
  (columnNameFromExpr o.expr).map fun column =>
    let descending := o.asc == some false
    { column, descending, nullsFirst := o.nullsFirst.getD descending }

/-- A clause that is absent is no count; one that is present must be a literal. -/
def clauseCount : Option Expr → Option (Option Nat)
  | none => some none
  | some e => (exprToUsize e).map some

def simpleSortLimit (q : Query) : Option SortLimit :=
  if (hasOrderBy q || q.limit.isSome || q.offset.isSome) = false then none
  else if bodyIsNativeSingleTable q = false then none
  else
    (q.orderBy.mapM sortKeyFromExpr).bind fun orderBy =>
      (clauseCount q.limit).bind fun limit =>
        (clauseCount q.offset).map fun offset => { orderBy, limit, offset }

def isFromLessSelect (q : Query) : Bool :=
  match q.body with
  | some select => select.from.isEmpty
  | none => false

def extractTable (q : Query) : Bytes :=
  match q.body.bind fun select => select.from.head? with
  | some table => table.relation
  | none => ascii "unknown"

def itemColumn : SelectItem → Option Bytes
  | .wildcard => none
  | .unnamedExpr e => columnNameFromExpr e
  | .exprWithAlias e _ => columnNameFromExpr e

/-- No columns stand for all of them, also where an item is not a plain column. -/
def extractProjectionAndFilter (q : Query) : List Bytes × Option FilterExpr :=
  match q.body with
  | none => ([], none)
  | some select =>
    ((select.projection.mapM itemColumn).getD [], select.selection.bind filterFromExpr)

def semanticArgs : List FunctionArg → Bool
  | [column, .string _, .number threshold] =>
    (match column with
      | .identifier _ => true
      | .compoundIdentifier _ => true
      | _ => false) && (parseF64 threshold).isSome
  | _ => false

/-- Does the clause hold a complete `SEMANTIC_MATCH(col, 'query', threshold)` conjunct? -/
def exprHasSemanticMatch : Expr → Bool
  | .function name _ args _ =>
    eqIgnoreCase name (ascii "SEMANTIC_MATCH") && semanticArgs (args.filter (· ≠ .notUnnamed))
  | .binaryOp left .and right => exprHasSemanticMatch left || exprHasSemanticMatch right
  | _ => false

def exprHasNotDuplicate : Expr → Bool
  | .unaryOp .not (.identifier name) => eqIgnoreCase name (ascii "DUPLICATE")
  | .unaryOp .not e => exprHasNotDuplicate e
  | .binaryOp left _ right => exprHasNotDuplicate left || exprHasNotDuplicate right
  | .nested e => exprHasNotDuplicate e
  | _ => false

def querySelection (q : Query) : Option Expr := q.body.bind Select.selection

def queryHasNotDuplicate (q : Query) : Bool := (querySelection q).any exprHasNotDuplicate

def queryHasSemanticMatch (q : Query) : Bool := (querySelection q).any exprHasSemanticMatch

end GalaxDb.Sql
