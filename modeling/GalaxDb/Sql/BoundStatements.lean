import GalaxDb.Sql.MapDatabase
import GalaxDb.Sql.Placeholders
import Mathlib.Data.List.TakeWhile

/-!
# Prepared statements

A template is parsed once; values are put into its tree and the tree is executed. The same
code executes the tree of a statement that comes as text. Other engines answer analytical
and semantic queries: they are functions of what is handed to them.
-/

namespace GalaxDb.Sql

open Bytes Executor List Option

structure SemanticMatchExpr where
  column : Bytes
  query : Bytes
  threshold : Float

def semanticMatchFromArgs : List FunctionArg → Option SemanticMatchExpr
  | [.identifier column, .string query, .number t] =>
    (parseF64 t).map fun threshold => ⟨column, query, threshold⟩
  | [.compoundIdentifier parts, .string query, .number t] =>
    (parseF64 t).map fun threshold => ⟨parts.getLast?.getD [], query, threshold⟩
  | _ => none

def isSemanticMatch (name : Bytes) : Bool := eqIgnoreCase name (ascii "SEMANTIC_MATCH")

def extractSemanticMatchFromExpr : Expr → Option SemanticMatchExpr
  | .function name _ args _ =>
    if isSemanticMatch name then semanticMatchFromArgs (args.filter (· ≠ .notUnnamed)) else none
  | .binaryOp left .and right =>
    (extractSemanticMatchFromExpr left).or (extractSemanticMatchFromExpr right)
  | _ => none

/-- The filter of a query without its `SEMANTIC_MATCH`. -/
def filterFromExprNoSemantic : Expr → Option FilterExpr
  | .function name hasOver args text =>
    if isSemanticMatch name then none else filterFromExpr (.function name hasOver args text)
  | .binaryOp left .and right =>
    match filterFromExprNoSemantic left, filterFromExprNoSemantic right with
    | some a, some b => some (.and a b)
    | some a, none => some a
    | none, some b => some b
    | none, none => none
  | e => filterFromExpr e

theorem Alike.noSemantic_eq {limit : Nat} {e e' : Expr} (fits : (limit : Int) ≤ i64Max)
    (h : Alike limit e e') : filterFromExprNoSemantic e = filterFromExprNoSemantic e' := by
  induction h with
  | binaryOp op hl hr ihl ihr =>
    cases op with
    | and => simp only [filterFromExprNoSemantic, ihl, ihr]
    | _ => exact (Alike.binaryOp _ hl hr).filter_eq fits
  | unaryOp op h => exact (h.unaryOp op).filter_eq fits
  | nested h => exact h.nested.filter_eq fits
  | _ => rfl

/-- A query, with the tables it names and its printed forms, as it is and without its
`SEMANTIC_MATCH`. -/
structure ParsedQuery where
  query : Query
  tables : List Bytes
  text : Bytes
  stripped : Bytes

/-- What stands behind the columns of an INSERT. -/
inductive InsertBody where
  | missing
  | query
  | values (rows : List (List Expr))

inductive Standard where
  | query (q : ParsedQuery)
  | insert (table : Bytes) (columns : List Bytes) (source : InsertBody)
  | update (table : Bytes) (assignments : List (Bytes × Expr)) (selection : Option Expr)
  | delete (tables : List Bytes) (selection : Option Expr)

/-- The exclusive lock, the shared one, or a transaction. -/
inductive Door where
  | exclusive
  | shared
  | inTxn
  deriving DecidableEq

inductive QueryResult where
  | ok (message : Bytes)
  | rowCount (n : Nat)
  | rows (rows : List (List (Bytes × Bytes)))

def queryResultFrom (rows : List Columns) : QueryResult :=
  .rows (rows.map fun row => row.map fun c => (c.1, valueDisplay c.2))

/-- The engines of analytical and semantic queries, and the functions of a query without a
table. -/
structure Engines (σ : Type) where
  analytical : σ → List Bytes → Bytes → Except SqlError QueryResult
  analyticalSemantic : σ → Bytes → List Bytes → SemanticMatchExpr → Option FilterExpr →
    Option Nat → Bytes → Except SqlError QueryResult
  semantic : σ → Bytes → SemanticMatchExpr → Option FilterExpr → Option Nat →
    Except SqlError QueryResult
  builtin : Bytes → Except SqlError Value

def extractSemanticMatch (q : Query) : Option SemanticMatchExpr :=
  (querySelection q).bind extractSemanticMatchFromExpr

def isAnalyticalBeyondPagination (q : Query) : Bool := hasOrderBy q || !bodyIsNativeSingleTable q

def queryLimit (q : Query) : Option Nat := q.limit.bind exprToUsize

section Exec

variable {σ : Type} (T : Target σ) (engines : Engines σ)

def evalScalarProjectionExpr : Expr → Except SqlError Value
  | .function name _ _ _ => engines.builtin name
  | .identifier name => engines.builtin name
  | e => (scalarFromExpr e).bind fun s => s.eval []

def scalarOutputName : Expr → Option Bytes
  | .function name _ _ _ => some (name.map toLower)
  | .identifier name => some (name.map toLower)
  | _ => none

/-- Columns without a name are numbered from the second on. -/
def placeName (i : Nat) : Bytes := ascii "?column?" ++ if i = 0 then [] else natDigits i

def evalItem (i : Nat) : SelectItem → Except SqlError (Bytes × Value)
  | .wildcard =>
    .error (.featureNotSupported (ascii "unsupported projection item without a FROM clause: *"))
  | .unnamedExpr e =>
    (evalScalarProjectionExpr engines e).map fun v => ((scalarOutputName e).getD (placeName i), v)
  | .exprWithAlias e name => (evalScalarProjectionExpr engines e).map fun v => (name, v)

def evalItems (i : Nat) : List SelectItem → Except SqlError Columns
  | [] => .ok []
  | item :: rest =>
    (evalItem engines i item).bind fun c => (evalItems (i + 1) rest).map fun later => c :: later

def evalScalarSelect (q : Query) : Except SqlError QueryResult :=
  match q.body with
  | none => .error (.featureNotSupported (ascii "unsupported FROM-less query form"))
  | some select =>
    if select.selection.isSome then
      .error (.featureNotSupported (ascii "WHERE is not supported without a FROM clause"))
    else (evalItems engines 0 select.projection).map fun columns => queryResultFrom [columns]

/-- A statement that only answers. -/
def answers {β : Type} (s : σ) (result : Except SqlError β) : Option (Done σ β) :=
  some ⟨s, [], result⟩

def Done.mapResult {α β : Type} (f : α → β) (d : Done σ α) : Done σ β :=
  ⟨d.state, d.log, d.result.map f⟩

/-- What has been planned is carried out. -/
def execEffect (s : σ) : Except SqlError Effect → Option (Done σ (List Columns × Nat))
  | .error e => some ⟨s, [], .error e⟩
  | .ok effect => (carryOut T (T.record s effect.reads) effect.writes).map fun d =>
      ⟨d.state, d.log, d.result.bind effect.finish⟩

theorem execPlan_eq (s : σ) (p : QueryPlan) : execPlan T s p = match T.refuses p with
    | some e => some ⟨s, [], .error e⟩
    | none => execEffect T s (planEffect (T.context s) p) := by
  rw [execPlan]
  cases T.refuses p with
  | some e => rfl
  | none =>
    simp only
    cases planEffect (T.context s) p <;> rfl

def nativeRows (d : Option (Done σ (List Columns × Nat))) : Option (Done σ QueryResult) :=
  d.map (Done.mapResult fun r => queryResultFrom r.1)

def written (d : Option (Done σ (List Columns × Nat))) : Option (Done σ QueryResult) :=
  d.map (Done.mapResult fun r => .rowCount r.2)

def nativeScanOf (s : σ) (q : Query) : Option (Done σ QueryResult) :=
  nativeRows (execPlan T s (.fullScan (extractTable q) (extractProjectionAndFilter q).2
    (extractProjectionAndFilter q).1))

/-- Under the shared lock the table is looked up first. -/
def checkedScan (door : Door) (s : σ) (q : Query) : Option (Done σ QueryResult) :=
  match getTable (T.context s).catalog (extractTable q) with
  | .error e =>
    if door = .shared ∧
      extractTable q ≠ ascii "unknown" then answers s (.error e) else nativeScanOf T s q
  | .ok _ => nativeScanOf T s q

def execQueryInTxn (s : σ) (q : Query) : Option (Done σ QueryResult) :=
  if (extractSemanticMatch q).isSome then answers s (.error Database.semanticInTxn)
  else
    match simpleSortLimit q with
    | some order => nativeRows (execEffect T s (sortedScan (T.context s) (extractTable q)
        (extractProjectionAndFilter q).2 (extractProjectionAndFilter q).1 order))
    | none =>
      if classifyQuery q = .analytical then answers s (.error Database.analyticalInTxn)
      else nativeScanOf T s q

def execSelect (door : Door) (s : σ) (q : ParsedQuery) : Option (Done σ QueryResult) :=
  if isFromLessSelect q.query then answers s (evalScalarSelect engines q.query)
  else
    match extractSemanticMatch q.query with
    | some semantic =>
      if isAnalyticalBeyondPagination q.query then
        answers s (engines.analyticalSemantic s (extractTable q.query) q.tables semantic
          ((querySelection q.query).bind filterFromExprNoSemantic) (queryLimit q.query) q.stripped)
      else
        answers s (engines.semantic s (extractTable q.query) semantic
          ((querySelection q.query).bind filterFromExprNoSemantic) (queryLimit q.query))
    | none =>
      if !queryHasNotDuplicate q.query && classifyQuery q.query == .analytical then
        answers s (engines.analytical s q.tables q.text)
      else checkedScan T door s q.query

/-- Rows are evaluated and written one at a time; `tally` makes the count of a statement out
of the counts of its rows. -/
def insertEach (tally : Nat → Nat → Nat) (table : Bytes) (columns : List Bytes) :
    σ → Nat → List (List Expr) → Option (Done σ Nat)
  | s, count, [] => some ⟨s, [], .ok count⟩
  | s, count, row :: rest =>
    match rowValues row with
    | .error e => some ⟨s, [], .error e⟩
    | .ok values =>
      match execPlan T s (.insert table columns values) with
      | none => none
      | some ⟨s', log, .error e⟩ => some ⟨s', log, .error e⟩
      | some ⟨s', log, .ok r⟩ => (insertEach tally table columns s' (tally count r.2) rest).map
          fun later => ⟨later.state, log ++ later.log, later.result⟩

/-- Under the shared lock the count is that of the last row. -/
def Door.tally : Door → Nat → Nat → Nat
  | .exclusive, count, _ => count + 1
  | .shared, _, n => n
  | .inTxn, count, n => count + n

def insertCounted (door : Door) (s : σ) (table : Bytes) (columns : List Bytes)
    (rows : List (List Expr)) : Option (Done σ QueryResult) :=
  (insertEach T door.tally table columns s 0 rows).map (Done.mapResult QueryResult.rowCount)

def execInsert (s : σ) (table : Bytes) (columns : List Bytes) :
    Door → InsertBody → Option (Done σ QueryResult)
  | .exclusive, source =>
    match getTable (T.context s).catalog table, source with
    | .error e, _ => answers s (.error e)
    | .ok _, .values rows => insertCounted T .exclusive s table columns rows
    | .ok _, _ => answers s (.ok (.rowCount 0))
  | .shared, .values (row :: rest) => insertCounted T .shared s table columns (row :: rest)
  | .shared, _ => answers s (.ok (.ok (ascii "OK")))
  | .inTxn, .missing => answers s (.ok (.rowCount 0))
  | .inTxn, .query => answers s (.error (.featureNotSupported
      (ascii "INSERT ... SELECT is not supported inside a transaction (v1)")))
  | .inTxn, .values rows => insertCounted T .inTxn s table columns rows

def execUpdate (s : σ) (table : Bytes) (assignments : List (Bytes × Expr)) (selection :
    Option Expr) :
    Option (Done σ QueryResult) :=
  match assignmentsFromExprs assignments with
  | .error e => answers s (.error e)
  | .ok a => written (execPlan T s (.update table a (selection.bind filterFromExpr)))

def execDelete (door : Door) (s : σ) (tables : List Bytes) (selection : Option Expr) :
    Option (Done σ QueryResult) :=
  let table := tables.head?.getD []
  if table = [] ∧ door = .exclusive then answers s (.ok (.rowCount 0))
  else written (execPlan T s (.delete table (selection.bind filterFromExpr)))

def execStatement (door : Door) (s : σ) : Standard → Option (Done σ QueryResult)
  | .query q => if door = .inTxn then execQueryInTxn T s q.query else execSelect T engines door s q
  | .insert table columns source => execInsert T s table columns door source
  | .update table assignments selection => execUpdate T s table assignments selection
  | .delete tables selection => execDelete T door s tables selection

end Exec

section Templates

structure TemplateTable where
  relation : Printed
  isTable : Bool
  joins : Nat

inductive TemplateItem where
  | wildcard
  | unnamedExpr (e : TemplateExpr)
  | exprWithAlias (e : TemplateExpr) (name : Bytes)

structure TemplateSelect where
  projection : List TemplateItem
  «from» : List TemplateTable
  selection : Option TemplateExpr
  distinct : Bool
  having : Bool
  groupBy : Option Nat

structure TemplateOrder where
  expr : TemplateExpr
  asc : Option Bool
  nullsFirst : Option Bool

structure TemplateQuery where
  body : Option TemplateSelect
  orderBy : List TemplateOrder
  limit : Option TemplateExpr
  offset : Option TemplateExpr
  tables : List Bytes
  text : Printed
  stripped : Printed

inductive TemplateBody where
  | missing
  | query
  | values (rows : List (List TemplateExpr))

inductive TemplateForm where
  | query (q : TemplateQuery)
  | insert (table : Bytes) (columns : List Bytes) (source : TemplateBody)
  | update (table : Printed) (assignments : List (Bytes × TemplateExpr))
    (selection : Option TemplateExpr)
  | delete (tables : List Printed) (selection : Option TemplateExpr)

def TemplateItem.expr? : TemplateItem → Option TemplateExpr
  | .wildcard => none
  | .unnamedExpr e => some e
  | .exprWithAlias e _ => some e

/-- The expressions of which the statement consists. -/
def TemplateQuery.exprs (q : TemplateQuery) : List TemplateExpr :=
  q.body.toList.flatMap (fun select =>
      select.projection.filterMap TemplateItem.expr? ++ select.selection.toList) ++
    q.orderBy.map TemplateOrder.expr ++ q.limit.toList ++ q.offset.toList

def TemplateForm.exprs : TemplateForm → List TemplateExpr
  | .query q => q.exprs
  | .insert _ _ (.values rows) => rows.flatten
  | .insert _ _ _ => []
  | .update _ assignments selection => assignments.map Prod.snd ++ selection.toList
  | .delete _ selection => selection.toList

def TemplateForm.texts : TemplateForm → List Printed
  | .query q => q.text :: q.stripped ::
      q.body.toList.flatMap fun select => select.from.map TemplateTable.relation
  | .insert _ _ _ => []
  | .update table _ _ => [table]
  | .delete tables _ => tables

def TemplateForm.placeholders (t : TemplateForm) : List Bytes :=
  t.exprs.flatMap TemplateExpr.placeholders ++ t.texts.flatMap Printed.placeholders

/-- A parsed statement with its placeholders in the order in which they are visited. -/
structure Template where
  form : TemplateForm
  visits : List Bytes
  covers : ∀ p ∈ form.placeholders, p ∈ visits

namespace Filling

variable (F : Filling)

def table (t : TemplateTable) : TableWithJoins := ⟨F.printed t.relation, t.isTable, t.joins⟩

def item : TemplateItem → SelectItem
  | .wildcard => .wildcard
  | .unnamedExpr e => .unnamedExpr (F.expr e)
  | .exprWithAlias e name => .exprWithAlias (F.expr e) name

def select (t : TemplateSelect) : Select where
  projection := t.projection.map F.item
  «from» := t.from.map F.table
  selection := t.selection.map F.expr
  distinct := t.distinct
  having := t.having
  groupBy := t.groupBy

def order (o : TemplateOrder) : OrderByExpr := ⟨F.expr o.expr, o.asc, o.nullsFirst⟩

def query (q : TemplateQuery) : ParsedQuery where
  query := ⟨q.body.map F.select, q.orderBy.map F.order, q.limit.map F.expr, q.offset.map F.expr⟩
  tables := q.tables
  text := F.printed q.text
  stripped := F.printed q.stripped

def source : TemplateBody → InsertBody
  | .missing => .missing
  | .query => .query
  | .values rows => .values (rows.map fun row => row.map F.expr)

def statement : TemplateForm → Standard
  | .query q => .query (F.query q)
  | .insert table columns source => .insert table columns (F.source source)
  | .update table assignments selection =>
    .update (F.printed table) (assignments.map fun a => (a.1, F.expr a.2)) (selection.map F.expr)
  | .delete tables selection => .delete (tables.map F.printed) (selection.map F.expr)

end Filling

inductive StatementError where
  | sqlParse (position : Nat) (message : Bytes)
  | sql (e : SqlError)
  deriving DecidableEq

/-- The state after a prepared statement, the writes carried out and what it returns. -/
structure Ran (σ : Type) where
  state : σ
  log : List (Bytes × Option Bytes)
  result : Except StatementError QueryResult

def Done.ran {σ : Type} (d : Done σ QueryResult) : Ran σ := ⟨d.state, d.log, d.result.mapError .sql⟩

/-- The first placeholder without a value, in the order of the visit. -/
def Template.missing (t : Template) (values : List BoundValue) : Option Bytes :=
  t.visits.find? fun p => (boundFor values p).isNone

def bindPlaceholders (quote : Bytes → Bytes) (t : Template) (values : List BoundValue) :
    Except StatementError Standard :=
  match t.missing values with
  | some p => .error (.sqlParse 0 (ascii "no bound value for placeholder " ++ p))
  | none => .ok ((bound quote values).statement t.form)

variable {σ : Type} (T : Target σ) (engines : Engines σ) (quote : Bytes → Bytes) (door : Door)

/-- A prepared statement with its values. -/
def executeBound (s : σ) (t : Template) (values : List BoundValue) : Option (Ran σ) :=
  match bindPlaceholders quote t values with
  | .error e => some ⟨s, [], .error e⟩
  | .ok statement => (execStatement T engines door s statement).map Done.ran

/-- The statement whose text has the literals. -/
def executeLiterals (s : σ) (t : Template) (values : List BoundValue) : Option (Ran σ) :=
  (execStatement T engines door s ((literals quote values).statement t.form)).map Done.ran

end Templates

/-- None of these placeholders has a value of this kind. -/
def Free (values : List BoundValue) (kind : BoundValue → Bool) (ps : List Bytes) : Prop :=
  ∀ p ∈ ps, ∀ v, boundFor values p = some v → kind v = false

def TemplateArg.unnamed : TemplateArg → Bool
  | .given .notUnnamed => false
  | _ => true

def thresholdOf (args : List TemplateArg) : List Bytes :=
  match args.filter TemplateArg.unnamed with
  | [_, _, .placeholder p] => [p]
  | _ => []

/-- The placeholders that stand for the threshold of a `SEMANTIC_MATCH`. -/
def TemplateExpr.thresholds : TemplateExpr → List Bytes
  | .function name _ args _ => if isSemanticMatch name then thresholdOf args else []
  | .binaryOp left .and right => left.thresholds ++ right.thresholds
  | _ => []

/-- A query without a table reads its projection, any other one its filter. -/
def TemplateSelect.reads (select : TemplateSelect) : List Bytes :=
  match select.from with
  | [] => (select.projection.filterMap TemplateItem.expr?).flatMap TemplateExpr.reads
  | _ => select.selection.toList.flatMap TemplateExpr.reads

/-- No literal of the query is read: it leaves as text, or is refused. -/
def unread : Door → Query → Bool
  | .inTxn, q => (extractSemanticMatch q).isSome ||
      (simpleSortLimit q).isNone && classifyQuery q == .analytical
  | _, q => !isFromLessSelect q && (extractSemanticMatch q).isNone && !queryHasNotDuplicate q &&
      classifyQuery q == .analytical

def TemplateForm.thresholds : TemplateForm → List Bytes
  | .query q => (q.body.bind TemplateSelect.selection).toList.flatMap TemplateExpr.thresholds
  | _ => []

/-- The placeholders whose values are read as literals. -/
def TemplateForm.reads (door : Door) (F : Filling) : TemplateForm → List Bytes
  | .query q =>
    if unread door (F.query q).query then [] else q.body.toList.flatMap TemplateSelect.reads
  | .insert _ _ (.values rows) => rows.flatten.flatMap TemplateExpr.reads
  | .insert _ _ _ => []
  | .update _ assignments selection =>
    (assignments.map Prod.snd ++ selection.toList).flatMap TemplateExpr.reads
  | .delete _ selection => selection.toList.flatMap TemplateExpr.reads

/-- No negative integer is a threshold, and the least integer is nowhere read. -/
structure Template.Plain (quote : Bytes → Bytes) (door : Door) (t : Template) (values :
    List BoundValue) :
    Prop where
  thresholds : Free values BoundValue.negative t.form.thresholds
  reads : Free values BoundValue.least (t.form.reads door (bound quote values))

section Queries

variable (quote : Bytes → Bytes) {values : List BoundValue}

theorem isFromLessSelect_eq (q : TemplateQuery) :
    isFromLessSelect ((bound quote values).query q).query =
      isFromLessSelect ((literals quote values).query q).query := by
  simp only [isFromLessSelect, Filling.query]
  cases q.body with
  | none => rfl
  | some select => simp [Filling.select]

theorem hasOrderBy_eq (q : TemplateQuery) :
    hasOrderBy ((bound quote values).query q).query =
      hasOrderBy ((literals quote values).query q).query := by
  simp [hasOrderBy, Filling.query]

variable (whole : ∀ v ∈ values, v.isFloat = false)

include whole

theorem alike_shape (e : TemplateExpr) :
    Alike (2 ^ 63) ((bound quote values).expr e) ((literals quote values).expr e) :=
  alike_expr quote whole fun _ _ v _ => v.depth_le

theorem alike_fitting {e : TemplateExpr} (other : Free values BoundValue.least e.reads) :
    Alike (2 ^ 63 - 1) ((bound quote values).expr e) ((literals quote values).expr e) :=
  alike_expr quote whole fun p there v found => BoundValue.depth_lt (other p there v found)

theorem projectionIsAnalytical_eq (i : TemplateItem) :
    projectionIsAnalytical ((bound quote values).item i) =
      projectionIsAnalytical ((literals quote values).item i) := by
  cases i with
  | wildcard => rfl
  | unnamedExpr e | exprWithAlias e name => exact (alike_shape quote whole e).aggregate_eq

theorem itemColumn_eq (i : TemplateItem) :
    itemColumn ((bound quote values).item i) = itemColumn ((literals quote values).item i) := by
  cases i with
  | wildcard => rfl
  | unnamedExpr e | exprWithAlias e name => exact (alike_shape quote whole e).columnName_eq

theorem bodyIsNativeSingleTable_eq (q : TemplateQuery) :
    bodyIsNativeSingleTable ((bound quote values).query q).query =
      bodyIsNativeSingleTable ((literals quote values).query q).query := by
  simp only [bodyIsNativeSingleTable, Filling.query]
  cases q.body with
  | none => rfl
  | some select =>
    have items : (select.projection.map (bound quote values).item).any projectionIsAnalytical =
        (select.projection.map (literals quote values).item).any projectionIsAnalytical := by
      rw [List.any_map, List.any_map]
      congr 1
      funext i
      exact projectionIsAnalytical_eq quote whole i
    simp only [map_some, Filling.select, items]
    cases select.from with
    | nil => rfl
    | cons table rest =>
      cases rest <;> rfl

theorem classifyQuery_eq (q : TemplateQuery) : classifyQuery ((bound quote values).query q).query =
      classifyQuery ((literals quote values).query q).query := by
  rw [classifyQuery, classifyQuery, bodyIsNativeSingleTable_eq quote whole, hasOrderBy_eq quote]
  simp [Filling.query]

theorem clauseCount_eq (e : Option TemplateExpr) :
    clauseCount (e.map (bound quote values).expr) =
      clauseCount (e.map (literals quote values).expr) := by
  cases e with
  | none => rfl
  | some e => simp only [map_some, clauseCount, (alike_shape quote whole e).usize_eq]

theorem sortKeys_eq (orderBy : List TemplateOrder) :
    (orderBy.map (bound quote values).order).mapM sortKeyFromExpr =
      (orderBy.map (literals quote values).order).mapM sortKeyFromExpr := by
  induction orderBy with
  | nil => rfl
  | cons o rest ih =>
    have key : sortKeyFromExpr ((bound quote values).order o) =
        sortKeyFromExpr ((literals quote values).order o) := by
      simp only [sortKeyFromExpr, Filling.order, (alike_shape quote whole o.expr).columnName_eq]
    simp only [map_cons, mapM_cons, key, ih]

theorem simpleSortLimit_eq (q : TemplateQuery) :
    simpleSortLimit ((bound quote values).query q).query =
      simpleSortLimit ((literals quote values).query q).query := by
  have clauses : (hasOrderBy ((bound quote values).query q).query ||
      ((bound quote values).query q).query.limit.isSome ||
        ((bound quote values).query q).query.offset.isSome) =
      (hasOrderBy ((literals quote values).query q).query ||
      ((literals quote values).query q).query.limit.isSome ||
      ((literals quote values).query q).query.offset.isSome) := by
    simp [hasOrderBy, Filling.query]
  have keys : ((bound quote values).query q).query.orderBy.mapM sortKeyFromExpr =
      ((literals quote values).query q).query.orderBy.mapM sortKeyFromExpr :=
        sortKeys_eq quote whole q.orderBy
  have limit : clauseCount ((bound quote values).query q).query.limit =
      clauseCount ((literals quote values).query q).query.limit :=
        clauseCount_eq quote whole q.limit
  have offset : clauseCount ((bound quote values).query q).query.offset =
      clauseCount ((literals quote values).query q).query.offset :=
        clauseCount_eq quote whole q.offset
  simp only [simpleSortLimit, clauses, bodyIsNativeSingleTable_eq quote whole, keys, limit, offset]

theorem extractTable_eq (q : TemplateQuery) : extractTable ((bound quote values).query q).query =
      extractTable ((literals quote values).query q).query := by
  simp only [extractTable, Filling.query]
  cases q.body with
  | none => rfl
  | some select =>
    simp only [map_some, Filling.select, bind_some]
    cases select.from with
    | nil => rfl
    | cons table rest => simp only [map_cons, head?_cons, Filling.table, printed_eq quote whole]

theorem queryHasNotDuplicate_eq (q : TemplateQuery) :
    queryHasNotDuplicate ((bound quote values).query q).query =
      queryHasNotDuplicate ((literals quote values).query q).query := by
  simp only [queryHasNotDuplicate, querySelection, Filling.query]
  cases q.body with
  | none => rfl
  | some select =>
    simp only [map_some, Filling.select, bind_some]
    cases select.selection with
    | none => rfl
    | some e => exact (alike_shape quote whole e).notDuplicate_eq

theorem projection_eq (q : TemplateQuery) :
    (extractProjectionAndFilter ((bound quote values).query q).query).1 =
      (extractProjectionAndFilter ((literals quote values).query q).query).1 := by
  simp only [extractProjectionAndFilter, Filling.query]
  cases q.body with
  | none => rfl
  | some select =>
    have items : (select.projection.map (bound quote values).item).mapM itemColumn =
        (select.projection.map (literals quote values).item).mapM itemColumn := by
      induction select.projection with
      | nil => rfl
      | cons i rest ih => simp only [map_cons, mapM_cons, itemColumn_eq quote whole, ih]
    simp only [map_some, Filling.select, items]

/-- Only a negative integer makes another argument. -/
theorem arg_cases (a : TemplateArg) : (bound quote values).arg a = (literals quote values).arg a ∨
      ∃ t p v, (bound quote values).arg a = .number t ∧ (literals quote values).arg a = .expr ∧
        a = .placeholder p ∧ boundFor values p = some v ∧ v.negative = true := by
  cases a with
  | given arg => exact .inl rfl
  | placeholder p =>
    simp only [Filling.arg, bound, literals]
    cases found : boundFor values p with
    | none => exact .inl rfl
    | some v =>
      have noFloat := whole v (mem_of_boundFor found)
      cases v with
      | float f => cases noFloat
      | int n low high =>
        by_cases sign : 0 ≤ n
        · left
          rw [map_some, map_some, BoundValue.parsed_of_nonneg low high sign]
          rfl
        · obtain ⟨written, parsed⟩ := BoundValue.parsed_of_neg low high (by omega)
          right
          refine ⟨45 :: natDigits n.natAbs, p, _, ?_, ?_, rfl, found, ?_⟩
          · rw [map_some, written]
            rfl
          · rw [map_some, parsed]
            rfl
          · exact decide_eq_true (by omega)
      | _ => exact .inl rfl

omit whole in
theorem unnamed_args (F : Filling) (args : List TemplateArg) :
    (args.map F.arg).filter (· ≠ .notUnnamed) = (args.filter TemplateArg.unnamed).map F.arg := by
  rw [List.filter_map]
  congr 1
  apply filter_congr
  intro a _
  cases a with
  | given arg => cases arg <;> rfl
  | placeholder p =>
    have named : argOf (F.put p) ≠ .notUnnamed := by
      unfold argOf
      split <;> exact fun same => nomatch same
    exact decide_eq_true named

omit whole in
theorem semanticMatchFromArgs_of_length {args : List FunctionArg} (other : args.length ≠ 3) :
    semanticMatchFromArgs args = none := by
  unfold semanticMatchFromArgs
  split
  · exact absurd rfl other
  · exact absurd rfl other
  · rfl

theorem semanticMatchFromArgs_eq {args : List TemplateArg}
    (plain : Free values BoundValue.negative (thresholdOf args)) :
    semanticMatchFromArgs ((args.map (bound quote values).arg).filter (· ≠ .notUnnamed)) =
      semanticMatchFromArgs ((args.map (literals quote values).arg).filter (· ≠ .notUnnamed)) := by
  rw [unnamed_args, unnamed_args]
  rw [thresholdOf] at plain
  generalize args.filter TemplateArg.unnamed = unnamed at plain ⊢
  by_cases three : unnamed.length = 3
  · obtain ⟨a, b, c, rfl⟩ := length_eq_three.mp three
    simp only [map_cons, map_nil]
    rcases arg_cases quote whole a with column | ⟨t, -, -, left, right, -⟩
    · rcases arg_cases quote whole b with query | ⟨t, -, -, left, right, -⟩
      · rcases arg_cases quote whole c with threshold | ⟨t, p, v, left, right, rfl, found, negative⟩
        · rw [column, query, threshold]
        · have sign := plain p (mem_singleton_self p) v found
          rw [sign] at negative
          cases negative
      · rw [column, left, right]
        cases (literals quote values).arg a <;> rfl
    · rw [left, right]
      rfl
  · rw [semanticMatchFromArgs_of_length (by simpa using three),
      semanticMatchFromArgs_of_length (by simpa using three)]

theorem extractSemanticMatchFromExpr_eq {e : TemplateExpr}
    (plain : Free values BoundValue.negative e.thresholds) :
    extractSemanticMatchFromExpr ((bound quote values).expr e) =
      extractSemanticMatchFromExpr ((literals quote values).expr e) := by
  induction e with
  | placeholder p =>
    simp only [Filling.expr, bound, literals]
    cases found : boundFor values p with
    | none => rfl
    | some v =>
      simp only [map_some, getD_some, BoundValue.parsed]
      split <;> rfl
  | function name hasOver args text =>
    simp only [Filling.expr, extractSemanticMatchFromExpr]
    rw [TemplateExpr.thresholds] at plain
    split_ifs with named
    · rw [if_pos named] at plain
      exact semanticMatchFromArgs_eq quote whole plain
    · rfl
  | binaryOp left op right ihl ihr =>
    cases op with
    | and =>
      simp only [Filling.expr, extractSemanticMatchFromExpr]
      rw [ihl fun p h => plain p (mem_append_left _ h),
        ihr fun p h => plain p (mem_append_right _ h)]
    | _ => rfl
  | _ => rfl

theorem extractSemanticMatch_eq {q : TemplateQuery}
    (plain : Free values BoundValue.negative (TemplateForm.query q).thresholds) :
    extractSemanticMatch ((bound quote values).query q).query =
      extractSemanticMatch ((literals quote values).query q).query := by
  simp only [extractSemanticMatch, querySelection, Filling.query]
  rw [TemplateForm.thresholds] at plain
  cases body : q.body with
  | none => rfl
  | some select =>
    simp only [map_some, Filling.select, bind_some]
    cases selection : select.selection with
    | none => rfl
    | some e =>
      apply extractSemanticMatchFromExpr_eq quote whole
      simpa [body, selection] using plain

end Queries

theorem filter_of_query (q : Query) :
    (extractProjectionAndFilter q).2 = (querySelection q).bind filterFromExpr := by
  rw [extractProjectionAndFilter, querySelection]
  cases q.body <;> rfl

theorem unread_outside {door : Door} (outside : door ≠ .inTxn) (q : Query) :
    unread door q =
      (!isFromLessSelect q && (extractSemanticMatch q).isNone && !queryHasNotDuplicate q &&
      classifyQuery q == .analytical) := by
  cases door with
  | inTxn => exact absurd rfl outside
  | _ => rfl

/-- In a transaction a query without a table is refused. -/
theorem unread_of_fromLess {q : Query} (fromLess : isFromLessSelect q = true) :
    unread .inTxn q = true := by
  have notNative : bodyIsNativeSingleTable q = false := by
    rw [isFromLessSelect] at fromLess
    rw [bodyIsNativeSingleTable]
    split
    · rfl
    · next select body =>
      simp only [body, List.isEmpty_iff] at fromLess
      rw [fromLess]
  have unsorted : simpleSortLimit q = none := by
    simp only [simpleSortLimit, notNative, if_true, ite_self]
  have analytical : classifyQuery q = .analytical := by
    simp only [classifyQuery, notNative, Bool.false_eq_true, if_false, ite_self]
  simp [unread, unsorted, analytical]

section Readings

variable (quote : Bytes → Bytes) {values : List BoundValue} (whole :
    ∀ v ∈ values, v.isFloat = false)

include whole

variable {q : TemplateQuery} {door : Door}

/-- The filters of a query with a table read the same. -/
theorem filters_eq (table : isFromLessSelect ((bound quote values).query q).query = false)
    (fitting : Free values BoundValue.least (q.body.toList.flatMap TemplateSelect.reads)) :
    (querySelection ((bound quote values).query q).query).bind filterFromExpr =
        (querySelection ((literals quote values).query q).query).bind filterFromExpr ∧
      (querySelection ((bound quote values).query q).query).bind filterFromExprNoSemantic =
        (querySelection ((literals quote values).query q).query).bind filterFromExprNoSemantic := by
  have fits : ((2 ^ 63 - 1 : Nat) : Int) ≤ i64Max := by decide
  simp only [querySelection, Filling.query, isFromLessSelect] at table ⊢
  cases body : q.body with
  | none => exact ⟨rfl, rfl⟩
  | some select =>
    simp only [body, map_some, Filling.select, bind_some] at table ⊢
    cases selection : select.selection with
    | none => exact ⟨rfl, rfl⟩
    | some e =>
      have alike := @alike_fitting quote values whole e (by
        intro p there
        apply fitting
        rw [body, toList_some, flatMap_singleton, TemplateSelect.reads]
        split
        · next empty => simp [empty] at table
        · simpa [selection] using there)
      exact ⟨alike.filter_eq fits, alike.noSemantic_eq fits⟩

theorem evalItem_eq {σ : Type} (engines : Engines σ) (i : Nat) {item : TemplateItem}
    (fitting : Free values BoundValue.least (item.expr?.toList.flatMap TemplateExpr.reads)) :
    evalItem engines i ((bound quote values).item item) =
      evalItem engines i ((literals quote values).item item) := by
  have fits : ((2 ^ 63 - 1 : Nat) : Int) ≤ i64Max := by decide
  have projected : ∀ {e e'}, Alike (2 ^ 63 - 1) e e' →
      evalScalarProjectionExpr engines e = evalScalarProjectionExpr engines e' ∧
        scalarOutputName e = scalarOutputName e' := by
    intro e e' h
    have constant := constant_eq (h.evaluation_eq fits)
    cases h with
    | refl e => exact ⟨rfl, rfl⟩
    | function name hasOver args args' text => exact ⟨rfl, rfl⟩
    | _ => exact ⟨constant, rfl⟩
  cases item with
  | wildcard => rfl
  | unnamedExpr e =>
    obtain ⟨value, name⟩ := projected (@alike_fitting quote values whole e (by
      simpa [TemplateItem.expr?] using fitting))
    simp only [Filling.item, evalItem, value, name]
  | exprWithAlias e name =>
    obtain ⟨value, -⟩ := projected (@alike_fitting quote values whole e (by
      simpa [TemplateItem.expr?] using fitting))
    simp only [Filling.item, evalItem, value]

theorem evalItems_eq {σ : Type} (engines : Engines σ) (i : Nat) {items : List TemplateItem}
    (fitting : Free values BoundValue.least
      ((items.filterMap TemplateItem.expr?).flatMap TemplateExpr.reads)) :
    evalItems engines i (items.map (bound quote values).item) =
      evalItems engines i (items.map (literals quote values).item) := by
  induction items generalizing i with
  | nil => rfl
  | cons item rest ih =>
    have parts : (item :: rest).filterMap TemplateItem.expr? =
        item.expr?.toList ++ rest.filterMap TemplateItem.expr? := by
      cases found : item.expr? <;> simp [found]
    rw [parts, flatMap_append] at fitting
    rw [map_cons, map_cons, evalItems, evalItems,
      evalItem_eq quote whole engines i fun p h => fitting p (mem_append_left _ h),
      ih (i + 1) fun p h => fitting p (mem_append_right _ h)]

theorem evalScalarSelect_eq {σ : Type} (engines : Engines σ)
    (fromLess : isFromLessSelect ((bound quote values).query q).query = true)
    (fitting : Free values BoundValue.least (q.body.toList.flatMap TemplateSelect.reads)) :
    evalScalarSelect engines ((bound quote values).query q).query =
      evalScalarSelect engines ((literals quote values).query q).query := by
  simp only [evalScalarSelect, Filling.query, isFromLessSelect] at fromLess ⊢
  cases body : q.body with
  | none => rfl
  | some select =>
    simp only [body, map_some, Filling.select, List.isEmpty_iff, map_eq_nil_iff] at fromLess
    simp only [map_some, Filling.select, isSome_map]
    rw [evalItems_eq quote whole engines 0 (by
      simpa [body, TemplateSelect.reads, fromLess] using fitting)]

variable {σ : Type} (T : Target σ) (engines : Engines σ)

theorem nativeScanOf_eq (s : σ)
    (table : isFromLessSelect ((bound quote values).query q).query = false)
    (fitting : Free values BoundValue.least (q.body.toList.flatMap TemplateSelect.reads)) :
    nativeScanOf T s ((bound quote values).query q).query =
      nativeScanOf T s ((literals quote values).query q).query := by
  rw [nativeScanOf, nativeScanOf, extractTable_eq quote whole, projection_eq quote whole,
    filter_of_query,
    filter_of_query, (filters_eq quote whole table fitting).1]

theorem execSelect_eq (s : σ) (outside : door ≠ .inTxn)
    (plain : Free values BoundValue.negative (TemplateForm.query q).thresholds)
    (fitting : unread door ((bound quote values).query q).query = false →
      Free values BoundValue.least (q.body.toList.flatMap TemplateSelect.reads)) :
    execSelect T engines door s ((bound quote values).query q) =
      execSelect T engines door s ((literals quote values).query q) := by
  rw [unread_outside outside] at fitting
  have limit : queryLimit ((bound quote values).query q).query =
      queryLimit ((literals quote values).query q).query := by
    simp only [queryLimit, Filling.query]
    cases q.limit with
    | none => rfl
    | some e => exact (alike_shape quote whole e).usize_eq
  have text : ((bound quote values).query q).text = ((literals quote values).query q).text :=
    printed_eq quote whole _
  have stripped : ((bound quote values).query q).stripped =
      ((literals quote values).query q).stripped :=
    printed_eq quote whole _
  have tables : ((bound quote values).query q).tables =
      ((literals quote values).query q).tables := rfl
  cases fromLess : isFromLessSelect ((bound quote values).query q).query with
  | true =>
    have answer := evalScalarSelect_eq quote whole engines fromLess (fitting (by simp [fromLess]))
    simp only [execSelect, ← isFromLessSelect_eq quote, fromLess, if_true, answer]
  | false =>
    simp only [execSelect, ← isFromLessSelect_eq quote, fromLess, Bool.false_eq_true, if_false,
      ← extractSemanticMatch_eq quote whole plain]
    cases found : extractSemanticMatch ((bound quote values).query q).query with
    | some semantic =>
      have filters := filters_eq quote whole fromLess (fitting (by simp [found]))
      simp only [isAnalyticalBeyondPagination, hasOrderBy_eq quote,
        bodyIsNativeSingleTable_eq quote whole,
        extractTable_eq quote whole, tables, stripped, limit, filters.2]
      rfl
    | none =>
      simp only [fromLess, found, queryHasNotDuplicate_eq quote whole,
        classifyQuery_eq quote whole] at fitting ⊢
      split_ifs with analytical
      · rw [tables, text]
      · have scan := nativeScanOf_eq quote whole T s fromLess (fitting (by simpa using analytical))
        simp only [checkedScan, extractTable_eq quote whole, scan]

theorem execQueryInTxn_eq (s : σ)
    (plain : Free values BoundValue.negative (TemplateForm.query q).thresholds)
    (fitting : unread .inTxn ((bound quote values).query q).query = false →
      Free values BoundValue.least (q.body.toList.flatMap TemplateSelect.reads)) :
    execQueryInTxn T s ((bound quote values).query q).query =
      execQueryInTxn T s ((literals quote values).query q).query := by
  have table : unread .inTxn ((bound quote values).query q).query = false →
      isFromLessSelect ((bound quote values).query q).query = false := by
    intro read
    by_contra fromLess
    rw [unread_of_fromLess (by simpa using fromLess)] at read
    cases read
  simp only [execQueryInTxn, ← extractSemanticMatch_eq quote whole plain,
    ← simpleSortLimit_eq quote whole,
    ← classifyQuery_eq quote whole]
  cases none_ : (extractSemanticMatch ((bound quote values).query q).query).isSome with
  | true => simp only [if_true]
  | false =>
    simp only [Bool.false_eq_true, if_false]
    cases sorted : simpleSortLimit ((bound quote values).query q).query with
    | some order =>
      have read : unread .inTxn ((bound quote values).query q).query = false := by
        rw [unread, none_, sorted]
        rfl
      simp only
      rw [extractTable_eq quote whole, projection_eq quote whole, filter_of_query, filter_of_query,
        (filters_eq quote whole (table read) (fitting read)).1]
    | none =>
      simp only
      split_ifs with analytical
      · rfl
      · have read : unread .inTxn ((bound quote values).query q).query = false := by
          rw [unread, none_, sorted]
          simpa using analytical
        exact nativeScanOf_eq quote whole T s (table read) (fitting read)

omit whole in
theorem insertEach_eq (tally : Nat → Nat → Nat) (table : Bytes) (columns : List Bytes)
    {rows rows' : List (List Expr)}
    (same : List.Forall₂ (fun row row' => rowValues row = rowValues row') rows rows')
    (s : σ) (count : Nat) :
    insertEach T tally table columns s count rows =
      insertEach T tally table columns s count rows' := by
  induction same generalizing s count with
  | nil => rfl
  | cons one _ ih => simp only [insertEach, one, ih]

theorem execInsert_eq (s : σ) (table : Bytes) (columns : List Bytes) (door : Door) {source :
    TemplateBody}
    (fitting : Free values BoundValue.least
      ((TemplateForm.insert table columns source).reads door (bound quote values))) :
    execInsert T s table columns door ((bound quote values).source source) =
      execInsert T s table columns door ((literals quote values).source source) := by
  have fits : ((2 ^ 63 - 1 : Nat) : Int) ≤ i64Max := by decide
  cases source with
  | missing => rfl
  | query => rfl
  | values rows =>
    have row_eq : ∀ row ∈ rows, rowValues (row.map (bound quote values).expr) =
        rowValues (row.map (literals quote values).expr) := by
      intro row member
      apply rowValues_eq
      rw [forall₂_map_left_iff, forall₂_map_right_iff, forall₂_same]
      intro e inRow
      refine (alike_fitting quote whole fun p there => fitting p ?_).evaluation_eq fits
      exact mem_flatMap.mpr ⟨e, mem_flatten.mpr ⟨row, member, inRow⟩, there⟩
    have rows_eq : List.Forall₂ (fun row row' => rowValues row = rowValues row')
        (rows.map fun row => row.map (bound quote values).expr)
        (rows.map fun row => row.map (literals quote values).expr) := by
      rw [forall₂_map_left_iff, forall₂_map_right_iff, forall₂_same]
      exact row_eq
    have counted : ∀ door,
        insertCounted T door s table columns
          (rows.map fun row => row.map (bound quote values).expr) =
          insertCounted T door s table columns
            (rows.map fun row => row.map (literals quote values).expr) := by
      intro door
      rw [insertCounted, insertCounted, insertEach_eq T door.tally table columns rows_eq]
    cases door with
    | exclusive =>
      simp only [Filling.source, execInsert]
      cases getTable (T.context s).catalog table with
      | error e => rfl
      | ok entry => exact counted .exclusive
    | inTxn => exact counted .inTxn
    | shared =>
      cases rows with
      | nil => rfl
      | cons row rest => exact counted .shared

/-- Updates are not refused for what they assign. -/
def Target.TakesUpdates : Prop :=
  ∀ table assignments filter, T.refuses (.update table assignments filter) = none

omit whole in
theorem execPlan_update_eq (takes : T.TakesUpdates) (s : σ) (table : Bytes)
    {a a' : List (Bytes × ScalarExpr)}
    (same : computed a = computed a') (filter : Option FilterExpr) :
    execPlan T s (.update table a filter) = execPlan T s (.update table a' filter) := by
  rw [execPlan_eq, execPlan_eq, takes, takes, planEffect, planEffect, planUpdate_eq same]

theorem selection_eq {selection : Option TemplateExpr}
    (fitting : Free values BoundValue.least (selection.toList.flatMap TemplateExpr.reads)) :
    (selection.map (bound quote values).expr).bind filterFromExpr =
      (selection.map (literals quote values).expr).bind filterFromExpr := by
  have fits : ((2 ^ 63 - 1 : Nat) : Int) ≤ i64Max := by decide
  cases selection with
  | none => rfl
  | some e => exact (@alike_fitting quote values whole e (by simpa using fitting)).filter_eq fits

theorem execUpdate_eq (takes : T.TakesUpdates) (s : σ) {table : Printed}
    {assignments : List (Bytes × TemplateExpr)} {selection : Option TemplateExpr}
    (fitting : Free values BoundValue.least
      ((TemplateForm.update table assignments selection).reads door (bound quote values))) :
    execStatement T engines door s
      ((bound quote values).statement (.update table assignments selection)) =
      execStatement T engines door s
        ((literals quote values).statement (.update table assignments selection)) := by
  have fits : ((2 ^ 63 - 1 : Nat) : Int) ≤ i64Max := by decide
  rw [TemplateForm.reads, flatMap_append] at fitting
  have filter := @selection_eq quote values whole selection fun p h =>
    fitting p (mem_append_right _ h)
  have assigned := @assignments_eq (assignments.map fun a => (a.1, (bound quote values).expr a.2))
    (assignments.map fun a => (a.1, (literals quote values).expr a.2)) (by
      rw [forall₂_map_left_iff, forall₂_map_right_iff, forall₂_same]
      intro a member
      refine ⟨rfl, (alike_fitting quote whole fun p there => fitting p ?_).evaluation_eq fits⟩
      exact mem_append_left _ (mem_flatMap.mpr ⟨a.2, List.mem_map_of_mem member, there⟩))
  simp only [Filling.statement, execStatement, execUpdate, printed_eq quote whole, filter]
  cases left :
    assignmentsFromExprs (assignments.map fun a => (a.1, (bound quote values).expr a.2)) with
  | error e =>
    cases right :
      assignmentsFromExprs (assignments.map fun a => (a.1, (literals quote values).expr a.2)) with
    | error e' =>
      obtain rfl : e = e' := by simpa [left, right, Except.map] using assigned
      rfl
    | ok a' => simp [left, right, Except.map] at assigned
  | ok a =>
    cases right :
      assignmentsFromExprs (assignments.map fun a => (a.1, (literals quote values).expr a.2)) with
    | error e' => simp [left, right, Except.map] at assigned
    | ok a' =>
      have same : computed a = computed a' := by simpa [left, right, Except.map] using assigned
      simp only [execPlan_update_eq T takes s _ same]

theorem execStatement_eq (takes : T.TakesUpdates) (s : σ) {t : Template}
    (plain : t.Plain quote door values) :
    execStatement T engines door s ((bound quote values).statement t.form) =
      execStatement T engines door s ((literals quote values).statement t.form) := by
  obtain ⟨form, visits, covers⟩ := t
  obtain ⟨thresholds, reads⟩ := plain
  cases form with
  | query q =>
    have fitting : unread door ((bound quote values).query q).query = false →
        Free values BoundValue.least (q.body.toList.flatMap TemplateSelect.reads) := by
      intro read p there
      exact reads p (by rwa [TemplateForm.reads, if_neg (by simp [read])])
    by_cases inside : door = .inTxn
    · subst inside
      exact execQueryInTxn_eq quote whole T s thresholds fitting
    · simp only [Filling.statement, execStatement, if_neg inside]
      exact execSelect_eq quote whole T engines s inside thresholds fitting
  | insert table columns source => exact execInsert_eq quote whole T s table columns door reads
  | update table assignments selection => exact execUpdate_eq quote whole T engines takes s reads
  | delete tables selection =>
    have tables_eq : tables.map (bound quote values).printed =
        tables.map (literals quote values).printed :=
      map_congr_left fun t _ => printed_eq quote whole t
    simp only [Filling.statement, execStatement, execDelete, tables_eq,
      @selection_eq quote values whole selection reads]

end Readings

section Differences

theorem parseDecimal_natDigits (n : Nat) : ∃ f, parseDecimal (natDigits n) = some f := by
  have digits : ∀ b ∈ natDigits n, isDigit b = true := fun b h => natDigits_digit h
  have whole : (natDigits n).takeWhile isDigit = natDigits n := takeWhile_eq_self_iff.mpr digits
  have rest : (natDigits n).dropWhile isDigit = [] := dropWhile_eq_nil_iff.mpr digits
  rw [parseDecimal, whole, rest]
  simp [natDigits_ne_nil, parseExponent]

theorem parseF64_natDigits (n : Nat) :
    (∃ f, parseF64 (natDigits n) = some f) ∧ ∃ f, parseF64 (45 :: natDigits n) = some f := by
  obtain ⟨f, parsed⟩ := parseDecimal_natDigits n
  rw [parseF64, parseF64, takeSign_natDigits, takeSign]
  constructor
  · simp only [parsed]
    split_ifs <;> exact ⟨_, rfl⟩
  · simp only [parsed]
    split_ifs <;> exact ⟨_, rfl⟩

/-- A number beyond the integers is a float. -/
theorem numberValue_large {n : Nat} (large : i64Max < (n : Int)) :
    ∃ f, numberValue (natDigits n) = some (.float f) := by
  have digits : (natDigits n).all isDigit = true :=
    List.all_eq_true.mpr fun b h => natDigits_digit h
  have noInt : parseI64 (natDigits n) = none := by
    rw [parseI64, takeSign_natDigits]
    simp only [natDigits_ne_nil, digits, digitsToNat_natDigits, false_or, Bool.true_eq_false,
      if_false,
      Bool.false_eq_true]
    exact if_neg fun inside => by omega
  obtain ⟨f, parsed⟩ := (parseF64_natDigits n).1
  exact ⟨f, by rw [numberValue, noInt, parsed]; rfl⟩

def leastText : Bytes := ascii "-9223372036854775808"

def leastTable : TableEntry := ⟨ascii "t", [⟨ascii "c", true, false⟩], false⟩

/-- A table `t` of one row, whose column `c` holds the least integer, and nothing that a write
changes. -/
def leastRow : Target Unit where
  context _ := ⟨[leastTable], fun _ _ => none,
    { tableRows := fun _ => [(ascii "t:" ++ leastText, ascii "c=" ++ leastText)]
      get := fun _ => none
      determined := fun _ => by
        intro r hr r' hr' _
        rw [mem_singleton.mp hr, mem_singleton.mp hr'] }⟩
  refuses _ := none
  opening _ := .ok ()
  record s _ := s
  write s _ _ := some (.ok (s, true))

theorem decodeRow_least : decodeRow (ascii "c=" ++ leastText) = [(ascii "c", .integer i64Min)] := by
  have parts : splitRespectingEscape [] (ascii "c=" ++ leastText) false =
      [ascii "c=" ++ leastText] := by
    decide
  have once : splitOnce (ascii "c=" ++ leastText) = some (ascii "c", leastText) := by decide
  have number : parseI64 leastText = some i64Min := by decide
  have plain : leastText ≠ ascii "NULL" ∧ leastText ≠ ascii "true" ∧ leastText ≠ ascii "false" := by
    decide
  rw [decodeRow, parts, filterMap_cons, once, map_some]
  simp only [valueFromStr, if_neg plain.1, if_neg plain.2.1, if_neg plain.2.2, number,
    filterMap_nil]

theorem leastRow_decoded : decodeRows ((leastRow.context ()).reader.tableRows (ascii "t")) =
    [(ascii "t:" ++ leastText, [(ascii "c", .integer i64Min)])] := by
  simp only [decodeRows, leastRow, map_cons, map_nil, decodeRow_least]

theorem leastRow_delete (filter : Option FilterExpr) :
    planDelete (leastRow.context ()) (ascii "t") filter =
    .ok ⟨[], (matching filter [(ascii "t:" ++ leastText, [(ascii "c", .integer i64Min)])]).map
      fun r => (r.1, none), [], none⟩ := by
  have found : getTable (leastRow.context ()).catalog (ascii "t") = .ok leastTable := rfl
  have open_ : checkAppendOnly leastTable (ascii "t") (ascii "DELETE") = .ok () := rfl
  simp only [planDelete, found, open_, leastRow_decoded, bind, Except.bind]

def noEngines : Engines Unit where
  analytical _ _ _ := .error (.internal [])
  analyticalSemantic _ _ _ _ _ _ _ := .error (.internal [])
  semantic _ _ _ _ _ := .error (.internal [])
  builtin _ := .error (.internal [])

/-- `DELETE FROM t WHERE c = p`. -/
def deleteTemplate (p : Bytes) : Template where
  form :=
    .delete [[.text (ascii "t")]] (some (.binaryOp (.identifier (ascii "c")) .eq (.placeholder p)))
  visits := [p]
  covers := by
    intro p' there
    simpa
      [TemplateForm.placeholders, TemplateForm.exprs, TemplateForm.texts, TemplateExpr.placeholders,
      Printed.placeholders, Piece.placeholder?] using there

/-- `SELECT * FROM t WHERE SEMANTIC_MATCH(c, 'q', p)`. -/
def thresholdTemplate (p : Bytes) : Template where
  form := .query {
    body := some {
      projection := [.wildcard]
      «from» := [⟨[.text (ascii "t")], true, 0⟩]
      selection := some (.function (ascii "SEMANTIC_MATCH") false
        [.given (.identifier (ascii "c")), .given (.string (ascii "q")), .placeholder p]
        [.text (ascii "SEMANTIC_MATCH(c, 'q', "), .placeholder p, .text (ascii ")")])
      distinct := false
      having := false
      groupBy := some 0 }
    orderBy := []
    limit := none
    offset := none
    tables := [ascii "t"]
    text := [.text (ascii "SELECT * FROM t WHERE SEMANTIC_MATCH(c, 'q', "), .placeholder p,
      .text (ascii ")")]
    stripped := [.text (ascii "SELECT * FROM t")] }
  visits := [p]
  covers := by
    intro p' there
    simpa [TemplateForm.placeholders, TemplateForm.exprs, TemplateQuery.exprs, TemplateItem.expr?,
      TemplateForm.texts, TemplateExpr.placeholders, TemplateArg.placeholder?, Printed.placeholders,
      Piece.placeholder?, eq_comm] using there

variable (quote : Bytes → Bytes) {values : List BoundValue} {p : Bytes} {v : BoundValue}

theorem missing_eq_none (found : boundFor values p = some v) :
    [p].find? (fun p => (boundFor values p).isNone) = none := by
  simp [found]

/-- What the DELETE of a filter does to the row. -/
theorem delete_least (filter : Option FilterExpr) :
    written (execPlan leastRow () (.delete (ascii "t") filter)) =
      (carryOut leastRow ()
        ((matching filter [(ascii "t:" ++ leastText, [(ascii "c", .integer i64Min)])]).map
        fun r => (r.1, none))).map fun d =>
          ⟨d.state, d.log, d.result.map QueryResult.rowCount⟩ := by
  have admitted : leastRow.refuses (.delete (ascii "t") filter) = none := rfl
  rw [execPlan_eq, admitted]
  simp only [planEffect, leastRow_delete, execEffect, written, Option.map_map]
  change Option.map _ (carryOut leastRow () _) = _
  congr 1
  funext d
  obtain ⟨state, log, result⟩ := d
  cases result <;> rfl

/-- The bound integer finds the row. -/
theorem delete_bound (found : boundFor values p = some v) (least : v.least = true) :
    executeBound leastRow noEngines quote .exclusive () (deleteTemplate p) values =
      some ⟨(), [(ascii "t:" ++ leastText, none)], .ok (.rowCount 1)⟩ := by
  cases v with
  | int n low high =>
    obtain rfl : n = i64Min := of_decide_eq_true least
    obtain ⟨shown, -⟩ := BoundValue.parsed_of_neg low high (by decide)
    have bind : bindPlaceholders quote (deleteTemplate p) values =
        .ok ((bound quote values).statement (deleteTemplate p).form) := by
      rw [bindPlaceholders, Template.missing, deleteTemplate, missing_eq_none found]
    have put : (bound quote values).put p = .value (.number (45 :: natDigits i64Min.natAbs)) := by
      simp only [bound, found, map_some, getD_some, shown]
    have value : -(i64Min.natAbs : Int) = i64Min := by decide
    have filter : filterFromExpr (.binaryOp (.identifier (ascii "c")) .eq
        (.value (.number (45 :: natDigits i64Min.natAbs)))) =
          some (.eq (ascii "c") (.integer i64Min)) := by
      have number := @numberValue_minus i64Min.natAbs (by decide)
      simp only [filterFromExpr, isComparison, if_true, comparisonFromExpr, columnNameFromExpr,
        literalValue,
        number, value, buildCmp]
    have named : (bound quote values).printed [.text (ascii "t")] = ascii "t" := rfl
    rw [executeBound, bind]
    simp only [deleteTemplate, Filling.statement, Filling.expr, map_some, put, execStatement,
      execDelete,
      map_cons, map_nil, head?_cons, getD_some, bind_some, filter, named]
    rw [if_neg (by decide), delete_least]
    simp [matching, rowPasses, filterMatches, compareCell, cell, Value.eq, carryOut, leastRow,
      Done.ran,
      Except.map, Except.mapError]
  | _ => cases least

/-- Its literal is a float, which equals no integer. -/
theorem delete_literals (found : boundFor values p = some v) (least : v.least = true) :
    executeLiterals leastRow noEngines quote .exclusive () (deleteTemplate p) values =
      some ⟨(), [], .ok (.rowCount 0)⟩ := by
  cases v with
  | int n low high =>
    obtain rfl : n = i64Min := of_decide_eq_true least
    obtain ⟨-, parsed⟩ := BoundValue.parsed_of_neg low high (by decide)
    have put : (literals quote values).put p =
        .unaryOp .minus (.value (.number (natDigits i64Min.natAbs))) := by
      simp only [literals, found, map_some, getD_some, parsed]
    obtain ⟨f, large⟩ := @numberValue_large i64Min.natAbs (by decide)
    have filter : filterFromExpr (.binaryOp (.identifier (ascii "c")) .eq
        (.unaryOp .minus (.value (.number (natDigits i64Min.natAbs))))) =
          some (.eq (ascii "c") (.float (-f))) := by
      simp only [filterFromExpr, isComparison, if_true, comparisonFromExpr, columnNameFromExpr,
        literalValue,
        large, buildCmp]
    have named : (literals quote values).printed [.text (ascii "t")] = ascii "t" := rfl
    rw [executeLiterals]
    simp only [deleteTemplate, Filling.statement, Filling.expr, map_some, put, execStatement,
      execDelete,
      map_cons, map_nil, head?_cons, getD_some, bind_some, filter, named]
    rw [if_neg (by decide), delete_least]
    simp [matching, rowPasses, filterMatches, compareCell, cell, Value.eq, carryOut, Done.ran,
      Except.map,
      Except.mapError]
  | _ => cases least

/-- A transaction refuses the query for its `SEMANTIC_MATCH`. -/
theorem threshold_bound (found : boundFor values p = some v) (negative : v.negative = true) :
    executeBound leastRow noEngines quote .inTxn () (thresholdTemplate p) values =
      some ⟨(), [], .error (.sql Database.semanticInTxn)⟩ := by
  cases v with
  | int n low high =>
    have sign : n < 0 := of_decide_eq_true negative
    obtain ⟨written, -⟩ := BoundValue.parsed_of_neg low high sign
    obtain ⟨f, parsed⟩ := (parseF64_natDigits n.natAbs).2
    have bind : bindPlaceholders quote (thresholdTemplate p) values =
        .ok ((bound quote values).statement (thresholdTemplate p).form) := by
      rw [bindPlaceholders, Template.missing, thresholdTemplate, missing_eq_none found]
    have arg : (bound quote values).arg (.placeholder p) = .number (45 :: natDigits n.natAbs) := by
      simp only [Filling.arg, bound, found, map_some, getD_some, written, argOf]
    have semantic : ∃ m, extractSemanticMatchFromExpr (.function (ascii "SEMANTIC_MATCH") false
        [.identifier (ascii "c"), .string (ascii "q"), .number (45 :: natDigits n.natAbs)]
        ((bound quote values).printed
          [.text (ascii "SEMANTIC_MATCH(c, 'q', "), .placeholder p, .text (ascii ")")])) =
            some m := by
      refine ⟨⟨ascii "c", ascii "q", f⟩, ?_⟩
      simp only [extractSemanticMatchFromExpr, isSemanticMatch, eqIgnoreCase, beq_self_eq_true,
        if_true]
      change semanticMatchFromArgs [.identifier (ascii "c"), .string (ascii "q"),
        .number (45 :: natDigits n.natAbs)] = _
      rw [semanticMatchFromArgs, parsed]
      rfl
    obtain ⟨m, extracted⟩ := semantic
    rw [executeBound, bind]
    simp only [thresholdTemplate, Filling.statement, execStatement, if_true, Filling.query,
      map_some,
      Filling.select, Filling.expr, map_cons, map_nil, arg, execQueryInTxn, extractSemanticMatch,
      querySelection, bind_some]
    rw [show (bound quote values).arg (.given (.identifier (ascii "c"))) =
      .identifier (ascii "c") from rfl,
      show (bound quote values).arg (.given (.string (ascii "q"))) = .string (ascii "q") from rfl,
        extracted]
    rfl
  | _ => cases negative

/-- The parser's threshold is no number, so that the query is a scan without a filter. -/
theorem threshold_literals (found : boundFor values p = some v) (negative : v.negative = true) :
    executeLiterals leastRow noEngines quote .inTxn () (thresholdTemplate p) values =
      some ⟨(), [], .ok (queryResultFrom [[(ascii "c", .integer i64Min)]])⟩ := by
  cases v with
  | int n low high =>
    obtain ⟨-, parsed⟩ := BoundValue.parsed_of_neg low high (of_decide_eq_true negative)
    have arg : (literals quote values).arg (.placeholder p) = .expr := by
      simp only [Filling.arg, literals, found, map_some, getD_some, parsed, argOf]
    rw [executeLiterals]
    simp only [thresholdTemplate, Filling.statement, execStatement, if_true, Filling.query,
      map_some,
      Filling.select, Filling.expr, map_cons, map_nil, arg]
    rfl
  | _ => cases negative

end Differences

/-- Values without floats, put into the tree, act as their literals wherever no negative integer
is a threshold and the least integer is not read; all values do in every statement exactly when
none is negative; and the least integer acts otherwise in a DELETE. A placeholder without a value
rejects the statement. -/
theorem bound_as_literals_iff (quote : Bytes → Bytes) {values : List BoundValue}
    (whole : ∀ v ∈ values, v.isFloat = false) :
    (∀ (σ : Type) (T : Target σ) (engines : Engines σ) (door : Door) (s : σ) (t : Template),
        T.TakesUpdates → t.missing values = none → t.Plain quote door values →
        executeBound T engines quote door s t values =
          executeLiterals T engines quote door s t values) ∧
      ((∀ (σ : Type) (T : Target σ) (engines : Engines σ) (door : Door) (s : σ) (t : Template),
        T.TakesUpdates → t.missing values = none →
        executeBound T engines quote door s t values =
          executeLiterals T engines quote door s t values) ↔
        ∀ p v, boundFor values p = some v → v.negative = false) ∧
      (∀ p v, boundFor values p = some v → v.least = true →
        ∃ (T : Target Unit) (engines : Engines Unit) (door : Door) (s : Unit) (t : Template),
          T.TakesUpdates ∧ t.missing values = none ∧ t.form.thresholds = [] ∧
          executeBound T engines quote door s t values ≠ executeLiterals T engines quote door s t
            values) ∧
      ∀ (σ : Type) (T : Target σ) (engines : Engines σ) (door : Door) (s : σ) (t : Template)
        (p : Bytes),
        t.missing values = some p →
        executeBound T engines quote door s t values =
          some ⟨s, [], .error (.sqlParse 0 (ascii "no bound value for placeholder " ++ p))⟩ := by
  have alike :
      ∀ (σ : Type) (T : Target σ) (engines : Engines σ) (door : Door) (s : σ) (t : Template),
      T.TakesUpdates → t.missing values = none → t.Plain quote door values →
      executeBound T engines quote door s t values =
        executeLiterals T engines quote door s t values := by
    intro σ T engines door s t takes complete plain
    rw [executeBound, executeLiterals, bindPlaceholders, complete]
    simp only [execStatement_eq quote whole T engines takes s plain]
  refine ⟨alike, ⟨?_, ?_⟩, ?_, ?_⟩
  · intro same p v found
    by_contra sign
    have negative : v.negative = true := by simpa using sign
    have equal := same Unit leastRow noEngines .inTxn () (thresholdTemplate p) (fun _ _ _ => rfl)
      (missing_eq_none found)
    rw [threshold_bound quote found negative, threshold_literals quote found negative] at equal
    cases equal
  · intro nonneg σ T engines door s t takes complete
    apply alike σ T engines door s t takes complete
    refine ⟨fun p _ v found => nonneg p v found, fun p _ v found => ?_⟩
    have sign := nonneg p v found
    cases v with
    | int n low high =>
      have least : i64Min < 0 := by decide
      have above : ¬ n < 0 := of_decide_eq_false sign
      exact decide_eq_false (by omega)
    | _ => rfl
  · intro p v found least
    refine ⟨leastRow, noEngines, .exclusive, (), deleteTemplate p, fun _ _ _ => rfl,
      missing_eq_none found, rfl, ?_⟩
    rw [delete_bound quote found least, delete_literals quote found least]
    intro equal
    cases equal
  · intro σ T engines door s t p absent
    rw [executeBound, bindPlaceholders, absent]

/-- `DELETE FROM t WHERE c = $1` with 7. -/
theorem seven_as_literal :
    executeBound leastRow noEngines id .exclusive () (deleteTemplate (ascii "$1"))
        [.int 7 (by decide) (by decide), .null] =
      executeLiterals leastRow noEngines id .exclusive () (deleteTemplate (ascii "$1"))
        [.int 7 (by decide) (by decide), .null] :=
  (bound_as_literals_iff id (by
    intro v member
    rcases mem_cons.mp member with rfl | last
    · rfl
    · rw [mem_singleton.mp last]
      rfl)).1 Unit leastRow noEngines .exclusive () (deleteTemplate (ascii "$1"))
        (fun _ _ _ => rfl) rfl
    ⟨fun p there => absurd there not_mem_nil, fun p there v found => by
      obtain rfl : p = ascii "$1" := mem_singleton.mp there
      obtain rfl := some.inj found
      rfl⟩

/-- `DELETE FROM t WHERE c = $1` with the least integer deletes the row; with its literal it
deletes none. -/
theorem least_is_no_literal :
    executeBound leastRow noEngines id .exclusive () (deleteTemplate (ascii "$1"))
        [.int i64Min (by decide) (by decide)] ≠
      executeLiterals leastRow noEngines id .exclusive () (deleteTemplate (ascii "$1"))
        [.int i64Min (by decide) (by decide)] := by
  have found : boundFor [.int i64Min (by decide) (by decide)] (ascii "$1") =
      some (.int i64Min (by decide) (by decide)) := rfl
  rw [delete_bound id found rfl, delete_literals id found rfl]
  intro equal
  cases equal

end GalaxDb.Sql
