import GalaxDb.Sql.Plans
import GalaxDb.Sql.Statement
import GalaxDb.Storage.MapRefinement

/-!
# What a WHERE clause asks for

The three-valued meaning of a clause on one row, and the rows a statement touches. A
clause that the translation does not cover is dropped, so the statement touches every row.
-/

namespace GalaxDb.Sql

open Bytes Executor Database Outcome Statement

/-- SQL's order of two values: none with NULL, between types that do not compare, and with
NaN. A text next to a number is read as one. -/
def sqlCompare : Value → Value → Option Ordering
  | .integer a, .integer b => some (compare a b)
  | .text a, .text b => some (compare a b)
  | .bool a, .bool b => some (compare a b)
  | .bool _, _ => none
  | _, .bool _ => none
  | a, b =>
    match toF64 a, toF64 b with
    | some x, some y =>
      if x < y then some .lt else if y < x then some .gt else if x == y then some .eq else none
    | _, _ => none

def cmpHolds : BinaryOperator → Ordering → Bool
  | .eq, o => o == .eq
  | .notEq, o => o != .eq
  | .lt, o => o == .lt
  | .gt, o => o == .gt
  | .ltEq, o => o != .gt
  | .gtEq, o => o != .lt
  | _, _ => false

/-- The value of a column, which is NULL where the row does not have it, or of a literal. -/
def operand (cols : Columns) : Expr → Option Value
  | .nested e => operand cols e
  | e => ((columnNameFromExpr e).map fun c => (cell cols c).getD .null).or (literalValue e)

def kleeneNot : Option Bool → Option Bool := Option.map not

def kleeneAnd : Option Bool → Option Bool → Option Bool
  | some false, _ => some false
  | _, some false => some false
  | some true, some true => some true
  | _, _ => none

def kleeneOr : Option Bool → Option Bool → Option Bool
  | some true, _ => some true
  | _, some true => some true
  | some false, some false => some false
  | _, _ => none

/-- The meaning of a clause on a row. `ext` is the meaning of the constructs that are not
interpreted here, `representative` that of `NOT DUPLICATE`. -/
def truth (ext : Expr → Columns → Option Bool) (representative : Bool) (cols : Columns) :
    Expr → Option Bool
  | .unaryOp .not (.identifier name) =>
    if eqIgnoreCase name (ascii "DUPLICATE") then some representative
    else kleeneNot (ext (.identifier name) cols)
  | .unaryOp .not e => kleeneNot (truth ext representative cols e)
  | .binaryOp left .and right =>
    kleeneAnd (truth ext representative cols left) (truth ext representative cols right)
  | .binaryOp left .or right =>
    kleeneOr (truth ext representative cols left) (truth ext representative cols right)
  | .binaryOp left op right =>
    if isComparison op then
      match operand cols left, operand cols right with
      | some a, some b => (sqlCompare a b).map (cmpHolds op)
      | _, _ => ext (.binaryOp left op right) cols
    else ext (.binaryOp left op right) cols
  | .nested e => truth ext representative cols e
  | .value (.boolean b) => some b
  | .value .null => none
  | .isNull e =>
    match operand cols e with
    | some v => some (Scalar.isNull v)
    | none => ext (.isNull e) cols
  | .isNotNull e =>
    match operand cols e with
    | some v => some (!Scalar.isNull v)
    | none => ext (.isNotNull e) cols
  | e => ext e cols

variable {a b : Option Bool}

theorem kleeneAnd_eq_true : kleeneAnd a b = some true ↔ a = some true ∧ b = some true := by
  rcases a with _ | ⟨_ | _⟩ <;> rcases b with _ | ⟨_ | _⟩ <;> simp [kleeneAnd]

theorem kleeneOr_eq_true : kleeneOr a b = some true ↔ a = some true ∨ b = some true := by
  rcases a with _ | ⟨_ | _⟩ <;> rcases b with _ | ⟨_ | _⟩ <;> simp [kleeneOr]

section Faithful

/-- What is neither a conjunction, a disjunction nor in parentheses. -/
def isLeaf : Expr → Bool
  | .binaryOp _ .and _ => false
  | .binaryOp _ .or _ => false
  | .nested _ => false
  | _ => true

theorem clause_induction {motive : Expr → Prop} (leaf : ∀ e, isLeaf e = true → motive e)
    (conj : ∀ left right, motive left → motive right → motive (.binaryOp left .and right))
    (disj : ∀ left right, motive left → motive right → motive (.binaryOp left .or right))
    (nested : ∀ e, motive e → motive (.nested e)) (e : Expr) : motive e := by
  induction e with
  | binaryOp left op right hl hr =>
    cases op with
    | and => exact conj left right hl hr
    | or => exact disj left right hl hr
    | _ => exact leaf _ rfl
  | nested e ih => exact nested e ih
  | _ => exact leaf _ rfl

variable (ext : Expr → Columns → Option Bool) (representative : Bool) (cols : Columns)

/-- Every comparison and every `NOT DUPLICATE` of the clause that the executor lets the row
pass is TRUE on it. -/
def faithful : Expr → Bool
  | .binaryOp left .and right => faithful left && faithful right
  | .binaryOp left .or right => faithful left && faithful right
  | .nested e => faithful e
  | e => !rowPasses (filterFromExpr e) cols || truth ext representative cols e == some true

def orFree : Expr → Bool
  | .binaryOp left .and right => orFree left && orFree right
  | .binaryOp _ .or _ => false
  | .nested e => orFree e
  | _ => true

theorem faithful_leaf {e : Expr} (leaf : isLeaf e = true) :
    faithful ext representative cols e = true ↔
      (rowPasses (filterFromExpr e) cols = true → truth ext representative cols e = some true) := by
  have unfolded : faithful ext representative cols e =
      (!rowPasses (filterFromExpr e) cols || truth ext representative cols e == some true) := by
    unfold faithful
    split <;> simp_all [isLeaf]
  rw [unfolded]
  cases rowPasses (filterFromExpr e) cols <;> simp

theorem truth_of_faithful (e : Expr) {f : FilterExpr} (translated : filterFromExpr e = some f)
    (passes : filterMatches cols f = true) (good : faithful ext representative cols e = true) :
    truth ext representative cols e = some true := by
  induction e using clause_induction generalizing f with
  | leaf e leaf =>
    apply (faithful_leaf ext representative cols leaf).mp good
    simpa only [translated, rowPasses] using passes
  | conj left right hl hr =>
    simp only [filterFromExpr, Option.bind_eq_some_iff, Option.map_eq_some_iff] at translated
    obtain ⟨l, tl, r, tr, rfl⟩ := translated
    simp only [filterMatches, Bool.and_eq_true] at passes
    simp only [faithful, Bool.and_eq_true] at good
    simp only [truth, kleeneAnd_eq_true]
    exact ⟨hl tl passes.1 good.1, hr tr passes.2 good.2⟩
  | disj left right hl hr =>
    simp only [filterFromExpr, Option.bind_eq_some_iff, Option.map_eq_some_iff] at translated
    obtain ⟨l, tl, r, tr, rfl⟩ := translated
    simp only [filterMatches, Bool.or_eq_true] at passes
    simp only [faithful, Bool.and_eq_true] at good
    simp only [truth, kleeneOr_eq_true]
    rcases passes with pl | pr
    · exact Or.inl (hl tl pl good.1)
    · exact Or.inr (hr tr pr good.2)
  | nested e ih =>
    simpa only [truth] using ih translated passes good

/-- Without OR the condition is exact. -/
theorem faithful_of_truth (e : Expr) (free : orFree e = true)
    (holds : truth ext representative cols e = some true) :
    faithful ext representative cols e = true := by
  induction e using clause_induction with
  | leaf e leaf => exact (faithful_leaf ext representative cols leaf).mpr fun _ => holds
  | conj left right hl hr =>
    simp only [orFree, Bool.and_eq_true] at free
    simp only [truth, kleeneAnd_eq_true] at holds
    simp only [faithful, Bool.and_eq_true]
    exact ⟨hl free.1 holds.1, hr free.2 holds.2⟩
  | disj => simp [orFree] at free
  | nested e ih =>
    simpa only [faithful] using ih free holds

end Faithful

section Reached

def Statement.filter (stmt : Statement) : Option FilterExpr := stmt.selection.bind filterFromExpr

/-- The rows that a statement looks at, as it reads them. -/
def statementRows (ctx : ExecutorContext) (stmt : Statement) : List BufferedRow :=
  decodeRows (if stmt.isSelect then accessRows ctx stmt.table stmt.filter
    else ctx.reader.tableRows stmt.table)

def accepted (ctx : ExecutorContext) (stmt : Statement) : List BufferedRow :=
  matching stmt.filter (statementRows ctx stmt)

def dedups (stmt : Statement) : Bool := stmt.isSelect && stmt.filter.any filterHasNotDuplicate

/-- The rows that the statement is about to touch. -/
def reached (ctx : ExecutorContext) (stmt : Statement) : List BufferedRow :=
  if dedups stmt then applyNotDuplicatePass (accepted ctx stmt) else accepted ctx stmt

def Effect.touched (f : Effect) : List Bytes := f.rows.map Prod.fst ++ f.writes.map Prod.fst

def Outcome.touched : Outcome → List Bytes
  | .native effect => effect.touched
  | _ => []

theorem Outcome.mem_touched {o : Outcome} {key : Bytes} :
    key ∈ o.touched ↔ ∃ effect, o = .native effect ∧ key ∈ effect.touched := by
  cases o <;> simp [touched]

variable {ctx : ExecutorContext} {effect : Effect}

theorem Outcome.of_eq_native {x : Except SqlError Effect} :
    of x = .native effect ↔ x = .ok effect ∧ effect.failure = none := by
  rcases x with e | f
  · simp [of]
  · simp only [of, Except.ok.injEq]
    split <;> rename_i failure
    · simp only [reduceCtorEq, false_iff, not_and]
      rintro rfl
      simp [failure]
    · constructor
      · rintro h
        cases h
        exact ⟨rfl, failure⟩
      · rintro ⟨rfl, _⟩
        rfl

variable {filter : Option FilterExpr} {r : BufferedRow} {columns : List Bytes} {entry : EntryPoint}
  {stmt : Statement} {table : Bytes}

theorem planFullScan_touched (ok : planFullScan ctx table filter columns = .ok effect) :
    effect.touched = (scanBuffered ctx table filter).map Prod.fst := by
  obtain ⟨entry, -, rfl⟩ := planFullScan_ok ok
  simp [Effect.touched, Function.comp_def]

theorem mem_of_mem_page {s : SortLimit} {rows : List BufferedRow} (h : r ∈ page s rows) :
    r ∈ rows := by
  simp only [page] at h
  split at h
  · exact List.mem_mergeSort.mp (List.mem_of_mem_drop (List.mem_of_mem_take h))
  · exact List.mem_mergeSort.mp (List.mem_of_mem_drop h)

theorem sortedScan_touched {s : SortLimit} (ok :
    sortedScan ctx table filter columns s = .ok effect) :
    effect.touched ⊆ (scanBuffered ctx table filter).map Prod.fst := by
  simp only [sortedScan] at ok
  cases scan : planFullScan ctx table filter [] with
  | error e => simp [scan, Except.map] at ok
  | ok all =>
    simp only [scan, Except.map, Except.ok.injEq] at ok
    subst ok
    rw [← planFullScan_touched scan]
    intro key touched
    simp only [Effect.touched, List.mem_append, List.mem_map] at touched ⊢
    apply Or.imp_left _ touched
    rintro ⟨r, kept, rfl⟩
    split at kept
    · exact ⟨r, mem_of_mem_page kept, rfl⟩
    · obtain ⟨r', kept', rfl⟩ := List.mem_map.mp kept
      exact ⟨r', mem_of_mem_page kept', rfl⟩

/-- A page may leave rows out, and a DELETE without a table finds none. -/
def takesAll (entry : EntryPoint) : Statement → Bool
  | .select q => decide (entry ≠ .inTxn) || (simpleSortLimit q).isNone
  | stmt => decide (stmt.table ≠ [])

theorem reached_select (ctx : ExecutorContext) (q : Query) : reached ctx (.select q) =
      scanBuffered ctx (extractTable q) (extractProjectionAndFilter q).2 := by
  have filter : (select q).filter = (extractProjectionAndFilter q).2 := by
    simp only [filter, selection, querySelection, extractProjectionAndFilter]
    cases q.body <;> simp
  simp [reached, dedups, accepted, statementRows, isSelect, table, filter, scanBuffered]

theorem execSelect_touched {q : Query} (done : execSelect ctx q entry = .native effect) :
    effect.touched ⊆ (reached ctx (.select q)).map Prod.fst ∧ (takesAll entry (.select q) = true →
        (reached ctx (.select q)).map Prod.fst ⊆ effect.touched) := by
  rw [reached_select]
  have scanned : of (nativeScan ctx q) = .native effect → effect.touched =
        (scanBuffered ctx (extractTable q) (extractProjectionAndFilter q).2).map Prod.fst :=
    fun h => planFullScan_touched (of_eq_native.mp h).1
  cases entry with
  | execute =>
    simp only [execSelect] at done
    split at done
    · cases done
    split at done
    · cases done
    · simp [scanned done]
  | dmlConcurrent => simp [scanned done]
  | boundDmlConcurrent => cases done
  | inTxn =>
    simp only [execSelect] at done
    split at done
    · cases done
    split at done
    · rename_i s limited
      refine ⟨sortedScan_touched (of_eq_native.mp done).1, ?_⟩
      simp [takesAll, limited]
    split at done
    · cases done
    · simp [scanned done]

theorem exec_touched (done : exec ctx entry stmt = .native effect) :
    effect.touched ⊆ (reached ctx stmt).map Prod.fst ∧
      (takesAll entry stmt = true → (reached ctx stmt).map Prod.fst ⊆ effect.touched) := by
  cases stmt with
  | select q => exact execSelect_touched done
  | update table assignments selection =>
    obtain ⟨planned, complete⟩ := of_eq_native.mp done
    cases translated : assignmentsFromExprs assignments with
    | error e => simp [translated, Except.bind] at planned
    | ok a =>
      simp only [translated, Except.bind] at planned
      rw [planUpdate_ok planned] at complete ⊢
      simp only [Effect.touched, List.map_nil, List.nil_append, updateWrites_keys a _ complete]
      exact ⟨fun _ h => h, fun _ _ h => h⟩
  | delete tables selection =>
    simp only [exec, execDelete] at done
    split at done
    · rename_i noTable
      cases done
      simp [Effect.touched, takesAll, table, noTable.1]
    · obtain ⟨planned, -⟩ := of_eq_native.mp done
      rw [planDelete_ok planned]
      simp only [Effect.touched, List.map_nil, List.nil_append, List.map_map]
      exact ⟨fun _ h => h, fun _ _ h => h⟩

theorem keysDetermine_accessRows (ctx : ExecutorContext) (table : Bytes)
    (filter : Option FilterExpr) : KeysDetermine (accessRows ctx table filter) := by
  simp only [accessRows]
  split
  · intro r h r' h' same
    simp only [List.mem_filterMap, Option.map_eq_some_iff] at h h'
    obtain ⟨pk, -, value, found, rfl⟩ := h
    obtain ⟨pk', -, value', found', rfl⟩ := h'
    simp_all
  · exact ctx.reader.determined table

theorem keysDetermine_statementRows (ctx : ExecutorContext) (stmt : Statement) :
    KeysDetermine (statementRows ctx stmt) := by
  have decoded : ∀ rows : List (Bytes × Bytes), KeysDetermine rows →
      KeysDetermine (decodeRows rows) := by
    intro rows determined r h r' h' same
    obtain ⟨s, hs, rfl⟩ := List.mem_map.mp h
    obtain ⟨s', hs', rfl⟩ := List.mem_map.mp h'
    rw [determined s hs s' hs' same]
  simp only [statementRows]
  split
  · exact decoded _ (keysDetermine_accessRows ctx _ _)
  · exact decoded _ (ctx.reader.determined _)

theorem mem_reached :
    r ∈ reached ctx stmt ↔ r ∈ statementRows ctx stmt ∧ rowPasses stmt.filter r.2 = true ∧
      (dedups stmt = true → isRepresentative (accepted ctx stmt) r = true) := by
  have passed : r ∈ accepted ctx stmt ↔
      r ∈ statementRows ctx stmt ∧ rowPasses stmt.filter r.2 = true := List.mem_filter
  simp only [reached]
  split <;> rename_i h
  · simp [applyNotDuplicatePass, List.mem_filter, passed, h, and_assoc]
  · simp [passed, h]

end Reached

section Respected

variable (ext : Expr → Columns → Option Bool) (ctx : ExecutorContext)

/-- The meaning of the clause on a row that the statement has read. `NOT DUPLICATE` keeps
one row of each group among those that pass the rest. -/
def rowTruth (stmt : Statement) (e : Expr) (r : BufferedRow) : Option Bool :=
  truth ext (isRepresentative (accepted ctx stmt) r) r.2 e

/-- The statement returns an error, is answered elsewhere, or touches only rows on which
the clause is TRUE. -/
def Respected (entry : EntryPoint) (stmt : Statement) (e : Expr) : Prop :=
  ∀ key ∈ (exec ctx entry stmt).touched, ∃ r ∈ statementRows ctx stmt,
    r.1 = key ∧ rowTruth ext ctx stmt e r = some true

/-- A clause that is not translated is TRUE on every row; one that is translated lets rows
pass only by comparisons that are TRUE. -/
def Covered (stmt : Statement) (e : Expr) : Prop :=
  if filterFromExpr e = none then
    ∀ r ∈ statementRows ctx stmt, rowTruth ext ctx stmt e r = some true
  else
    ∀ r ∈ statementRows ctx stmt, rowPasses (filterFromExpr e) r.2 = true →
      (dedups stmt = true → isRepresentative (accepted ctx stmt) r = true) →
        faithful ext (isRepresentative (accepted ctx stmt) r) r.2 e = true

instance (entry : EntryPoint) (stmt : Statement) (e : Expr) :
    Decidable (Respected ext ctx entry stmt e) :=
  inferInstanceAs (Decidable (∀ key ∈ (exec ctx entry stmt).touched,
    ∃ r ∈ statementRows ctx stmt, r.1 = key ∧ rowTruth ext ctx stmt e r = some true))

instance (stmt : Statement) (e : Expr) : Decidable (Covered ext ctx stmt e) :=
  inferInstanceAs (Decidable (if filterFromExpr e = none then _ else _))

variable {stmt : Statement} {e : Expr}

theorem reached_true_of_covered (clause : stmt.selection = some e)
    (covered : Covered ext ctx stmt e) {r : BufferedRow} (hr : r ∈ reached ctx stmt) :
    rowTruth ext ctx stmt e r = some true := by
  obtain ⟨read, passes, kept⟩ := mem_reached.mp hr
  simp only [filter, clause, Option.bind_some] at passes
  simp only [Covered] at covered
  split at covered <;> rename_i translated
  · exact covered r read
  · obtain ⟨f, translated⟩ := Option.ne_none_iff_exists'.mp translated
    have good := covered r read passes kept
    simp only [translated, rowPasses] at passes
    exact truth_of_faithful ext _ r.2 e translated passes good

theorem covered_of_reached_true (clause : stmt.selection = some e)
    (shape : orFree e = true ∨ filterFromExpr e = none)
    (holds : ∀ r ∈ reached ctx stmt, rowTruth ext ctx stmt e r = some true) :
    Covered ext ctx stmt e := by
  have filter : stmt.filter = filterFromExpr e := by simp [filter, clause]
  simp only [Covered]
  split <;> rename_i translated
  · intro r read
    apply holds r (mem_reached.mpr ⟨read, by simp [filter, translated, rowPasses], ?_⟩)
    simp [dedups, filter, translated]
  · intro r read passes kept
    have free : orFree e = true := by simpa [translated] using shape
    apply faithful_of_truth ext _ r.2 e free
    exact holds r (mem_reached.mpr ⟨read, by rwa [filter], kept⟩)

/-- A clause is respected when it is covered. Without OR, and also when the translation does
not cover it at all, it is respected only then. -/
theorem where_clause_respected (entry : EntryPoint) (stmt : Statement) (e : Expr)
    (clause : stmt.selection = some e) :
    (Covered ext ctx stmt e → Respected ext ctx entry stmt e) ∧
      ∀ effect, exec ctx entry stmt = .native effect → takesAll entry stmt = true →
        orFree e = true ∨ filterFromExpr e = none →
          (Respected ext ctx entry stmt e ↔ Covered ext ctx stmt e) := by
  have enough : Covered ext ctx stmt e → Respected ext ctx entry stmt e := by
    intro covered key touched
    obtain ⟨effect, done, touched⟩ := mem_touched.mp touched
    obtain ⟨r, hr, rfl⟩ := List.mem_map.mp ((exec_touched done).1 touched)
    exact ⟨r, (mem_reached.mp hr).1, rfl, reached_true_of_covered ext ctx clause covered hr⟩
  refine ⟨enough, fun effect done all shape => ⟨fun respected => ?_, enough⟩⟩
  apply covered_of_reached_true ext ctx clause shape
  intro r hr
  have touched := (exec_touched done).2 all (List.mem_map_of_mem hr)
  obtain ⟨r', hr', same, holds⟩ := respected r.1 (mem_touched.mpr ⟨effect, done, touched⟩)
  rwa [keysDetermine_statementRows ctx stmt r' hr' r (mem_reached.mp hr).1 same] at holds

/-- Two rows of `numbersTable`: `c` is 5 in the first and NULL in the second. -/
def numbersRows : List Engine.Op :=
  [.put (ascii "t:1") (ascii "id=1|c=5"), .put (ascii "t:2") (ascii "id=2|c=NULL")]

theorem where_clause_of_delete_greater :
    let e : Expr := .binaryOp (.identifier (ascii "c")) .gt (.value (.number (ascii "3")))
    let stmt : Statement := .delete [ascii "t"] (some e)
    ∃ engine ∈ Run.run (Engine.step .plain) (Engine.fresh .plain .default) numbersRows,
      let ctx : ExecutorContext := ⟨[numbersTable], fun _ _ => none, .latest engine .byId⟩
      (exec ctx .execute stmt).touched = [ascii "t:1"] ∧
        Respected (fun _ _ => none) ctx .execute stmt e := by
  intro e stmt
  have run : ∃ engine ∈ Run.run (Engine.step .plain) (Engine.fresh .plain .default) numbersRows,
      let ctx : ExecutorContext := ⟨[numbersTable], fun _ _ => none, .latest engine .byId⟩
      (exec ctx .execute stmt).touched = [ascii "t:1"] ∧ Covered (fun _ _ => none) ctx stmt e := by
    decide +kernel
  obtain ⟨engine, eq, touched, covered⟩ := run
  exact ⟨engine, eq, touched, (where_clause_respected _ _ .execute stmt e rfl).1 covered⟩

/-- `DELETE FROM t WHERE c IS NULL` deletes the row whose `c` is 5 as well. -/
theorem where_clause_is_null_dropped : let e : Expr := .isNull (.identifier (ascii "c"))
    let stmt : Statement := .delete [ascii "t"] (some e)
    ∃ engine ∈ Run.run (Engine.step .plain) (Engine.fresh .plain .default) numbersRows,
      let ctx : ExecutorContext := ⟨[numbersTable], fun _ _ => none, .latest engine .byId⟩
      filterFromExpr e = none ∧ (exec ctx .execute stmt).touched = [ascii "t:1", ascii "t:2"] ∧
        ¬ Respected (fun _ _ => none) ctx .execute stmt e := by
  decide +kernel

end Respected

end GalaxDb.Sql
