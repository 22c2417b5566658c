import Mathlib.Algebra.Field.Rat
import Mathlib.Algebra.Order.Ring.Rat
import Mathlib.Data.List.TakeWhile
import GalaxDb.Sql.WhereClause

/-!
# Filters against SQL's three-valued logic

Numbers are compared exactly, texts bytewise, a text next to a number as the decimal that
it writes, and everything with NULL is UNKNOWN. The filter compares for equality without
leaving the type of a value and for order as floats.
-/

namespace GalaxDb.Sql

open Bytes Option

/-- A stored cell of the types in question. -/
inductive Cell where
  | integer (n : Int)
  | text (s : Bytes)
  | bool (b : Bool)
  | null
  deriving DecidableEq

def Cell.value : Cell → Value
  | .integer n => .integer n
  | .text s => .text s
  | .bool b => .bool b
  | .null => .null

abbrev PlainRow := List (Bytes × Cell)

def PlainRow.columns (row : PlainRow) : Columns := row.map fun c => (c.1, c.2.value)

/-- The cell of a column, NULL where the row has none. -/
def PlainRow.get (row : PlainRow) (column : Bytes) : Option Cell :=
  (row.find? fun c => c.1 = column).map Prod.snd

/-- What a literal or a cell stands for. -/
inductive Datum where
  | number (q : ℚ)
  | text (s : Bytes)
  | bool (b : Bool)
  | null

/-- The number that a decimal numeral writes, unrounded. -/
def exactDecimal (s : Bytes) : Option ℚ :=
  let (negative, body) := takeSign s
  let whole := body.takeWhile isDigit
  let rest := body.dropWhile isDigit
  let (fraction, rest) := match rest with
    | 46 :: after => (after.takeWhile isDigit, after.dropWhile isDigit)
    | rest => ([], rest)
  if whole = [] ∧ fraction = [] then none
  else (parseExponent rest).map fun (e : Int) =>
    let q : ℚ := digitsToNat (whole ++ fraction) * 10 ^ (e - (fraction.length : Int))
    if negative then -q else q

def Cell.datum : Cell → Datum
  | .integer n => .number n
  | .text s => .text s
  | .bool b => .bool b
  | .null => .null

def literalDatum : Expr → Option Datum
  | .value (.number text) => (exactDecimal text).map .number
  | .value (.singleQuotedString s) => some (.text s)
  | .value (.doubleQuotedString s) => some (.text s)
  | .value (.boolean b) => some (.bool b)
  | .value .null => some .null
  | .unaryOp .minus e =>
    match literalDatum e with
    | some (.number q) => some (.number (-q))
    | _ => none
  | _ => none

/-- SQL's order: none with NULL and between types that do not compare. -/
def datumOrder : Datum → Datum → Option Ordering
  | .number a, .number b => some (compare a b)
  | .text a, .text b => some (compare a b)
  | .bool a, .bool b => some (compare a b)
  | .number a, .text s => (exactDecimal s).map (compare a)
  | .text s, .number b => (exactDecimal s).map (compare · b)
  | _, _ => none

/-- A column that the row does not have is NULL. -/
def PlainRow.operand (row : PlainRow) (e : Expr) : Option Datum :=
  match columnNameFromExpr e with
  | some column => some (((row.get column).getD .null).datum)
  | none => literalDatum e

def orderOf (a b : Option Datum) : Option Ordering := a.bind fun a => b.bind fun b => datumOrder a b

/-- The value of a clause of comparisons on a row. -/
def PlainRow.truth (row : PlainRow) : Expr → Option Bool
  | .binaryOp left .and right => kleeneAnd (row.truth left) (row.truth right)
  | .binaryOp left .or right => kleeneOr (row.truth left) (row.truth right)
  | .binaryOp left op right =>
    (orderOf (row.operand left) (row.operand right)).map (cmpHolds op)
  | .nested e => row.truth e
  | _ => none

variable {d : Option Datum} {n : Int}

theorem exactDecimal_of_parseI64 {s : Bytes} (h : parseI64 s = some n) :
    exactDecimal s = some (n : ℚ) := by
  simp only [parseI64] at h
  split at h
  · cases h
  rename_i digits
  push Not at digits
  obtain ⟨nonempty, all⟩ := digits
  have all : ∀ b ∈ (takeSign s).2, isDigit b = true := by
    simpa only [Bool.not_eq_false, List.all_eq_true] using all
  obtain ⟨-, h⟩ := ite_none_right_eq_some.mp h
  have value := some.inj h
  have whole : (takeSign s).2.takeWhile isDigit = (takeSign s).2 :=
    List.takeWhile_eq_self_iff.mpr all
  have rest : (takeSign s).2.dropWhile isDigit = [] := List.dropWhile_eq_nil_iff.mpr all
  simp only [exactDecimal, whole, rest, nonempty, parseExponent, ← value]
  cases (takeSign s).1 <;> simp

/-- How the value of a literal stands for what the literal says. -/
inductive Means : Value → Option Datum → Prop
  | integer (n : Int) : Means (.integer n) (some (.number n))
  | float (f : Float) (q : Option ℚ) : Means (.float f) (q.map .number)
  | text (s : Bytes) : Means (.text s) (some (.text s))
  | bool (b : Bool) : Means (.bool b) (some (.bool b))
  | null : Means .null (some .null)

theorem Means.integer_eq (h : Means (.integer n) d) : d = some (.number n) := by
  cases h
  rfl

theorem Means.float_eq {f : Float} (h : Means (.float f) d) :
    ∃ q : Option ℚ, d = q.map .number := by
  cases h with
  | float _ q => exact ⟨q, rfl⟩

theorem literalValue_means {e : Expr} {v : Value} (h : literalValue e = some v) :
    Means v (literalDatum e) := by
  induction e generalizing v with
  | value literal =>
    cases literal with
    | number text =>
      simp only [literalValue, numberValue] at h
      cases whole : parseI64 text with
      | some n =>
        simp only [whole, map_some, some_or, some.injEq] at h
        subst h
        simpa only [literalDatum, exactDecimal_of_parseI64 whole, map_some] using
          .integer n
      | none =>
        simp only [whole, map_none, none_or, map_eq_some_iff] at h
        obtain ⟨f, -, rfl⟩ := h
        exact .float f _
    | singleQuotedString s => cases h; exact .text s
    | doubleQuotedString s => cases h; exact .text s
    | boolean b => cases h; exact .bool b
    | null => cases h; exact .null
    | other text => cases h
  | unaryOp op e ih =>
    cases op with
    | minus =>
      simp only [literalValue] at h
      split at h <;> cases h <;> rename_i inner
      · have negated := Means.integer (-‹Int›)
        rw [Int.cast_neg] at negated
        simpa only [literalDatum, (ih inner).integer_eq] using negated
      · obtain ⟨q, inner⟩ := (ih inner).float_eq
        have negated : literalDatum (.unaryOp .minus e) = (q.map fun q => -q).map .number := by
          cases q <;> simp [literalDatum, inner]
        rw [negated]
        exact .float _ _
    | _ => cases h
  | _ => cases h

section Answers

def floatHolds : BinaryOperator → Float → Float → Bool
  | .lt, a, b => decide (a < b)
  | .gt, a, b => decide (b < a)
  | .ltEq, a, b => decide (a ≤ b)
  | .gtEq, a, b => decide (b ≤ a)
  | _, _, _ => false

/-- Both values read as floats, and these in the order that the operator asks for. -/
def floatOrder (op : BinaryOperator) (v w : Value) : Bool :=
  match toF64 v, toF64 w with
  | some a, some b => floatHolds op a b
  | _, _ => false

def sameType : Cell → Value → Bool
  | .integer _, .integer _ => true
  | .text _, .text _ => true
  | .bool _, .bool _ => true
  | _, _ => false

def bothNull : Cell → Value → Bool
  | .null, .null => true
  | _, _ => false

/-- `exact` is the order of the cell and the literal in SQL: the reading as floats keeps it,
unless one side is NULL or both are booleans. -/
def OrderAnswered (op : BinaryOperator) (c : Cell) (v : Value) (exact : Option Ordering) : Prop :=
  match c, v with
  | .null, _ => True
  | _, .null => True
  | .bool _, .bool _ => True
  | c, v => floatOrder op c.value v = true ↔ exact.map (cmpHolds op) = some true

/-- What makes the answer on one cell right. Equality needs one type or values that are not
equal, inequality one type or values that compare and differ. -/
def CellAnswered (op : BinaryOperator) (c : Cell) (v : Value) (exact : Option Ordering) : Prop :=
  match op with
  | .eq => bothNull c v = false ∧ (sameType c v = true ∨ exact ≠ some .eq)
  | .notEq => bothNull c v = true ∨ sameType c v = true ∨ ∃ o ≠ .eq, exact = some o
  | op => OrderAnswered op c v exact

variable {d : Option Datum} {op : BinaryOperator} {v : Value} {c : Cell}

theorem eq_cell_iff (means : Means v d) :
    (c.value.eq v = true ↔ orderOf (some c.datum) d = some .eq) ↔
      bothNull c v = false ∧ (sameType c v = true ∨ orderOf (some c.datum) d ≠ some .eq) := by
  cases means <;> cases c <;>
    simp [Cell.value, Cell.datum, Value.eq, bothNull, sameType, orderOf, datumOrder]

theorem ne_cell_iff (means : Means v d) :
    (c.value.eq v = false ↔ ∃ o ≠ .eq, orderOf (some c.datum) d = some o) ↔
      bothNull c v = true ∨ sameType c v = true ∨ ∃ o ≠ .eq, orderOf (some c.datum) d = some o := by
  cases means <;> cases c <;>
    simp [Cell.value, Cell.datum, Value.eq, bothNull, sameType, orderOf, datumOrder]

theorem order_of_bools (op : BinaryOperator) (a b : Bool) (ordering : op ≠ .eq ∧ op ≠ .notEq) :
    floatOrder op (.bool a) (.bool b) = cmpHolds op (compare a b) := by
  cases op <;> cases a <;> cases b <;> first
      | exact absurd rfl ordering.1
      | exact absurd rfl ordering.2
      | rfl

theorem order_cell_iff (means : Means v d) (ordering : op ≠ .eq ∧ op ≠ .notEq) :
    (floatOrder op c.value v = true ↔ (orderOf (some c.datum) d).map (cmpHolds op) = some true) ↔
      OrderAnswered op c v (orderOf (some c.datum) d) := by
  cases means with
  | null => cases c <;> simp [OrderAnswered, floatOrder, toF64, orderOf, Cell.datum, datumOrder]
  | bool b =>
    cases c with
    | bool a =>
      simp [OrderAnswered, Cell.value, Cell.datum, orderOf, datumOrder,
        order_of_bools op a b ordering]
    | null => simp [OrderAnswered, floatOrder, toF64, Cell.value, orderOf, Cell.datum, datumOrder]
    | _ => exact Iff.rfl
  | _ =>
    cases c with
    | null => simp [OrderAnswered, floatOrder, toF64, Cell.value, orderOf, Cell.datum, datumOrder]
    | _ => exact Iff.rfl

variable {cols : Columns} {column : Bytes}

theorem filterMatches_buildCmp (read : cell cols column = some c.value)
    (comparison : isComparison op = true) :
    filterMatches cols (buildCmp op column v) = match op with
      | .eq => c.value.eq v
      | .notEq => !c.value.eq v
      | op => floatOrder op c.value v := by
  cases op <;> cases comparison <;>
    simp only [buildCmp, filterMatches, compareCell, cmpOrder, floatOrder, read, map_some,
      getD_some, bind_some]
  all_goals (cases toF64 c.value <;> cases toF64 v <;> rfl)

/-- The answer on one cell. -/
theorem cell_answered (read : cell cols column = some c.value) (means : Means v d)
    (comparison : isComparison op = true) :
    (filterMatches cols (buildCmp op column v) = true ↔
        (orderOf (some c.datum) d).map (cmpHolds op) = some true) ↔
      CellAnswered op c v (orderOf (some c.datum) d) := by
  rw [filterMatches_buildCmp read comparison]
  cases op with
  | eq =>
    have holds : (orderOf (some c.datum) d).map (cmpHolds .eq) = some true ↔
        orderOf (some c.datum) d = some .eq := by
      simp [cmpHolds]
    rw [holds]
    exact eq_cell_iff means
  | notEq =>
    have holds : (orderOf (some c.datum) d).map (cmpHolds .notEq) = some true ↔
        ∃ o ≠ .eq, orderOf (some c.datum) d = some o := by
      simp [cmpHolds, and_comm]
    rw [holds, Bool.not_eq_true']
    exact ne_cell_iff means
  | lt => exact order_cell_iff means ⟨nofun, nofun⟩
  | gt => exact order_cell_iff means ⟨nofun, nofun⟩
  | ltEq => exact order_cell_iff means ⟨nofun, nofun⟩
  | gtEq => exact order_cell_iff means ⟨nofun, nofun⟩
  | _ => cases comparison

end Answers

section Clauses

/-- The comparison of a column with a literal is answered as SQL answers it. -/
def PlainRow.ComparisonAnswered (row : PlainRow) (left : Expr) (op : BinaryOperator) (right :
    Expr) : Prop :=
  match columnNameFromExpr left, literalValue right with
  | some column, some v => ∀ c, row.get column = some c →
      CellAnswered op c v (orderOf (some c.datum) (literalDatum right))
  | _, _ =>
    match literalValue left, columnNameFromExpr right with
    | some v, some column => ∀ c, row.get column = some c →
        CellAnswered (flipCmpOp op) c v (orderOf (some c.datum) (literalDatum left))
    | _, _ => True

/-- Every comparison is answered rightly, or those that are not do not decide: next to a side
that is rightly not TRUE in a conjunction or rightly TRUE in a disjunction, or with both
sides wrong and exactly one of them TRUE. -/
def PlainRow.Answered (row : PlainRow) : Expr → Prop
  | .binaryOp left .and right =>
    (row.Answered left ∧ row.Answered right) ∨
    (row.Answered left ∧ row.truth left ≠ some true) ∨
    (row.Answered right ∧ row.truth right ≠ some true) ∨
    (¬ row.Answered left ∧ ¬ row.Answered right ∧
      (row.truth left = some true ↔ row.truth right ≠ some true))
  | .binaryOp left .or right =>
    (row.Answered left ∧ row.Answered right) ∨
    (row.Answered left ∧ row.truth left = some true) ∨
    (row.Answered right ∧ row.truth right = some true) ∨
    (¬ row.Answered left ∧ ¬ row.Answered right ∧
      (row.truth left = some true ↔ row.truth right ≠ some true))
  | .binaryOp left op right => row.ComparisonAnswered left op right
  | .nested e => row.Answered e
  | _ => True

theorem PlainRow.cell_columns (row : PlainRow) (column : Bytes) :
    cell row.columns column = (row.get column).map Cell.value := by
  simp only [cell, PlainRow.columns, PlainRow.get, List.find?_map, Option.map_map]
  rfl

theorem datumOrder_swap (a b : Datum) : datumOrder a b = (datumOrder b a).map Ordering.swap := by
  have swap {α : Type} [LinearOrder α] (x y : α) : compare x y = (compare y x).swap :=
    Std.OrientedCmp.eq_swap
  cases a <;> cases b <;> try rfl
  case number.number x y => exact congrArg some (swap x y)
  case text.text s t => exact congrArg some Std.OrientedCmp.eq_swap
  case bool.bool x y => exact congrArg some (swap x y)
  all_goals
    simp only [datumOrder, Option.map_map]
    exact Option.map_congr fun q _ => swap _ _

theorem cmpHolds_flip (op : BinaryOperator) (o : Ordering) :
    cmpHolds (flipCmpOp op) o.swap = cmpHolds op o := by
  cases op <;> cases o <;> rfl

theorem orderOf_swap (a b : Option Datum) (op : BinaryOperator) :
    (orderOf a b).map (cmpHolds (flipCmpOp op)) = (orderOf b a).map (cmpHolds op) := by
  rcases a with _ | a <;> rcases b with _ | b <;> try rfl
  simp only [orderOf, bind_some, datumOrder_swap a b, Option.map_map, Function.comp_def,
    cmpHolds_flip]

variable {op : BinaryOperator} {f : FilterExpr} {row : PlainRow} {v : Value} {e : Expr}

theorem flipCmpOp_comparison (comparison : isComparison op = true) :
    isComparison (flipCmpOp op) = true := by
  cases op <;> first | rfl | cases comparison

theorem columnNameFromExpr_of_literal (value : literalValue e = some v) :
    columnNameFromExpr e = none := by
  cases e <;> first | rfl | cases value

theorem cell_answered_at {column : Bytes} {d : Option Datum} (means : Means v d)
    (comparison : isComparison op = true) :
    (filterMatches row.columns (buildCmp op column v) = true ↔
        (orderOf (some ((row.get column).getD .null).datum) d).map (cmpHolds op) = some true) ↔
      ∀ c, row.get column = some c → CellAnswered op c v (orderOf (some c.datum) d) := by
  cases found : row.get column with
  | some c =>
    have read : cell row.columns column = some c.value := by
      rw [row.cell_columns, found, map_some]
    simpa using cell_answered read means comparison
  | none =>
    have missing : cell row.columns column = none := by rw [row.cell_columns, found, map_none]
    have unmatched : filterMatches row.columns (buildCmp op column v) = false := by
      cases op <;> simp [buildCmp, filterMatches, compareCell, cmpOrder, missing]
    have unknown : orderOf (some Cell.null.datum) d = none := by
      cases means <;> simp [orderOf, Cell.datum, datumOrder]
    simp [unmatched, unknown]

theorem comparison_answered {left right : Expr} (comparison : isComparison op = true)
    (translated : comparisonFromExpr left op right = some f) :
    (filterMatches row.columns f = true ↔
        (orderOf (row.operand left) (row.operand right)).map (cmpHolds op) = some true) ↔
      row.ComparisonAnswered left op right := by
  simp only [comparisonFromExpr] at translated
  split at translated
  · rename_i column v named value
    cases translated
    have unnamed := columnNameFromExpr_of_literal value
    simp only [PlainRow.ComparisonAnswered, PlainRow.operand, named, value, unnamed]
    exact cell_answered_at (literalValue_means value) comparison
  · split at translated
    · rename_i v column value named
      cases translated
      have unnamed := columnNameFromExpr_of_literal value
      simp only [PlainRow.ComparisonAnswered, PlainRow.operand, named, value, unnamed]
      rw [← orderOf_swap]
      exact cell_answered_at (literalValue_means value) (flipCmpOp_comparison comparison)
    · cases translated

theorem leaf_comparison (leaf : isLeaf e = true) (translated : filterFromExpr e = some f)
    (comparisons : filterHasNotDuplicate f = false) :
    ∃ left op right, e = .binaryOp left op right ∧ isComparison op = true ∧
      comparisonFromExpr left op right = some f := by
  cases e with
  | binaryOp left op right =>
    cases op <;> first
        | exact ⟨left, _, right, rfl, rfl, translated⟩
        | exact absurd leaf Bool.false_ne_true
        | exact absurd translated (some_ne_none f).symm
  | nested e => exact absurd leaf Bool.false_ne_true
  | unaryOp op e =>
    rw [filterFromExpr.eq_def] at translated
    split at translated <;> try cases ‹_ = Expr.binaryOp _ _ _›
    · obtain ⟨-, built⟩ := ite_none_right_eq_some.mp translated
      cases built
      cases comparisons
    all_goals simp_all
  | _ => exact absurd translated (some_ne_none f).symm

/-- A filter built from comparisons, AND, OR and parentheses lets a row pass exactly when
the clause is TRUE on it, if and only if the row is answered rightly. -/
theorem filter_follows_sql (row : PlainRow) (e : Expr) (f : FilterExpr)
    (translated : filterFromExpr e = some f) (comparisons : filterHasNotDuplicate f = false) :
    (filterMatches row.columns f = true ↔ row.truth e = some true) ↔ row.Answered e := by
  induction e using clause_induction generalizing f with
  | leaf e leaf =>
    obtain ⟨left, op, right, rfl, comparison, built⟩ := leaf_comparison leaf translated comparisons
    have truth : row.truth (.binaryOp left op right) =
        (orderOf (row.operand left) (row.operand right)).map (cmpHolds op) := by
      cases op <;> first | rfl | cases comparison
    have answered : row.Answered (.binaryOp left op right) =
        row.ComparisonAnswered left op right := by
      cases op <;> first | rfl | cases comparison
    rw [truth, answered]
    exact comparison_answered comparison built
  | conj left right hl hr =>
    simp only [filterFromExpr, bind_eq_some_iff, map_eq_some_iff] at translated
    obtain ⟨l, tl, r, tr, rfl⟩ := translated
    simp only [filterHasNotDuplicate, Bool.or_eq_false_iff] at comparisons
    simp only [filterMatches, Bool.and_eq_true, PlainRow.truth, kleeneAnd_eq_true,
      PlainRow.Answered, ← hl l tl comparisons.1, ← hr r tr comparisons.2]
    by_cases a : filterMatches row.columns l = true <;>
      by_cases b : filterMatches row.columns r = true <;>
        by_cases c : row.truth left = some true <;>
          by_cases d : row.truth right = some true <;> simp [a, b, c, d]
  | disj left right hl hr =>
    simp only [filterFromExpr, bind_eq_some_iff, map_eq_some_iff] at translated
    obtain ⟨l, tl, r, tr, rfl⟩ := translated
    simp only [filterHasNotDuplicate, Bool.or_eq_false_iff] at comparisons
    simp only [filterMatches, Bool.or_eq_true, PlainRow.truth, kleeneOr_eq_true,
      PlainRow.Answered, ← hl l tl comparisons.1, ← hr r tr comparisons.2]
    by_cases a : filterMatches row.columns l = true <;>
      by_cases b : filterMatches row.columns r = true <;>
        by_cases c : row.truth left = some true <;>
          by_cases d : row.truth right = some true <;> simp [a, b, c, d]
  | nested e ih =>
    simpa only [PlainRow.truth, PlainRow.Answered] using ih f translated comparisons

/-- `c <> 5 AND s = 'a'` on a row with the number 7 and the text. -/
theorem filter_follows_sql_sample :
    let row : PlainRow := [(ascii "c", .integer 7), (ascii "s", .text (ascii "a"))]
    let e : Expr := .binaryOp
      (.binaryOp (.identifier (ascii "c")) .notEq (.value (.number (ascii "5")))) .and
      (.binaryOp (.identifier (ascii "s")) .eq (.value (.singleQuotedString (ascii "a"))))
    let f : FilterExpr := .and (.ne (ascii "c") (.integer 5)) (.eq (ascii "s") (.text (ascii "a")))
    filterMatches row.columns f = true ∧ row.truth e = some true := by
  intro row e f
  have answered : row.Answered e := by
    have number : row.get (ascii "c") = some (.integer 7) := rfl
    have text : row.get (ascii "s") = some (.text (ascii "a")) := rfl
    refine .inl ⟨fun c found => ?_, fun c found => ?_⟩
    · cases number.symm.trans found
      exact .inr (.inl rfl)
    · cases text.symm.trans found
      exact ⟨rfl, .inl rfl⟩
  have passes : filterMatches row.columns f = true := by decide +kernel
  exact ⟨passes, ((filter_follows_sql row e f rfl rfl).mpr answered).mp passes⟩

/-- A NULL is let through by `<>`, texts are not ordered, and neighbouring numbers behind
2^53 are one number to the order. -/
theorem filter_against_sql : let c : Expr := .identifier (ascii "c")
    let one (v : Cell) : PlainRow := [(ascii "c", v)]
    let unequal : Expr := .binaryOp c .notEq (.value (.number (ascii "5")))
    let before : Expr := .binaryOp c .lt (.value (.singleQuotedString (ascii "b")))
    let below : Expr := .binaryOp c .lt (.value (.number (ascii "9007199254740993")))
    (filterFromExpr unequal = some (.ne (ascii "c") (.integer 5)) ∧
      filterMatches (one .null).columns (.ne (ascii "c") (.integer 5)) = true ∧
      (one .null).truth unequal = none) ∧
    (filterFromExpr before = some (.lt (ascii "c") (.text (ascii "b"))) ∧
      filterMatches (one (.text (ascii "a"))).columns (.lt (ascii "c") (.text (ascii "b"))) =
        false ∧
      (one (.text (ascii "a"))).truth before = some true) ∧
    (filterFromExpr below = some (.lt (ascii "c") (.integer 9007199254740993)) ∧
      filterMatches (one (.integer 9007199254740992)).columns
        (.lt (ascii "c") (.integer 9007199254740993)) = false ∧
      (one (.integer 9007199254740992)).truth below = some true) := by
  refine ⟨⟨rfl, ?_, ?_⟩, ⟨rfl, ?_, ?_⟩, ⟨rfl, ?_, ?_⟩⟩
  all_goals decide +kernel

end Clauses

end GalaxDb.Sql
