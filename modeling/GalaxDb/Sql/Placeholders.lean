import GalaxDb.Sql.DropTable
import GalaxDb.Sql.Exec
import GalaxDb.Sql.Statement

/-!
# Values in the place of placeholders

A bound value enters the tree as one literal, a negative number with its sign in the text.
The parser makes a sign and a number of it. The trees are alike: they print the same, have
the same shape for every question about shape, and read the same where their numbers fit.
-/

namespace GalaxDb.Sql

open Bytes Executor

inductive BoundValue where
  | int (n : Int) (low : i64Min ≤ n) (high : n ≤ i64Max)
  | float (f : Float)
  | bool (b : Bool)
  | text (s : Bytes)
  | null

/-- A float keeps a point, so that it never collapses to an integer. -/
def floatLiteral (f : Float) : Bytes :=
  let s := floatDisplay f
  if (f.isNaN || f.isInf) = false ∧ 46 ∉ s ∧ 101 ∉ s ∧ 69 ∉ s then s ++ ascii ".0" else s

def BoundValue.toSqlValue : BoundValue → Literal
  | .int n _ _ => .number (intDisplay n)
  | .float f => .number (floatLiteral f)
  | .bool b => .boolean b
  | .text s => .singleQuotedString s
  | .null => .null

/-- What the parser makes of the value in a statement. -/
def BoundValue.parsed (v : BoundValue) : Expr :=
  match v.toSqlValue with
  | .number (45 :: digits) => .unaryOp .minus (.value (.number digits))
  | literal => .value literal

def BoundValue.isFloat : BoundValue → Bool
  | .float _ => true
  | _ => false

/-- A negative integer. -/
def BoundValue.negative : BoundValue → Bool
  | .int n _ _ => decide (n < 0)
  | _ => false

/-- The integer without a positive counterpart. -/
def BoundValue.least : BoundValue → Bool
  | .int n _ _ => decide (n = i64Min)
  | _ => false

/-- The number behind the dollar sign. -/
def placeholderIndex : Bytes → Option Nat
  | 36 :: digits => parseU64 digits
  | _ => none

def boundFor (values : List BoundValue) (p : Bytes) : Option BoundValue :=
  match placeholderIndex p with
  | some i => if 1 ≤ i ∧ i ≤ values.length then values[i - 1]? else none
  | none => none

theorem mem_of_boundFor {values : List BoundValue} {p : Bytes} {v : BoundValue}
    (found : boundFor values p = some v) : v ∈ values := by
  rw [boundFor] at found
  split at found
  · split_ifs at found with inside
    exact List.mem_of_getElem? found
  · cases found

/-- A printed form, with the placeholders in it. -/
inductive Piece where
  | text (t : Bytes)
  | placeholder (p : Bytes)

abbrev Printed := List Piece

inductive TemplateArg where
  | placeholder (p : Bytes)
  | given (arg : FunctionArg)

inductive TemplateExpr where
  | placeholder (p : Bytes)
  | identifier (name : Bytes)
  | compoundIdentifier (parts : List Bytes)
  | value (literal : Literal)
  | unaryOp (op : UnaryOperator) (e : TemplateExpr)
  | binaryOp (left : TemplateExpr) (op : BinaryOperator) (right : TemplateExpr)
  | nested (e : TemplateExpr)
  | cast (e : TemplateExpr) (text : Printed)
  | function (name : Bytes) (hasOver : Bool) (args : List TemplateArg) (text : Printed)
  | isNull (e : TemplateExpr)
  | isNotNull (e : TemplateExpr)
  | other (text : Printed)

def Piece.placeholder? : Piece → Option Bytes
  | .text _ => none
  | .placeholder p => some p

def TemplateArg.placeholder? : TemplateArg → Option Bytes
  | .placeholder p => some p
  | .given _ => none

def Printed.placeholders (t : Printed) : List Bytes := t.filterMap Piece.placeholder?

/-- The placeholders that stand for an expression of the tree. -/
def TemplateExpr.reads : TemplateExpr → List Bytes
  | .placeholder p => [p]
  | .unaryOp _ e => e.reads
  | .binaryOp left _ right => left.reads ++ right.reads
  | .nested e => e.reads
  | .cast e _ => e.reads
  | .isNull e => e.reads
  | .isNotNull e => e.reads
  | _ => []

/-- All placeholders, those in the arguments of functions and in printed forms too. -/
def TemplateExpr.placeholders : TemplateExpr → List Bytes
  | .placeholder p => [p]
  | .unaryOp _ e => e.placeholders
  | .binaryOp left _ right => left.placeholders ++ right.placeholders
  | .nested e => e.placeholders
  | .cast e text => e.placeholders ++ text.placeholders
  | .function _ _ args text => args.filterMap TemplateArg.placeholder? ++ text.placeholders
  | .isNull e => e.placeholders
  | .isNotNull e => e.placeholders
  | .other text => text.placeholders
  | _ => []

/-- The argument that an expression makes. -/
def argOf : Expr → FunctionArg
  | .identifier name => .identifier name
  | .compoundIdentifier parts => .compoundIdentifier parts
  | .value (.singleQuotedString s) => .string s
  | .value (.number text) => .number text
  | _ => .expr

/-- Everything with `put p` in the place of the placeholder `p`, printed by `shown`. -/
structure Filling where
  put : Bytes → Expr
  shown : Expr → Bytes

open Filling

def Filling.piece (F : Filling) : Piece → Bytes
  | .text t => t
  | .placeholder p => F.shown (F.put p)

def Filling.printed (F : Filling) (t : Printed) : Bytes := t.flatMap F.piece

def Filling.arg (F : Filling) : TemplateArg → FunctionArg
  | .placeholder p => argOf (F.put p)
  | .given arg => arg

def Filling.expr (F : Filling) : TemplateExpr → Expr
  | .placeholder p => F.put p
  | .identifier name => .identifier name
  | .compoundIdentifier parts => .compoundIdentifier parts
  | .value literal => .value literal
  | .unaryOp op e => .unaryOp op (F.expr e)
  | .binaryOp left op right => .binaryOp (F.expr left) op (F.expr right)
  | .nested e => .nested (F.expr e)
  | .cast e text => .cast (F.expr e) (F.printed text)
  | .function name hasOver args text => .function name hasOver (args.map F.arg) (F.printed text)
  | .isNull e => .isNull (F.expr e)
  | .isNotNull e => .isNotNull (F.expr e)
  | .other text => .other (F.printed text)

/-- `quote` prints a quoted string. -/
def shownExpr (quote : Bytes → Bytes) : Expr → Bytes
  | .value (.singleQuotedString s) => quote s
  | e => exprDisplay e

/-- A placeholder without a value stays. -/
def bound (quote : Bytes → Bytes) (values : List BoundValue) : Filling where
  put p := .value (((boundFor values p).map BoundValue.toSqlValue).getD (.other p))
  shown := shownExpr quote

/-- The statement whose text has the literals. -/
def literals (quote : Bytes → Bytes) (values : List BoundValue) : Filling where
  put p := ((boundFor values p).map BoundValue.parsed).getD (.value (.other p))
  shown := shownExpr quote

/-- Two trees that differ in how they write negative numbers, of at most this size, and in
what the arguments of functions are. -/
inductive Alike (limit : Nat) : Expr → Expr → Prop
  | refl (e : Expr) : Alike limit e e
  | negative (n : Nat) (small : n ≤ limit) : Alike limit (.value (.number (45 :: natDigits n)))
        (.unaryOp .minus (.value (.number (natDigits n))))
  | unaryOp (op : UnaryOperator) {e e' : Expr} (h : Alike limit e e') :
      Alike limit (.unaryOp op e) (.unaryOp op e')
  | binaryOp {l l' : Expr} (op : BinaryOperator) {r r' : Expr} (hl : Alike limit l l')
      (hr : Alike limit r r') : Alike limit (.binaryOp l op r) (.binaryOp l' op r')
  | nested {e e' : Expr} (h : Alike limit e e') : Alike limit (.nested e) (.nested e')
  | cast {e e' : Expr} (text : Bytes) (h : Alike limit e e') :
      Alike limit (.cast e text) (.cast e' text)
  | function (name : Bytes) (hasOver : Bool) (args args' : List FunctionArg) (text : Bytes) :
      Alike limit (.function name hasOver args text) (.function name hasOver args' text)
  | isNull {e e' : Expr} (h : Alike limit e e') : Alike limit (.isNull e) (.isNull e')
  | isNotNull {e e' : Expr} (h : Alike limit e e') : Alike limit (.isNotNull e) (.isNotNull e')

namespace Alike

variable {limit : Nat} {e e' : Expr}

theorem display_eq (h : Alike limit e e') : exprDisplay e = exprDisplay e' := by
  induction h with
  | refl e => rfl
  | negative n small => rfl
  | unaryOp op h ih => cases op <;> simp only [exprDisplay, ih]
  | binaryOp op hl hr ihl ihr => simp only [exprDisplay, ihl, ihr]
  | nested h ih => simp only [exprDisplay, ih]
  | cast text h ih => rfl
  | function name hasOver args args' text => rfl
  | isNull h ih => simp only [exprDisplay, ih]
  | isNotNull h ih => simp only [exprDisplay, ih]

theorem columnName_eq (h : Alike limit e e') : columnNameFromExpr e = columnNameFromExpr e' := by
  cases h <;> rfl

theorem aggregate_eq (h : Alike limit e e') :
    exprHasAggregateOrWindow e = exprHasAggregateOrWindow e' := by
  induction h with
  | binaryOp op hl hr ihl ihr => simp only [exprHasAggregateOrWindow, ihl, ihr]
  | unaryOp op h ih | nested h ih | cast text h ih => simpa only [exprHasAggregateOrWindow] using ih
  | _ => rfl

/-- A sign is no digit of a count. -/
theorem usize_eq (h : Alike limit e e') : exprToUsize e = exprToUsize e' := by
  cases h with
  | negative n small => rfl
  | _ => rfl

theorem notDuplicate_eq (h : Alike limit e e') :
    exprHasNotDuplicate e = exprHasNotDuplicate e' := by
  induction h with
  | binaryOp op hl hr ihl ihr => simp only [exprHasNotDuplicate, ihl, ihr]
  | nested h ih => simpa only [exprHasNotDuplicate] using ih
  | unaryOp op h ih =>
    cases op with
    | not =>
      cases h with
      | unaryOp op h => simpa only [exprHasNotDuplicate] using ih
      | binaryOp op hl hr => simpa only [exprHasNotDuplicate] using ih
      | nested h => simpa only [exprHasNotDuplicate] using ih
      | _ => rfl
    | _ => rfl
  | _ => rfl

end Alike

variable {n : Nat}

theorem parseI64_natDigits (small : (n : Int) ≤ i64Max) :
    parseI64 (natDigits n) = some (n : Int) := by
  have digits : (natDigits n).all isDigit = true :=
    List.all_eq_true.mpr fun b h => natDigits_digit h
  have low : i64Min ≤ (n : Int) := by
    have : i64Min ≤ 0 := by decide
    omega
  rw [parseI64, takeSign_natDigits]
  simp only [natDigits_ne_nil, digits, digitsToNat_natDigits, false_or, Bool.true_eq_false,
    if_false,
    Bool.false_eq_true, low, small, and_self, if_true]

theorem parseI64_minus (small : i64Min ≤ -(n : Int)) :
    parseI64 (45 :: natDigits n) = some (-(n : Int)) := by
  have digits : (natDigits n).all isDigit = true :=
    List.all_eq_true.mpr fun b h => natDigits_digit h
  have high : -(n : Int) ≤ i64Max := by
    have : 0 ≤ i64Max := by decide
    omega
  rw [parseI64, takeSign]
  simp only [natDigits_ne_nil, digits, digitsToNat_natDigits, false_or, Bool.true_eq_false,
    if_false,
    if_true, small, high, and_self]

theorem numberValue_natDigits (small : (n : Int) ≤ i64Max) :
    numberValue (natDigits n) = some (.integer n) := by
  rw [numberValue, parseI64_natDigits small]
  rfl

theorem numberValue_minus {n : Nat} (small : i64Min ≤ -(n : Int)) :
    numberValue (45 :: natDigits n) = some (.integer (-n)) := by
  rw [numberValue, parseI64_minus small]
  rfl

namespace Alike

variable {limit : Nat} {e e' : Expr}

/-- Where a number fits without its sign, both spellings read the same. -/
theorem literalValue_eq (fits : (limit : Int) ≤ i64Max) (h : Alike limit e e') :
    literalValue e = literalValue e' := by
  induction h with
  | negative n small =>
    have lower : -(i64Max : Int) = i64Min + 1 := by decide
    rw [literalValue, numberValue_minus (by omega), literalValue, literalValue,
      numberValue_natDigits (by omega)]
  | unaryOp op h ih =>
    cases op with
    | minus => simp only [literalValue, ih]
    | _ => rfl
  | _ => rfl

theorem comparison_eq (fits : (limit : Int) ≤ i64Max) {l l' r r' : Expr} (op : BinaryOperator)
    (hl : Alike limit l l') (hr : Alike limit r r') :
    comparisonFromExpr l op r = comparisonFromExpr l' op r' := by
  rw [comparisonFromExpr, comparisonFromExpr, hl.columnName_eq, hr.columnName_eq,
    hl.literalValue_eq fits, hr.literalValue_eq fits]

theorem filter_eq (fits : (limit : Int) ≤ i64Max) (h : Alike limit e e') :
    filterFromExpr e = filterFromExpr e' := by
  induction h with
  | unaryOp op h ih =>
    cases op with
    | not =>
      cases h <;> rfl
    | _ => rfl
  | binaryOp op hl hr ihl ihr =>
    cases op with
    | and => simp only [filterFromExpr, ihl, ihr]
    | or => simp only [filterFromExpr, ihl, ihr]
    | _ => simp only [filterFromExpr, hl.comparison_eq fits _ hr]
  | nested h ih => simpa only [filterFromExpr] using ih
  | _ => rfl

end Alike

/-- What a value expression computes from the old row. -/
def evaluation (e : Expr) : Except SqlError (Columns → Except SqlError Value) :=
  (scalarFromExpr e).map fun s row => s.eval row

theorem evaluation_minus (e : Expr) :
    evaluation (.unaryOp .minus e) = (evaluation e).map fun f row =>
      (f row).bind Scalar.negate := by
  rw [evaluation, evaluation, scalarFromExpr]
  cases scalarFromExpr e <;> rfl

theorem evaluation_binary (l r : Expr) {op : BinaryOperator} {arith : ArithOp}
    (known : arithFromOp op = some arith) :
    evaluation (.binaryOp l op r) = (evaluation l).bind fun f => (evaluation r).map fun g row =>
      (f row).bind fun a => (g row).bind fun b => Scalar.apply arith a b := by
  simp only [evaluation, scalarFromExpr, known]
  cases scalarFromExpr l with
  | error err => rfl
  | ok f => cases scalarFromExpr r <;> rfl

/-- The value is negated within range, or is written with its sign. -/
theorem evaluation_negative (small : (n : Int) ≤ i64Max) :
    evaluation (.value (.number (45 :: natDigits n))) =
      evaluation (.unaryOp .minus (.value (.number (natDigits n)))) := by
  have lower : -(i64Max : Int) = i64Min + 1 := by decide
  have inside : i64Min ≤ -(n : Int) ∧ -(n : Int) ≤ i64Max := by omega
  simp only [evaluation, scalarFromExpr, valueFromLiteral, numberValue_natDigits small,
    numberValue_minus inside.1, Option.getD_some, Except.map, ScalarExpr.eval, Except.bind,
    Scalar.negate, Scalar.toNum, Scalar.checked, if_pos inside]

namespace Alike

variable {limit : Nat} {e e' : Expr}

theorem evaluation_eq (fits : (limit : Int) ≤ i64Max) (h : Alike limit e e') :
    evaluation e = evaluation e' := by
  induction h with
  | negative n small => exact evaluation_negative (by omega)
  | unaryOp op h ih =>
    cases op with
    | minus => rw [evaluation_minus, evaluation_minus, ih]
    | plus => exact ih
    | _ => rfl
  | binaryOp op hl hr ihl ihr =>
    cases known : arithFromOp op with
    | some arith => rw [evaluation_binary _ _ known, evaluation_binary _ _ known, ihl, ihr]
    | none => simp only [evaluation, scalarFromExpr, known]
  | nested h ih => exact ih
  | cast text h ih => exact ih
  | isNull h => simp only [evaluation, scalarFromExpr, h.isNull.display_eq]
  | isNotNull h => simp only [evaluation, scalarFromExpr, h.isNotNull.display_eq]
  | _ => rfl

end Alike

section Rows

/-- A value in a place without an old row. -/
theorem constant_eq {e e' : Expr} (same : evaluation e = evaluation e') :
    ((scalarFromExpr e).bind fun s => s.eval []) = (scalarFromExpr e').bind fun s => s.eval [] := by
  have applied := congrArg
    (fun r : Except SqlError (Columns → Except SqlError Value) => r.bind fun f => f []) same
  rw [evaluation, evaluation] at applied
  cases left : scalarFromExpr e <;> cases right : scalarFromExpr e' <;>
    simpa only [left, right, Except.map, Except.bind] using applied

/-- The values of a row depend on what its expressions compute. -/
theorem rowValues_eq {es es' : List Expr}
    (same : List.Forall₂ (fun e e' => evaluation e = evaluation e') es es') :
    rowValues es = rowValues es' := by
  induction same with
  | nil => rfl
  | cons one _ ih => rw [rowValues, rowValues, constant_eq one, ih]

/-- Assignments as what they compute. -/
def computed (assignments : List (Bytes × ScalarExpr)) :
    List (Bytes × (Columns → Except SqlError Value)) :=
  assignments.map fun a => (a.1, fun row => a.2.eval row)

variable {a a' : List (Bytes × ScalarExpr)}

theorem newValues_eq (same : computed a = computed a') (cols : Columns) :
    newValues cols a = newValues cols a' := by
  induction a generalizing a' with
  | nil =>
    cases a' with
    | nil => rfl
    | cons x rest => cases same
  | cons x rest ih =>
    cases a' with
    | nil => cases same
    | cons x' rest' =>
      obtain ⟨name, e⟩ := x
      obtain ⟨first, later⟩ := List.cons.inj same
      obtain ⟨rfl, eval⟩ := Prod.mk.inj first
      rw [newValues, newValues, congrFun eval cols, ih later]

theorem updateWrites_eq (same : computed a = computed a') (rows : List BufferedRow) :
    updateWrites a rows = updateWrites a' rows := by
  induction rows with
  | nil => rfl
  | cons r rest ih =>
    rw [updateWrites, updateWrites, updateRow, updateRow, newValues_eq same, ih]

theorem checkEmbeddingSource_eq (entry : TableEntry) (same : computed a = computed a') :
    checkEmbeddingSource entry a = checkEmbeddingSource entry a' := by
  induction a generalizing a' with
  | nil =>
    cases a' with
    | nil => rfl
    | cons x rest => cases same
  | cons x rest ih =>
    cases a' with
    | nil => cases same
    | cons x' rest' =>
      obtain ⟨name, e⟩ := x
      obtain ⟨first, later⟩ := List.cons.inj same
      obtain ⟨rfl, -⟩ := Prod.mk.inj first
      rw [checkEmbeddingSource, checkEmbeddingSource, ih later]

theorem planUpdate_eq (same : computed a = computed a') (ctx : ExecutorContext) (table : Bytes)
    (filter : Option FilterExpr) : planUpdate ctx table a filter =
      planUpdate ctx table a' filter := by
  simp only [planUpdate, checkEmbeddingSource_eq _ same, updateWrites_eq same]

theorem assignments_eq {es es' : List (Bytes × Expr)}
    (same : List.Forall₂ (fun x x' => x.1 = x'.1 ∧ evaluation x.2 = evaluation x'.2) es es') :
    (assignmentsFromExprs es).map computed = (assignmentsFromExprs es').map computed := by
  induction same with
  | nil => rfl
  | @cons x x' rest rest' one _ ih =>
    obtain ⟨name, e⟩ := x
    obtain ⟨name', e'⟩ := x'
    obtain ⟨rfl, eval⟩ := one
    simp only [evaluation] at eval
    rw [assignmentsFromExprs, assignmentsFromExprs]
    cases left : scalarFromExpr e with
    | error err =>
      cases right : scalarFromExpr e' with
      | error err' =>
        obtain rfl : err = err' := by simpa [left, right, Except.map] using eval
        rfl
      | ok s' => simp [left, right, Except.map] at eval
    | ok s =>
      cases right : scalarFromExpr e' with
      | error err' => simp [left, right, Except.map] at eval
      | ok s' =>
        cases first : assignmentsFromExprs rest <;> cases second : assignmentsFromExprs rest' <;>
          simp_all [Except.map, Except.bind, computed]

end Rows

section Fillings

/-- How far below zero a value lies. -/
def BoundValue.depth : BoundValue → Nat
  | .int n _ _ => (-n).toNat
  | _ => 0

theorem BoundValue.depth_le (v : BoundValue) : v.depth ≤ 2 ^ 63 := by
  cases v with
  | int n low high =>
    have least : i64Min = -2 ^ 63 := rfl
    rw [BoundValue.depth]
    omega
  | _ => exact Nat.zero_le _

variable {v : BoundValue} {n : Int}

theorem BoundValue.depth_lt (other : v.least = false) : v.depth ≤ 2 ^ 63 - 1 := by
  cases v with
  | int n low high =>
    have least : i64Min = -2 ^ 63 := rfl
    have above : n ≠ i64Min := by simpa [BoundValue.least] using other
    rw [BoundValue.depth]
    omega
  | _ => exact Nat.zero_le _

variable (quote : Bytes → Bytes) (values : List BoundValue) {limit : Nat}

theorem BoundValue.parsed_of_nonneg (low : i64Min ≤ n) (high : n ≤ i64Max) (sign : 0 ≤ n) :
    (BoundValue.int n low high).parsed = .value (BoundValue.int n low high).toSqlValue := by
  have shown : intDisplay n = natDigits n.natAbs := by rw [intDisplay, if_neg (by omega)]
  obtain ⟨d, rest, eq⟩ := List.exists_cons_of_ne_nil (natDigits_ne_nil n.natAbs)
  have digit : isDigit d = true := natDigits_digit (n := n.natAbs) (by simp [eq])
  simp only [BoundValue.parsed, BoundValue.toSqlValue, shown, eq]
  split
  · next same =>
    obtain ⟨rfl, -⟩ := List.cons.inj (Literal.number.inj same)
    exact absurd digit (by decide)
  · rfl

theorem BoundValue.parsed_of_neg (low : i64Min ≤ n) (high : n ≤ i64Max) (sign : n < 0) :
    (BoundValue.int n low high).toSqlValue = .number (45 :: natDigits n.natAbs) ∧
      (BoundValue.int n low high).parsed =
        .unaryOp .minus (.value (.number (natDigits n.natAbs))) := by
  have shown : intDisplay n = 45 :: natDigits n.natAbs := by rw [intDisplay, if_pos sign]
  simp only [BoundValue.parsed, BoundValue.toSqlValue, shown, true_and]

theorem BoundValue.alike (whole : v.isFloat = false) (small : v.depth ≤ limit) :
    Alike limit (.value v.toSqlValue) v.parsed := by
  cases v with
  | float f => cases whole
  | int n low high =>
    by_cases sign : 0 ≤ n
    · rw [BoundValue.parsed_of_nonneg low high sign]
      exact .refl _
    · obtain ⟨written, parsed⟩ := BoundValue.parsed_of_neg low high (by omega)
      rw [written, parsed]
      apply Alike.negative
      rw [BoundValue.depth] at small
      omega
  | _ => exact .refl _

/-- Both spellings of a value print the same. -/
theorem BoundValue.shown_eq (whole : v.isFloat = false) :
    shownExpr quote (.value v.toSqlValue) = shownExpr quote v.parsed := by
  cases v with
  | float f => cases whole
  | int n low high =>
    by_cases sign : 0 ≤ n
    · rw [BoundValue.parsed_of_nonneg low high sign]
    · obtain ⟨written, parsed⟩ := BoundValue.parsed_of_neg low high (by omega)
      rw [written, parsed]
      rfl
  | _ => rfl

variable {values} (whole : ∀ v ∈ values, v.isFloat = false)

include whole

theorem alike_put {p : Bytes} (small : ∀ v, boundFor values p = some v → v.depth ≤ limit) :
    Alike limit ((bound quote values).put p) ((literals quote values).put p) := by
  simp only [bound, literals]
  cases found : boundFor values p with
  | none => exact .refl _
  | some v => exact BoundValue.alike (whole v (mem_of_boundFor found)) (small v found)

theorem printed_eq (t : Printed) :
    (bound quote values).printed t = (literals quote values).printed t := by
  rw [printed, printed]
  congr 1
  funext piece
  cases piece with
  | text t => rfl
  | placeholder p =>
    simp only [piece, bound, literals]
    cases found : boundFor values p with
    | none => rfl
    | some v => exact BoundValue.shown_eq quote (whole v (mem_of_boundFor found))

theorem alike_expr {e : TemplateExpr}
    (small : ∀ p ∈ e.reads, ∀ v, boundFor values p = some v → v.depth ≤ limit) :
    Alike limit ((bound quote values).expr e) ((literals quote values).expr e) := by
  induction e with
  | placeholder p => exact alike_put quote whole (small p (List.mem_singleton_self p))
  | unaryOp op e ih => exact .unaryOp op (ih small)
  | binaryOp left op right ihl ihr =>
    exact .binaryOp op (ihl fun p h => small p (List.mem_append_left _ h))
      (ihr fun p h => small p (List.mem_append_right _ h))
  | nested e ih => exact .nested (ih small)
  | cast e text ih =>
    rw [expr, expr, printed_eq quote whole]
    exact .cast _ (ih small)
  | function name hasOver args text =>
    rw [expr, expr, printed_eq quote whole]
    exact .function name hasOver _ _ _
  | isNull e ih => exact .isNull (ih small)
  | isNotNull e ih => exact .isNotNull (ih small)
  | other text =>
    rw [expr, expr, printed_eq quote whole]
    exact .refl _
  | _ => exact .refl _

end Fillings

end GalaxDb.Sql
