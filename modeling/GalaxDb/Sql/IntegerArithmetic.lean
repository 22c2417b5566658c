import GalaxDb.Sql.Placeholders

/-!
# Integer arithmetic of value expressions

Exact arithmetic on integers that have to fit into 64 bits, with NULL, against the checked
operations of the evaluator, over every call that an evaluation makes.
-/

namespace GalaxDb.Sql

open Bytes Scalar List

inductive Fault where
  | overflow
  | divisionByZero
  deriving DecidableEq

inductive IntegerOp where
  | add
  | sub
  | mul
  | div
  | mod
  deriving DecidableEq

/-- A value expression of integers. A literal is any integer numeral. -/
inductive IntegerExpr where
  | literal (n : Int)
  | column (name : Bytes)
  | null
  | neg (e : IntegerExpr)
  | binary (op : IntegerOp) (left right : IntegerExpr)
  deriving DecidableEq

open IntegerExpr

/-- NULL is `none`. -/
abbrev Exactly := Except Fault (Option Int)

def represented (n : Int) : Exactly :=
  if i64Min ≤ n ∧ n ≤ i64Max then .ok (some n) else .error .overflow

def IntegerOp.exact (a b : Int) : IntegerOp → Exactly
  | .add => represented (a + b)
  | .sub => represented (a - b)
  | .mul => represented (a * b)
  | .div => if b = 0 then .error .divisionByZero else represented (a.tdiv b)
  | .mod => if b = 0 then .error .divisionByZero else represented (a.tmod b)

def IntegerOp.onValues (op : IntegerOp) : Option Int → Option Int → Exactly
  | some a, some b => op.exact a b
  | _, _ => .ok none

def negated : Option Int → Exactly
  | some n => represented (-n)
  | none => .ok none

def storedInteger (row : Columns) (name : Bytes) : Option Int :=
  match cell row name with
  | some (.integer n) => some n
  | _ => none

/-- What the expression is worth. A negated literal is one number. -/
def IntegerExpr.exact (row : Columns) : IntegerExpr → Exactly
  | .literal n => represented n
  | .column name => .ok (storedInteger row name)
  | .null => .ok none
  | .neg (.literal n) => represented (-n)
  | .neg e => (e.exact row).bind negated
  | .binary op left right => (left.exact row).bind fun a => (right.exact row).bind (op.onValues a)

def IntegerOp.binaryOperator : IntegerOp → BinaryOperator
  | .add => .plus
  | .sub => .minus
  | .mul => .multiply
  | .div => .divide
  | .mod => .modulo

def IntegerOp.arith : IntegerOp → ArithOp
  | .add => .add
  | .sub => .sub
  | .mul => .mul
  | .div => .div
  | .mod => .mod

/-- The expression as it is parsed. -/
def IntegerExpr.expr : IntegerExpr → Expr
  | .literal n => .value (.number (intDisplay n))
  | .column name => .identifier name
  | .null => .value .null
  | .neg e => .unaryOp .minus e.expr
  | .binary op left right => .binaryOp left.expr op.binaryOperator right.expr

/-- The expression as it is evaluated. -/
def IntegerExpr.scalar : IntegerExpr → ScalarExpr
  | .literal n => .literal (valueFromLiteral (.number (intDisplay n)))
  | .column name => .column name
  | .null => .literal .null
  | .neg e => .neg e.scalar
  | .binary op left right => .binary op.arith left.scalar right.scalar

theorem scalarFromExpr_expr (e : IntegerExpr) : scalarFromExpr e.expr = .ok e.scalar := by
  induction e with
  | neg e ih => simp [expr, scalar, scalarFromExpr, ih, Except.map]
  | binary op left right hl hr =>
    cases op <;> simp [expr, scalar, IntegerOp.binaryOperator, IntegerOp.arith,
        scalarFromExpr, arithFromOp, hl, hr, Except.map, Except.bind]
  | _ => rfl

/-- The code's answer to a result. -/
def answer : Exactly → Except SqlError Value
  | .ok none => .ok .null
  | .ok (some n) => .ok (.integer n)
  | .error .overflow => .error overflow
  | .error .divisionByZero => .error divZero

def IntegerExpr.columns : IntegerExpr → List Bytes
  | .column name => [name]
  | .neg e => e.columns
  | .binary _ left right => left.columns ++ right.columns
  | _ => []

/-- The row has the column, with an integer or NULL. -/
def IsIntegerColumn (row : Columns) (name : Bytes) : Prop :=
  cell row name = some .null ∨ ∃ n, cell row name = some (.integer n)

/-- The expressions that the evaluation of one calls for: an error on the left leaves the
right operand unevaluated. -/
def IntegerExpr.evaluated (row : Columns) : IntegerExpr → List IntegerExpr
  | .neg e => .neg e :: e.evaluated row
  | .binary op left right =>
    .binary op left right :: (left.evaluated row ++
      if (left.scalar.eval row).isOk then right.evaluated row else [])
  | e => [e]

def IntegerExpr.AnsweredExactly (row : Columns) (e : IntegerExpr) : Prop :=
  ((scalarFromExpr e.expr).bind fun s => s.eval row) = answer (e.exact row)

/-- Every literal that is reached fits into 64 bits, and no remainder of the least number by
-1 is taken. -/
def IntegerExpr.Safe (row : Columns) : IntegerExpr → Prop
  | .literal n => i64Min ≤ n ∧ n ≤ i64Max
  | .neg e => e.Safe row
  | .binary op left right =>
    left.Safe row ∧ ((∃ fault, left.exact row = .error fault) ∨ (right.Safe row ∧
      ¬ (op = .mod ∧ left.exact row = .ok (some i64Min) ∧ right.exact row = .ok (some (-1)))))
  | _ => True

section Agreement

variable {row : Columns}

theorem answer_represented (n : Int) : answer (represented n) = checked n := by
  simp only [represented, checked]
  split <;> rfl

theorem answer_isOk (r : Exactly) : (answer r).isOk = r.isOk := by
  rcases r with ⟨_ | _⟩ | _ | _ <;> rfl

/-- Only the remainder of the least number by -1 is not what exact arithmetic says. -/
theorem apply_integers (op : IntegerOp) (a b : Int) : apply op.arith (.integer a) (.integer b) =
      if op = .mod ∧ a = i64Min ∧ b = -1 then .error overflow else answer (op.exact a b) := by
  have applied : apply op.arith (.integer a) (.integer b) = intOp a b op.arith := by
    cases op <;> rfl
  rw [applied]
  cases op with
  | add | sub | mul => simp [IntegerOp.arith, intOp, IntegerOp.exact, answer_represented]
  | div =>
    simp only [IntegerOp.arith, intOp, IntegerOp.exact, reduceCtorEq, false_and, if_false]
    split
    · rfl
    · rw [answer_represented]
  | mod =>
    simp only [IntegerOp.arith, intOp, IntegerOp.exact, true_and]
    by_cases zero : b = 0
    · simp [zero, answer]
    · rw [if_neg zero, if_neg zero, answer_represented]

theorem apply_values (op : IntegerOp) {a b : Option Int}
    (regular : ¬ (op = .mod ∧ a = some i64Min ∧ b = some (-1))) :
    ((answer (.ok a)).bind fun l => (answer (.ok b)).bind fun r => apply op.arith l r) =
      answer (op.onValues a b) := by
  rcases a with _ | a <;> rcases b with _ | b <;> try rfl
  have regular : ¬ (op = .mod ∧ a = i64Min ∧ b = -1) := by simpa using regular
  exact (apply_integers op a b).trans (if_neg regular)

theorem negate_answer (a : Option Int) : (answer (.ok a)).bind negate = answer (negated a) := by
  rcases a with _ | a
  · rfl
  · exact (answer_represented (-a)).symm

theorem literal_of_fits {n : Int} (fits : i64Min ≤ n ∧ n ≤ i64Max) :
    valueFromLiteral (.number (intDisplay n)) = .integer n := by
  simp [valueFromLiteral, numberValue, parseI64_intDisplay fits.1 fits.2]

variable {e : IntegerExpr}

theorem eval_of_safe (integers : ∀ name ∈ e.columns, IsIntegerColumn row name) (safe : e.Safe row) :
    e.scalar.eval row = answer (e.exact row) := by
  induction e with
  | literal n =>
    have safe : i64Min ≤ n ∧ n ≤ i64Max := safe
    simp only [scalar, ScalarExpr.eval, literal_of_fits safe, exact,
      represented, if_pos safe, answer]
  | column name =>
    simp only [scalar, ScalarExpr.eval, exact, storedInteger]
    obtain null | ⟨n, number⟩ := integers name mem_cons_self
    · simp [null, answer]
    · simp [number, answer]
  | null => rfl
  | neg e ih =>
    have inner := ih integers safe
    have evaluated : (neg e).scalar.eval row = (answer (e.exact row)).bind negate := by
      rw [← inner]
      rfl
    have exact : (neg e).exact row = (e.exact row).bind negated := by
      cases e with
      | literal n =>
        have safe : i64Min ≤ n ∧ n ≤ i64Max := safe
        simp [exact, represented, safe, Except.bind, negated]
      | _ => rfl
    rw [evaluated, exact]
    cases e.exact row with
    | error fault => cases fault <;> rfl
    | ok a => exact negate_answer a
  | binary op left right hl hr =>
    have atLeft := hl (fun name h => integers name (mem_append_left _ h)) safe.1
    simp only [scalar, ScalarExpr.eval, exact, atLeft]
    obtain ⟨fault, failed⟩ | ⟨safe, regular⟩ := safe.2
    · rw [failed]
      cases fault <;> rfl
    · rw [hr (fun name h => integers name (mem_append_right _ h)) safe]
      cases atLeft : left.exact row with
      | error fault => cases fault <;> rfl
      | ok a =>
        cases atRight : right.exact row with
        | error fault => cases fault <;> rcases a with _ | a <;> rfl
        | ok b =>
          apply apply_values op
          simpa only [atLeft, atRight, Except.ok.injEq] using regular

theorem answeredExactly_iff : e.AnsweredExactly row ↔ e.scalar.eval row = answer (e.exact row) := by
  rw [IntegerExpr.AnsweredExactly, scalarFromExpr_expr]
  rfl

theorem mem_evaluated_self (e : IntegerExpr) : e ∈ e.evaluated row := by
  cases e <;> simp [evaluated]

theorem safe_of_answered (integers : ∀ name ∈ e.columns, IsIntegerColumn row name)
    (answered : ∀ s ∈ e.evaluated row, s.AnsweredExactly row) : e.Safe row := by
  have whole := answeredExactly_iff.mp (answered e (mem_evaluated_self e))
  induction e with
  | literal n =>
    by_contra unfit
    have unfit : ¬ (i64Min ≤ n ∧ n ≤ i64Max) := unfit
    simp [exact, represented, unfit, answer, scalar, ScalarExpr.eval] at whole
  | column name => trivial
  | null => trivial
  | neg e ih =>
    have inner : ∀ s ∈ e.evaluated row, s.AnsweredExactly row :=
      fun s h => answered s (mem_cons_of_mem _ h)
    exact ih integers inner (answeredExactly_iff.mp (inner e (mem_evaluated_self e)))
  | binary op left right hl hr =>
    have inLeft : ∀ s ∈ left.evaluated row, s.AnsweredExactly row :=
      fun s h => answered s (mem_cons_of_mem _ (mem_append_left _ h))
    have atLeft := answeredExactly_iff.mp (inLeft left (mem_evaluated_self left))
    refine ⟨hl (fun name h => integers name (mem_append_left _ h)) inLeft atLeft, ?_⟩
    cases exactLeft : left.exact row with
    | error fault => exact Or.inl ⟨fault, rfl⟩
    | ok a =>
      right
      have reached : (left.scalar.eval row).isOk = true := by
        rw [atLeft, answer_isOk, exactLeft]
        rfl
      have inRight : ∀ s ∈ right.evaluated row, s.AnsweredExactly row := by
        intro s h
        apply answered s (mem_cons_of_mem _ (mem_append_right _ _))
        rwa [if_pos reached]
      have atRight := answeredExactly_iff.mp (inRight right (mem_evaluated_self right))
      refine ⟨hr (fun name h => integers name (mem_append_right _ h)) inRight atRight, ?_⟩
      rintro ⟨rfl, least, minusOne⟩
      cases least
      simp only [scalar, ScalarExpr.eval, exact, atLeft, atRight, exactLeft, minusOne] at whole
      have remainder := apply_integers .mod i64Min (-1)
      exact absurd (remainder.symm.trans whole) (by rintro ⟨⟩)

theorem answered_of_safe (integers : ∀ name ∈ e.columns, IsIntegerColumn row name)
    (safe : e.Safe row) : ∀ s ∈ e.evaluated row, s.AnsweredExactly row := by
  have whole : e.AnsweredExactly row := answeredExactly_iff.mpr (eval_of_safe integers safe)
  induction e with
  | literal n | column name | null =>
    intro s member
    rwa [mem_singleton.mp member]
  | neg e ih =>
    intro s member
    obtain rfl | member := mem_cons.mp member
    · exact whole
    · exact ih integers safe (answeredExactly_iff.mpr (eval_of_safe integers safe)) s member
  | binary op left right hl hr =>
    have integersLeft := fun name h => integers name (mem_append_left _ h)
    have integersRight := fun name h => integers name (mem_append_right _ h)
    have atLeft := eval_of_safe integersLeft safe.1
    intro s member
    obtain rfl | member := mem_cons.mp member
    · exact whole
    obtain member | member := mem_append.mp member
    · exact hl integersLeft safe.1 (answeredExactly_iff.mpr atLeft) s member
    split at member
    · rename_i reached
      obtain ⟨fault, failed⟩ | ⟨safe, -⟩ := safe.2
      · rw [atLeft, answer_isOk, failed] at reached
        cases reached
      · have atRight := eval_of_safe integersRight safe
        exact hr integersRight safe (answeredExactly_iff.mpr atRight) s member
    · cases member

/-- Every expression that an evaluation reaches is answered exactly (NULL, the number, or the
error of the first operation that fails) if and only if no literal that it reaches leaves
the 64 bits and it takes no remainder of the least number by -1. -/
theorem integer_expressions_exact (row : Columns) (e : IntegerExpr)
    (integers : ∀ name ∈ e.columns, IsIntegerColumn row name) :
    (∀ s ∈ e.evaluated row, s.AnsweredExactly row) ↔ e.Safe row :=
  ⟨safe_of_answered integers, answered_of_safe integers⟩

/-- `c / 2 - 1` for the least number. -/
theorem integer_expressions_exact_sample : let row : Columns := [(ascii "c", .integer i64Min)]
    let e : IntegerExpr :=
      .binary .sub (.binary .div (.column (ascii "c")) (.literal 2)) (.literal 1)
    e.AnsweredExactly row ∧ e.exact row = .ok (some (-4611686018427387905)) := by
  intro row e
  have integers : ∀ name ∈ e.columns, IsIntegerColumn row name := by
    intro name member
    rw [mem_singleton.mp member]
    exact Or.inr ⟨i64Min, rfl⟩
  have two : i64Min ≤ (2 : Int) ∧ (2 : Int) ≤ i64Max := by decide
  have one : i64Min ≤ (1 : Int) ∧ (1 : Int) ≤ i64Max := by decide
  have safe : e.Safe row := ⟨⟨trivial, Or.inr ⟨two, by decide⟩⟩, Or.inr ⟨one, by decide⟩⟩
  refine ⟨(integer_expressions_exact row e integers).mpr safe e mem_cons_self, ?_⟩
  decide

/-- The least number as a literal is a float, and its remainder by -1 overflows. -/
theorem integer_expressions_at_the_minimum :
    let least : IntegerExpr := .neg (.literal 9223372036854775808)
    let remainder : IntegerExpr := .binary .mod (.column (ascii "c")) (.literal (-1))
    let row : Columns := [(ascii "c", .integer i64Min)]
    least.exact row = .ok (some i64Min) ∧ (∃ f, least.scalar.eval row = .ok (.float f)) ∧
      remainder.exact row = .ok (some 0) ∧
      remainder.scalar.eval row = .error overflow ∧
      ¬ least.AnsweredExactly row ∧ ¬ remainder.AnsweredExactly row := by
  intro least remainder row
  have float : ∃ f, least.scalar.eval row = .ok (.float f) := ⟨_, rfl⟩
  have overflow : remainder.scalar.eval row = .error overflow := rfl
  refine ⟨by decide, float, by decide, overflow, fun exactly => ?_, fun exactly => ?_⟩
  · obtain ⟨f, float⟩ := float
    cases float.symm.trans (answeredExactly_iff.mp exactly)
  · cases overflow.symm.trans (answeredExactly_iff.mp exactly)

end Agreement

end GalaxDb.Sql
