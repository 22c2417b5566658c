import GalaxDb.Sql.Filter
import GalaxDb.Sql.Scalar

/-!
# From parsed SQL to plans

The part of the parser's expression tree that the translation looks into; every other
constructor is `other`. A `text` is a printed form, which only error messages use.
-/

namespace GalaxDb.Sql

open Bytes

inductive Literal where
  | number (text : Bytes)
  | singleQuotedString (s : Bytes)
  | doubleQuotedString (s : Bytes)
  | boolean (b : Bool)
  | null
  | other (text : Bytes)
  deriving DecidableEq

inductive UnaryOperator where
  | not
  | minus
  | plus
  | other (text : Bytes)
  deriving DecidableEq

inductive BinaryOperator where
  | and
  | or
  | eq
  | notEq
  | lt
  | gt
  | ltEq
  | gtEq
  | plus
  | minus
  | multiply
  | divide
  | modulo
  | stringConcat
  | other (text : Bytes)
  deriving DecidableEq

/-- An argument of a function call, as far as the recognition of `SEMANTIC_MATCH` reads it. -/
inductive FunctionArg where
  | identifier (name : Bytes)
  | compoundIdentifier (parts : List Bytes)
  | string (s : Bytes)
  | number (text : Bytes)
  | expr
  | notUnnamed
  deriving DecidableEq

inductive Expr where
  | identifier (name : Bytes)
  | compoundIdentifier (parts : List Bytes)
  | value (literal : Literal)
  | unaryOp (op : UnaryOperator) (e : Expr)
  | binaryOp (left : Expr) (op : BinaryOperator) (right : Expr)
  | nested (e : Expr)
  | cast (e : Expr) (text : Bytes)
  | function (name : Bytes) (hasOver : Bool) (args : List FunctionArg) (text : Bytes)
  | isNull (e : Expr)
  | isNotNull (e : Expr)
  | other (text : Bytes)
  deriving DecidableEq

def columnNameFromExpr : Expr → Option Bytes
  | .identifier name => some name
  | .compoundIdentifier parts => parts.getLast?
  | _ => none

def numberValue (text : Bytes) : Option Value :=
  ((parseI64 text).map Value.integer).or ((parseF64 text).map Value.float)

def literalValue : Expr → Option Value
  | .value (.number text) => numberValue text
  | .value (.singleQuotedString s) => some (.text s)
  | .value (.doubleQuotedString s) => some (.text s)
  | .value (.boolean b) => some (.bool b)
  | .value .null => some .null
  | .unaryOp .minus e =>
    match literalValue e with
    | some (.integer n) => some (.integer (-n))
    | some (.float f) => some (.float (-f))
    | _ => none
  | _ => none

def buildCmp (op : BinaryOperator) (column : Bytes) (value : Value) : FilterExpr :=
  match op with
  | .notEq => .ne column value
  | .lt => .lt column value
  | .gt => .gt column value
  | .ltEq => .le column value
  | .gtEq => .ge column value
  | _ => .eq column value

/-- The comparison with its sides exchanged. -/
def flipCmpOp : BinaryOperator → BinaryOperator
  | .lt => .gt
  | .gt => .lt
  | .ltEq => .gtEq
  | .gtEq => .ltEq
  | op => op

def isComparison : BinaryOperator → Bool
  | .eq | .notEq | .lt | .gt | .ltEq | .gtEq => true
  | _ => false

/-- `col OP literal`, or else `literal OP col` turned around. -/
def comparisonFromExpr (left : Expr) (op : BinaryOperator) (right : Expr) : Option FilterExpr :=
  match columnNameFromExpr left, literalValue right with
  | some column, some value => some (buildCmp op column value)
  | _, _ =>
    match literalValue left, columnNameFromExpr right with
    | some value, some column => some (buildCmp (flipCmpOp op) column value)
    | _, _ => none

def eqIgnoreCase (a b : Bytes) : Bool := a.map toLower == b.map toLower

def filterFromExpr : Expr → Option FilterExpr
  | .unaryOp .not (.identifier name) =>
    if eqIgnoreCase name (ascii "DUPLICATE") then some .notDuplicate else none
  | .binaryOp left .and right =>
    (filterFromExpr left).bind fun l => (filterFromExpr right).map fun r => .and l r
  | .binaryOp left .or right =>
    (filterFromExpr left).bind fun l => (filterFromExpr right).map fun r => .or l r
  | .binaryOp left op right => if isComparison op then comparisonFromExpr left op right else none
  | .nested e => filterFromExpr e
  | _ => none

def valueFromLiteral : Literal → Value
  | .number text => (numberValue text).getD (.text text)
  | .singleQuotedString s => .text s
  | .doubleQuotedString s => .text s
  | .boolean b => .bool b
  | .null => .null
  | .other text => .text text

def arithFromOp : BinaryOperator → Option ArithOp
  | .plus => some .add
  | .minus => some .sub
  | .multiply => some .mul
  | .divide => some .div
  | .modulo => some .mod
  | .stringConcat => some .concat
  | _ => none

def opDisplay : BinaryOperator → Bytes
  | .and => ascii "AND"
  | .or => ascii "OR"
  | .eq => ascii "="
  | .notEq => ascii "<>"
  | .lt => ascii "<"
  | .gt => ascii ">"
  | .ltEq => ascii "<="
  | .gtEq => ascii ">="
  | .plus => ascii "+"
  | .minus => ascii "-"
  | .multiply => ascii "*"
  | .divide => ascii "/"
  | .modulo => ascii "%"
  | .stringConcat => ascii "||"
  | .other text => text

def unaryDebug : UnaryOperator → Bytes
  | .not => ascii "Not"
  | .minus => ascii "Minus"
  | .plus => ascii "Plus"
  | .other text => text

def literalDisplay : Literal → Bytes
  | .number text => text
  | .singleQuotedString s => 39 :: s ++ [39]
  | .doubleQuotedString s => 34 :: s ++ [34]
  | .boolean b => if b then ascii "true" else ascii "false"
  | .null => ascii "NULL"
  | .other text => text

def exprDisplay : Expr → Bytes
  | .identifier name => name
  | .compoundIdentifier parts => joinWith 46 parts
  | .value literal => literalDisplay literal
  | .unaryOp .not e => ascii "NOT " ++ exprDisplay e
  | .unaryOp .minus e => 45 :: exprDisplay e
  | .unaryOp .plus e => 43 :: exprDisplay e
  | .unaryOp (.other text) e => text ++ exprDisplay e
  | .binaryOp left op right => exprDisplay left ++ 32 :: opDisplay op ++ 32 :: exprDisplay right
  | .nested e => 40 :: exprDisplay e ++ [41]
  | .cast _ text => text
  | .function _ _ _ text => text
  | .isNull e => exprDisplay e ++ ascii " IS NULL"
  | .isNotNull e => exprDisplay e ++ ascii " IS NOT NULL"
  | .other text => text

def scalarFromExpr : Expr → Except SqlError ScalarExpr
  | .value literal => .ok (.literal (valueFromLiteral literal))
  | .identifier name => .ok (.column name)
  | .compoundIdentifier parts =>
    match parts.getLast? with
    | some name => .ok (.column name)
    | none => .error (.featureNotSupported (ascii "empty compound identifier"))
  | .nested e => scalarFromExpr e
  | .cast e _ => scalarFromExpr e
  | .unaryOp .minus e => (scalarFromExpr e).map .neg
  | .unaryOp .plus e => scalarFromExpr e
  | .unaryOp op _ => .error (.featureNotSupported (ascii "unary operator " ++ unaryDebug op ++
      ascii " in a value expression"))
  | .binaryOp left op right =>
    match arithFromOp op with
    | some arith =>
      (scalarFromExpr left).bind fun l => (scalarFromExpr right).map fun r => .binary arith l r
    | none => .error (.featureNotSupported (ascii "binary operator '" ++ opDisplay op ++
        ascii "' in a value expression"))
  | .function name _ _ _ => .error (.featureNotSupported (ascii "function call '" ++ name ++
      ascii "(...)' is not supported in a value position"))
  | e => .error (.featureNotSupported (ascii "expression '" ++ exprDisplay e ++
      ascii "' is not supported in a value position"))

end GalaxDb.Sql
