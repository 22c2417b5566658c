import GalaxDb.Sql.RowCodec

/-!
# Scalar expressions

Values of `SET` and `VALUES`: evaluated against the old row, with checked 64-bit integers,
promotion to floats and NULL propagation.
-/

namespace GalaxDb.Sql

open Bytes

inductive ArithOp where
  | add
  | sub
  | mul
  | div
  | mod
  | concat
  deriving DecidableEq

inductive ScalarExpr where
  | literal (v : Value)
  | column (name : Bytes)
  | binary (op : ArithOp) (left right : ScalarExpr)
  | neg (e : ScalarExpr)

inductive Num where
  | int (n : Int)
  | flt (f : Float)

namespace Scalar

/-- The characters of `char::is_whitespace` in UTF-8. -/
def whiteSpace : List Bytes :=
  [[9], [10], [11], [12], [13], [32], [0xC2, 0x85], [0xC2, 0xA0], [0xE1, 0x9A, 0x80]] ++
    (List.range 11).map (fun i => [0xE2, 0x80, 0x80 + UInt8.ofNat i]) ++
    [[0xE2, 0x80, 0xA8], [0xE2, 0x80, 0xA9], [0xE2, 0x80, 0xAF], [0xE2, 0x81, 0x9F],
      [0xE3, 0x80, 0x80]]

def trimStart (chars : List Bytes) : Nat → Bytes → Bytes
  | 0, s => s
  | n + 1, s =>
    match chars.find? (·.isPrefixOf s) with
    | some c => trimStart chars n (s.drop c.length)
    | none => s

/-- `str::trim`. -/
def trim (s : Bytes) : Bytes :=
  let s := trimStart whiteSpace s.length s
  (trimStart (whiteSpace.map List.reverse) s.length s.reverse).reverse

/-- `Debug` of an operand that is no number. -/
def operandDebug : Value → Bytes
  | .bool b => ascii "Bool(" ++ (if b then ascii "true" else ascii "false") ++ ascii ")"
  | .blob bytes => ascii "Blob([" ++
      (ascii ", ").intercalate (bytes.map fun b => natDigits b.toNat) ++ ascii "])"
  | .array _ => ascii "Array(..)"
  | v => valueDisplay v

def toNum : Value → Except SqlError Num
  | .integer n => .ok (.int n)
  | .float f => .ok (.flt f)
  | .text s =>
    match parseI64 (trim s) with
    | some i => .ok (.int i)
    | none =>
      match parseF64 (trim s) with
      | some f => .ok (.flt f)
      | none => .error (.arithmetic (ascii "42804") (ascii "operand '" ++ s ++
          ascii "' is not a number in an arithmetic expression"))
  | v => .error (.arithmetic (ascii "42804") (ascii "cannot use " ++ operandDebug v ++
      ascii " as an arithmetic operand"))

def overflow : SqlError := .arithmetic (ascii "22003") (ascii "integer out of range")

def divZero : SqlError := .arithmetic (ascii "22012") (ascii "division by zero")

/-- A checked operation of 64-bit integers. -/
def checked (n : Int) : Except SqlError Value :=
  if i64Min ≤ n ∧ n ≤ i64Max then .ok (.integer n) else .error overflow

def negate : Value → Except SqlError Value
  | .null => .ok .null
  | v => (toNum v).bind fun
    | .int n => checked (-n)
    | .flt f => .ok (.float (-f))

def asF64 : Num → Float
  | .int i => Float.ofInt i
  | .flt f => f

def intOp (a b : Int) : ArithOp → Except SqlError Value
  | .add => checked (a + b)
  | .sub => checked (a - b)
  | .mul => checked (a * b)
  | .div => if b = 0 then .error divZero else checked (a.tdiv b)
  | .mod => if b = 0 then .error divZero
      -- the remainder of the quotient that does not fit overflows too
      else if a = i64Min ∧ b = -1 then .error overflow
      else checked (a.tmod b)
  | .concat => .error overflow

/-- `m * 2 ^ e` as a float. -/
def floatOfParts (m : Nat) (e : Int) : Float :=
  if e < 0 then Float.ofScientific (m * 5 ^ e.natAbs) true e.natAbs
  else Float.ofScientific (m * 2 ^ e.natAbs) false 0

/-- The remainder of the truncated quotient, exact and with the sign of the dividend. -/
def floatRem (x y : Float) : Float :=
  if x.isNaN || y.isNaN || x.isInf then floatNan
  else if y.isInf then x
  else
    let (m, e) := floatParts x
    let (n, d) := floatParts y
    let unit := min e d
    let r := floatOfParts (m * 2 ^ (e - unit).toNat % (n * 2 ^ (d - unit).toNat)) unit
    if 2 ^ 63 ≤ x.toBits.toNat then -r else r

def floatOp (x y : Float) : ArithOp → Except SqlError Value
  | .add => .ok (.float (x + y))
  | .sub => .ok (.float (x - y))
  | .mul => .ok (.float (x * y))
  | .div => if y == Float.ofInt 0 then .error divZero else .ok (.float (x / y))
  | .mod => if y == Float.ofInt 0 then .error divZero else .ok (.float (floatRem x y))
  | .concat => .error overflow

def isNull : Value → Bool
  | .null => true
  | _ => false

/-- Any NULL operand gives NULL; `||` joins texts, everything else needs numbers. -/
def apply (op : ArithOp) (l r : Value) : Except SqlError Value :=
  if isNull l || isNull r then .ok .null
  else if op = .concat then .ok (.text (valueDisplay l ++ valueDisplay r))
  else
    (toNum l).bind fun a => (toNum r).bind fun b =>
      match a, b with
      | .int a, .int b => intOp a b op
      | a, b => floatOp (asF64 a) (asF64 b) op

end Scalar

def ScalarExpr.eval (row : Columns) : ScalarExpr → Except SqlError Value
  | .literal v => .ok v
  | .column name =>
    match cell row name with
    | some v => .ok v
    | none => .error (.columnNotFound name)
  | .neg e => (e.eval row).bind Scalar.negate
  | .binary op left right =>
    (left.eval row).bind fun l => (right.eval row).bind fun r => Scalar.apply op l r

end GalaxDb.Sql
