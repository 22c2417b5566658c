import GalaxDb.Sql.RowCodec

/-!
# Row filters

What the executor makes of a WHERE clause. Equality is structural, the order comparisons
go through floats, and `NOT DUPLICATE` is left to a pass over all rows of a scan.
-/

namespace GalaxDb.Sql

open Bytes

inductive FilterExpr where
  | eq (column : Bytes) (value : Value)
  | lt (column : Bytes) (value : Value)
  | gt (column : Bytes) (value : Value)
  | le (column : Bytes) (value : Value)
  | ge (column : Bytes) (value : Value)
  | ne (column : Bytes) (value : Value)
  | and (a b : FilterExpr)
  | or (a b : FilterExpr)
  | notDuplicate

def filterHasNotDuplicate : FilterExpr → Bool
  | .notDuplicate => true
  | .and a b => filterHasNotDuplicate a || filterHasNotDuplicate b
  | .or a b => filterHasNotDuplicate a || filterHasNotDuplicate b
  | _ => false

def toF64 : Value → Option Float
  | .integer n => some (Float.ofInt n)
  | .float f => some f
  | .text s => parseF64 s
  | .bool b => some (if b then Float.ofInt 1 else Float.ofInt 0)
  | _ => none

def compareCell (cols : Columns) (column : Bytes) (value : Value) (pred : Value → Value → Bool) :
    Bool :=
  ((cell cols column).map fun v => pred v value).getD false

def cmpOrder (cols : Columns) (column : Bytes) (value : Value) (pred : Float → Float → Bool) :
    Bool :=
  match (cell cols column).bind toF64, toF64 value with
  | some a, some b => pred a b
  | _, _ => false

def filterMatches (cols : Columns) : FilterExpr → Bool
  | .eq column value => compareCell cols column value fun a b => a.eq b
  | .ne column value => compareCell cols column value fun a b => !a.eq b
  | .lt column value => cmpOrder cols column value fun a b => decide (a < b)
  | .gt column value => cmpOrder cols column value fun a b => decide (b < a)
  | .le column value => cmpOrder cols column value fun a b => decide (a ≤ b)
  | .ge column value => cmpOrder cols column value fun a b => decide (b ≤ a)
  | .and a b => filterMatches cols a && filterMatches cols b
  | .or a b => filterMatches cols a || filterMatches cols b
  | .notDuplicate => true

/-- No filter matches every row. -/
def rowPasses (filter : Option FilterExpr) (cols : Columns) : Bool :=
  match filter with
  | some f => filterMatches cols f
  | none => true

abbrev BufferedRow := Bytes × Columns

def parseU64 (s : Bytes) : Option Nat :=
  let digits := match s with
    | 43 :: rest => rest
    | s => s
  if digits = [] ∨ digits.all isDigit = false then none
  else if digitsToNat digits < 2 ^ 64 then some (digitsToNat digits) else none

/-- A group id as a signed 64-bit number. -/
def u64AsI64 (n : Nat) : Int := if n < 2 ^ 63 then n else n - 2 ^ 64

def rowGroupId (cols : Columns) : Option Int :=
  match cell cols (ascii "_near_duplicate_group") with
  | some (.integer n) => some n
  | some (.text s) =>
    if s = ascii "NULL" then none
    else
      match parseI64 s with
      | some n => some n
      | none => (parseU64 s).map u64AsI64
  | _ => none

/-- The smallest key of a group among the rows. -/
def representative (rows : List BufferedRow) (group : Int) : Option Bytes :=
  rows.foldl (fun best r =>
    if rowGroupId r.2 = some group then
      match best with
      | some b => if compare r.1 b = .lt then some r.1 else some b
      | none => some r.1
    else best) none

/-- A row without a group, or the one of its group with the smallest key. -/
def isRepresentative (rows : List BufferedRow) (r : BufferedRow) : Bool :=
  match rowGroupId r.2 with
  | none => true
  | some g => decide (representative rows g = some r.1)

def applyNotDuplicatePass (rows : List BufferedRow) : List BufferedRow :=
  rows.filter (isRepresentative rows)

end GalaxDb.Sql
