import GalaxDb.Lib.Bytes
import Mathlib.Data.List.Basic

/-!
# Values and their text form

A cell of a decoded row. Text is kept as its UTF-8 bytes. The text form of a value is what
is stored on disk; reading it back guesses the type from the characters.
-/

namespace GalaxDb.Sql

open Bytes

inductive Value where
  | integer (n : Int)
  | float (f : Float)
  | text (s : Bytes)
  | bool (b : Bool)
  | null
  | blob (bytes : Bytes)
  | array (items : List Value)

/-- A decoded row: columns by name, in stored order. -/
abbrev Columns := List (Bytes × Value)

-- `PartialEq` as derived: structural, with the equality of floats at the leaves
mutual

def Value.eq : Value → Value → Bool
  | .integer a, .integer b => a == b
  | .float a, .float b => a == b
  | .text a, .text b => a == b
  | .bool a, .bool b => a == b
  | .null, .null => true
  | .blob a, .blob b => a == b
  | .array a, .array b => Value.eqAll a b
  | _, _ => false

def Value.eqAll : List Value → List Value → Bool
  | [], [] => true
  | a :: as, b :: bs => Value.eq a b && Value.eqAll as bs
  | _, _ => false

end

def isDigit (b : UInt8) : Bool := 48 ≤ b && b ≤ 57

def digitsToNat (digits : Bytes) : Nat :=
  digits.foldl (fun n d => 10 * n + (d.toNat - 48)) 0

def natDigits (n : Nat) : Bytes := (Nat.toDigits 10 n).map fun c => c.toNat.toUInt8

def intDisplay (n : Int) : Bytes :=
  if n < 0 then 45 :: natDigits n.natAbs else natDigits n.natAbs

/-- An optional sign and the rest of the text. -/
def takeSign : Bytes → Bool × Bytes
  | 45 :: rest => (true, rest)
  | 43 :: rest => (false, rest)
  | s => (false, s)

def i64Min : Int := -2 ^ 63

def i64Max : Int := 2 ^ 63 - 1

/-- `str::parse::<i64>`: a sign and decimal digits, within range. -/
def parseI64 (s : Bytes) : Option Int :=
  let (negative, digits) := takeSign s
  if digits = [] ∨ digits.all isDigit = false then none
  else
    let n : Int := if negative then -(digitsToNat digits) else digitsToNat digits
    if i64Min ≤ n ∧ n ≤ i64Max then some n else none

def toLower (b : UInt8) : UInt8 := if 65 ≤ b && b ≤ 90 then b + 32 else b

def floatInf : Float := Float.ofBits 0x7FF0000000000000

def floatNan : Float := Float.ofBits 0x7FF8000000000000

/-- Exponent of a decimal float; the text must end with it. -/
def parseExponent : Bytes → Option Int
  | [] => some 0
  | e :: rest =>
    if toLower e ≠ 101 then none
    else
      let (negative, digits) := takeSign rest
      if digits = [] ∨ digits.all isDigit = false then none
      else some (if negative then -(digitsToNat digits) else digitsToNat digits)

/-- `m * 10 ^ e`, rounded to the nearest float. -/
def ofDecimal (m : Nat) (e : Int) : Float :=
  if e < 0 then Float.ofScientific m true e.natAbs else Float.ofScientific m false e.natAbs

/-- Digits with an optional point among them, then an optional exponent. -/
def parseDecimal (s : Bytes) : Option Float :=
  let whole := s.takeWhile isDigit
  let rest := s.dropWhile isDigit
  let (fraction, rest) := match rest with
    | 46 :: after => (after.takeWhile isDigit, after.dropWhile isDigit)
    | rest => ([], rest)
  if whole = [] ∧ fraction = [] then none
  else (parseExponent rest).map fun e =>
    ofDecimal (digitsToNat (whole ++ fraction)) (e - fraction.length)

/-- `str::parse::<f64>`. -/
def parseF64 (s : Bytes) : Option Float :=
  let (negative, body) := takeSign s
  let lower := body.map toLower
  let magnitude :=
    if lower = ascii "inf" ∨ lower = ascii "infinity" then some floatInf
    else if lower = ascii "nan" then some floatNan
    else parseDecimal body
  magnitude.map fun f => if negative then -f else f

/-- A finite positive float as `m * 2 ^ e`. -/
def floatParts (f : Float) : Nat × Int :=
  let bits := f.toBits.toNat % 2 ^ 63
  let exponent : Nat := bits / 2 ^ 52
  let fraction := bits % 2 ^ 52
  if exponent = 0 then (fraction, -1074) else (fraction + 2 ^ 52, (exponent : Int) - 1075)

/-- `m * 2 ^ e / 10 ^ p`, rounded down, and whether the next integer is closer. -/
def scaled (m : Nat) (e p : Int) : Nat × Bool :=
  let num := m * 2 ^ e.toNat * 10 ^ (-p).toNat
  let den := 2 ^ (-e).toNat * 10 ^ p.toNat
  (num / den, decide (den < 2 * (num % den)))

/-- The decimal with the fewest digits that reads back as the float. -/
def shortestDecimal (f : Float) : Nat × Int :=
  let (m, e) := floatParts f
  let places := (List.range 650).map fun i => (308 : Int) - i
  (places.findSome? fun p =>
    let (d, up) := scaled m e p
    let candidates := if up then [d + 1, d] else [d, d + 1]
    (candidates.find? fun d => ofDecimal d p == f).map fun d => (d, p)).getD (0, 0)

/-- `Display` of a float: no exponent, and a point only where it is needed. -/
def floatDisplay (f : Float) : Bytes :=
  if f.isNaN then ascii "NaN"
  else
    let sign := if 2 ^ 63 ≤ f.toBits.toNat then [45] else []
    let magnitude := if 2 ^ 63 ≤ f.toBits.toNat then -f else f
    if f.isInf then sign ++ ascii "inf"
    else if magnitude == Float.ofBits 0 then sign ++ [48]
    else
      let (d, p) := shortestDecimal magnitude
      let digits := natDigits d
      if 0 ≤ p then sign ++ digits ++ List.replicate p.toNat 48
      else
        let places := (-p).toNat
        let padded := List.replicate (places + 1 - digits.length) 48 ++ digits
        sign ++ padded.take (padded.length - places) ++ [46] ++ padded.drop (padded.length - places)

def hexDigit (n : Nat) : UInt8 := if n < 10 then (48 + n).toUInt8 else (87 + n).toUInt8

def hexByte (b : UInt8) : Bytes := [hexDigit (b.toNat / 16), hexDigit (b.toNat % 16)]

def joinWith (separator : UInt8) : List Bytes → Bytes
  | [] => []
  | [part] => part
  | part :: rest => part ++ separator :: joinWith separator rest

mutual

def valueDisplay : Value → Bytes
  | .integer n => intDisplay n
  | .float f => floatDisplay f
  | .text s => s
  | .bool b => if b then ascii "true" else ascii "false"
  | .null => ascii "NULL"
  | .blob bytes => bytes.flatMap hexByte
  | .array items => 123 :: joinWith 44 (valueDisplays items) ++ [125]

def valueDisplays : List Value → List Bytes
  | [] => []
  | v :: rest => valueDisplay v :: valueDisplays rest

end

/-- Reverse of `valueDisplay`, as far as the characters tell. -/
def valueFromStr (s : Bytes) : Value :=
  if s = ascii "NULL" then .null
  else if s = ascii "true" then .bool true
  else if s = ascii "false" then .bool false
  else
    match parseI64 s with
    | some i => .integer i
    | none =>
      match parseF64 s with
      | some f => if 46 ∈ s ∨ 101 ∈ s ∨ 69 ∈ s then .float f else .text s
      | none => .text s

end GalaxDb.Sql
