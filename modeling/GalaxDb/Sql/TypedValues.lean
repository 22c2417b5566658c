import GalaxDb.Lib.Utf8
import GalaxDb.Server.QueryTexts
import GalaxDb.Sql.CivilDays

/-!
# Values under a type

The text of a literal is read as a value of a column's type, and a value is written as text.
Dates become days and timestamps microseconds since 1970. A slice that does not end between
two characters panics.
-/

namespace GalaxDb

inductive SqlType where
  | int2
  | int4
  | int8
  | float4
  | float8
  | numeric (precision scale : Option Nat)
  | bool
  | text
  | varchar (length : Option Nat)
  | bytea
  | timestamp
  | timestampTz
  | date
  | json
  | jsonb
  | uuid
  | array (elem : SqlType)
  deriving DecidableEq

namespace Sql.Types

open Decoded Utf8
open Server (Text isWhitespace trimBy utf8 eqIgnoreAsciiCase)

def trim (s : Text) : Text := trimBy isWhitespace s

/-- `str::parse::<i64>`. -/
def parseInt (s : Text) : Option Int := parseI64 (utf8 s)

/-- `&s[..n]` and `&s[n..]`. -/
def slice {ε : Type} (s : Text) (n : Nat) : Decoded ε (Text × Text) :=
  match splitAtByte s n with
  | some parts => .ok parts
  | none => .fault .outOfRange

/-- `String::truncate`. -/
def truncate {ε : Type} (n : Nat) (s : Text) : Decoded ε Text :=
  if byteLen s ≤ n then .ok s
  else do
    let (front, _) ← slice s n
    return front

/-- The text before the first `c` and the text behind it. -/
def splitOnce (p : Char → Bool) (s : Text) : Option (Text × Text) :=
  if s.any p then some (s.takeWhile (!p ·), (s.dropWhile (!p ·)).tail) else none

def stripSuffix (c : Char) (s : Text) : Text := if s.getLast? = some c then s.dropLast else s

/-- `"{before}{s}{after}"`. -/
def quoting (before : String) (s : Text) (after : String) :
    Text := before.toList ++ s ++ after.toList

def hexValue (c : Char) : Option Nat :=
  if '0' ≤ c ∧ c ≤ '9' then some (c.toNat - 48)
  else if 'a' ≤ c ∧ c ≤ 'f' then some (c.toNat - 87)
  else if 'A' ≤ c ∧ c ≤ 'F' then some (c.toNat - 55)
  else none

/-- `u8::from_str_radix` of two bytes: a plus in front is a sign. -/
def fromStrRadix16 : Text → Option UInt8
  | [a, b] =>
    if a = '+' then (hexValue b).map Nat.toUInt8
    else (hexValue a).bind fun high => (hexValue b).map fun low => (16 * high + low).toUInt8
  | _ => none

/-- The next `n` pairs of bytes. -/
def readPairs (message : Text) : Nat → Text → Decoded Text Bytes
  | 0, _ => .ok []
  | n + 1, s => do
    let (pair, rest) ← slice s 2
    let byte ← orError message (fromStrRadix16 pair)
    let bytes ← readPairs message n rest
    return byte :: bytes

def parseBytea (s : Text) : Decoded Text Bytes :=
  let hex := if ['\\', 'x'].isPrefixOf (trim s) then (trim s).drop 2 else trim s
  if byteLen hex % 2 ≠ 0 then .error (quoting "invalid bytea literal '" s "': odd hex length")
  else readPairs (quoting "invalid bytea literal '" s "'") (byteLen hex / 2) hex

def hexPair (b : UInt8) : Text := [Nat.digitChar (b.toNat / 16), Nat.digitChar (b.toNat % 16)]

def formatBytea (bytes : Bytes) : Text := '\\' :: 'x' :: bytes.flatMap hexPair

def parseUuid (s : Text) : Decoded Text Bytes :=
  let clean := (trim s).filter (· ≠ '-')
  if byteLen clean ≠ 32 then .error (quoting "invalid uuid literal '" s "'")
  else readPairs (quoting "invalid uuid literal '" s "'") 16 clean

def formatUuid (bytes : Bytes) : Text :=
  if bytes.length ≠ 16 then formatBytea bytes
  else
    let j := bytes.flatMap hexPair
    j.take 8 ++ '-' :: ((j.drop 8).take 4 ++ '-' :: ((j.drop 12).take 4 ++ '-' ::
      ((j.drop 16).take 4 ++ '-' :: j.drop 20)))

section Temporal

variable (b : Build)

def microsPerDay : Int := 86400000000

def parseDateToDays (s : Text) : Decoded Text Int :=
  match (trim s).splitOn '-' with
  | [year, month, day] => do
    let y ← orError (quoting "invalid date '" s "'") (parseInt year)
    let m ← orError (quoting "invalid date '" s "'") (parseInt month)
    let d ← orError (quoting "invalid date '" s "'") (parseInt day)
    if ¬ (1 ≤ m ∧ m ≤ 12) ∨ ¬ (1 ≤ d ∧ d ≤ 31) then
      .error (quoting "invalid date '" s "': month/day out of range")
    else daysFromCivil b y m d
  | _ => .error (quoting "invalid date literal '" s "' (expected YYYY-MM-DD)")

def dateText (y m d : Int) : Text := padded 4 y ++ '-' :: (padded 2 m ++ '-' :: padded 2 d)

def formatDaysAsDate (days : Int) : Decoded Text Text := do
  let (y, m, d) ← civilFromDays b days
  return dateText y m d

def parseTimeToMicros (s : Text) : Decoded Text Int :=
  if s = [] then .ok 0
  else
    let (hms, frac) := (splitOnce (· == '.') s).getD (s, [])
    let parts := hms.splitOn ':'
    if parts = [] ∨ 3 < parts.length then .error (quoting "invalid time literal '" s "'")
    else do
      let invalid := quoting "invalid time '" s "'"
      let h ← orError invalid (parseInt (parts.headD []))
      let mi ← orError invalid ((parts[1]?).elim (some 0) parseInt)
      let se ← orError invalid ((parts[2]?).elim (some 0) parseInt)
      let frac6 ← truncate 6 frac
      let frac6 := frac6 ++ List.replicate (6 - byteLen frac6) '0'
      let microsFrac ← orError (quoting "invalid time fraction '" s "'")
        (if frac = [] then some 0 else parseInt frac6)
      let minutes ← i64 b ((← i64 b (h * 60)) + mi)
      let seconds ← i64 b ((← i64 b (minutes * 60)) + se)
      i64 b ((← i64 b (seconds * 1000000)) + microsFrac)

def parseTimestampToMicros (s : Text) : Decoded Text Int := do
  let t := stripSuffix 'Z' (trim s)
  let (datePart, timePart) :=
    (splitOnce (fun c => c == ' ' || c == 'T') t).getD (t, "00:00:00".toList)
  let days ← parseDateToDays b datePart
  let microsInDay ← parseTimeToMicros b timePart
  i64 b ((← i64 b (days * microsPerDay)) + microsInDay)

def timeText (h mi se frac : Int) : Text :=
  padded 2 h ++ ':' :: (padded 2 mi ++ ':' :: (padded 2 se ++
    if frac = 0 then [] else '.' :: padded 6 frac))

/-- The remainder of the floored division is never negative. -/
def formatMicrosAsTimestamp (micros : Int) : Decoded Text Text := do
  let days := micros / microsPerDay
  let rem := micros % microsPerDay
  let (y, mo, d) ← civilFromDays b days
  let secs := rem.tdiv 1000000
  let frac := rem.tmod 1000000
  return dateText y mo d ++ ' ' ::
    timeText (secs.tdiv 3600) ((secs.tmod 3600).tdiv 60) (secs.tmod 60) frac

end Temporal

/-- The characters of an array body after those in `cur`: quotes are dropped, and inside of
them a backslash takes the next character as it is. -/
def splitElements : Bool → Text → Text → List Text
  | _, cur, [] => [cur]
  | inQuotes, cur, c :: rest =>
    if c = '"' then splitElements (!inQuotes) cur rest
    else if c = '\\' ∧ inQuotes then
      match rest with
      | next :: rest => splitElements inQuotes (cur ++ [next]) rest
      | [] => [cur]
    else if c = ',' ∧ inQuotes = false then cur :: splitElements inQuotes [] rest
    else splitElements inQuotes (cur ++ [c]) rest

def parseArrayElements (s : Text) : Decoded Text (List Text) :=
  let t := trim s
  if t.head? = some '{' ∧ t.tail.getLast? = some '}' then
    let body := t.tail.dropLast
    if trim body = [] then .ok [] else .ok ((splitElements false [] body).map trim)
  else .error (quoting "invalid array literal '" s "' (expected \x7b...\x7d)")

section Values

/-- `GalaxError::SqlParse`. -/
structure ParseError where
  position : Nat
  message : Text
  deriving DecidableEq

def parseErr (message : Text) : ParseError := ⟨0, message⟩

/-- `map_err`. -/
def mapErr {ε ε' α : Type} (f : ε → ε') : Decoded ε α → Decoded ε' α
  | .ok a => .ok a
  | .error e => .error (f e)
  | .fault g => .fault g

/-- `collect` of results: up to the first that is none. -/
def collect {ε α β : Type} (f : α → Decoded ε β) : List α → Decoded ε (List β)
  | [] => .ok []
  | a :: rest => do
    let b ← f a
    let bs ← collect f rest
    return b :: bs

def parseBool (s : Text) : Option Bool :=
  let t := (trim s).map Char.toLower
  if t ∈ ["t", "true", "1", "yes", "on"].map String.toList then some true
  else if t ∈ ["f", "false", "0", "no", "off"].map String.toList then some false
  else none

def nullText : Text := "NULL".toList

variable (b : Build)

/-- A literal under a type. -/
def parseValue : Text → SqlType → Decoded ParseError Value
  | s, .int2 | s, .int4 | s, .int8 =>
    orError (parseErr (quoting "invalid integer literal '" s "'"))
      ((parseInt (trim s)).map .integer)
  | s, .float4 | s, .float8 =>
    orError (parseErr (quoting "invalid float literal '" s "'"))
      ((parseF64 (utf8 (trim s))).map .float)
  | s, .numeric _ _ =>
    if (parseF64 (utf8 (trim s))).isNone then
      .error (parseErr (quoting "invalid numeric literal '" s "'"))
    else .ok (.text (utf8 (trim s)))
  | s, .bool =>
    orError (parseErr (quoting "invalid boolean literal '" s "'")) ((parseBool s).map .bool)
  | s, .text | s, .varchar _ | s, .json | s, .jsonb => .ok (.text (utf8 s))
  | s, .bytea => mapErr parseErr (parseBytea s) >>= fun bytes => .ok (.blob bytes)
  | s, .uuid => mapErr parseErr (parseUuid s) >>= fun bytes => .ok (.blob bytes)
  | s, .date => mapErr parseErr (parseDateToDays b s) >>= fun days => .ok (.integer days)
  | s, .timestamp | s, .timestampTz =>
    mapErr parseErr (parseTimestampToMicros b s) >>= fun micros => .ok (.integer micros)
  | s, .array elem => do
    let elements ← mapErr parseErr (parseArrayElements s)
    let items ← collect (fun e =>
      if eqIgnoreAsciiCase e nullText then .ok .null else parseValue e elem) elements
    return .array items

/-- The characters of a text that is kept as its bytes. -/
def chars (s : Bytes) : Text := (s.toByteArray.utf8Decode?.map Array.toList).getD []

/-- The text of a value under a type. -/
def formatValue : Value → SqlType → Decoded Text Text
  | .null, _ => .ok nullText
  | .integer days, .date => formatDaysAsDate b days
  | .integer micros, .timestamp | .integer micros, .timestampTz => formatMicrosAsTimestamp b micros
  | .blob bytes, .uuid => .ok (formatUuid bytes)
  | .blob bytes, .bytea => .ok (formatBytea bytes)
  | .array items, .array elem => do
    let texts ← collect (fun item => formatValue item elem) items
    return '{' :: [','].intercalate texts ++ ['}']
  | v, _ => .ok (chars (valueDisplay v))

end Values

end Sql.Types

end GalaxDb
