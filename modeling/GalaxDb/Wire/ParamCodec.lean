import GalaxDb.Lib.Replacing
import GalaxDb.Server.Messages
import GalaxDb.Sql.LiteralRoundTrips
import GalaxDb.Sql.RowRoundTrip

/-!
# Parameters as literals in the query text

A bound parameter is rendered as a literal, and the literals are put in the place of the
placeholders by one replacement of text for each parameter, the highest index first.
-/

namespace GalaxDb.Wire.ParamCodec

open Bytes Replacing
open Server (Text bigEndian signed utf8)
open Server.Oid
open Sql (floatDisplay intDisplay numberByte parseF64 parseI64)
open Sql.Types (parseInt trim)

/-- `str::from_utf8`. -/
def fromUtf8 (bytes : Bytes) : Option Text := bytes.toByteArray.utf8Decode?.map Array.toList

/-- The characters of ASCII bytes. -/
def asciiText (s : Bytes) : Text := s.map fun b => Char.ofNat b.toNat

def message (before : String) (s : Text) : Text := before.toList ++ s ++ ['\'']

def parseBool (s : Text) : Except Text Bool :=
  let lower := (trim s).map Char.toLower
  if lower ∈ ["t", "true", "1", "yes", "on"].map String.toList then .ok true
  else if lower ∈ ["f", "false", "0", "no", "off"].map String.toList then .ok false
  else .error (message "invalid boolean parameter '" lower)

/-- Embedded quotes are doubled. -/
def quoteString (s : Text) : Text :=
  '\'' :: s.flatMap (fun ch => if ch = '\'' then ['\'', ch] else [ch]) ++ ['\'']

def boolLiteral (v : Bool) : Text := if v then "TRUE".toList else "FALSE".toList

def formatFloat (v : Float) : Text :=
  if v.isNaN then "'NaN'".toList
  else if v.isInf then if 0 < v then "'Infinity'".toList else "'-Infinity'".toList
  else
    let s := asciiText (floatDisplay v)
    if '.' ∈ s ∨ 'e' ∈ s ∨ 'E' ∈ s then s else s ++ ".0".toList

def renderText (bytes : Bytes) (typeOid : Int) : Except Text Text :=
  match fromUtf8 bytes with
  | none => .error "text parameter is not valid UTF-8".toList
  | some s =>
    if typeOid = bool then (parseBool s).map boolLiteral
    else if typeOid = int2 ∨ typeOid = int4 ∨ typeOid = int8 then
      if (parseInt (trim s)).isSome then .ok (trim s)
      else .error (message "invalid integer parameter '" s)
    else if typeOid = float4 ∨ typeOid = float8 then
      if (parseF64 (utf8 (trim s))).isSome then .ok (trim s)
      else .error (message "invalid float parameter '" s)
    else .ok (quoteString s)

/-- The literal of a big-endian number of `w` bytes. -/
def renderNumber (w : Nat) (bytes : Bytes) (error : String) (render : Nat → Text) :
    Except Text Text :=
  if bytes.length = w then .ok (render (ofLe bytes.reverse)) else .error error.toList

def renderBinary (bytes : Bytes) (typeOid : Int) : Except Text Text :=
  if typeOid = bool then
    match bytes with
    | [b] => .ok (boolLiteral (b ≠ 0))
    | _ => .error "binary bool must be exactly 1 byte".toList
  else if typeOid = int2 then
    renderNumber 2 bytes "binary int2 must be 2 bytes" fun n => asciiText (intDisplay (signed 2 n))
  else if typeOid = int4 then
    renderNumber 4 bytes "binary int4 must be 4 bytes" fun n => asciiText (intDisplay (signed 4 n))
  else if typeOid = int8 then
    renderNumber 8 bytes "binary int8 must be 8 bytes" fun n => asciiText (intDisplay (signed 8 n))
  else if typeOid = float4 then
    renderNumber 4 bytes "binary float4 must be 4 bytes" fun n =>
      formatFloat (Float32.ofBits n.toUInt32).toFloat
  else if typeOid = float8 then
    renderNumber 8 bytes "binary float8 must be 8 bytes" fun n =>
      formatFloat (Float.ofBits n.toUInt64)
  else
    match fromUtf8 bytes with
    | some s => .ok (quoteString s)
    | none => .error "binary text parameter is not valid UTF-8".toList

/-- NULL has no bytes. -/
def paramToSqlLiteral (value : Option Bytes) (format typeOid : Int) : Except Text Text :=
  match value with
  | none => .ok "NULL".toList
  | some bytes =>
    if format = 0 then renderText bytes typeOid
    else if format = 1 then renderBinary bytes typeOid
    else .error ("unsupported parameter format code ".toList ++ asciiText (intDisplay format))

def placeholder (i : Nat) : Text := '$' :: Nat.toDigits 10 i

def substituteParameters (query : Text) (literals : List Text) : Text :=
  (List.range' 1 literals.length).reverse.foldl
    (fun out i => replace (placeholder i) (literals.getD (i - 1) []) out) query

section Literals

/-- A literal is quoted, or has no dollar sign and some character. -/
def Closed (l : Text) : Prop :=
  (∃ content, l = '\'' :: content ++ ['\'']) ∨ (l ≠ [] ∧ '$' ∉ l)

theorem quoteString_closed (s : Text) : Closed (quoteString s) := .inl ⟨_, rfl⟩

theorem boolLiteral_closed (v : Bool) : Closed (boolLiteral v) := by
  cases v <;> exact .inr (by decide)

theorem dollar_alien : numberByte 36 = false := by decide

theorem notMem_asciiText {s : Bytes} (absent : 36 ∉ s) : '$' ∉ asciiText s := by
  intro mem
  obtain ⟨b, at_b, same⟩ := List.mem_map.mp mem
  have valid : b.toNat.isValidChar := .inl (Nat.lt_trans b.toNat_lt (by decide))
  have code : b.toNat = 36 := by
    have value := congrArg Char.toNat same
    rwa [Char.ofNat, dif_pos valid] at value
  obtain rfl : b = 36 := UInt8.toNat_inj.mp code
  exact absent at_b

theorem floatDisplay_ne_nil (f : Float) : floatDisplay f ≠ [] := by
  rw [floatDisplay]
  split
  · decide
  · extract_lets sign magnitude
    split
    · simp [ascii]
    · split
      · simp
      · split
        extract_lets digits
        split
        · simp [digits, Sql.natDigits_ne_nil]
        · simp

theorem closed_asciiText {s : Bytes} (absent : 36 ∉ s) (proper : s ≠ []) : Closed (asciiText s) :=
  .inr ⟨fun empty => proper (List.map_eq_nil_iff.mp empty), notMem_asciiText absent⟩

theorem intDisplay_closed (n : Int) : Closed (asciiText (intDisplay n)) := by
  refine closed_asciiText (Sql.notMem_intDisplay dollar_alien n) ?_
  rw [intDisplay]
  split <;> simp [Sql.natDigits_ne_nil]

theorem formatFloat_closed (v : Float) : Closed (formatFloat v) := by
  have shown := closed_asciiText (Sql.notMem_floatDisplay dollar_alien v) (floatDisplay_ne_nil v)
  simp only [formatFloat]
  split
  · exact .inl ⟨"NaN".toList, rfl⟩
  · split
    · split
      · exact .inl ⟨"Infinity".toList, rfl⟩
      · exact .inl ⟨"-Infinity".toList, rfl⟩
    · split
      · exact shown
      · refine .inr ⟨by simp, ?_⟩
        have absent := notMem_asciiText (Sql.notMem_floatDisplay dollar_alien v)
        exact List.not_mem_append absent (by decide)

/-- A text that is read as a number of either kind. -/
theorem number_closed {t : Text} (read : (parseInt t).isSome ∨ (parseF64 (utf8 t)).isSome) :
    Closed t := by
  refine .inr ⟨?_, fun mem => ?_⟩
  · rintro rfl
    revert read
    decide
  · have byte : 36 ∈ utf8 t := List.mem_flatMap.mpr ⟨'$', mem, by decide⟩
    rw [parseInt, Sql.parseI64_eq_none_of_alien dollar_alien byte,
      Sql.parseF64_eq_none_of_alien dollar_alien byte] at read
    simp at read

variable {l : Text} {bytes : Bytes} {typeOid : Int}

theorem renderNumber_closed {w : Nat} {error : String} {render : Nat → Text}
    (closed : ∀ n, Closed (render n)) (rendered : renderNumber w bytes error render = .ok l) :
    Closed l := by
  rw [renderNumber] at rendered
  split at rendered
  · cases rendered
    exact closed _
  · cases rendered

theorem renderText_closed (rendered : renderText bytes typeOid = .ok l) : Closed l := by
  rw [renderText] at rendered
  cases decoded : fromUtf8 bytes with
  | none =>
    rw [decoded] at rendered
    cases rendered
  | some s =>
    simp only [decoded] at rendered
    split at rendered
    · cases read : parseBool s with
      | error e =>
        rw [read] at rendered
        cases rendered
      | ok v =>
        rw [read] at rendered
        cases rendered
        exact boolLiteral_closed v
    · split at rendered
      · split at rendered
        · rename_i read
          cases rendered
          exact number_closed (.inl read)
        · cases rendered
      · split at rendered
        · split at rendered
          · rename_i read
            cases rendered
            exact number_closed (.inr read)
          · cases rendered
        · cases rendered
          exact quoteString_closed s

theorem renderBinary_closed (rendered : renderBinary bytes typeOid = .ok l) : Closed l := by
  unfold renderBinary at rendered
  split at rendered
  · split at rendered
    · cases rendered
      exact boolLiteral_closed _
    · cases rendered
  · split at rendered
    · exact renderNumber_closed (fun n => intDisplay_closed _) rendered
    · split at rendered
      · exact renderNumber_closed (fun n => intDisplay_closed _) rendered
      · split at rendered
        · exact renderNumber_closed (fun n => intDisplay_closed _) rendered
        · split at rendered
          · exact renderNumber_closed (fun n => formatFloat_closed _) rendered
          · split at rendered
            · exact renderNumber_closed (fun n => formatFloat_closed _) rendered
            · split at rendered
              · cases rendered
                exact quoteString_closed _
              · cases rendered

theorem paramToSqlLiteral_closed {value : Option Bytes} {format : Int}
    (rendered : paramToSqlLiteral value format typeOid = .ok l) : Closed l := by
  cases value with
  | none =>
    cases rendered
    exact .inr (by decide)
  | some bytes =>
    simp only [paramToSqlLiteral] at rendered
    split at rendered
    · exact renderText_closed rendered
    · split at rendered
      · exact renderBinary_closed rendered
      · cases rendered

end Literals

end GalaxDb.Wire.ParamCodec
