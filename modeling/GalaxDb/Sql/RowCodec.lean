import GalaxDb.Sql.Value

/-!
# Rows on disk

A row is stored as `col=value|col=value|...` under the key `table:primary key`. A bar in a
value is written as `\|`; nothing else is escaped.
-/

namespace GalaxDb.Sql

open Bytes

/-- The errors that the modelled statements return. -/
inductive SqlError where
  | tableNotFound (table : Bytes)
  | tableAlreadyExists (table : Bytes)
  | columnNotFound (column : Bytes)
  | embeddingSourceUpdate (column : Bytes)
  | uniqueViolation (table column value : Bytes)
  | appendOnlyTable (table operation : Bytes)
  | writeConflict
  | arithmetic (sqlstate message : Bytes)
  | featureNotSupported (what : Bytes)
  | formatTooOld (artifact : Bytes) (found minReadable : Nat)
  | formatTooNew (artifact : Bytes) (found current : Nat)
  | internal (message : Bytes)
  deriving DecidableEq

structure CatalogColumn where
  name : Bytes
  primaryKey : Bool
  isEmbeddingSource : Bool
  deriving DecidableEq

structure TableEntry where
  name : Bytes
  columns : List CatalogColumn
  appendOnly : Bool
  deriving DecidableEq

/-- A table with a key and a number. -/
def numbersTable : TableEntry :=
  ⟨ascii "t", [⟨ascii "id", true, false⟩, ⟨ascii "c", false, false⟩], false⟩

/-- Pairs of column and value, in the order in which the statement names them. -/
def alignValues (entry : TableEntry) (columns : List Bytes) (values : List Value) :
    Except SqlError Columns :=
  if columns = [] then
    if entry.columns.length < values.length then
      .error (.internal (ascii "value count (" ++ natDigits values.length ++
        ascii ") exceeds column count (" ++ natDigits entry.columns.length ++
        ascii ") for table '" ++ entry.name ++ ascii "'"))
    else .ok ((entry.columns.map CatalogColumn.name).zip values)
  else if columns.length ≠ values.length then
    .error (.internal (ascii "column count (" ++ natDigits columns.length ++
      ascii ") does not match value count (" ++ natDigits values.length ++ ascii ")"))
  else .ok (columns.zip values)

/-- The cell of a column, if the row has it. -/
def cell (cols : Columns) (column : Bytes) : Option Value :=
  (cols.find? fun c => c.1 = column).map Prod.snd

def tablePrefix (table : Bytes) : Bytes := table ++ [58]

/-- The value of the declared primary key, or else the first value of the row. -/
def primaryKeyValue (entry : TableEntry) (ordered : Columns) : Option Value :=
  match entry.columns.find? CatalogColumn.primaryKey with
  | some column => cell ordered column.name
  | none => ordered.head?.map Prod.snd

def buildPrimaryKey (table : Bytes) (entry : TableEntry) (ordered : Columns) :
    Except SqlError Bytes :=
  match primaryKeyValue entry ordered with
  | some value => .ok (tablePrefix table ++ valueDisplay value)
  | none => .error (.internal (ascii "cannot build primary key for table '" ++ table ++
      ascii "': row has no values"))

def escapeBars (s : Bytes) : Bytes := s.flatMap fun b => if b = 124 then [92, 124] else [b]

def encodeCell (c : Bytes × Value) : Bytes := c.1 ++ 61 :: escapeBars (valueDisplay c.2)

def encodeRow (ordered : Columns) : Bytes := joinWith 124 (ordered.map encodeCell)

/-- `current` is the part under construction. A backslash before a bar is dropped, any
other backslash is kept; an empty last part counts only after a bar. -/
def splitRespectingEscape : Bytes → Bytes → Bool → List Bytes
  | current, [], afterBar => if current = [] ∧ afterBar = false then [] else [current]
  | current, 92 :: 124 :: rest, afterBar => splitRespectingEscape (current ++ [124]) rest afterBar
  | current, 124 :: rest, _ => current :: splitRespectingEscape [] rest true
  | current, b :: rest, afterBar => splitRespectingEscape (current ++ [b]) rest afterBar

/-- The texts before and after the first `=`. -/
def splitOnce (s : Bytes) : Option (Bytes × Bytes) :=
  match s.dropWhile (· ≠ 61) with
  | [] => none
  | _ :: after => some (s.takeWhile (· ≠ 61), after)

def decodeRow (bytes : Bytes) : Columns :=
  (splitRespectingEscape [] bytes false).filterMap fun part =>
    (splitOnce part).map fun p => (p.1, valueFromStr p.2)

end GalaxDb.Sql
