import GalaxDb.Server.Locks

/-!
# Texts that never reach the parser

The server looks at the text of a simple query before it is parsed. A text that contains the
name of a catalog table is answered from fixed tables, and a text that starts like a
transaction command is taken for that command. `upper` is the upper case of a character, and
`parse` is the SQL parser.
-/

namespace GalaxDb.Server

open Bytes

abbrev Text := List Char

instance Text.lawfulBEq : LawfulBEq Text := inferInstance

/-- `char::is_whitespace`. -/
def isWhitespace (c : Char) : Bool :=
  let n := c.toNat
  (9 ≤ n && n ≤ 13) || n == 32 || n == 0x85 || n == 0xA0 || n == 0x1680 ||
    (0x2000 ≤ n && n ≤ 0x200A) || n == 0x2028 || n == 0x2029 || n == 0x202F || n == 0x205F || n ==
      0x3000

def trimEndBy (p : Char → Bool) (s : Text) : Text := (s.reverse.dropWhile p).reverse

def trimBy (p : Char → Bool) (s : Text) : Text := trimEndBy p (s.dropWhile p)

def splitWhitespace (s : Text) : List Text := (s.splitOnP isWhitespace).filter (· ≠ [])

def eqIgnoreAsciiCase (a b : Text) : Bool := a.map Char.toLower == b.map Char.toLower

def toUppercase (upper : Char → List Char) (s : Text) : Text := s.flatMap upper

def containsText (pattern : Text) : Text → Bool
  | [] => pattern == []
  | c :: rest => pattern.isPrefixOf (c :: rest) || containsText pattern rest

def utf8 (s : Text) : Bytes := s.flatMap String.utf8EncodeChar

/-- No byte but that of the quote itself is the byte of a quote. -/
theorem notMem_utf8EncodeChar {c d : Char} (other : c ≠ d) (narrow : d.toNat < 128) :
    d.toNat.toUInt8 ∉ String.utf8EncodeChar c := by
  have size : c.toNat = c.val.toNat := rfl
  have different : c.toNat ≠ d.toNat := fun same => other (Char.toNat_inj.mp same)
  unfold String.utf8EncodeChar
  simp only [Nat.toUInt8, ← size]
  split_ifs
  all_goals
    simp only [List.mem_cons, List.not_mem_nil, or_false, not_or, ← UInt8.toNat_inj,
      UInt8.toNat_ofNat']
    omega

theorem utf8_cons (c : Char) (s : Text) : utf8 (c :: s) = String.utf8EncodeChar c ++ utf8 s := rfl

theorem utf8_of_narrow {s : Text} (narrow : ∀ c ∈ s, c.toNat < 128) :
    utf8 s = s.map fun c => c.toNat.toUInt8 := by
  induction s with
  | nil => rfl
  | cons c s ih =>
    have one : String.utf8EncodeChar c = [c.toNat.toUInt8] := by
      have low := narrow c List.mem_cons_self
      have size : c.toNat = c.val.toNat := rfl
      unfold String.utf8EncodeChar
      rw [if_pos (by omega)]
      rfl
    rw [utf8_cons, one, ih fun d member => narrow d (List.mem_cons_of_mem c member)]
    rfl

section Catalog

inductive ColumnType where
  | int4
  | text
  deriving DecidableEq

structure ColumnDesc where
  name : Text
  type : ColumnType
  deriving DecidableEq

structure PgCatalogResult where
  columns : List ColumnDesc
  rows : List (List (Option Text))
  deriving DecidableEq

inductive BinaryOperator where
  | and
  | eq
  | notEq
  | other
  deriving DecidableEq

/-- A WHERE predicate as far as the catalog evaluates it. -/
inductive CatalogExpr where
  | identifier (name : Text)
  | compoundIdentifier (parts : List Text)
  | quotedString (s : Text)
  | number (n : Text)
  | binaryOp (left : CatalogExpr) (op : BinaryOperator) (right : CatalogExpr)
  | nested (inner : CatalogExpr)
  | other

inductive ItemExpr where
  | function (name : Text) (args : Option Nat)
  | identifier (name : Text)
  | compoundIdentifier (parts : List Text)
  | other

inductive SelectItem where
  | wildcard
  | unnamedExpr (e : ItemExpr)
  | exprWithAlias (e : ItemExpr)

structure Select where
  projection : List SelectItem
  selection : Option CatalogExpr

/-- What the parser makes of a statement: a query, with its body if that is one SELECT and
the relations that its FROM clauses refer to, or something else. -/
inductive SqlStatement where
  | query (body : Option Select) (from_ : List (List Text))
  | other

def columnDescs (columns : List (String × ColumnType)) : List ColumnDesc :=
  columns.map fun c => ⟨c.1.toList, c.2⟩

def catalogRows (rows : List (List String)) : List (List (Option Text)) :=
  rows.map fun row => row.map fun cell => some cell.toList

def handlePgClass : PgCatalogResult :=
  ⟨columnDescs [("oid", .int4), ("relname", .text), ("relnamespace", .int4), ("relkind", .text)],
    []⟩

def handlePgAttribute : PgCatalogResult :=
  ⟨columnDescs [("attrelid", .int4), ("attname", .text), ("atttypid", .int4), ("attnum", .int4),
    ("attnotnull", .text)], []⟩

def handlePgType : PgCatalogResult :=
  ⟨columnDescs [("oid", .int4), ("typname", .text), ("typlen", .int4), ("typtype", .text)],
    catalogRows [["16", "bool", "1", "b"], ["17", "bytea", "-1", "b"], ["20", "int8", "8", "b"],
      ["21", "int2", "2", "b"], ["23", "int4", "4", "b"], ["25", "text", "-1", "b"],
      ["114", "json", "-1", "b"], ["700", "float4", "4", "b"], ["701", "float8", "8", "b"],
      ["1043", "varchar", "-1", "b"], ["1082", "date", "4", "b"], ["1114", "timestamp", "8", "b"],
      ["1184", "timestamptz", "8", "b"], ["1700", "numeric", "-1", "b"],
        ["2950", "uuid", "16", "b"],
      ["3802", "jsonb", "-1", "b"]]⟩

def handlePgNamespace : PgCatalogResult :=
  ⟨columnDescs [("oid", .int4), ("nspname", .text)],
    catalogRows [["11", "pg_catalog"], ["2200", "public"]]⟩

def handlePgDatabase : PgCatalogResult :=
  ⟨columnDescs [("oid", .int4), ("datname", .text)], catalogRows [["1", "galaxdb"]]⟩

def columnIndex (columns : List ColumnDesc) (name : Text) : Option Nat :=
  columns.findIdx? fun c => eqIgnoreAsciiCase c.name name

def CatalogExpr.column : CatalogExpr → Option Text
  | .identifier name => some name
  | .compoundIdentifier parts => parts.getLast?
  | _ => none

def CatalogExpr.literal : CatalogExpr → Option Text
  | .quotedString s => some s
  | .number n => some n
  | _ => none

/-- Column and literal of a comparison, in either order. -/
def binopColAndLiteral (left right : CatalogExpr) : Option (Text × Text) :=
  match left.column, right.literal with
  | some c, some l => some (c, l)
  | _, _ =>
    match right.column, left.literal with
    | some c, some l => some (c, l)
    | _, _ => none

/-- The rows that pass, or nothing if the predicate is not of a supported shape. -/
def applyWhere (columns : List ColumnDesc) :
    CatalogExpr → List (List (Option Text)) → Option (List (List (Option Text)))
  | .binaryOp left .and right, rows =>
    (applyWhere columns left rows).bind (applyWhere columns right)
  | .binaryOp left .eq right, rows => compared left right rows true
  | .binaryOp left .notEq right, rows => compared left right rows false
  | .nested inner, rows => applyWhere columns inner rows
  | _, _ => none
where
  compared (left right : CatalogExpr) (rows : List (List (Option Text))) (wantEq : Bool) :
      Option (List (List (Option Text))) :=
    (binopColAndLiteral left right).bind fun both =>
      (columnIndex columns both.1).map fun i =>
        rows.filter fun row => decide (((row[i]?).join.getD []) = both.2) == wantEq

/-- COUNT of one argument is the number of rows. -/
def isCount : SelectItem → Bool
  | .unnamedExpr (.function name (some 1)) | .exprWithAlias (.function name (some 1)) =>
    eqIgnoreAsciiCase name "count".toList
  | _ => false

def SelectItem.column : SelectItem → Option Text
  | .unnamedExpr (.identifier name) | .exprWithAlias (.identifier name) => some name
  | .unnamedExpr (.compoundIdentifier parts) => parts.getLast?
  | _ => none

def applyProjection (projection : List SelectItem) (columns : List ColumnDesc)
    (rows : List (List (Option Text))) : Option PgCatalogResult :=
  if projection.length = 1 ∧ projection.all isCount then
    some ⟨columnDescs [("count", .int4)], [[some (toString rows.length).toList]]⟩
  else if projection.any fun item => item matches .wildcard then some ⟨columns, rows⟩
  else
    (projection.mapM fun item : SelectItem => item.column.bind (columnIndex columns)).map
      fun indices =>
      ⟨indices.filterMap fun i => columns[i]?,
        rows.map fun row => indices.map fun i => (row[i]?).join⟩

variable (upper : Char → List Char) (parse : Text → Option (List SqlStatement))

/-- The whole table, if the query is not one the catalog can evaluate. -/
def refineWithQuery (sql : Text) (full : PgCatalogResult) : PgCatalogResult :=
  match parse sql with
  | some (.query (some select) _ :: _) =>
    match select.selection with
    | none => (applyProjection select.projection full.columns full.rows).getD full
    | some pred =>
      match applyWhere full.columns pred full.rows with
      | none => full
      | some rows => (applyProjection select.projection full.columns rows).getD full
  | _ => full

/-- One of the words stands anywhere in the text. -/
def mentionsCatalog (sql : Text) : Bool :=
  ["PG_CATALOG", "PG_CLASS", "PG_ATTRIBUTE", "PG_TYPE", "PG_NAMESPACE", "PG_DATABASE"].any
    fun name => containsText name.toList (toUppercase upper sql)

def tryHandlePgCatalog (sql : Text) : Option PgCatalogResult :=
  let mentions := fun name : String => containsText name.toList (toUppercase upper sql)
  if ¬ mentionsCatalog upper sql then none
  else if mentions "PG_CLASS" then some (refineWithQuery parse sql handlePgClass)
  else if mentions "PG_ATTRIBUTE" then some (refineWithQuery parse sql handlePgAttribute)
  else if mentions "PG_TYPE" then some (refineWithQuery parse sql handlePgType)
  else if mentions "PG_NAMESPACE" then some (refineWithQuery parse sql handlePgNamespace)
  else if mentions "PG_DATABASE" then some (refineWithQuery parse sql handlePgDatabase)
  else some ⟨[], []⟩

end Catalog

section Control

variable (upper : Char → List Char)

/-- The words of a text without the semicolons at its end. -/
def sqlWords (sql : Text) : List Text :=
  splitWhitespace (trimBy isWhitespace (trimEndBy (· == ';') (trimBy isWhitespace sql)))

def isKeyword (keyword : String) (word : Option Text) : Bool :=
  word.any fun w => eqIgnoreAsciiCase w keyword.toList

def unquote (word : Text) : Bytes := utf8 (trimBy (· == '"') word)

def parseTxnControl (sql : Text) : Option TxnControl :=
  match sqlWords sql with
  | [] => none
  | first :: rest =>
    let command := toUppercase upper first
    if command = "BEGIN".toList then some .begin
    else if command = "START".toList ∧ isKeyword "TRANSACTION" rest[0]? then some .begin
    else if command = "COMMIT".toList ∨ command = "END".toList then some .commit
    else if command = "ROLLBACK".toList ∨ command = "ABORT".toList then
      if isKeyword "TO" rest[0]? then
        (if isKeyword "SAVEPOINT" rest[1]? then rest[2]? else rest[1]?).map fun n =>
          .rollbackTo (unquote n)
      else some .rollback
    else if command = "SAVEPOINT".toList then rest[0]?.map fun n => .savepoint (unquote n)
    else if command = "RELEASE".toList then
      (if isKeyword "SAVEPOINT" rest[0]? then rest[1]? else rest[0]?).map fun n =>
        .release (unquote n)
    else none

end Control

/-- The word is the keyword, in any case. -/
def Keyword (keyword : String) (word : Text) : Prop := eqIgnoreAsciiCase word keyword.toList = true

instance (keyword : String) (word : Text) : Decidable (Keyword keyword word) :=
  inferInstanceAs (Decidable (_ = true))

/-- The words are the keywords. -/
def Spells (keywords : List String) (words : List Text) :
    Prop := List.Forall₂ Keyword keywords words

def serializableMode : List String := ["ISOLATION", "LEVEL", "SERIALIZABLE"]

def transactionModes : List (List String) :=
  [serializableMode, ["ISOLATION", "LEVEL", "REPEATABLE", "READ"],
    ["ISOLATION", "LEVEL", "READ", "COMMITTED"], ["ISOLATION", "LEVEL", "READ", "UNCOMMITTED"],
    ["READ", "WRITE"], ["READ", "ONLY"], ["DEFERRABLE"], ["NOT", "DEFERRABLE"]]

/-- The words, and the commas in them as words of their own. -/
def commaTokens (words : List Text) : List Text :=
  words.flatMap fun w => ((w.splitOn ',').intersperse [',']).filter (· ≠ [])

/-- Transaction modes one after the other, with commas in between or not. -/
inductive ModeList : List (List String) → List Text → Prop
  | last {mode : List String} {words : List Text} (known : mode ∈ transactionModes)
      (spelled : Spells mode words) : ModeList [mode] words
  | next {mode : List String} {modes : List (List String)} {words comma rest : List Text}
      (known : mode ∈ transactionModes) (spelled : Spells mode words)
      (separated : comma = [] ∨ comma = [[',']]) (more : ModeList modes rest) :
      ModeList (mode :: modes) (words ++ (comma ++ rest))

/-- The words are these transaction modes. -/
def SpellsModes (modes : List (List String)) (words : List Text) : Prop :=
  (modes = [] ∧ words = []) ∨ ModeList modes (commaTokens words)

/-- An optional TRANSACTION or WORK. -/
inductive Noise : List Text → Prop
  | none : Noise []
  | word {w : Text} (keyword : Keyword "TRANSACTION" w ∨ Keyword "WORK" w) : Noise [w]

inductive SavepointWord : List Text → Prop
  | none : SavepointWord []
  | word {w : Text} (keyword : Keyword "SAVEPOINT" w) : SavepointWord [w]

def isIdentStart (c : Char) : Bool := c.isAlpha || c == '_' || 128 ≤ c.toNat

def isIdentPart (c : Char) : Bool := isIdentStart c || c.isDigit || c == '$'

/-- A name, or a name in double quotes, which may have other characters in it. -/
inductive Identifier : Text → Text → Prop
  | plain {c : Char} {name : Text} (first : isIdentStart c = true)
    (rest : name.all isIdentPart = true) :
      Identifier (c :: name) (c :: name)
  | quoted {name : Text} (nonempty : name ≠ []) (closed : '"' ∉ name) :
      Identifier ('"' :: (name ++ ['"'])) name

/-- One transaction command, from its first to its last word, with nothing after it. -/
inductive ControlStatement : List Text → TxnControl → Prop
  | begin {w : Text} {noise rest : List Text} {modes : List (List String)}
    (command : Keyword "BEGIN" w)
      (optional : Noise noise) (spelled : SpellsModes modes rest) :
      ControlStatement (w :: (noise ++ rest)) .begin
  | start {w w' : Text} {rest : List Text} {modes : List (List String)}
    (command : Keyword "START" w)
      (transaction : Keyword "TRANSACTION" w') (spelled : SpellsModes modes rest) :
      ControlStatement (w :: w' :: rest) .begin
  | commit {w : Text} {noise : List Text} (command : Keyword "COMMIT" w ∨ Keyword "END" w)
      (optional : Noise noise) : ControlStatement (w :: noise) .commit
  | rollback {w : Text} {noise : List Text} (command : Keyword "ROLLBACK" w ∨ Keyword "ABORT" w)
      (optional : Noise noise) : ControlStatement (w :: noise) .rollback
  | rollbackTo {w to_ n name : Text} {noise sp : List Text}
      (command : Keyword "ROLLBACK" w ∨ Keyword "ABORT" w) (optional : Noise noise)
      (preposition : Keyword "TO" to_) (savepoint : SavepointWord sp) (named : Identifier n name) :
      ControlStatement (w :: (noise ++ to_ :: (sp ++ [n]))) (.rollbackTo (utf8 name))
  | savepoint {w n name : Text} (command : Keyword "SAVEPOINT" w) (named : Identifier n name) :
      ControlStatement [w, n] (.savepoint (utf8 name))
  | release {w n name : Text} {sp : List Text} (command : Keyword "RELEASE" w)
      (savepoint : SavepointWord sp) (named : Identifier n name) :
      ControlStatement (w :: (sp ++ [n])) (.release (utf8 name))

/-- A BEGIN or START TRANSACTION that asks for serializable isolation. -/
def AsksSerializable (words : List Text) : Prop :=
  ∃ (w : Text) (noise rest : List Text) (modes : List (List String)),
    words = w :: (noise ++ rest) ∧ serializableMode ∈ modes ∧ SpellsModes modes rest ∧
      (Keyword "BEGIN" w ∧ Noise noise ∨
        Keyword "START" w ∧ ∃ w', Keyword "TRANSACTION" w' ∧ noise = [w'])

/-- The relation is one of the catalog. -/
def CatalogRelation (path : List Text) : Prop :=
  (2 ≤ path.length ∧ isKeyword "pg_catalog" path.head? = true) ∨
    ∃ name ∈ ["pg_class", "pg_attribute", "pg_type", "pg_namespace", "pg_database"],
      isKeyword name path.getLast? = true

/-- One query, whose FROM refers to a relation of the catalog. -/
def CatalogQuery (parse : Text → Option (List SqlStatement)) (sql : Text) : Prop :=
  ∃ body relations, parse sql = some [.query body relations] ∧
    ∃ path ∈ relations, CatalogRelation path

section Swallowed

variable {σ : Type} (upper : Char → List Char) (parse : Text → Option (List SqlStatement))
  (L : Surroundings σ) (cfg : Sql.Settings)

/-- The transaction that the command opens, if any, is serializable. -/
def OpensSerializable (ctrl : TxnControl) : Prop :=
  ∀ (d : Shared) (c : Connection σ Timestamp) (id : Timestamp) (t : OpenTxn), c.currentTxn = none →
    (handleTxnControl (database L cfg) d c ctrl).connection.currentTxn = some id →
      (handleTxnControl (database L cfg) d c ctrl).db.handles[id]? = some t →
        t.handle.serializable = true

/-- No text is taken for something else than it says. -/
structure NotSwallowed (sql : Text) : Prop where
  catalog : tryHandlePgCatalog upper parse sql ≠ none → CatalogQuery parse sql
  control : ∀ ctrl, parseTxnControl upper sql = some ctrl → ControlStatement (sqlWords sql) ctrl
  isolation : AsksSerializable (sqlWords sql) →
    ∃ ctrl, parseTxnControl upper sql = some ctrl ∧ OpensSerializable L cfg ctrl

/-- The text starts with a command word, and the words that the server reads of that command
are there. -/
def startsControl (sql : Text) : Bool :=
  match sqlWords sql with
  | [] => false
  | first :: rest =>
    let isCommand := fun name : String => toUppercase upper first == name.toList
    isCommand "BEGIN" || (isCommand "START" && isKeyword "TRANSACTION" rest[0]?) ||
      isCommand "COMMIT" || isCommand "END" ||
      ((isCommand "ROLLBACK" || isCommand "ABORT") && (!isKeyword "TO" rest[0]? ||
        (if isKeyword "SAVEPOINT" rest[1]? then 3 ≤ rest.length else 2 ≤ rest.length))) ||
      (isCommand "SAVEPOINT" && 1 ≤ rest.length) ||
      (isCommand "RELEASE" && (if isKeyword "SAVEPOINT" rest[0]? then 2 ≤ rest.length
        else 1 ≤ rest.length))

/-- ROLLBACK WORK TO and the like. -/
def RollsBackWorkTo (words : List Text) : Prop :=
  ∃ w v to_ rest, words = w :: v :: to_ :: rest ∧ (Keyword "ROLLBACK" w ∨ Keyword "ABORT" w) ∧
    (Keyword "TRANSACTION" v ∨ Keyword "WORK" v)

/-- What the texts have to keep to. -/
structure PlainText (sql : Text) : Prop where
  catalog : mentionsCatalog upper sql = true → CatalogQuery parse sql
  control : startsControl upper sql = true →
    (∃ ctrl, ControlStatement (sqlWords sql) ctrl) ∧ ¬ RollsBackWorkTo (sqlWords sql)
  isolation : ¬ AsksSerializable (sqlWords sql)

end Swallowed

section Words

variable {upper : Char → List Char} {parse : Text → Option (List SqlStatement)} {sql : Text}

theorem tryHandlePgCatalog_eq_none_iff :
    tryHandlePgCatalog upper parse sql = none ↔ mentionsCatalog upper sql = false := by
  unfold tryHandlePgCatalog
  cases mentionsCatalog upper sql with
  | false => simp
  | true =>
    simp only [not_true_eq_false, if_false]
    split_ifs <;> simp

theorem isSome_named (rest : List Text) (i : Nat) (f : Text → TxnControl) :
    (rest[i]?.map f).isSome = decide (i + 1 ≤ rest.length) := by
  rw [Option.isSome_map, Bool.eq_iff_iff, isSome_getElem?, decide_eq_true_iff]
  exact Nat.succ_le_iff.symm

theorem startsControl_eq_isSome : startsControl upper sql = (parseTxnControl upper sql).isSome := by
  unfold startsControl parseTxnControl
  cases sqlWords sql with
  | nil => rfl
  | cons first rest =>
    simp only [beq_eq_decide]
    generalize toUppercase upper first = command
    have saves : command = "SAVEPOINT".toList → command ≠ "RELEASE".toList := by
      rintro rfl
      decide
    have aborts : command = "ROLLBACK".toList ∨ command = "ABORT".toList →
        command ≠ "SAVEPOINT".toList ∧ command ≠ "RELEASE".toList := by
      rintro (rfl | rfl) <;> decide
    generalize "BEGIN".toList = begin_, "START".toList = start, "COMMIT".toList = commit,
      "END".toList = end_, "ROLLBACK".toList = rollback, "ABORT".toList = abort,
      "SAVEPOINT".toList = save, "RELEASE".toList = release at saves aborts ⊢
    grind [isSome_named]

theorem toNat_toLower (c : Char) :
    c.toLower.toNat = if 65 ≤ c.toNat ∧ c.toNat ≤ 90 then c.toNat + 32 else c.toNat := by
  delta Char.toLower
  split_ifs with h h' h'
  · simp at h ⊢
    omega
  · exact absurd h h'
  · exact absurd h' h
  · rfl

theorem toNat_toUpper (c : Char) :
    c.toUpper.toNat = if 97 ≤ c.toNat ∧ c.toNat ≤ 122 then c.toNat - 32 else c.toNat := by
  delta Char.toUpper
  split_ifs with h h' h'
  · simp at h ⊢
    omega
  · exact absurd h h'
  · exact absurd h' h
  · rfl

variable {p : Char → Bool} {ctrl : TxnControl} {keyword : String} {c : Char} {n name s word : Text}

theorem toUpper_of_toLower_eq {k : Char} (capital : k.isUpper = true) (same :
    c.toLower = k.toLower) :
    c.val < 128 ∧ c.toUpper = k := by
  have numbers := congrArg Char.toNat same
  delta Char.isUpper at capital
  simp only [decide_eq_true_eq, UInt32.le_iff_toNat_le, ge_iff_le,
    Char.toNat_val, Char.reduceVal, UInt32.reduceToNat] at capital
  rw [toNat_toLower, toNat_toLower, if_pos capital] at numbers
  have range : (65 ≤ c.toNat ∧ c.toNat ≤ 90 ∧ c.toNat = k.toNat) ∨
      (97 ≤ c.toNat ∧ c.toNat ≤ 122 ∧ c.toNat = k.toNat + 32) := by
    split_ifs at numbers <;> omega
  refine ⟨?_, Char.toNat_inj.mp ?_⟩
  · change c.toNat < 128
    omega
  · rw [toNat_toUpper]
    split_ifs <;> omega

/-- The upper case of a keyword in any case is the keyword. -/
theorem toUppercase_of_toLower (ascii_ : ∀ c : Char, c.val < 128 → upper c = [c.toUpper]) :
    ∀ {keyword word : Text}, keyword.all Char.isUpper = true →
      word.map Char.toLower = keyword.map Char.toLower → toUppercase upper word = keyword
  | [], [], _, _ => rfl
  | [], _ :: _, _, same => by cases same
  | _ :: _, [], _, same => by cases same
  | k :: keyword, c :: word, capitals, same => by
    simp only [List.all_cons, Bool.and_eq_true] at capitals
    simp only [List.map_cons, List.cons.injEq] at same
    obtain ⟨small, capital⟩ := toUpper_of_toLower_eq capitals.1 same.1
    have rest := toUppercase_of_toLower ascii_ capitals.2 same.2
    simp only [toUppercase] at rest ⊢
    rw [List.flatMap_cons, ascii_ c small, rest, capital]
    rfl

theorem Keyword.toUppercase_eq (ascii_ : ∀ c : Char, c.val < 128 → upper c = [c.toUpper])
    (h : Keyword keyword word) (capitals : keyword.toList.all Char.isUpper = true) :
    toUppercase upper word = keyword.toList :=
  toUppercase_of_toLower ascii_ capitals (eq_of_beq h)

/-- A word is only one keyword. -/
theorem Keyword.not_isKeyword {other : String} (h : Keyword keyword word)
    (different : eqIgnoreAsciiCase keyword.toList other.toList = false) :
    isKeyword other (some word) = false := by
  have same : word.map Char.toLower = keyword.toList.map Char.toLower := eq_of_beq h
  simp only [isKeyword, Option.any_some, eqIgnoreAsciiCase, same]
  exact different

theorem trimEndBy_of_none (outside : ∀ c ∈ s, p c = false) : trimEndBy p s = s := by
  have kept : s.reverse.dropWhile p = s.reverse :=
    List.dropWhile_eq_self_iff.mpr fun h => by
      simpa using outside _ (List.mem_reverse.mp (List.getElem_mem h))
  rw [trimEndBy, kept, List.reverse_reverse]

theorem trimBy_of_none (outside : ∀ c ∈ s, p c = false) : trimBy p s = s := by
  have kept : s.dropWhile p = s :=
    List.dropWhile_eq_self_iff.mpr fun h => by simpa using outside _ (List.getElem_mem h)
  rw [trimBy, kept, trimEndBy_of_none outside]

theorem ne_quote_of_isIdentPart (h : isIdentPart c = true) : (c == '"') = false := by
  cases e : c == '"' with
  | false => rfl
  | true =>
    rw [eq_of_beq e] at h
    cases h

theorem Identifier.unquote_eq (h : Identifier n name) : unquote n = utf8 name := by
  cases h with
  | @plain c name first rest =>
    have outside : ∀ d ∈ c :: name, (d == '"') = false := by
      intro d mem
      apply ne_quote_of_isIdentPart
      cases List.mem_cons.mp mem with
      | inl h => simp [h, isIdentPart, first]
      | inr h => exact List.all_eq_true.mp rest d h
    rw [unquote, trimBy_of_none outside]
  | quoted nonempty closed =>
    have outside : ∀ d ∈ name, (d == '"') = false := fun d mem => by
      cases e : d == '"' with
      | false => rfl
      | true => exact absurd (eq_of_beq e ▸ mem) closed
    have front : ('"' :: (name ++ ['"'])).dropWhile (· == '"') = name ++ ['"'] := by
      cases name with
      | nil => exact absurd rfl nonempty
      | cons c name => simp [List.dropWhile, outside c (List.mem_cons_self ..)]
    have back : (name ++ ['"']).reverse.dropWhile (· == '"') = name.reverse := by
      rw [List.reverse_append, List.reverse_singleton, List.singleton_append,
        List.dropWhile_cons_of_pos rfl]
      exact List.dropWhile_eq_self_iff.mpr fun h => by
        simpa using outside _ (List.mem_reverse.mp (List.getElem_mem h))
    rw [unquote, trimBy, trimEndBy, front, back, List.reverse_reverse]

/-- A word that may stand after a command is not TO. -/
theorem Noise.not_to {noise : List Text} (h : Noise noise) : isKeyword "TO" noise[0]? = false := by
  cases h with
  | none => rfl
  | word keyword =>
    rcases keyword with keyword | keyword <;> exact keyword.not_isKeyword (by decide)

/-- The last word is read as the name, unless it is the keyword that may stand before it. -/
theorem SavepointWord.named {sp : List Text} (h : SavepointWord sp) (named : Identifier n name)
    (f : Bytes → TxnControl)
    (read : (if isKeyword "SAVEPOINT" (sp ++ [n])[0]? then (sp ++ [n])[1]? else (sp ++ [n])[0]?).map
      (fun n => f (unquote n)) = some ctrl) : ctrl = f (utf8 name) := by
  cases h with
  | none =>
    cases e : isKeyword "SAVEPOINT" (some n) with
    | true => simp [e] at read
    | false =>
      have name_ : some (f (unquote n)) = some ctrl := by simpa [e] using read
      rw [← Option.some.inj name_, named.unquote_eq]
  | @word w keyword =>
    have savepoint : isKeyword "SAVEPOINT" (some w) = true := keyword
    have name_ : some (f (unquote n)) = some ctrl := by simpa [savepoint] using read
    rw [← Option.some.inj name_, named.unquote_eq]

/-- The commands that end a block are of one or two words. -/
theorem ControlStatement.length_le {words : List Text} (h : ControlStatement words ctrl)
    (ends : ctrl = .commit ∨ ctrl = .rollback) : words.length ≤ 2 := by
  cases h with
  | commit command optional | rollback command optional => cases optional <;> simp
  | _ => simp at ends

end Words

section Commands

variable {upper : Char → List Char} (ascii_ : ∀ c : Char, c.val < 128 → upper c = [c.toUpper])
  {sql first : Text} {rest : List Text}
include ascii_

theorem parseTxnControl_begin (words : sqlWords sql = first :: rest)
    (command : Keyword "BEGIN" first ∨
      Keyword "START" first ∧ isKeyword "TRANSACTION" rest[0]? = true) :
    parseTxnControl upper sql = some .begin := by
  unfold parseTxnControl
  rw [words]
  rcases command with command | ⟨command, transaction⟩
  · simp only [command.toUppercase_eq ascii_ (by decide), if_true]
  · have named := command.toUppercase_eq ascii_ (by decide)
    simp [named, transaction]

theorem parseTxnControl_commit (words : sqlWords sql = first :: rest)
    (command : Keyword "COMMIT" first ∨ Keyword "END" first) :
    parseTxnControl upper sql = some .commit := by
  unfold parseTxnControl
  rw [words]
  rcases command with command | command <;>
    · have named := command.toUppercase_eq ascii_ (by decide)
      simp [named]

theorem parseTxnControl_rollback (words : sqlWords sql = first :: rest)
    (command : Keyword "ROLLBACK" first ∨ Keyword "ABORT" first) :
    parseTxnControl upper sql = if isKeyword "TO" rest[0]? then
        (if isKeyword "SAVEPOINT" rest[1]? then rest[2]? else rest[1]?).map fun n =>
          .rollbackTo (unquote n)
      else some .rollback := by
  unfold parseTxnControl
  rw [words]
  rcases command with command | command <;>
    · have named := command.toUppercase_eq ascii_ (by decide)
      simp [named]

theorem parseTxnControl_savepoint (words : sqlWords sql = first :: rest)
    (command : Keyword "SAVEPOINT" first) :
    parseTxnControl upper sql = rest[0]?.map fun n => .savepoint (unquote n) := by
  have named := command.toUppercase_eq ascii_ (by decide)
  unfold parseTxnControl
  rw [words]
  simp [named]

theorem parseTxnControl_release (words : sqlWords sql = first :: rest)
    (command : Keyword "RELEASE" first) :
    parseTxnControl upper sql =
      (if isKeyword "SAVEPOINT" rest[0]? then rest[1]? else rest[0]?).map fun n =>
        .release (unquote n) := by
  have named := command.toUppercase_eq ascii_ (by decide)
  unfold parseTxnControl
  rw [words]
  simp [named]

/-- The server reads no command as another one. -/
theorem ControlStatement.parse_unique {ctrl ctrl' : TxnControl}
    (h : ControlStatement (sqlWords sql) ctrl) (plain : ¬ RollsBackWorkTo (sqlWords sql))
    (read : parseTxnControl upper sql = some ctrl') : ctrl' = ctrl := by
  generalize e : sqlWords sql = words at h plain
  cases h with
  | begin command optional spelled =>
    rw [parseTxnControl_begin ascii_ e (Or.inl command)] at read
    exact (Option.some.inj read).symm
  | start command transaction spelled =>
    rw [parseTxnControl_begin ascii_ e (Or.inr ⟨command, transaction⟩)] at read
    exact (Option.some.inj read).symm
  | commit command optional =>
    rw [parseTxnControl_commit ascii_ e command] at read
    exact (Option.some.inj read).symm
  | rollback command optional =>
    rw [parseTxnControl_rollback ascii_ e command, optional.not_to] at read
    exact (Option.some.inj read).symm
  | rollbackTo command optional preposition savepoint named =>
    cases optional with
    | word keyword => exact absurd ⟨_, _, _, _, rfl, command, keyword⟩ plain
    | none =>
      have to_ : isKeyword "TO" (some _) = true := preposition
      rw [parseTxnControl_rollback ascii_ e command] at read
      simp only [List.nil_append, List.getElem?_cons_zero, List.getElem?_cons_succ, to_, if_true]
        at read
      exact savepoint.named named .rollbackTo read
  | savepoint command named =>
    rw [parseTxnControl_savepoint ascii_ e command] at read
    simp only [List.getElem?_cons_zero, Option.map_some, named.unquote_eq] at read
    exact (Option.some.inj read).symm
  | release command savepoint named =>
    rw [parseTxnControl_release ascii_ e command] at read
    exact savepoint.named named .release read

/-- The server reads ROLLBACK WORK TO as ROLLBACK. -/
theorem RollsBackWorkTo.not_read (h : RollsBackWorkTo (sqlWords sql)) :
    parseTxnControl upper sql = some .rollback ∧ ¬ ControlStatement (sqlWords sql) .rollback := by
  obtain ⟨w, v, to_, rest, words, command, noise⟩ := h
  have notTo : isKeyword "TO" (some v) = false := (Noise.word noise).not_to
  refine ⟨?_, ?_⟩
  · rw [parseTxnControl_rollback ascii_ words command]
    simp [notTo]
  · intro h
    have short := h.length_le (Or.inr rfl)
    rw [words] at short
    simp at short

theorem AsksSerializable.parse_begin (h : AsksSerializable (sqlWords sql)) :
    parseTxnControl upper sql = some .begin := by
  obtain ⟨w, noise, rest, modes, words, _, _, command⟩ := h
  rcases command with ⟨command, _⟩ | ⟨command, w', transaction, rfl⟩
  · exact parseTxnControl_begin ascii_ words (Or.inl command)
  · exact parseTxnControl_begin ascii_ words (Or.inr ⟨command, transaction⟩)

end Commands

section Texts

variable {σ : Type} {upper : Char → List Char} {parse : Text → Option (List SqlStatement)}
  {L : Surroundings σ} {cfg : Sql.Settings} {sql : Text}

theorem not_opensSerializable_begin : ¬ OpensSerializable L cfg .begin := by
  intro opens
  let d : Shared := ⟨Engine.fresh .plain .default, .new, ∅⟩
  let begun := Sql.beginTransaction d.engine d.manager false
  have stored : (handleTxnControl (database L cfg) d .new .begin).db.handles[begun.2.txnId]? =
      some ⟨begun.2, []⟩ := by
    simp [handleTxnControl, database, Shared.beginTransaction, Shared.withTxn, Connection.new,
      Outcome.answer, begun]
  have serializable := opens d .new begun.2.txnId ⟨begun.2, []⟩ rfl rfl stored
  cases serializable

/-- Nothing is swallowed exactly if a text with the name of a catalog table in it is a query of
the catalog, a text that starts with a command word is that command only, without WORK before
TO, and nobody asks for serializable isolation. -/
theorem not_swallowed_iff_plain (upper : Char → List Char)
    (ascii_ : ∀ c : Char, c.val < 128 → upper c = [c.toUpper])
    (parse : Text → Option (List SqlStatement)) (L : Surroundings σ) (cfg : Sql.Settings)
    (sql : Text) :
    NotSwallowed upper parse L cfg sql ↔ PlainText upper parse sql := by
  have mentioned : tryHandlePgCatalog upper parse sql ≠ none ↔
      mentionsCatalog upper sql = true := by
    rw [Ne, tryHandlePgCatalog_eq_none_iff, Bool.not_eq_false]
  constructor
  · intro h
    refine ⟨fun mentions => h.catalog (mentioned.mpr mentions), ?_, ?_⟩
    · intro starts
      rw [startsControl_eq_isSome] at starts
      obtain ⟨ctrl, read⟩ := Option.isSome_iff_exists.mp starts
      refine ⟨⟨ctrl, h.control ctrl read⟩, ?_⟩
      intro work
      obtain ⟨rollback, other⟩ := work.not_read ascii_
      exact other (h.control _ rollback)
    · intro asks
      obtain ⟨ctrl, read, opens⟩ := h.isolation asks
      rw [asks.parse_begin ascii_] at read
      cases read
      exact not_opensSerializable_begin opens
  · intro h
    refine ⟨fun some_ => h.catalog (mentioned.mp some_), ?_, fun asks => absurd asks h.isolation⟩
    intro ctrl read
    have starts : startsControl upper sql = true := by
      rw [startsControl_eq_isSome, read]
      rfl
    obtain ⟨⟨ctrl', statement⟩, plain⟩ := h.control starts
    rw [statement.parse_unique ascii_ plain read]
    exact statement

end Texts

def listTables : Text := "SELECT relname FROM pg_catalog.pg_class".toList

/-- The parser, as far as the samples need it. -/
def parseSample (sql : Text) : Option (List SqlStatement) :=
  if sql = listTables then
    some [.query (some ⟨[.unnamedExpr (.identifier "relname".toList)], none⟩)
      [["pg_catalog".toList, "pg_class".toList]]]
  else some [.other]

def asciiUpper (c : Char) : List Char := [c.toUpper]

/-- A text that starts with neither BEGIN nor START asks for nothing. -/
theorem not_asksSerializable {words : List Text}
    (other : words.head?.any (fun w => eqIgnoreAsciiCase w "BEGIN".toList ||
      eqIgnoreAsciiCase w "START".toList) = false) : ¬ AsksSerializable words := by
  rintro ⟨w, noise, rest, modes, rfl, _, _, command⟩
  simp only [List.head?_cons, Option.any_some, Bool.or_eq_false_iff] at other
  rcases command with ⟨command, _⟩ | ⟨command, _⟩
  · exact Bool.false_ne_true (other.1.symm.trans command)
  · exact Bool.false_ne_true (other.2.symm.trans command)

theorem not_swallowed_samples :
    NotSwallowed asciiUpper parseSample insertingOne .numbers listTables ∧
      NotSwallowed asciiUpper parseSample insertingOne .numbers "commit work;".toList := by
  constructor
  · apply (not_swallowed_iff_plain asciiUpper (fun _ _ => rfl) parseSample insertingOne .numbers
      _).mpr
    refine ⟨fun _ => ⟨_, _, rfl, _, List.mem_singleton.mpr rfl, Or.inl (by decide +kernel)⟩, ?_,
      not_asksSerializable (by decide +kernel)⟩
    intro starts
    exact absurd starts (by decide +kernel)
  · apply (not_swallowed_iff_plain asciiUpper (fun _ _ => rfl) parseSample insertingOne .numbers
      _).mpr
    refine ⟨fun mentions => absurd mentions (by decide +kernel), fun _ => ⟨?_, ?_⟩,
      not_asksSerializable (by decide +kernel)⟩
    · exact ⟨_, .commit (Or.inl (by decide +kernel)) (.word (Or.inr (by decide +kernel)))⟩
    · rintro ⟨w, v, to_, rest, longer, _⟩
      cases longer

/-- An INSERT with the name of a catalog table in a literal is answered from the catalog, what
stands after a COMMIT is lost, and a BEGIN that asks for serializable isolation does not get it. -/
theorem texts_are_swallowed : ¬ NotSwallowed asciiUpper parseSample insertingOne .numbers
        "INSERT INTO logs VALUES (1, 'pg_class')".toList ∧
      ¬ NotSwallowed asciiUpper parseSample insertingOne .numbers "COMMIT ; DELETE FROM t".toList ∧
      ¬ NotSwallowed asciiUpper parseSample insertingOne .numbers
        "BEGIN ISOLATION LEVEL SERIALIZABLE".toList := by
  refine ⟨?_, ?_, ?_⟩
  · intro h
    have handled : tryHandlePgCatalog asciiUpper parseSample
        "INSERT INTO logs VALUES (1, 'pg_class')".toList ≠ none := by
      decide +kernel
    obtain ⟨body, relations, parsed, _⟩ := h.catalog handled
    cases parsed
  · intro h
    have short := (h.control .commit (by decide +kernel)).length_le (Or.inl rfl)
    revert short
    decide +kernel
  · intro h
    have words : sqlWords "BEGIN ISOLATION LEVEL SERIALIZABLE".toList =
        ["BEGIN".toList] ++ ["ISOLATION".toList, "LEVEL".toList, "SERIALIZABLE".toList] := by
          decide +kernel
    have asks : AsksSerializable (sqlWords "BEGIN ISOLATION LEVEL SERIALIZABLE".toList) := by
      refine ⟨"BEGIN".toList, [], _, [serializableMode], words, List.mem_singleton.mpr rfl,
        Or.inr (.last (by decide +kernel) ?_), Or.inl ⟨by decide +kernel, .none⟩⟩
      exact .cons (by decide +kernel) (.cons (by decide +kernel) (.cons (by decide +kernel) .nil))
    obtain ⟨ctrl, read, opens⟩ := h.isolation asks
    cases read
    exact not_opensSerializable_begin opens

end GalaxDb.Server
