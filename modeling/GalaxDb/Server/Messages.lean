import GalaxDb.Sql.Scalar

/-!
# Messages of the wire protocol

What a client sends and what the server answers, the values bound to the parameters of a
prepared statement, and the text of a COPY stream. Texts are bytes.
-/

namespace GalaxDb.Server

open Bytes Sql Scalar

/-- An error as the wire reports it. -/
structure ErrorInfo where
  sqlstate : Bytes
  message : Bytes
  deriving DecidableEq

inductive CopyDirection where
  | copyIn
  | copyOut
  deriving DecidableEq

structure CopyCommand where
  table : Bytes
  columns : List Bytes
  direction : CopyDirection
  deriving DecidableEq

/-- One frame from the client. The last three belong to COPY FROM STDIN; outside of it their
tags are not supported, and `malformed` is a frame that does not decode at all. -/
inductive FrontendMessage where
  | query (sql : Bytes)
  | parse (statement query : Bytes) (paramTypes : List Int)
  | bind (portal statement : Bytes) (paramFormats : List Int) (params : List (Option Bytes))
      (resultFormats : List Int)
  | describe (kind : UInt8) (name : Bytes)
  | execute (portal : Bytes) (maxRows : Int)
  | close (kind : UInt8) (name : Bytes)
  | sync
  | flush
  | terminate
  | copyData (data : Bytes)
  | copyDone
  | copyFail (message : Bytes)
  | malformed
  deriving DecidableEq

/-- `S` in a Describe or a Close names a statement, anything else a portal. -/
def kindStatement : UInt8 := 83

inductive TxnStatus where
  | idle
  | inTransaction
  | failed
  deriving DecidableEq

inductive QueryResult where
  | rows (rows : List (List (Bytes × Bytes)))
  | rowCount (n : Nat)
  | ok (message : Bytes)
  deriving DecidableEq

/-- What the server writes. The rows of a result are kept as the engine returned them, with
the type and format codes they are encoded by. -/
inductive Response where
  | parseComplete
  | bindComplete
  | closeComplete
  | noData
  | parameterDescription (oids : List Int)
  | rowDescription (columns : List Bytes) (oids : Option (List Nat))
  | queryResult (result : QueryResult) (described : Bool) (oids : Option (List Nat))
      (formats : Option (List Int))
  | commandComplete (tag : Bytes)
  | errorResponse (error : ErrorInfo)
  | copyInResponse (columns : Nat)
  | copyOutResponse (columns : Nat)
  | copyData (line : Bytes)
  | copyDone
  | readyForQuery (status : TxnStatus)
  deriving DecidableEq

def Response.isError : Response → Bool
  | .errorResponse _ => true
  | _ => false

inductive BoundValue where
  | int (i : Int)
  | float (f : Float)
  | bool (b : Bool)
  | text (s : Bytes)
  | null
  deriving DecidableEq

namespace Oid

def bool : Int := 16
def int8 : Int := 20
def int2 : Int := 21
def int4 : Int := 23
def text : Int := 25
def float4 : Int := 700
def float8 : Int := 701

end Oid

/-- `str::from_utf8` accepts the bytes. -/
def validUtf8 (s : Bytes) : Bool := (String.fromUTF8? ⟨s.toArray⟩).isSome

def parseBool (s : Bytes) : Except Bytes Bool :=
  let lower := (trim s).map toLower
  if lower ∈ [ascii "t", ascii "true", ascii "1", ascii "yes", ascii "on"] then .ok true
  else if lower ∈ [ascii "f", ascii "false", ascii "0", ascii "no", ascii "off"] then .ok false
  else .error (ascii "invalid boolean parameter '" ++ lower ++ ascii "'")

def textToBoundValue (s : Bytes) (typeOid : Int) : Except Bytes BoundValue :=
  if ¬ validUtf8 s then .error (ascii "text parameter is not valid UTF-8")
  else if typeOid = Oid.bool then (parseBool s).map .bool
  else if typeOid = Oid.int2 ∨ typeOid = Oid.int4 ∨ typeOid = Oid.int8 then
    match parseI64 (trim s) with
    | some i => .ok (.int i)
    | none => .error (ascii "invalid integer parameter '" ++ s ++ ascii "'")
  else if typeOid = Oid.float4 ∨ typeOid = Oid.float8 then
    match parseF64 (trim s) with
    | some f => .ok (.float f)
    | none => .error (ascii "invalid float parameter '" ++ s ++ ascii "'")
  else .ok (.text s)

/-- The bytes of a big-endian number, which must be `w` many. -/
def bigEndian (w : Nat) (bytes message : Bytes) : Except Bytes Nat :=
  if bytes.length = w then .ok (ofLe bytes.reverse) else .error message

/-- The number with the given `w` bytes of two's complement. -/
def signed (w n : Nat) : Int := if 2 * n < 256 ^ w then n else n - 256 ^ w

def binaryToBoundValue (bytes : Bytes) (typeOid : Int) : Except Bytes BoundValue :=
  if typeOid = Oid.bool then
    match bytes with
    | [b] => .ok (.bool (b ≠ 0))
    | _ => .error (ascii "binary bool must be exactly 1 byte")
  else if typeOid = Oid.int2 then
    (bigEndian 2 bytes (ascii "binary int2 must be 2 bytes")).map fun n => .int (signed 2 n)
  else if typeOid = Oid.int4 then
    (bigEndian 4 bytes (ascii "binary int4 must be 4 bytes")).map fun n => .int (signed 4 n)
  else if typeOid = Oid.int8 then
    (bigEndian 8 bytes (ascii "binary int8 must be 8 bytes")).map fun n => .int (signed 8 n)
  else if typeOid = Oid.float4 then
    (bigEndian 4 bytes (ascii "binary float4 must be 4 bytes")).map fun n =>
      .float (Float32.ofBits n.toUInt32).toFloat
  else if typeOid = Oid.float8 then
    (bigEndian 8 bytes (ascii "binary float8 must be 8 bytes")).map fun n =>
      .float (Float.ofBits n.toUInt64)
  else if validUtf8 bytes then .ok (.text bytes)
  else .error (ascii "binary text parameter is not valid UTF-8")

def paramToBoundValue (value : Option Bytes) (format typeOid : Int) : Except Bytes BoundValue :=
  match value with
  | none => .ok .null
  | some bytes =>
    if format = 0 then textToBoundValue bytes typeOid
    else if format = 1 then binaryToBoundValue bytes typeOid
    else .error (ascii "unsupported parameter format code " ++ intDisplay format)

/-- No format code stands for text, one for all parameters. -/
def formatFor (formats : List Int) (i : Nat) : Int :=
  match formats with
  | [] => 0
  | [f] => f
  | fs => fs.getD i 0

/-- The parameters from the `i`-th on, up to the first that does not decode. -/
def decodeParams (paramTypes paramFormats : List Int) :
    Nat → List (Option Bytes) → Except Bytes (List BoundValue)
  | _, [] => .ok []
  | i, value :: rest =>
    match paramToBoundValue value (formatFor paramFormats i) (paramTypes.getD i 0) with
    | .error e => .error e
    | .ok v => (decodeParams paramTypes paramFormats (i + 1) rest).map (v :: ·)

structure Portal where
  statement : Bytes
  values : List BoundValue
  resultFormats : List Int
  deriving DecidableEq

def bindPortal (paramTypes : List Int) (statement : Bytes) (paramFormats : List Int)
    (params : List (Option Bytes)) (resultFormats : List Int) : Except Bytes Portal :=
  (decodeParams paramTypes paramFormats 0 params).map fun values =>
    ⟨statement, values, resultFormats⟩

/-- The types the client declared, and text for the others. -/
def resolveParamOids (paramTypes : List Int) (paramCount : Nat) : List Int :=
  (List.range (max paramTypes.length paramCount)).map fun i =>
    match paramTypes[i]? with
    | some oid => if oid ≠ 0 then oid else Oid.text
    | none => Oid.text

/-- A cell of a COPY line; `\N` is the text `NULL`. -/
def unescapeCell : Bytes → Bytes
  | [] => []
  | [b] => [b]
  | b :: c :: rest =>
    if b = 92 then
      (if c = 116 then 9 else if c = 110 then 10 else if c = 114 then 13 else c) ::
        unescapeCell rest
    else b :: unescapeCell (c :: rest)

def decodeTextCell (cell : Bytes) : Bytes :=
  if cell = [92, 78] then ascii "NULL" else unescapeCell cell

def decodeTextRow (line : Bytes) : List Bytes := (line.splitOn 9).map decodeTextCell

def escapeByte (b : UInt8) : Bytes :=
  if b = 92 then [92, 92] else if b = 9 then [92, 116] else if b = 10 then [92, 110]
  else if b = 13 then [92, 114] else [b]

/-- A cell that displays as `NULL` is written as `\N`. -/
def encodeTextRow (cells : List Bytes) : Bytes :=
  joinWith 9 (cells.map fun cell =>
    if cell = ascii "NULL" then [92, 78] else cell.flatMap escapeByte)

/-- The rows of a COPY stream: empty lines and the end marker are skipped. -/
def copyRows (stream : Bytes) : List (List Bytes) :=
  (stream.splitOn 10).filterMap fun line =>
    let line := if line.getLast? = some 13 then line.dropLast else line
    if line = [] ∨ line = [92, 46] then none else some (decodeTextRow line)

end GalaxDb.Server
