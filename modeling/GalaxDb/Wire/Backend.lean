import GalaxDb.Wire.Frontend

/-!
# Messages from the server

Each writer computes the length of its message from the parts and cuts it to 32 bits before it
writes them. A stream of messages is split again by these lengths alone, and each frame read
by its tag gives back the message it was written for.
-/

namespace GalaxDb.Wire

open Bytes Sql List

structure ColumnDesc where
  name : Bytes
  tableOid : Int32
  columnId : Int16
  typeOid : Int32
  typeSize : Int16
  typeModifier : Int32
  formatCode : Int16
  deriving DecidableEq

def writeAuthOk : Bytes := 'R'.toUInt8 :: writeI32 8 ++ writeI32 0

def writeAuthSasl (mechanisms : List Bytes) : Bytes :=
  let body := writeI32 10 ++ mechanisms.flatMap writeCstr ++ [0]
  'R'.toUInt8 :: writeI32 (.ofNat (body.length + 4)) ++ body

def writeAuthSaslContinue (data : Bytes) : Bytes :=
  'R'.toUInt8 :: writeI32 (.ofNat (data.length + 8)) ++ writeI32 11 ++ data

def writeAuthSaslFinal (data : Bytes) : Bytes :=
  'R'.toUInt8 :: writeI32 (.ofNat (data.length + 8)) ++ writeI32 12 ++ data

def writeParameterStatus (key value : Bytes) : Bytes :=
  let len := 4 + key.length + 1 + value.length + 1
  'S'.toUInt8 :: writeI32 (.ofNat len) ++ key ++ [0] ++ value ++ [0]

def writeBackendKeyData (processId secretKey : Int32) : Bytes :=
  'K'.toUInt8 :: writeI32 12 ++ writeI32 processId ++ writeI32 secretKey

def writeReadyForQuery (status : UInt8) : Bytes := 'Z'.toUInt8 :: writeI32 5 ++ [status]

def writeColumnDesc (col : ColumnDesc) : Bytes :=
  writeCstr col.name ++ writeI32 col.tableOid ++ writeI16 col.columnId ++ writeI32 col.typeOid ++
    writeI16 col.typeSize ++ writeI32 col.typeModifier ++ writeI16 col.formatCode

def writeRowDescription (columns : List ColumnDesc) : Bytes :=
  let bodyLen : Int32 :=
    columns.foldl (fun len col => len + (.ofNat col.name.length + 1 + 18)) 2
  'T'.toUInt8 :: writeI32 (bodyLen + 4) ++ writeI16 (.ofNat columns.length) ++
    columns.flatMap writeColumnDesc

/-- A cell after its length; −1 stands for NULL. -/
def writeCell : Option Bytes → Bytes
  | some v => writeI32 (.ofNat v.length) ++ v
  | none => writeI32 (-1)

def writeDataRowBytes (values : List (Option Bytes)) : Bytes :=
  let bodyLen : Int32 := values.foldl (fun len val => match val with
      | some v => len + 4 + .ofNat v.length
      | none => len + 4) 2
  'D'.toUInt8 :: writeI32 (bodyLen + 4) ++ writeI16 (.ofNat values.length) ++
    values.flatMap writeCell

/-- The values are texts, written as UTF-8. -/
def writeDataRow (values : List (Option String)) : Bytes :=
  writeDataRowBytes (values.map (·.map (·.toList.flatMap String.utf8EncodeChar)))

def writeCommandComplete (tag : Bytes) : Bytes :=
  let len := 4 + tag.length + 1
  'C'.toUInt8 :: writeI32 (.ofNat len) ++ tag ++ [0]

/-- Severity twice, then the tag of the code. -/
def errorHead : Bytes := ascii "SERROR" ++ [0] ++ ascii "VERROR" ++ [0] ++ ascii "C"

def writeErrorResponse (sqlstate message : Bytes) : Bytes :=
  let body := errorHead ++ sqlstate ++ [0] ++ ascii "M" ++ message ++ [0] ++ [0]
  'E'.toUInt8 :: writeI32 (.ofNat (body.length + 4)) ++ body

/-- A message without a body. -/
def writeBare (tag : UInt8) : Bytes := tag :: writeI32 4

def writeParseComplete : Bytes := writeBare '1'.toUInt8

def writeBindComplete : Bytes := writeBare '2'.toUInt8

def writeCloseComplete : Bytes := writeBare '3'.toUInt8

def writeNoData : Bytes := writeBare 'n'.toUInt8

def writePortalSuspended : Bytes := writeBare 's'.toUInt8

def writeEmptyQueryResponse : Bytes := writeBare 'I'.toUInt8

def writeParameterDescription (paramTypeOids : List Int32) : Bytes :=
  let bodyLen := 2 + paramTypeOids.length * 4
  't'.toUInt8 :: writeI32 (.ofNat (bodyLen + 4)) ++ writeI16 (.ofNat paramTypeOids.length) ++
    paramTypeOids.flatMap writeI32

/-- Both responses that start a COPY: text overall, and text for each column. -/
def writeCopyResponse (tag : UInt8) (numColumns : UInt16) : Bytes :=
  let bodyLen := 1 + 2 + numColumns.toNat * 2
  tag :: writeI32 (.ofNat (bodyLen + 4)) ++ [0] ++ writeI16 (.ofNat numColumns.toNat) ++
    (List.replicate numColumns.toNat (0 : Int16)).flatMap writeI16

def writeCopyInResponse (numColumns : UInt16) : Bytes := writeCopyResponse 'G'.toUInt8 numColumns

def writeCopyOutResponse (numColumns : UInt16) : Bytes := writeCopyResponse 'H'.toUInt8 numColumns

def writeCopyData (payload : Bytes) : Bytes :=
  'd'.toUInt8 :: writeI32 (.ofNat (payload.length + 4)) ++ payload

def writeCopyDone : Bytes := writeBare 'c'.toUInt8

inductive BackendMessage where
  | authOk
  | authSasl (mechanisms : List Bytes)
  | authSaslContinue (data : Bytes)
  | authSaslFinal (data : Bytes)
  | parameterStatus (key value : Bytes)
  | backendKeyData (processId secretKey : Int32)
  | readyForQuery (status : UInt8)
  | rowDescription (columns : List ColumnDesc)
  | dataRow (values : List (Option Bytes))
  | commandComplete (tag : Bytes)
  | errorResponse (sqlstate message : Bytes)
  | parseComplete
  | bindComplete
  | closeComplete
  | noData
  | portalSuspended
  | emptyQueryResponse
  | parameterDescription (paramTypeOids : List Int32)
  | copyInResponse (numColumns : UInt16)
  | copyOutResponse (numColumns : UInt16)
  | copyData (payload : Bytes)
  | copyDone
  deriving DecidableEq

namespace BackendMessage

def write : BackendMessage → Bytes
  | authOk => writeAuthOk
  | authSasl mechanisms => writeAuthSasl mechanisms
  | authSaslContinue data => writeAuthSaslContinue data
  | authSaslFinal data => writeAuthSaslFinal data
  | parameterStatus key value => writeParameterStatus key value
  | backendKeyData processId secretKey => writeBackendKeyData processId secretKey
  | readyForQuery status => writeReadyForQuery status
  | rowDescription columns => writeRowDescription columns
  | dataRow values => writeDataRowBytes values
  | commandComplete tag => writeCommandComplete tag
  | errorResponse sqlstate message => writeErrorResponse sqlstate message
  | parseComplete => writeParseComplete
  | bindComplete => writeBindComplete
  | closeComplete => writeCloseComplete
  | noData => writeNoData
  | portalSuspended => writePortalSuspended
  | emptyQueryResponse => writeEmptyQueryResponse
  | parameterDescription paramTypeOids => writeParameterDescription paramTypeOids
  | copyInResponse numColumns => writeCopyInResponse numColumns
  | copyOutResponse numColumns => writeCopyOutResponse numColumns
  | copyData payload => writeCopyData payload
  | copyDone => writeCopyDone

def tag : BackendMessage → UInt8
  | authOk | authSasl _ | authSaslContinue _ | authSaslFinal _ => 'R'.toUInt8
  | parameterStatus .. => 'S'.toUInt8
  | backendKeyData .. => 'K'.toUInt8
  | readyForQuery _ => 'Z'.toUInt8
  | rowDescription _ => 'T'.toUInt8
  | dataRow _ => 'D'.toUInt8
  | commandComplete _ => 'C'.toUInt8
  | errorResponse .. => 'E'.toUInt8
  | parseComplete => '1'.toUInt8
  | bindComplete => '2'.toUInt8
  | closeComplete => '3'.toUInt8
  | noData => 'n'.toUInt8
  | portalSuspended => 's'.toUInt8
  | emptyQueryResponse => 'I'.toUInt8
  | parameterDescription _ => 't'.toUInt8
  | copyInResponse _ => 'G'.toUInt8
  | copyOutResponse _ => 'H'.toUInt8
  | copyData _ => 'd'.toUInt8
  | copyDone => 'c'.toUInt8

/-- What stands behind the length. -/
def body : BackendMessage → Bytes
  | authOk => writeI32 0
  | authSasl mechanisms => writeI32 10 ++ (mechanisms.flatMap writeCstr ++ [0])
  | authSaslContinue data => writeI32 11 ++ data
  | authSaslFinal data => writeI32 12 ++ data
  | parameterStatus key value => writeCstr key ++ writeCstr value
  | backendKeyData processId secretKey => writeI32 processId ++ writeI32 secretKey
  | readyForQuery status => [status]
  | rowDescription columns => writeCounted writeColumnDesc columns
  | dataRow values => writeCounted writeCell values
  | commandComplete tag => writeCstr tag
  | errorResponse sqlstate message =>
    errorHead ++ (writeCstr sqlstate ++ ('M'.toUInt8 :: (message ++ [0, 0])))
  | parseComplete | bindComplete | closeComplete | noData | portalSuspended | emptyQueryResponse
  | copyDone => []
  | parameterDescription paramTypeOids => writeCounted writeI32 paramTypeOids
  | copyInResponse numColumns | copyOutResponse numColumns =>
    0 :: writeCounted writeI16 (List.replicate numColumns.toNat 0)
  | copyData payload => payload

end BackendMessage

theorem length_writeColumnDesc (col : ColumnDesc) :
    (writeColumnDesc col).length = col.name.length + 1 + 18 := by
  simp [writeColumnDesc, writeCstr]

theorem length_flatMap_writeI16 (codes : List Int16) :
    (codes.flatMap writeI16).length = codes.length * 2 := by
  induction codes with
  | nil => rfl
  | cons code codes ih =>
    rw [flatMap_cons, length_append, writeI16_length, ih, length_cons]
    omega

/-- The sum over the columns is the length of what is written for them, in 32 bits. -/
theorem rowDescription_bodyLen (columns : List ColumnDesc) (n : Nat) :
    columns.foldl (fun len col => len + (.ofNat col.name.length + 1 + 18)) (Int32.ofNat n) =
      Int32.ofNat (n + (columns.flatMap writeColumnDesc).length) := by
  induction columns generalizing n with
  | nil => rfl
  | cons col columns ih =>
    have step : Int32.ofNat n + (Int32.ofNat col.name.length + 1 + 18) =
        Int32.ofNat (n + (col.name.length + 1 + 18)) := by
      simp only [Int32.ofNat_add]
      rfl
    rw [foldl_cons, step, ih, flatMap_cons, length_append, length_writeColumnDesc, add_assoc]

theorem dataRow_bodyLen (values : List (Option Bytes)) (n : Nat) :
    values.foldl (fun len val => match val with
      | some v => len + 4 + .ofNat v.length
      | none => len + 4) (Int32.ofNat n) =
      Int32.ofNat (n + (values.flatMap writeCell).length) := by
  induction values generalizing n with
  | nil => rfl
  | cons val values ih =>
    rw [foldl_cons, flatMap_cons, length_append, ← add_assoc, ← ih]
    cases val with
    | none =>
      have step : Int32.ofNat n + 4 = Int32.ofNat (n + 4) := by
        rw [Int32.ofNat_add]
        rfl
      simp only [step, writeCell, writeI32_length]
    | some v =>
      have step : Int32.ofNat n + 4 + Int32.ofNat v.length = Int32.ofNat (n + (4 + v.length)) := by
        rw [Int32.ofNat_add, Int32.ofNat_add, ← Int32.add_assoc]
        rfl
      simp only [step, writeCell, length_append, writeI32_length]

theorem copyResponse (tag : UInt8) (n : UInt16) : writeCopyResponse tag n =
    frame tag (0 :: writeCounted writeI16 (List.replicate n.toNat 0)) := by
  have length := length_flatMap_writeI16 (List.replicate n.toNat 0)
  have total : 1 + 2 + n.toNat * 2 + 4 = 2 + n.toNat * 2 + 1 + 4 := by omega
  simp only [writeCopyResponse, frame, writeCounted, length_cons, length_append,
    writeI16_length, length, length_replicate, total]
  simp

/-- The declared length is that of the frame. -/
theorem write_eq_frame (m : BackendMessage) : m.write = frame m.tag m.body := by
  have four : ∀ n, Int32.ofNat n + 4 = Int32.ofNat (n + 4) := by
    intro n
    rw [Int32.ofNat_add]
    rfl
  cases m with
  | rowDescription columns =>
    have length := rowDescription_bodyLen columns 2
    simp only [BackendMessage.write, writeRowDescription, BackendMessage.tag, BackendMessage.body,
      frame, writeCounted, length_append, writeI16_length, ← four, ← length]
    simp
  | dataRow values =>
    have length := dataRow_bodyLen values 2
    simp only [BackendMessage.write, writeDataRowBytes, BackendMessage.tag, BackendMessage.body,
      frame, writeCounted, length_append, writeI16_length, ← four, ← length]
    simp
  | parameterDescription oids =>
    simp [BackendMessage.write, writeParameterDescription, BackendMessage.tag, BackendMessage.body,
      frame, writeCounted]
  | copyInResponse n => exact copyResponse _ n
  | copyOutResponse n => exact copyResponse _ n
  | authSasl mechanisms =>
    simp [BackendMessage.write, writeAuthSasl, BackendMessage.tag, BackendMessage.body, frame]
  | authSaslContinue data =>
    have total : (writeI32 11 ++ data).length + 4 = data.length + 8 := by
      rw [length_append, writeI32_length]
      omega
    simp only [BackendMessage.write, writeAuthSaslContinue, BackendMessage.tag, BackendMessage.body,
      frame, total, cons_append, append_assoc]
  | authSaslFinal data =>
    have total : (writeI32 12 ++ data).length + 4 = data.length + 8 := by
      rw [length_append, writeI32_length]
      omega
    simp only [BackendMessage.write, writeAuthSaslFinal, BackendMessage.tag, BackendMessage.body,
      frame, total, cons_append, append_assoc]
  | parameterStatus key value =>
    have total : (writeCstr key ++ writeCstr value).length + 4 =
        4 + key.length + 1 + value.length + 1 := by
      simp only [writeCstr, length_append, length_singleton]
      omega
    simp only [BackendMessage.write, writeParameterStatus, BackendMessage.tag, BackendMessage.body,
      frame, total]
    simp [writeCstr]
  | commandComplete tag =>
    have total : (writeCstr tag).length + 4 = 4 + tag.length + 1 := by
      simp only [writeCstr, length_append, length_singleton]
      omega
    simp only [BackendMessage.write, writeCommandComplete, BackendMessage.tag, BackendMessage.body,
      frame, total]
    simp [writeCstr]
  | errorResponse sqlstate message =>
    have letter : ascii "M" = ['M'.toUInt8] := by decide
    simp only [BackendMessage.write, writeErrorResponse, BackendMessage.tag, BackendMessage.body,
      frame, writeCstr, letter, cons_append, append_assoc, nil_append]
  | copyData payload =>
    simp [BackendMessage.write, writeCopyData, BackendMessage.tag, BackendMessage.body, frame]
  | backendKeyData processId secretKey =>
    simp [BackendMessage.write, writeBackendKeyData, BackendMessage.tag, BackendMessage.body, frame]
  | _ => rfl

/-- A stream cut by the declared lengths; `n` bounds the number of frames. -/
def splitFrames : Nat → Bytes → Option (List (UInt8 × Bytes))
  | _, [] => some []
  | 0, _ :: _ => none
  | n + 1, tag :: rest =>
    let len := i32FromBe (rest.take 4)
    let body := rest.drop 4
    if rest.length < 4 ∨ len < 4 ∨ body.length < len.toNatClampNeg - 4 then none
    else (splitFrames n (body.drop (len.toNatClampNeg - 4))).map fun later =>
      (tag, body.take (len.toNatClampNeg - 4)) :: later

theorem splitFrames_frame {tag : UInt8} {body : Bytes} (small : body.length + 4 < 2 ^ 31) (n : Nat)
    (rest : Bytes) :
    splitFrames (n + 1) (frame tag body ++ rest) =
      (splitFrames n rest).map fun later => (tag, body) :: later := by
  obtain ⟨long, len, enough, count, behind⟩ := frame_length small rest
  have whole : ¬ (body ++ rest).length < body.length := by
    rw [length_append]
    omega
  rw [frame, cons_append, append_assoc, splitFrames]
  simp only [len, behind, count, long, enough, whole, or_self, if_false, drop_left, take_left]

def takeI16 (s : Bytes) : Option (Int16 × Bytes) :=
  if s.length < 2 then none else some (i16FromBe (s.take 2), s.drop 2)

def takeI32 (s : Bytes) : Option (Int32 × Bytes) :=
  if s.length < 4 then none else some (i32FromBe (s.take 4), s.drop 4)

def takeCstr (s : Bytes) : Option (Bytes × Bytes) :=
  match s.dropWhile (· ≠ 0) with
  | [] => none
  | _ :: rest => some (s.takeWhile (· ≠ 0), rest)

def takeMany {β : Type} (take : Bytes → Option (β × Bytes)) : Nat → Bytes → Option (List β × Bytes)
  | 0, s => some ([], s)
  | n + 1, s => do
    let (x, s) ← take s
    let (rest, s) ← takeMany take n s
    return (x :: rest, s)

/-- A count of 16 bits and as many items, which end the body. -/
def takeCounted {β : Type} (take : Bytes → Option (β × Bytes)) (s : Bytes) : Option (List β) := do
  let (n, s) ← takeI16 s
  let (items, s) ← takeMany take n.toNatClampNeg s
  if n < 0 ∨ s ≠ [] then none else return items

def takeColumnDesc (s : Bytes) : Option (ColumnDesc × Bytes) := do
  let (name, s) ← takeCstr s
  let (tableOid, s) ← takeI32 s
  let (columnId, s) ← takeI16 s
  let (typeOid, s) ← takeI32 s
  let (typeSize, s) ← takeI16 s
  let (typeModifier, s) ← takeI32 s
  let (formatCode, s) ← takeI16 s
  return (⟨name, tableOid, columnId, typeOid, typeSize, typeModifier, formatCode⟩, s)

def takeCell (s : Bytes) : Option (Option Bytes × Bytes) := do
  let (len, s) ← takeI32 s
  if len < 0 then return (none, s)
  else if s.length < len.toNatClampNeg then none
  else return (some (s.take len.toNatClampNeg), s.drop len.toNatClampNeg)

/-- Strings up to an empty one, which ends the body; `n` bounds their number. -/
def takeMechanisms : Nat → Bytes → Option (List Bytes)
  | 0, _ => none
  | n + 1, s => do
    let (first, s) ← takeCstr s
    if first = [] then (if s = [] then some [] else none)
    else (takeMechanisms n s).map (first :: ·)

def readAuth (body : Bytes) : Option BackendMessage := do
  let (code, s) ← takeI32 body
  if code = 0 then (if s = [] then some .authOk else none)
  else if code = 10 then (takeMechanisms s.length s).map .authSasl
  else if code = 11 then some (.authSaslContinue s)
  else if code = 12 then some (.authSaslFinal s)
  else none

def readKeyData (body : Bytes) : Option BackendMessage := do
  let (processId, s) ← takeI32 body
  let (secretKey, s) ← takeI32 s
  if s = [] then some (.backendKeyData processId secretKey) else none

def readError (body : Bytes) : Option BackendMessage :=
  if errorHead.isPrefixOf body then do
    let (sqlstate, s) ← takeCstr (body.drop errorHead.length)
    match s with
    | m :: message =>
      if m = 'M'.toUInt8 ∧ message.drop (message.length - 2) = [0, 0] then
        some (.errorResponse sqlstate (message.take (message.length - 2)))
      else none
    | [] => none
  else none

/-- COPY in text format: nothing but the number of columns. -/
def readCopyResponse (of : UInt16 → BackendMessage) : Bytes → Option BackendMessage
  | 0 :: s => (takeCounted takeI16 s).bind fun codes =>
    if codes.all (· = 0) then some (of (.ofNat codes.length)) else none
  | _ => none

/-- A text that ends with the body. -/
def takeLast (s : Bytes) : Option Bytes := if s.getLast? = some 0 then some s.dropLast else none

def readBare (m : BackendMessage) (body : Bytes) : Option BackendMessage :=
  if body = [] then some m else none

/-- The message of a frame, as the protocol defines it. -/
def readBackend (tag : UInt8) (body : Bytes) : Option BackendMessage :=
  match Char.ofUInt8 tag with
  | 'R' => readAuth body
  | 'S' => do
    let (key, s) ← takeCstr body
    (takeLast s).map (.parameterStatus key)
  | 'K' => readKeyData body
  | 'Z' => if body.length = 1 then body.head?.map .readyForQuery else none
  | 'T' => (takeCounted takeColumnDesc body).map .rowDescription
  | 'D' => (takeCounted takeCell body).map .dataRow
  | 'C' => (takeLast body).map .commandComplete
  | 'E' => readError body
  | '1' => readBare .parseComplete body
  | '2' => readBare .bindComplete body
  | '3' => readBare .closeComplete body
  | 'n' => readBare .noData body
  | 's' => readBare .portalSuspended body
  | 'I' => readBare .emptyQueryResponse body
  | 't' => (takeCounted takeI32 body).map .parameterDescription
  | 'G' => readCopyResponse .copyInResponse body
  | 'H' => readCopyResponse .copyOutResponse body
  | 'd' => some (.copyData body)
  | 'c' => readBare .copyDone body
  | _ => none

theorem takeI16_write (x : Int16) (rest : Bytes) :
    takeI16 (writeI16 x ++ rest) = some (x, rest) := by
  have long : ¬ (writeI16 x ++ rest).length < 2 := by
    rw [length_append, writeI16_length]
    omega
  rw [takeI16, if_neg long, take_left' (writeI16_length x), drop_left' (writeI16_length x),
    i16FromBe_writeI16]

theorem takeI32_write (x : Int32) (rest : Bytes) :
    takeI32 (writeI32 x ++ rest) = some (x, rest) := by
  have long : ¬ (writeI32 x ++ rest).length < 4 := by
    rw [length_append, writeI32_length]
    omega
  rw [takeI32, if_neg long, take_left' (writeI32_length x), drop_left' (writeI32_length x),
    i32FromBe_writeI32]

theorem takeCstr_write {s : Bytes} (clean : 0 ∉ s) (rest : Bytes) :
    takeCstr (writeCstr s ++ rest) = some (s, rest) := by
  have nonzero : ∀ b ∈ s, decide (b ≠ 0) = true := by
    intro b there
    have other : b ≠ 0 := by
      rintro rfl
      exact clean there
    simpa using other
  have behind : (writeCstr s ++ rest).dropWhile (· ≠ 0) = 0 :: rest := by
    rw [writeCstr, append_assoc, dropWhile_append_of_pos nonzero]
    rfl
  have before : (writeCstr s ++ rest).takeWhile (· ≠ 0) = s := by
    rw [writeCstr, append_assoc, takeWhile_append_of_pos nonzero]
    simp
  rw [takeCstr, behind, before]

theorem takeMany_write {β : Type} {take : Bytes → Option (β × Bytes)} {write : β → Bytes}
    {items : List β} (each : ∀ x ∈ items, ∀ rest, take (write x ++ rest) = some (x, rest))
    (rest : Bytes) : takeMany take items.length (items.flatMap write ++ rest) =
      some (items, rest) := by
  induction items with
  | nil => rfl
  | cons x items ih =>
    have later := ih fun y there => each y (mem_cons_of_mem _ there)
    rw [flatMap_cons, append_assoc, length_cons, takeMany, each x mem_cons_self]
    simp [later]

theorem takeCounted_write {β : Type} {take : Bytes → Option (β × Bytes)} {write : β → Bytes}
    {items : List β} (few : items.length ≤ 32767)
    (each : ∀ x ∈ items, ∀ rest, take (write x ++ rest) = some (x, rest)) :
    takeCounted take (writeCounted write items) = some items := by
  have nonneg : ¬ (Int16.ofNat items.length) < 0 := by
    rw [Int16.lt_iff_toInt_lt, Int16.toInt_ofNat_of_lt (by omega)]
    simp
  have length : (Int16.ofNat items.length).toNatClampNeg = items.length :=
    Int16.toNatClampNeg_ofNat_of_lt (by omega)
  have all := takeMany_write each []
  rw [append_nil] at all
  rw [takeCounted, writeCounted, takeI16_write]
  simp [length, all, nonneg]

theorem takeColumnDesc_write {col : ColumnDesc} (clean : 0 ∉ col.name) (rest : Bytes) :
    takeColumnDesc (writeColumnDesc col ++ rest) = some (col, rest) := by
  simp only [takeColumnDesc, writeColumnDesc, append_assoc, takeCstr_write clean,
    takeI32_write, takeI16_write, Option.bind_eq_bind, Option.bind_some, Option.pure_def]

theorem takeCell_write {val : Option Bytes} (small : (writeCell val).length < 2 ^ 31) (rest :
    Bytes) :
    takeCell (writeCell val ++ rest) = some (val, rest) := by
  cases val with
  | none =>
    rfl
  | some v =>
    rw [writeCell, length_append, writeI32_length] at small
    have nonneg : ¬ (Int32.ofNat v.length) < 0 := by
      rw [Int32.lt_iff_toInt_lt, Int32.toInt_ofNat_of_lt (by omega)]
      simp
    have count : (Int32.ofNat v.length).toNatClampNeg = v.length :=
      Int32.toNatClampNeg_ofNat_of_lt (by omega)
    rw [writeCell, append_assoc, takeCell, takeI32_write]
    simp [nonneg, count]

theorem takeMechanisms_write {mechanisms : List Bytes}
    (plain : ∀ m ∈ mechanisms, 0 ∉ m ∧ m ≠ []) {n : Nat} (enough : mechanisms.length < n) :
    takeMechanisms n (mechanisms.flatMap writeCstr ++ [0]) = some mechanisms := by
  induction mechanisms generalizing n with
  | nil =>
    obtain ⟨n, rfl⟩ := Nat.exists_eq_succ_of_ne_zero enough.ne'
    rfl
  | cons first later ih =>
    obtain ⟨n, rfl⟩ := Nat.exists_eq_succ_of_ne_zero (Nat.zero_lt_of_lt enough).ne'
    obtain ⟨clean, nonempty⟩ := plain first mem_cons_self
    have rest := ih (fun m there => plain m (mem_cons_of_mem _ there))
      (Nat.lt_of_succ_lt_succ enough)
    rw [flatMap_cons, append_assoc, takeMechanisms, takeCstr_write clean]
    simp [nonempty, rest]

theorem length_le_flatMap_writeCstr (strings : List Bytes) :
    strings.length ≤ (strings.flatMap writeCstr).length := by
  induction strings with
  | nil => exact le_rfl
  | cons s strings ih =>
    rw [flatMap_cons, length_append, length_cons, writeCstr, length_append, length_singleton]
    omega

theorem takeLast_write (s : Bytes) : takeLast (writeCstr s) = some s := by
  simp [takeLast, writeCstr]

/-- Within 16 bits of columns or items and 31 bits of length, and without zero bytes in
names; the text of an error or of a tag may have them. -/
def BackendMessage.WellFormed (m : BackendMessage) : Prop :=
  m.body.length + 4 < 2 ^ 31 ∧ match m with
    | .authSasl mechanisms => ∀ m ∈ mechanisms, 0 ∉ m ∧ m ≠ []
    | .parameterStatus key _ => 0 ∉ key
    | .rowDescription columns => columns.length ≤ 32767 ∧ ∀ col ∈ columns, 0 ∉ col.name
    | .dataRow values => values.length ≤ 32767
    | .errorResponse sqlstate _ => 0 ∉ sqlstate
    | .parameterDescription oids => oids.length ≤ 32767
    | .copyInResponse numColumns | .copyOutResponse numColumns => numColumns.toNat ≤ 32767
    | _ => True

theorem readCopyResponse_write {of : UInt16 → BackendMessage} {n : UInt16} (few : n.toNat ≤ 32767) :
    readCopyResponse of (0 :: writeCounted writeI16 (List.replicate n.toNat 0)) = some (of n) := by
  have codes : takeCounted takeI16 (writeCounted writeI16 (List.replicate n.toNat 0)) =
      some (List.replicate n.toNat 0) :=
    takeCounted_write (by simpa using few) fun x _ => takeI16_write x
  have zeros : (List.replicate n.toNat (0 : Int16)).all (· = 0) = true :=
    all_eq_true.mpr fun x mem => decide_eq_true (eq_of_mem_replicate mem)
  rw [readCopyResponse, codes, Option.bind_some, if_pos zeros, length_replicate, UInt16.ofNat_toNat]

theorem readError_write {sqlstate message : Bytes} (clean : 0 ∉ sqlstate) :
    readError (BackendMessage.errorResponse sqlstate message).body =
      some (.errorResponse sqlstate message) := by
  have head : errorHead.isPrefixOf (BackendMessage.errorResponse sqlstate message).body := by
    rw [List.isPrefixOf_iff_prefix]
    exact prefix_append ..
  rw [readError, if_pos head, BackendMessage.body, drop_left]
  simp [takeCstr_write clean]

theorem mem_flatMap_length_le {β : Type} {write : β → Bytes} {items : List β} {x : β}
    (there : x ∈ items) : (write x).length ≤ (items.flatMap write).length := by
  obtain ⟨before, after, rfl⟩ := append_of_mem there
  simp only [flatMap_append, flatMap_cons, length_append]
  omega

/-- The frame of a message gives back the message. -/
theorem readBackend_body {m : BackendMessage} (wellFormed : m.WellFormed) :
    readBackend m.tag m.body = some m := by
  obtain ⟨short, parts⟩ := wellFormed
  cases m with
  | authOk => rfl
  | authSasl mechanisms =>
    have enough : mechanisms.length < (mechanisms.flatMap writeCstr ++ [0]).length := by
      rw [length_append, length_singleton]
      have each := length_le_flatMap_writeCstr mechanisms
      omega
    show readAuth _ = _
    rw [BackendMessage.body, readAuth, takeI32_write]
    have all := takeMechanisms_write parts enough
    show ((takeMechanisms _ _).map BackendMessage.authSasl) = _
    rw [all]
    rfl
  | authSaslContinue data | authSaslFinal data =>
    rfl
  | parameterStatus key value =>
    show ((takeCstr _).bind fun p => (takeLast p.2).map (BackendMessage.parameterStatus p.1)) = _
    rw [BackendMessage.body, takeCstr_write parts, Option.bind_some, takeLast_write]
    rfl
  | backendKeyData processId secretKey =>
    have last := takeI32_write secretKey []
    rw [append_nil] at last
    show readKeyData _ = _
    rw [BackendMessage.body, readKeyData, takeI32_write]
    simp [last]
  | readyForQuery status => rfl
  | rowDescription columns =>
    show (takeCounted takeColumnDesc _).map _ = _
    rw [BackendMessage.body, takeCounted_write parts.1
      fun col there => takeColumnDesc_write (parts.2 col there)]
    rfl
  | dataRow values =>
    have small : ∀ val ∈ values, (writeCell val).length < 2 ^ 31 := by
      intro val there
      have part : (writeCell val).length ≤ (values.flatMap writeCell).length :=
        mem_flatMap_length_le there
      simp only [BackendMessage.body, writeCounted, length_append] at short
      omega
    show (takeCounted takeCell _).map _ = _
    rw [BackendMessage.body, takeCounted_write parts fun val there =>
      takeCell_write (small val there)]
    rfl
  | commandComplete tag =>
    show (takeLast _).map _ = _
    rw [BackendMessage.body, takeLast_write]
    rfl
  | errorResponse sqlstate message => exact readError_write parts
  | parameterDescription oids =>
    show (takeCounted takeI32 _).map _ = _
    rw [BackendMessage.body, takeCounted_write parts fun oid _ => takeI32_write oid]
    rfl
  | copyInResponse numColumns => exact readCopyResponse_write parts
  | copyOutResponse numColumns => exact readCopyResponse_write parts
  | _ => rfl

/-- A stream of messages is cut into these messages. -/
theorem splitFrames_write {messages : List BackendMessage}
    (wellFormed : ∀ m ∈ messages, m.WellFormed) {n : Nat} (enough : messages.length ≤ n) :
    splitFrames n (messages.flatMap BackendMessage.write) =
      some (messages.map fun m => (m.tag, m.body)) := by
  induction messages generalizing n with
  | nil => cases n <;> rfl
  | cons m messages ih =>
    obtain ⟨n, rfl⟩ := Nat.exists_eq_succ_of_ne_zero (Nat.zero_lt_of_lt enough).ne'
    have later := ih (fun m' there => wellFormed m' (mem_cons_of_mem _ there))
      (Nat.le_of_succ_le_succ enough)
    have short := (wellFormed m mem_cons_self).1
    rw [flatMap_cons, write_eq_frame, splitFrames_frame short, later]
    rfl

theorem length_le_flatMap_write (messages : List BackendMessage) :
    messages.length ≤ (messages.flatMap BackendMessage.write).length := by
  induction messages with
  | nil => exact le_rfl
  | cons m messages ih =>
    rw [flatMap_cons, length_append, write_eq_frame, frame, length_cons, length_cons]
    omega

/-- What the client makes of the bytes from the server. -/
def readStream (stream : Bytes) : Option (List (Option BackendMessage)) :=
  (splitFrames stream.length stream).map fun frames => frames.map fun f => readBackend f.1 f.2

/-- Frontend messages are decoded as they were meant, no body makes the decoder go out of
range, and the server's messages are read as they were written. -/
theorem wire_faithful :
    (∀ m : FrontendMessage, m.WellFormed → decodeFrontend m.body m.tag = .ok m) ∧
    (∀ (tag : UInt8) (body : Bytes), (decodeFrontend body tag).Safe) ∧
    (∀ messages : List BackendMessage, (∀ m ∈ messages, m.WellFormed) →
      readStream (messages.flatMap BackendMessage.write) = some (messages.map some)) := by
  refine ⟨fun m => decodeFrontend_body, fun tag body => decodeFrontend_safe body tag, ?_⟩
  intro messages wellFormed
  rw [readStream, splitFrames_write wellFormed (length_le_flatMap_write messages), Option.map_some,
    map_map]
  congr 1
  apply map_congr_left
  intro m there
  exact readBackend_body (wellFormed m there)

theorem wire_faithful_bind :
    (FrontendMessage.bind [] (ascii "s1") [1] [some [0, 255], none] []).WellFormed ∧
      decodeFrontend (FrontendMessage.bind [] (ascii "s1") [1] [some [0, 255], none] []).body 66 =
        .ok (.bind [] (ascii "s1") [1] [some [0, 255], none] []) :=
  ⟨by decide, wire_faithful.1 _ (by decide)⟩

end GalaxDb.Wire
