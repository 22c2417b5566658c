import GalaxDb.Wire.Fields

/-!
# Messages from the client

A frame has a tag, its length and a body. The body is decoded by position, with a check before
each field; what a client writes for a message is read back as that message, and no body makes
the decoder go out of range.
-/

namespace GalaxDb.Wire

open Bytes Sql Decoded List

inductive FrontendMessage where
  | query (sql : Bytes)
  | parse (statement query : Bytes) (paramTypes : List Int32)
  | bind (portal statement : Bytes) (paramFormats : List Int16) (params : List (Option Bytes))
      (resultFormats : List Int16)
  | describe (kind : UInt8) (name : Bytes)
  | execute (portal : Bytes) (maxRows : Int32)
  | close (kind : UInt8) (name : Bytes)
  | sync
  | flush
  | terminate
  deriving DecidableEq

section Decoder

variable (buf : Bytes)

/-- The number of items that follow, which must not be negative. -/
def readCount (message : String) (pos : Nat) : Decoded Bytes (Nat × Nat) := do
  let (n, pos) ← readI16 buf pos
  if n < 0 then .error (ascii message) else return (n.toNatClampNeg, pos)

def readParam (pos : Nat) : Decoded Bytes (Option Bytes × Nat) := do
  let (plen, pos) ← readI32At buf pos
  if plen < 0 then return (none, pos)
  else
    let n := plen.toNatClampNeg
    if pos + n > buf.length then .error (ascii "Bind parameter value overruns message")
    else do
      let value ← getSlice buf pos (pos + n)
      return (some value, pos + n)

/-- The end of the text, before a zero at the end of the body. -/
def queryEnd : Decoded Bytes Nat :=
  if buf.length > 0 then do
    let b ← getByte buf (buf.length - 1)
    return if b = 0 then buf.length - 1 else buf.length
  else return buf.length

def decodeQuery : Decoded Bytes FrontendMessage := do
  let last ← queryEnd buf
  let sql ← getSlice buf 0 last
  return .query (fromUtf8Lossy sql)

def decodeParse : Decoded Bytes FrontendMessage := do
  let (statement, pos) ← readCstr buf 0
  let (query, pos) ← readCstr buf pos
  let (n, pos) ← readCount buf "negative parameter-type count in Parse" pos
  let (paramTypes, _) ← readMany (readI32At buf) n pos
  return .parse statement query paramTypes

def decodeBind : Decoded Bytes FrontendMessage := do
  let (portal, pos) ← readCstr buf 0
  let (statement, pos) ← readCstr buf pos
  let (nf, pos) ← readCount buf "negative format-code count in Bind" pos
  let (paramFormats, pos) ← readMany (readI16 buf) nf pos
  let (np, pos) ← readCount buf "negative parameter count in Bind" pos
  let (params, pos) ← readMany (readParam buf) np pos
  let (nr, pos) ← readCount buf "negative result-format count in Bind" pos
  let (resultFormats, _) ← readMany (readI16 buf) nr pos
  return .bind portal statement paramFormats params resultFormats

/-- Describe and Close: the kind, then a name. -/
def decodeNamed (message : String) (of : UInt8 → Bytes → FrontendMessage) :
    Decoded Bytes FrontendMessage :=
  if buf = [] then .error (ascii message)
  else do
    let kind ← getByte buf 0
    let (name, _) ← readCstr buf 1
    return of kind name

def decodeExecute : Decoded Bytes FrontendMessage := do
  let (portal, pos) ← readCstr buf 0
  let (maxRows, _) ← readI32At buf pos
  return .execute portal maxRows

/-- The byte as a character of the first 256. -/
def latin1 (b : UInt8) : Bytes :=
  if b < 0x80 then [b] else [(b >>> 6) ||| 0xC0, (b &&& 0x3F) ||| 0x80]

def hexDigit (n : UInt8) : UInt8 := if n < 10 then 48 + n else 87 + n

def decodeFrontend (tag : UInt8) : Decoded Bytes FrontendMessage :=
  match Char.ofUInt8 tag with
  | 'Q' => decodeQuery buf
  | 'P' => decodeParse buf
  | 'B' => decodeBind buf
  | 'D' => decodeNamed buf "empty Describe message" .describe
  | 'E' => decodeExecute buf
  | 'C' => decodeNamed buf "empty Close message" .close
  | 'S' => return .sync
  | 'H' => return .flush
  | 'X' => return .terminate
  | _ => .error (ascii "unsupported frontend message tag '" ++ latin1 tag ++ ascii "' (0x" ++
      [hexDigit (tag / 16), hexDigit (tag % 16)] ++ ascii ")")

end Decoder

section Totality

variable {buf : Bytes}

variable {message : String}

theorem readCount_safe {pos : Nat} : (readCount buf message pos).Safe := by
  refine safe_bind_iff.mpr ⟨readI16_safe, ?_⟩
  rintro ⟨n, pos⟩ -
  simp only
  split_ifs
  · exact safe_error _
  · exact safe_ok _

theorem readParam_safe (pos : Nat) : (readParam buf pos).Safe := by
  refine safe_bind_iff.mpr ⟨readI32At_safe, ?_⟩
  rintro ⟨plen, pos⟩ -
  simp only
  split_ifs with null overrun
  · exact safe_ok _
  · exact safe_error _
  · exact safe_bind_iff.mpr ⟨getSlice_safe_iff.mpr ⟨by omega, by omega⟩, fun _ _ => safe_ok _⟩

theorem queryEnd_spec : ∃ last ≤ buf.length, queryEnd buf = .ok last := by
  unfold queryEnd
  split_ifs with nonempty
  · rw [getByte, getElem?_eq_getElem (show buf.length - 1 < buf.length by omega)]
    refine ⟨_, ?_, rfl⟩
    split_ifs <;> omega
  · exact ⟨_, Nat.le_refl _, rfl⟩

theorem decodeQuery_safe : (decodeQuery buf).Safe := by
  obtain ⟨last, inside, found⟩ := @queryEnd_spec buf
  unfold decodeQuery
  rw [found, ok_bind]
  exact safe_bind_iff.mpr ⟨getSlice_safe_iff.mpr ⟨Nat.zero_le _, inside⟩, fun _ _ => safe_ok _⟩

theorem decodeNamed_safe {of : UInt8 → Bytes → FrontendMessage} :
    (decodeNamed buf message of).Safe := by
  unfold decodeNamed
  split_ifs with empty
  · exact safe_error _
  · have first : 0 < buf.length := length_pos_of_ne_nil empty
    exact safe_bind_iff.mpr ⟨getByte_safe_iff.mpr first, fun _ _ =>
      safe_bind_iff.mpr ⟨readCstr_safe, fun _ _ => safe_ok _⟩⟩

/-- Every tag and every body: a message or an error. -/
theorem decodeFrontend_safe (buf : Bytes) (tag : UInt8) : (decodeFrontend buf tag).Safe := by
  unfold decodeFrontend
  split
  · exact decodeQuery_safe
  · unfold decodeParse
    simp only [safe_bind_iff]
    exact ⟨readCstr_safe, fun _ _ => ⟨readCstr_safe, fun _ _ => ⟨readCount_safe, fun _ _ =>
      ⟨readMany_safe (fun _ => readI32At_safe) _, fun _ _ => safe_ok _⟩⟩⟩⟩
  · unfold decodeBind
    simp only [safe_bind_iff]
    exact ⟨readCstr_safe, fun _ _ => ⟨readCstr_safe, fun _ _ => ⟨readCount_safe, fun _ _ =>
      ⟨readMany_safe (fun _ => readI16_safe) _, fun _ _ => ⟨readCount_safe, fun _ _ =>
        ⟨readMany_safe readParam_safe _, fun _ _ => ⟨readCount_safe, fun _ _ =>
          ⟨readMany_safe (fun _ => readI16_safe) _, fun _ _ => safe_ok _⟩⟩⟩⟩⟩⟩⟩⟩
  · exact decodeNamed_safe
  · unfold decodeExecute
    simp only [safe_bind_iff]
    exact ⟨readCstr_safe, fun _ _ => ⟨readI32At_safe, fun _ _ => safe_ok _⟩⟩
  · exact decodeNamed_safe
  · exact safe_ok _
  · exact safe_ok _
  · exact safe_ok _
  · exact safe_error _

end Totality

section RoundTrip

def writeCstr (s : Bytes) : Bytes := s ++ [0]

def writeParam : Option Bytes → Bytes
  | none => writeI32 (-1)
  | some value => writeI32 (.ofNat value.length) ++ value

def writeCounted {β : Type} (write : β → Bytes) (items : List β) : Bytes :=
  writeI16 (.ofNat items.length) ++ items.flatMap write

def FrontendMessage.tag : FrontendMessage → UInt8
  | .query .. => 'Q'.toUInt8
  | .parse .. => 'P'.toUInt8
  | .bind .. => 'B'.toUInt8
  | .describe .. => 'D'.toUInt8
  | .execute .. => 'E'.toUInt8
  | .close .. => 'C'.toUInt8
  | .sync => 'S'.toUInt8
  | .flush => 'H'.toUInt8
  | .terminate => 'X'.toUInt8

/-- The body of version 3 of the protocol. -/
def FrontendMessage.body : FrontendMessage → Bytes
  | .query sql => writeCstr sql
  | .parse statement sql paramTypes =>
    writeCstr statement ++ writeCstr sql ++ writeCounted writeI32 paramTypes
  | .bind portal statement paramFormats params resultFormats =>
    writeCstr portal ++ writeCstr statement ++ writeCounted writeI16 paramFormats ++
      writeCounted writeParam params ++ writeCounted writeI16 resultFormats
  | .describe kind name => kind :: writeCstr name
  | .execute portal maxRows => writeCstr portal ++ writeI32 maxRows
  | .close kind name => kind :: writeCstr name
  | .sync | .flush | .terminate => []

/-- A text without a zero byte. -/
def PlainText (s : Bytes) : Prop := (0 : UInt8) ∉ s ∧ Auth.isUtf8 s

instance (s : Bytes) : Decidable (PlainText s) := inferInstanceAs (Decidable (_ ∧ _))

/-- Plain texts, counts of 16 bits with their sign, and a length of 32. -/
def FrontendMessage.WellFormed (m : FrontendMessage) : Prop :=
  m.body.length + 4 < 2 ^ 31 ∧ match m with
    | .query sql => PlainText sql
    | .parse statement sql paramTypes =>
      PlainText statement ∧ PlainText sql ∧ paramTypes.length ≤ 32767
    | .bind portal statement paramFormats params resultFormats =>
      PlainText portal ∧ PlainText statement ∧ paramFormats.length ≤ 32767 ∧
        params.length ≤ 32767 ∧ resultFormats.length ≤ 32767
    | .describe _ name => PlainText name
    | .execute portal _ => PlainText portal
    | .close _ name => PlainText name
    | .sync | .flush | .terminate => True

instance (m : FrontendMessage) : Decidable m.WellFormed := by
  unfold FrontendMessage.WellFormed
  cases m <;> infer_instance

variable {buf : Bytes} {pos : Nat}

variable {params : List (Option Bytes)} {value : Option Bytes} {portal rest sql statement : Bytes}

theorem readCstr_of_writeCstr {s : Bytes} (plain : PlainText s)
    (here : Remaining buf pos (writeCstr s ++ rest)) :
    readCstr buf pos = .ok (s, pos + s.length + 1) ∧ Remaining buf (pos + s.length + 1) rest := by
  rw [writeCstr, append_assoc] at here
  exact readCstr_of_remaining plain.1 plain.2 here

theorem readParam_of_remaining (small : (writeParam value).length < 2 ^ 31)
    (here : Remaining buf pos (writeParam value ++ rest)) :
    readParam buf pos = .ok (value, pos + (writeParam value).length) := by
  have total := here.length
  rw [length_append] at total
  cases value with
  | none =>
    obtain ⟨null, -⟩ := readI32At_of_remaining here
    rw [readParam, null, ok_bind]
    rfl
  | some value =>
    rw [writeParam, append_assoc] at here
    rw [writeParam, length_append, writeI32_length] at small total ⊢
    obtain ⟨length, behind⟩ := readI32At_of_remaining here
    have nonneg : ¬ (Int32.ofNat value.length) < 0 := by
      rw [Int32.lt_iff_toInt_lt, Int32.toInt_ofNat_of_lt (by omega)]
      simp
    have count : (Int32.ofNat value.length).toNatClampNeg = value.length :=
      Int32.toNatClampNeg_ofNat_of_lt (by omega)
    rw [readParam, length, ok_bind]
    simp only [if_neg nonneg, count]
    rw [if_neg (by omega), behind.getSlice rfl, Nat.add_assoc]
    rfl

theorem readCounted {β : Type} {read : Nat → Decoded Bytes (β × Nat)} {write : β → Bytes}
    {items : List β} (message : String) (few : items.length ≤ 32767)
    (each : ∀ x ∈ items, ∀ pos rest, Remaining buf pos (write x ++ rest) →
      read pos = .ok (x, pos + (write x).length))
    (here : Remaining buf pos (writeCounted write items ++ rest)) :
    ∃ pos', readCount buf message pos = .ok (items.length, pos + 2) ∧
      readMany read items.length (pos + 2) = .ok (items, pos') ∧ Remaining buf pos' rest := by
  obtain ⟨count, behind⟩ := readI16_of_remaining here
  obtain ⟨all, last⟩ := readMany_of_remaining each behind
  refine ⟨_, ?_, all, last⟩
  have nonneg : ¬ (Int16.ofNat items.length) < 0 := by
    rw [Int16.lt_iff_toInt_lt, Int16.toInt_ofNat_of_lt (by omega)]
    simp
  have length : (Int16.ofNat items.length).toNatClampNeg = items.length :=
    Int16.toNatClampNeg_ofNat_of_lt (by omega)
  rw [readCount, count, ok_bind]
  simp only [if_neg nonneg, length]
  rfl

theorem decodeQuery_body (plain : PlainText sql) :
    decodeQuery (writeCstr sql) = .ok (.query sql) := by
  have start : Remaining (writeCstr sql) 0 (sql ++ [0]) := .start _
  have length : (writeCstr sql).length = sql.length + 1 := by simp [writeCstr]
  have last : queryEnd (writeCstr sql) = .ok sql.length := by
    have zero := (start.skip rfl).getByte (ε := Bytes)
    rw [Nat.zero_add] at zero
    rw [queryEnd, if_pos (by omega), length, Nat.add_sub_cancel, zero]
    rfl
  have text := start.getSlice (ε := Bytes) rfl
  rw [Nat.zero_add] at text
  rw [decodeQuery, last, ok_bind, text, ok_bind, fromUtf8Lossy_of_isUtf8 plain.2]
  rfl

theorem decodeParse_body {paramTypes : List Int32} (named : PlainText statement)
    (plain : PlainText sql) (few : paramTypes.length ≤ 32767) :
    decodeParse (writeCstr statement ++ writeCstr sql ++ writeCounted writeI32 paramTypes) =
      .ok (.parse statement sql paramTypes) := by
  generalize whole : writeCstr statement ++ writeCstr sql ++ writeCounted writeI32 paramTypes = buf
  have start : Remaining buf 0 (writeCstr statement ++ (writeCstr sql ++
      (writeCounted writeI32 paramTypes ++ []))) := by
    rw [← whole]
    simpa using Remaining.start _
  obtain ⟨first, afterName⟩ := readCstr_of_writeCstr named start
  obtain ⟨second, afterSql⟩ := readCstr_of_writeCstr plain afterName
  have oid : ∀ (x : Int32) (pos : Nat) (rest : Bytes), Remaining buf pos (writeI32 x ++ rest) →
      readI32At buf pos = .ok (x, pos + (writeI32 x).length) := by
    intro x pos rest here
    exact (readI32At_of_remaining here).1
  obtain ⟨last, count, all, -⟩ := readCounted "negative parameter-type count in Parse" few
    (fun x _ => oid x) afterSql
  rw [decodeParse, first, ok_bind]
  simp only [second, count, all, ok_bind, pure_eq]

theorem decodeBind_body {paramFormats resultFormats : List Int16} (plain : PlainText portal)
    (named : PlainText statement) (fewFormats : paramFormats.length ≤ 32767)
    (fewParams : params.length ≤ 32767) (fewResults : resultFormats.length ≤ 32767)
    (small : ∀ value ∈ params, (writeParam value).length < 2 ^ 31) :
    decodeBind (writeCstr portal ++ writeCstr statement ++ writeCounted writeI16 paramFormats ++
      writeCounted writeParam params ++ writeCounted writeI16 resultFormats) =
        .ok (.bind portal statement paramFormats params resultFormats) := by
  generalize whole :
    writeCstr portal ++ writeCstr statement ++ writeCounted writeI16 paramFormats ++
    writeCounted writeParam params ++ writeCounted writeI16 resultFormats = buf
  have start : Remaining buf 0 (writeCstr portal ++ (writeCstr statement ++
      (writeCounted writeI16 paramFormats ++ (writeCounted writeParam params ++
        (writeCounted writeI16 resultFormats ++ []))))) := by
    rw [← whole]
    simpa using Remaining.start _
  have format : ∀ (x : Int16) (pos : Nat) (rest : Bytes), Remaining buf pos (writeI16 x ++ rest) →
      readI16 buf pos = .ok (x, pos + (writeI16 x).length) := by
    intro x pos rest here
    exact (readI16_of_remaining here).1
  obtain ⟨first, afterPortal⟩ := readCstr_of_writeCstr plain start
  obtain ⟨second, afterName⟩ := readCstr_of_writeCstr named afterPortal
  obtain ⟨_, count, formats, afterFormats⟩ := readCounted
    "negative format-code count in Bind" fewFormats (fun x _ => format x) afterName
  obtain ⟨_, count', values, afterParams⟩ := readCounted
    "negative parameter count in Bind" fewParams
    (fun x there pos rest here => readParam_of_remaining (small x there) here) afterFormats
  obtain ⟨_, count'', results, -⟩ := readCounted
    "negative result-format count in Bind" fewResults (fun x _ => format x) afterParams
  rw [decodeBind, first, ok_bind]
  simp only [second, count, formats, count', values, count'', results, ok_bind, pure_eq]

theorem decodeNamed_body {message : String} {of : UInt8 → Bytes → FrontendMessage} (kind : UInt8)
    {name : Bytes} (plain : PlainText name) :
    decodeNamed (kind :: writeCstr name) message of = .ok (of kind name) := by
  generalize whole : kind :: writeCstr name = buf
  have start : Remaining buf 0 (kind :: (writeCstr name ++ [])) := by
    rw [← whole]
    simpa using Remaining.start _
  have nonempty : buf ≠ [] := by
    rw [← whole]
    exact cons_ne_nil _ _
  obtain ⟨read, -⟩ := readCstr_of_writeCstr plain start.tail
  rw [decodeNamed, if_neg nonempty, start.getByte, ok_bind, read]
  rfl

theorem decodeExecute_body {maxRows : Int32} (plain : PlainText portal) :
    decodeExecute (writeCstr portal ++ writeI32 maxRows) = .ok (.execute portal maxRows) := by
  generalize whole : writeCstr portal ++ writeI32 maxRows = buf
  have start : Remaining buf 0 (writeCstr portal ++ (writeI32 maxRows ++ [])) := by
    rw [← whole]
    simpa using Remaining.start _
  obtain ⟨first, afterPortal⟩ := readCstr_of_writeCstr plain start
  obtain ⟨second, -⟩ := readI32At_of_remaining afterPortal
  rw [decodeExecute, first, ok_bind]
  simp only [second, ok_bind, pure_eq]

theorem writeParam_length_le (there : value ∈ params) :
    (writeParam value).length ≤ (params.flatMap writeParam).length := by
  obtain ⟨before, after, rfl⟩ := append_of_mem there
  simp only [flatMap_append, flatMap_cons, length_append]
  omega

/-- What a client writes for a message is decoded to this message. -/
theorem decodeFrontend_body {m : FrontendMessage} (wellFormed : m.WellFormed) :
    decodeFrontend m.body m.tag = .ok m := by
  obtain ⟨short, parts⟩ := wellFormed
  cases m with
  | query sql => exact decodeQuery_body parts
  | parse statement sql paramTypes => exact decodeParse_body parts.1 parts.2.1 parts.2.2
  | bind portal statement paramFormats params resultFormats =>
    obtain ⟨plain, named, fewFormats, fewParams, fewResults⟩ := parts
    refine decodeBind_body plain named fewFormats fewParams fewResults ?_
    intro value there
    have part := writeParam_length_le there
    simp only [FrontendMessage.body, writeCounted, length_append] at short
    omega
  | describe kind name => exact decodeNamed_body kind parts
  | execute portal maxRows => exact decodeExecute_body parts
  | close kind name => exact decodeNamed_body kind parts
  | sync => rfl
  | flush => rfl
  | terminate => rfl

end RoundTrip

def frame (tag : UInt8) (body : Bytes) : Bytes :=
  tag :: (writeI32 (.ofNat (body.length + 4)) ++ body)

/-- The length of a frame as its reader finds it. -/
theorem frame_length {body : Bytes} (small : body.length + 4 < 2 ^ 31) (rest : Bytes) :
    let bytes := writeI32 (.ofNat (body.length + 4)) ++ (body ++ rest)
    ¬ bytes.length < 4 ∧ i32FromBe (bytes.take 4) = .ofNat (body.length + 4) ∧
      ¬ Int32.ofNat (body.length + 4) < 4 ∧
      (Int32.ofNat (body.length + 4)).toNatClampNeg - 4 = body.length ∧
      bytes.drop 4 = body ++ rest := by
  refine ⟨?_, ?_, ?_, ?_, drop_left' (writeI32_length _)⟩
  · rw [length_append, writeI32_length]
    omega
  · rw [take_left' (writeI32_length _), i32FromBe_writeI32]
  · rw [Int32.lt_iff_toInt_lt, Int32.toInt_ofNat_of_lt small, show (4 : Int32).toInt = 4 from rfl]
    omega
  · rw [Int32.toNatClampNeg_ofNat_of_lt small, Nat.add_sub_cancel]

end GalaxDb.Wire
