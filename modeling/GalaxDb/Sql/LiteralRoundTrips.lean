import GalaxDb.Sql.LiteralTotality

/-!
# Values that read back from their text

Bytes and identifiers read back always. An array is written without quotes, so it reads back
exactly if its texts have no comma, no quote and no blank at an end, none of them is spelled
like NULL, and it is not a single empty text.
-/

namespace GalaxDb.Sql.Types

open Decoded Utf8 Decoded List
open Server (Text isWhitespace trimBy utf8 eqIgnoreAsciiCase)

/-- The value reads back from the text that is written for it. -/
def RoundTrips (v : Value) (ty : SqlType) : Prop :=
  ∀ b, ∃ t, formatValue b v ty = .ok t ∧ parseValue b t ty = .ok v

theorem digitChar_spec {d : Nat} (digit : d < 16) : hexValue (Nat.digitChar d) = some d ∧
    (Nat.digitChar d).toNat < 128 ∧ isWhitespace (Nat.digitChar d) = false ∧
      Nat.digitChar d ≠ '-' ∧ Nat.digitChar d ≠ '+' := by
  interval_cases d <;> decide

theorem hexPair_spec (b : UInt8) : fromStrRadix16 (hexPair b) = some b ∧
    ∀ c ∈ hexPair b, c.toNat < 128 ∧ isWhitespace c = false ∧ c ≠ '-' := by
  have below := b.toNat_lt
  obtain ⟨high, narrow, shown, dash, plus⟩ := @digitChar_spec (b.toNat / 16) (by omega)
  obtain ⟨low, narrow', shown', dash', -⟩ := @digitChar_spec (b.toNat % 16) (by omega)
  constructor
  · simp only [hexPair, fromStrRadix16, if_neg plus, high, low, Option.bind_some, Option.map_some,
      Nat.div_add_mod]
    exact congrArg some (UInt8.ofNat_toNat)
  · intro c mem
    rcases mem_cons.mp mem with rfl | mem
    · exact ⟨narrow, shown, dash⟩
    · obtain rfl := mem_singleton.mp mem
      exact ⟨narrow', shown', dash'⟩

theorem byteLen_hexPair (b : UInt8) : byteLen (hexPair b) = 2 := by
  obtain ⟨-, narrow⟩ := hexPair_spec b
  have first := utf8Size_of_narrow (narrow _ mem_cons_self).1
  have second := utf8Size_of_narrow (narrow _ (mem_cons_of_mem _ mem_cons_self)).1
  simp [hexPair, first, second]

theorem readPairs_hex (message : Text) (bytes : Bytes) :
    readPairs message bytes.length (bytes.flatMap hexPair) = .ok bytes := by
  induction bytes with
  | nil => rfl
  | cons b bytes ih =>
    have parts := splitAtByte_append (hexPair b) (bytes.flatMap hexPair)
    rw [byteLen_hexPair] at parts
    rw [length_cons, flatMap_cons, readPairs, slice, parts]
    simp only [ok_bind, (hexPair_spec b).1, orError_some, ih]
    rfl

theorem byteLen_hex (bytes : Bytes) : byteLen (bytes.flatMap hexPair) = 2 * bytes.length := by
  induction bytes with
  | nil => rfl
  | cons b bytes ih =>
    rw [flatMap_cons, byteLen_append, byteLen_hexPair, ih, length_cons]
    omega

variable {bytes : Bytes}

theorem hex_visible {c : Char} (member : c ∈ bytes.flatMap hexPair) :
    isWhitespace c = false ∧ c ≠ '-' := by
  obtain ⟨b, -, inside⟩ := mem_flatMap.mp member
  exact ((hexPair_spec b).2 c inside).2

theorem parseBytea_formatBytea (bytes : Bytes) : parseBytea (formatBytea bytes) = .ok bytes := by
  have trimmed : trim (formatBytea bytes) = formatBytea bytes := by
    refine Server.trimBy_of_none fun c member => ?_
    rcases mem_cons.mp member with rfl | member
    · rfl
    rcases mem_cons.mp member with rfl | member
    · rfl
    · exact (hex_visible member).1
  have digits : (if ['\\', 'x'].isPrefixOf (formatBytea bytes) then (formatBytea bytes).drop 2
      else formatBytea bytes) = bytes.flatMap hexPair := by
    simp [formatBytea, List.isPrefixOf]
  rw [parseBytea]
  simp only [trimmed, digits, byteLen_hex]
  rw [if_neg (by omega), Nat.mul_div_cancel_left _ (by decide), readPairs_hex]

theorem formatUuid_eq (length : bytes.length = 16) : formatUuid bytes =
    (bytes.flatMap hexPair).take 8 ++ '-' :: (((bytes.flatMap hexPair).drop 8).take 4 ++
      '-' :: (((bytes.flatMap hexPair).drop 12).take 4 ++ '-' ::
        (((bytes.flatMap hexPair).drop 16).take 4 ++
        '-' :: (bytes.flatMap hexPair).drop 20))) := by
  rw [formatUuid, if_neg (not_not.mpr length)]

theorem parts_of_uuid (j : Text) :
    j.take 8 ++ ((j.drop 8).take 4 ++ ((j.drop 12).take 4 ++ ((j.drop 16).take 4 ++ j.drop 20))) =
      j := by
  have step : ∀ n, (j.drop n).take 4 ++ j.drop (n + 4) = j.drop n := fun n => by
    rw [← drop_drop, take_append_drop]
  rw [step 16, step 12, step 8, take_append_drop]

theorem parseUuid_formatUuid (length : bytes.length = 16) :
    parseUuid (formatUuid bytes) = .ok bytes := by
  have hex : ∀ c ∈ bytes.flatMap hexPair, isWhitespace c = false ∧ c ≠ '-' := fun c => hex_visible
  have written := formatUuid_eq length
  generalize eq : bytes.flatMap hexPair = j at *
  have visible : ∀ c ∈ formatUuid bytes, isWhitespace c = false := by
    intro c member
    rw [written] at member
    simp only [mem_append, mem_cons] at member
    rcases member with h | rfl | h | rfl | h | rfl | h | rfl | h
    · exact (hex c (mem_of_mem_take h)).1
    · rfl
    · exact (hex c (mem_of_mem_drop (mem_of_mem_take h))).1
    · rfl
    · exact (hex c (mem_of_mem_drop (mem_of_mem_take h))).1
    · rfl
    · exact (hex c (mem_of_mem_drop (mem_of_mem_take h))).1
    · rfl
    · exact (hex c (mem_of_mem_drop h)).1
  have digits : (formatUuid bytes).filter (· ≠ '-') = j := by
    have kept : ∀ t : Text, (∀ c ∈ t, c ∈ j) → t.filter (· ≠ '-') = t := fun t inside =>
      filter_eq_self.mpr fun c member => by simpa using (hex c (inside c member)).2
    have dash : ∀ t : Text, ('-' :: t).filter (· ≠ '-') = t.filter (· ≠ '-') := fun t =>
      filter_cons_of_neg (by decide)
    rw [written]
    simp only [filter_append, dash]
    rw [kept _ fun c => mem_of_mem_take, kept _ fun c h => mem_of_mem_drop (mem_of_mem_take h),
      kept _ fun c h => mem_of_mem_drop (mem_of_mem_take h),
      kept _ fun c h => mem_of_mem_drop (mem_of_mem_take h), kept _ fun c => mem_of_mem_drop]
    exact parts_of_uuid j
  have whole := readPairs_hex (quoting "invalid uuid literal '" (formatUuid bytes) "'") bytes
  have size := byteLen_hex bytes
  rw [length, eq] at whole size
  rw [parseUuid, trim, Server.trimBy_of_none visible]
  simp only [digits, size]
  simpa using whole

section Splitting

variable {s : Text}

/-- Without quotes an array body is split at its commas. -/
theorem splitElements_of_plain (cur : Text) (plain : '"' ∉ s) :
    splitElements false cur s = (s.splitOn ',').modifyHead (cur ++ ·) := by
  induction s generalizing cur with
  | nil => simp [splitElements]
  | cons c s ih =>
    obtain ⟨here, later⟩ := not_or.mp (mt List.mem_cons.mpr plain)
    rw [splitElements.eq_def]
    simp only
    rw [if_neg (Ne.symm here), if_neg (by simp), List.splitOn_cons_eq_if_modifyHead]
    by_cases comma : c = ','
    · rw [if_pos ⟨comma, trivial⟩, ih [] later, if_pos (by simpa using comma)]
      cases s.splitOn ',' <;> simp
    · rw [if_neg fun both => comma both.1, ih _ later, if_neg (by simpa using comma)]
      cases s.splitOn ',' <;> simp

/-- The characters of the pieces and one more for each of them; a quote is in none. -/
theorem splitElements_size (inQuotes : Bool) (cur s : Text) :
    ((splitElements inQuotes cur s).map fun e => e.length + 1).sum ≤ cur.length + s.length + 1 ∧
      (inQuotes = false → '"' ∈ s →
        ((splitElements inQuotes cur s).map fun e => e.length + 1).sum ≤
          cur.length + s.length) := by
  fun_induction splitElements inQuotes cur s with
  | case1 inQuotes cur => simp
  | case2 inQuotes cur rest ih =>
    rw [length_cons]
    exact ⟨by omega, fun _ _ => by omega⟩
  | case3 inQuotes cur c quote escape next rest ih =>
    rw [length_append, length_singleton] at ih
    rw [length_cons, length_cons]
    exact ⟨by omega, fun outside => by simp [escape.2] at outside⟩
  | case4 inQuotes cur c quote escape =>
    exact ⟨by simp, fun outside => by simp [escape.2] at outside⟩
  | case5 inQuotes cur c rest quote escape comma ih =>
    rw [map_cons, sum_cons, length_cons]
    rw [length_nil] at ih
    refine ⟨by omega, fun outside member => ?_⟩
    have := ih.2 outside ((mem_cons.mp member).resolve_left (Ne.symm quote))
    omega
  | case6 inQuotes cur c rest quote escape comma ih =>
    rw [length_append, length_singleton] at ih
    rw [length_cons]
    refine ⟨by omega, fun outside member => ?_⟩
    have := ih.2 outside ((mem_cons.mp member).resolve_left (Ne.symm quote))
    omega

end Splitting

section Arrays

variable {texts elements : List Text}

/-- What an array is split into again. -/
def PlainText (t : Text) : Prop := '"' ∉ t ∧ ',' ∉ t ∧ trim t = t

variable {c : Char} {s : Text}

theorem mem_trim (member : c ∈ s) (visible : isWhitespace c = false) : c ∈ trim s := by
  have kept : ∀ t : Text, c ∈ t → c ∈ t.dropWhile isWhitespace := by
    intro t there
    rw [← List.takeWhile_append_dropWhile (p := isWhitespace) (l := t)] at there
    rcases List.mem_append.mp there with front | back
    · rw [List.mem_takeWhile_imp front] at visible
      cases visible
    · exact back
  exact List.mem_reverse.mpr (kept _ (List.mem_reverse.mpr (kept s member)))

theorem length_trim_le (s : Text) : (trim s).length ≤ s.length := by
  have shorter : ∀ t : Text, (t.dropWhile isWhitespace).length ≤ t.length :=
    fun t => (List.dropWhile_suffix _).length_le
  have back := shorter (s.dropWhile isWhitespace).reverse
  rw [List.length_reverse] at back
  rw [trim, trimBy, Server.trimEndBy, List.length_reverse]
  exact back.trans (shorter s)

theorem trim_eq_self_of_length (same : (trim s).length = s.length) : trim s = s := by
  have suffix : ∀ t : Text, (t.dropWhile isWhitespace).length ≤ t.length :=
    fun t => (List.dropWhile_suffix _).length_le
  have back := suffix (s.dropWhile isWhitespace).reverse
  have front := suffix s
  rw [trim, trimBy, Server.trimEndBy] at same ⊢
  rw [List.length_reverse] at back same
  have whole : s.dropWhile isWhitespace = s :=
    (List.dropWhile_suffix _).eq_of_length (by omega)
  rw [whole] at same ⊢
  rw [(List.dropWhile_suffix _).eq_of_length (by rw [List.length_reverse]; exact same),
    List.reverse_reverse]

/-- The text of an array. -/
def arrayText (texts : List Text) : Text := '{' :: [','].intercalate texts ++ ['}']

theorem parseArrayElements_arrayText (texts : List Text) : parseArrayElements (arrayText texts) =
    .ok (if trim ([','].intercalate texts) = [] then []
      else (splitElements false [] ([','].intercalate texts)).map trim) := by
  have trimmed : trim (arrayText texts) = arrayText texts := by
    refine trim_eq_self (fun c first => ?_) fun c last => ?_
    · obtain rfl : '{' = c := Option.some.inj first
      rfl
    · rw [arrayText, List.getLast?_concat] at last
      obtain rfl : '}' = c := Option.some.inj last
      rfl
  rw [parseArrayElements]
  simp only [trimmed]
  rw [arrayText, if_pos ⟨rfl, by simp⟩]
  simp only [List.cons_append, List.tail_cons, List.dropLast_concat]
  split_ifs <;> rfl

theorem size_intercalate (proper : texts ≠ []) :
    (texts.map fun t => t.length + 1).sum = ([','].intercalate texts).length + 1 := by
  induction texts with
  | nil => exact absurd rfl proper
  | cons t rest ih =>
    cases rest with
    | nil => simp
    | cons t' rest =>
      rw [List.intercalate_cons_cons, List.map_cons, List.sum_cons, ih (List.cons_ne_nil _ _)]
      simp only [List.length_append, List.length_cons, List.length_nil]
      omega

theorem splitOn_intercalate_eq (proper : texts ≠ []) :
    ([','].intercalate texts).splitOn ',' = texts.flatMap (·.splitOn ',') := by
  induction texts with
  | nil => exact absurd rfl proper
  | cons t rest ih =>
    cases rest with
    | nil => simp
    | cons t' rest =>
      rw [List.intercalate_cons_cons, List.append_assoc, List.singleton_append,
        List.splitOn_append_cons_self, ih (List.cons_ne_nil _ _), ← List.flatMap_cons]

theorem mem_intercalate (other : c ≠ ',') : c ∈ [','].intercalate texts ↔ ∃ t ∈ texts, c ∈ t := by
  induction texts with
  | nil => simp
  | cons u rest ih =>
    cases rest with
    | nil => simp
    | cons t' rest =>
      rw [List.intercalate_cons_cons, List.mem_append, List.mem_append, ih, List.mem_singleton,
        or_iff_left other]
      simp

/-- An array of plain texts is split into them, unless it is one empty text. -/
theorem parseArrayElements_of_plain (plain : ∀ t ∈ texts, PlainText t) (several : texts ≠ [[]]) :
    parseArrayElements (arrayText texts) = .ok texts := by
  rw [parseArrayElements_arrayText]
  match texts, plain, several with
  | [], _, _ => rfl
  | t :: rest, plain, several =>
    have visible : trim ([','].intercalate (t :: rest)) ≠ [] := by
      cases rest with
      | nil =>
        rw [List.intercalate_singleton, (plain t List.mem_cons_self).2.2]
        exact fun empty => several (by rw [empty])
      | cons t' rest =>
        have comma : ',' ∈ trim ([','].intercalate (t :: t' :: rest)) := by
          refine mem_trim ?_ (by decide)
          simp
        exact List.ne_nil_of_mem comma
    have unquoted : '"' ∉ [','].intercalate (t :: rest) := by
      intro inside
      obtain ⟨u, member, quote⟩ := (mem_intercalate (by decide)).mp inside
      exact (plain u member).1 quote
    rw [if_neg visible, splitElements_of_plain [] unquoted,
      splitOn_intercalate ',' (fun u member => (plain u member).2.1) (cons_ne_nil _ _)]
    have self : (t :: rest).map trim = t :: rest :=
      (map_congr_left fun u member => (plain u member).2.2).trans (map_id _)
    simpa using self

/-- If splitting adds no piece, there is nothing to split. -/
theorem singles_of_length (count : (texts.flatMap (·.splitOn ',')).length = texts.length) :
    ∀ t ∈ texts, t.splitOn ',' = [t] := by
  have atLeast : ∀ l : List Text, l.length ≤ (l.flatMap (·.splitOn ',')).length := by
    intro l
    induction l with
    | nil => exact Nat.le_refl 0
    | cons t l ih =>
      have := length_pos_of_ne_nil (splitOn_ne_nil ',' t)
      rw [flatMap_cons, length_append, length_cons]
      omega
  induction texts with
  | nil => simp
  | cons t rest ih =>
    have one := length_pos_of_ne_nil (splitOn_ne_nil ',' t)
    have others := atLeast rest
    rw [flatMap_cons, length_append, length_cons] at count
    intro u member
    rcases mem_cons.mp member with rfl | later
    · obtain ⟨piece, only⟩ := length_eq_one_iff.mp (show (u.splitOn ',').length = 1 by omega)
      have joined : [','].intercalate (u.splitOn ',') = u := intercalate_splitOn ','
      rw [only, intercalate_singleton] at joined
      rw [only, joined]
    · exact ih (by omega) u later

/-- Where the pieces of an array have the lengths of its texts, it was split into them. -/
theorem plain_of_parseArrayElements (proper : texts ≠ []) (split :
    parseArrayElements (arrayText texts) = .ok elements)
    (sizes : elements.map List.length = texts.map List.length) :
    (∀ t ∈ texts, PlainText t) ∧ texts ≠ [[]] ∧ elements = texts := by
  have count : elements.length = texts.length := by simpa using congrArg List.length sizes
  have total : (elements.map fun e => e.length + 1).sum =
      (texts.map fun t => t.length + 1).sum := by
    have plus : ∀ l : List Text, (l.map fun e => e.length + 1) = (l.map List.length).map (· + 1) :=
      by simp
    rw [plus, plus, sizes]
  rw [parseArrayElements_arrayText, ok.injEq] at split
  by_cases blank : trim ([','].intercalate texts) = []
  · rw [if_pos blank] at split
    subst split
    exact absurd (length_eq_zero_iff.mp count.symm) proper
  rw [if_neg blank] at split
  subst split
  have body := size_intercalate proper
  obtain ⟨-, quoted⟩ := splitElements_size false [] ([','].intercalate texts)
  have shorter : ∀ pieces : List Text, ((pieces.map trim).map fun e => e.length + 1).sum ≤
      (pieces.map fun e => e.length + 1).sum := by
    intro pieces
    induction pieces with
    | nil => exact Nat.le_refl 0
    | cons e pieces ih =>
      have := length_trim_le e
      simp only [map_cons, sum_cons]
      omega
  have unquoted : '"' ∉ [','].intercalate texts := by
    intro inside
    have dropped := quoted rfl inside
    have trimmed := shorter (splitElements false [] ([','].intercalate texts))
    simp only [List.length_nil] at dropped
    omega
  have pieces : splitElements false [] ([','].intercalate texts) =
      texts.flatMap (·.splitOn ',') := by
    rw [splitElements_of_plain [] unquoted, splitOn_intercalate_eq proper]
    cases texts.flatMap (·.splitOn ',') <;> simp
  rw [pieces] at sizes count ⊢
  rw [List.length_map] at count
  have single := singles_of_length count
  have whole : texts.flatMap (·.splitOn ',') = texts := by
    rw [List.flatMap_congr single]
    exact List.flatMap_singleton' texts
  rw [whole] at sizes ⊢
  have trimmed : ∀ t ∈ texts, trim t = t := by
    intro t member
    refine trim_eq_self_of_length ?_
    rw [List.map_map] at sizes
    exact List.map_inj_left.mp sizes t member
  refine ⟨fun t member =>
    ⟨fun quote => unquoted ((mem_intercalate (by decide)).mpr ⟨t, member, quote⟩), ?_,
    trimmed t member⟩, ?_, (List.map_congr_left trimmed).trans (List.map_id _)⟩
  · exact not_mem_of_mem_splitOn (single t member ▸ List.mem_singleton.mpr rfl)
  · rintro rfl
    exact blank rfl

end Arrays

section Cells

inductive IntegerType where
  | int2
  | int4
  | int8
  deriving DecidableEq

def IntegerType.sqlType : IntegerType → SqlType
  | .int2 => .int2
  | .int4 => .int4
  | .int8 => .int8

inductive TextType where
  | text
  | varchar (length : Option Nat)
  | json
  | jsonb
  deriving DecidableEq

def TextType.sqlType : TextType → SqlType
  | .text => .text
  | .varchar length => .varchar length
  | .json => .json
  | .jsonb => .jsonb

/-- An array of integers, truth values or texts, with NULL among them. -/
inductive Cells where
  | integers (type : IntegerType) (cells : List (Option Int64))
  | booleans (cells : List (Option Bool))
  | texts (type : TextType) (cells : List (Option Text))

namespace Cells

def elem : Cells → SqlType
  | .integers type _ => type.sqlType
  | .booleans _ => .bool
  | .texts type _ => type.sqlType

def cellValue {α : Type} (value : α → Value) (cell : Option α) :
    Value := (cell.map value).getD .null

def cellText {α : Type} (text : α → Text) (cell : Option α) : Text := (cell.map text).getD nullText

def intText (n : Int) : Text :=
  if n < 0 then '-' :: Nat.toDigits 10 n.natAbs else Nat.toDigits 10 n.natAbs

def boolText (b : Bool) : Text := if b then "true".toList else "false".toList

/-- The elements. -/
def items : Cells → List Value
  | .integers _ cells => cells.map (cellValue fun n => .integer n.toInt)
  | .booleans cells => cells.map (cellValue .bool)
  | .texts _ cells => cells.map (cellValue fun t => .text (utf8 t))

def value (c : Cells) : Value := .array c.items

def type (c : Cells) : SqlType := .array c.elem

/-- The texts have no comma, no quote and no blank at an end, none is spelled like NULL, and they
are not a single empty one. -/
def Plain : Cells → Prop
  | .texts _ cells =>
    (∀ t, some t ∈ cells → PlainText t ∧ ¬ IsNull t) ∧ cells ≠ [some []]
  | _ => True

end Cells

theorem chars_utf8 (t : Text) : chars (utf8 t) = t := by
  have decoded : (utf8 t).toByteArray.utf8Decode? = some t.toArray := List.utf8Decode?_utf8Encode
  rw [chars, decoded]
  simp

theorem utf8_intText (n : Int) : utf8 (Cells.intText n) = intDisplay n := by
  have digits : utf8 (Nat.toDigits 10 n.natAbs) = natDigits n.natAbs :=
    Digits.utf8_eq fun c member => Nat.isDigit_of_mem_toDigits (by decide) (by decide) member
  unfold Cells.intText intDisplay
  split_ifs
  · rw [Server.utf8_cons, digits]
    rfl
  · exact digits

theorem utf8_boolText (b : Bool) : utf8 (Cells.boolText b) = valueDisplay (.bool b) := by
  cases b <;> rfl

theorem collect_eq_ok {ε α β : Type} {f : α → Decoded ε β} {l : List α} {bs : List β} :
    collect f l = .ok bs ↔ List.Forall₂ (fun a b => f a = .ok b) l bs := by
  induction l generalizing bs with
  | nil => simp [collect, eq_comm]
  | cons a l ih =>
    constructor
    · intro all
      obtain ⟨b, first, later⟩ := bind_eq_ok.mp all
      obtain ⟨bs', rest, eq⟩ := bind_eq_ok.mp later
      obtain rfl := ok.inj eq
      exact .cons first (ih.mp rest)
    · rintro (_ | ⟨first, rest⟩)
      rw [collect, first, ok_bind, ih.mpr rest]
      rfl

variable {elem : SqlType} {items : List Value} {texts : List Text} {b : Build}

theorem formatValue_array (written :
    List.Forall₂ (fun v t => formatValue b v elem = .ok t) items texts) :
    formatValue b (.array items) (.array elem) = .ok (arrayText texts) := by
  rw [formatValue, collect_eq_ok.mpr written]
  rfl

variable {elements : List Text}

theorem parseValue_array {s : Text} (split : parseArrayElements s = .ok elements) :
    parseValue b s (.array elem) =
      (collect (readElement b elem) elements >>= fun items => .ok (.array items)) := by
  rw [parseValue, split]
  rfl

/-- An array of plain texts reads back if its elements do. -/
theorem roundTrips_of_plain
    (written : ∀ b, List.Forall₂ (fun v t => formatValue b v elem = .ok t) items texts)
    (plain : ∀ t ∈ texts, PlainText t) (several : texts ≠ [[]])
    (read : ∀ b, List.Forall₂ (fun t v => readElement b elem t = .ok v) texts items) :
    RoundTrips (.array items) (.array elem) := fun b =>
  ⟨arrayText texts, formatValue_array (written b), by
    rw [parseValue_array (parseArrayElements_of_plain plain several), collect_eq_ok.mpr (read b),
      ok_bind]⟩

theorem lengths_eq (written : List.Forall₂ (fun v t => formatValue b v elem = .ok t) items texts)
    (sizes : ∀ v t e, formatValue b v elem = .ok t → readElement b elem e = .ok v →
      e.length = t.length)
    (read : List.Forall₂ (fun e v => readElement b elem e = .ok v) elements items) :
    elements.map List.length = texts.map List.length := by
  induction read generalizing texts with
  | nil =>
    cases written
    rfl
  | cons first _ ih =>
    cases written with
    | cons text rest => rw [List.map_cons, List.map_cons, sizes _ _ _ text first, ih rest]

/-- What reads back was split into its texts, if an element's text has the length of its value's. -/
theorem plain_of_roundTrips (proper : texts ≠ [])
    (written : ∀ b, List.Forall₂ (fun v t => formatValue b v elem = .ok t) items texts)
    (sizes : ∀ b v t e, formatValue b v elem = .ok t → readElement b elem e = .ok v →
      e.length = t.length)
    (back : RoundTrips (.array items) (.array elem)) :
    (∀ t ∈ texts, PlainText t) ∧ texts ≠ [[]] ∧
      List.Forall₂ (fun t v => readElement .debug elem t = .ok v) texts items := by
  obtain ⟨s, text, parsed⟩ := back .debug
  rw [formatValue_array (written .debug), ok.injEq] at text
  subst text
  cases split : parseArrayElements (arrayText texts) with
  | fault g => exact absurd split (parseArrayElements_ne_fault _ g)
  | error e =>
    rw [parseValue, split] at parsed
    cases parsed
  | ok elements =>
    rw [parseValue_array split] at parsed
    obtain ⟨read, collected, eq⟩ := bind_eq_ok.mp parsed
    obtain rfl : read = items := by simpa using eq
    have all := collect_eq_ok.mp collected
    have lengths := lengths_eq (written .debug) (sizes .debug) all
    obtain ⟨plain, several, same⟩ := plain_of_parseArrayElements proper split lengths
    exact ⟨plain, several, same ▸ all⟩

section Kinds

theorem isNull_nullText : IsNull nullText := by decide

theorem plain_nullText : PlainText nullText := by
  refine ⟨by decide, by decide, ?_⟩
  decide

theorem toLower_of_isDigit {c : Char} (digit : c.isDigit = true) : c.toLower = c := by
  obtain ⟨low, high⟩ := toNat_of_isDigit digit
  unfold Char.toLower
  split_ifs with upper
  · have : 65 ≤ c.toNat := UInt32.le_iff_toNat_le.mp upper.1
    omega
  · rfl

/-- Digits, and a minus in front of them, are plain and no NULL. -/
theorem intText_plain (n : Int) : PlainText (Cells.intText n) ∧ ¬ IsNull (Cells.intText n) ∧
    Cells.intText n ≠ [] := by
  have digits : ∀ c ∈ Nat.toDigits 10 n.natAbs, c.isDigit = true :=
    fun c member => Nat.isDigit_of_mem_toDigits (by decide) (by decide) member
  have chars : ∀ c ∈ Cells.intText n, c.isDigit = true ∨ c = '-' := by
    intro c member
    unfold Cells.intText at member
    split_ifs at member
    · rcases List.mem_cons.mp member with rfl | digit
      · exact .inr rfl
      · exact .inl (digits c digit)
    · exact .inl (digits c member)
  have proper : Cells.intText n ≠ [] := by
    unfold Cells.intText
    split_ifs <;> simp [Nat.toDigits_ne_nil]
  have other : ∀ c : Char, c.isDigit = false → c ≠ '-' → c ∉ Cells.intText n := by
    intro c noDigit noMinus member
    rcases chars c member with digit | minus
    · rw [digit] at noDigit
      cases noDigit
    · exact noMinus minus
  refine ⟨⟨other _ (by decide) (by decide), other _ (by decide) (by decide), ?_⟩, ?_, proper⟩
  · refine Server.trimBy_of_none fun c member => ?_
    rcases chars c member with digit | rfl
    · exact isWhitespace_of_isDigit digit
    · rfl
  · intro null
    have same : (Cells.intText n).map Char.toLower = nullText.map Char.toLower := eq_of_beq null
    obtain ⟨c, rest, eq⟩ := List.exists_cons_of_ne_nil proper
    have first := chars c (eq ▸ List.mem_cons_self)
    rw [eq] at same
    have lower : c.toLower = 'n' := (List.cons.inj same).1
    rcases first with digit | rfl
    · rw [toLower_of_isDigit digit] at lower
      subst lower
      cases digit
    · cases lower

theorem boolText_plain (b : Bool) : PlainText (Cells.boolText b) ∧ ¬ IsNull (Cells.boolText b) ∧
    Cells.boolText b ≠ [] := by
  cases b
  · exact ⟨⟨by decide, by decide, by decide⟩, by decide, by decide⟩
  · exact ⟨⟨by decide, by decide, by decide⟩, by decide, by decide⟩

variable {α : Type} {elem : SqlType} {value : α → Value} {text : α → Text} {b : Build}

theorem formatValue_null (b : Build) (elem : SqlType) :
    formatValue b .null elem = .ok nullText := by
  cases elem <;> rfl

theorem formatValue_cells (write : ∀ a, formatValue b (value a) elem = .ok (text a)) (cells :
    List (Option α)) :
    List.Forall₂ (fun v t => formatValue b v elem = .ok t) (cells.map (Cells.cellValue value))
      (cells.map (Cells.cellText text)) := by
  rw [List.forall₂_map_left_iff, List.forall₂_map_right_iff, List.forall₂_same]
  intro cell _
  cases cell with
  | none => exact formatValue_null b elem
  | some a => exact write a

variable {cells : List (Option α)}

theorem readElement_cells (read :
    ∀ a, some a ∈ cells → readElement b elem (text a) = .ok (value a)) :
    List.Forall₂ (fun t v => readElement b elem t = .ok v) (cells.map (Cells.cellText text))
      (cells.map (Cells.cellValue value)) := by
  rw [List.forall₂_map_left_iff, List.forall₂_map_right_iff, List.forall₂_same]
  intro cell member
  cases cell with
  | none => exact readElement_null isNull_nullText
  | some a => exact read a member

theorem plain_cells (plain : ∀ a, some a ∈ cells → PlainText (text a)) :
    ∀ t ∈ cells.map (Cells.cellText text), PlainText t := by
  intro t member
  obtain ⟨cell, there, rfl⟩ := List.mem_map.mp member
  cases cell with
  | none => exact plain_nullText
  | some a => exact plain a there

/-- Elements whose texts are plain and no NULL read back. -/
theorem roundTrips_cells (write : ∀ b a, formatValue b (value a) elem = .ok (text a))
    (read : ∀ b a, parseValue b (text a) elem = .ok (value a))
    (plain : ∀ a, PlainText (text a) ∧ ¬ IsNull (text a) ∧ text a ≠ []) (cells : List (Option α)) :
    RoundTrips (.array (cells.map (Cells.cellValue value))) (.array elem) := by
  refine roundTrips_of_plain (fun b => formatValue_cells (write b) cells)
    (plain_cells fun a _ => (plain a).1) ?_ fun b => readElement_cells fun a _ => ?_
  · intro single
    obtain ⟨cell, -, only⟩ := List.mem_map.mp (single ▸ List.mem_singleton.mpr rfl)
    cases cell with
    | none => cases only
    | some a => exact (plain a).2.2 only
  · exact (readElement_literal (plain a).2.1).trans (read b a)

theorem roundTrips_integers (type : IntegerType) (cells : List (Option Int64)) :
    RoundTrips (Cells.integers type cells).value (Cells.integers type cells).type := by
  refine roundTrips_cells (fun b n => ?_) (fun b n => ?_) (fun n => intText_plain n.toInt) cells
  · have written := chars_utf8 (Cells.intText n.toInt)
    rw [utf8_intText] at written
    cases type <;> exact congrArg ok written
  · have range : i64Min ≤ n.toInt ∧ n.toInt ≤ i64Max := by
      have low := n.le_toInt
      have high := n.toInt_lt
      unfold i64Min i64Max
      omega
    have read : parseInt (trim (Cells.intText n.toInt)) = some n.toInt := by
      rw [(intText_plain n.toInt).1.2.2, parseInt, utf8_intText,
        parseI64_intDisplay range.1 range.2]
    cases type <;> simp [IntegerType.sqlType, Cells.elem, parseValue, read]

theorem roundTrips_booleans (cells : List (Option Bool)) :
    RoundTrips (Cells.booleans cells).value (Cells.booleans cells).type := by
  refine roundTrips_cells (fun b v => ?_) (fun b v => ?_) boolText_plain cells
  · have written := chars_utf8 (Cells.boolText v)
    rw [utf8_boolText] at written
    exact congrArg ok written
  · cases v <;> rfl

theorem formatValue_text (b : Build) (type : TextType) (t : Text) :
    formatValue b (.text (utf8 t)) type.sqlType = .ok t := by
  cases type <;> exact congrArg ok (chars_utf8 t)

theorem parseValue_text (b : Build) (type : TextType) (t : Text) :
    parseValue b t type.sqlType = .ok (.text (utf8 t)) := by
  cases type <;> rfl

/-- A text element is as long as the text that is written for its value. -/
theorem length_eq_of_text (type : TextType) {v : Value} {t e : Text}
    (written : formatValue b v type.sqlType = .ok t) (read : readElement b type.sqlType e = .ok v) :
    e.length = t.length := by
  by_cases null : IsNull e
  · rw [readElement_null null] at read
    obtain rfl := ok.inj read
    rw [formatValue_null, ok.injEq] at written
    have same : e.map Char.toLower = nullText.map Char.toLower := eq_of_beq null
    have length := congrArg List.length same
    rw [List.length_map, List.length_map, written] at length
    exact length
  · rw [readElement_literal null, parseValue_text] at read
    obtain rfl := ok.inj read
    rw [formatValue_text, ok.injEq] at written
    rw [written]

theorem roundTrips_texts (type : TextType) (cells : List (Option Text)) :
    RoundTrips (Cells.texts type cells).value (Cells.texts type cells).type ↔
      (Cells.texts type cells).Plain := by
  have written : ∀ b, List.Forall₂ (fun v t => formatValue b v type.sqlType = .ok t)
      (cells.map (Cells.cellValue fun t => .text (utf8 t))) (cells.map (Cells.cellText id)) :=
    fun b => formatValue_cells (fun t => formatValue_text b type t) cells
  constructor
  · intro back
    by_cases proper : cells = []
    · subst proper
      exact ⟨by simp, by simp⟩
    have filled : cells.map (Cells.cellText id) ≠ [] := by simpa using proper
    obtain ⟨plain, several, read⟩ :=
      plain_of_roundTrips filled written (fun b v t e => length_eq_of_text type) back
    refine ⟨fun t member => ?_, fun single => several (by rw [single]; rfl)⟩
    refine ⟨plain t (List.mem_map.mpr ⟨some t, member, rfl⟩), fun null => ?_⟩
    rw [List.forall₂_map_left_iff, List.forall₂_map_right_iff, List.forall₂_same] at read
    have value := read (some t) member
    rw [show Cells.cellText id (some t) = t from rfl, readElement_null null] at value
    cases value
  · rintro ⟨plain, several⟩
    refine roundTrips_of_plain written (plain_cells fun t member => (plain t member).1) ?_ fun b =>
      readElement_cells fun t member =>
        (readElement_literal (plain t member).2).trans (parseValue_text b type t)
    intro single
    obtain ⟨cell, only, eq⟩ := List.map_eq_singleton_iff.mp single
    cases cell with
    | none => cases eq
    | some t => exact several (only ▸ eq ▸ rfl)

end Kinds

/-- No build panics on a literal exactly if its text fits its type. Bytes and identifiers read
back from their texts, and so do the arrays that are plain and no others. -/
theorem literals_exact (s : Text) (ty : SqlType) :
    ((∀ b, (parseValue b s ty).Safe) ↔ LiteralFits ty s) ∧
      (∀ bytes, RoundTrips (.blob bytes) .bytea) ∧
      (∀ bytes, bytes.length = 16 → RoundTrips (.blob bytes) .uuid) ∧
      ∀ c : Cells, RoundTrips c.value c.type ↔ c.Plain := by
  have behaves := behaves_literal ty s
  refine ⟨⟨fun safe => behaves.debug (safe .debug), behaves.safe⟩, fun bytes b => ?_,
    fun bytes length b => ?_, fun c => ?_⟩
  · exact ⟨formatBytea bytes, rfl, by rw [parseValue, parseBytea_formatBytea]; rfl⟩
  · exact ⟨formatUuid bytes, rfl, by rw [parseValue, parseUuid_formatUuid length]; rfl⟩
  · cases c with
    | integers type cells => exact iff_of_true (roundTrips_integers type cells) trivial
    | booleans cells => exact iff_of_true (roundTrips_booleans cells) trivial
    | texts type cells => exact roundTrips_texts type cells

/-- Three characters of which the second has two bytes panic, and a comma splits a text. -/
theorem wide_character_panics : ¬ (parseValue .release "a\u00e9b".toList .bytea).Safe ∧
    ¬ RoundTrips (Cells.texts .text [some "a,b".toList]).value
      (Cells.texts .text [some "a,b".toList]).type := by
  constructor
  · exact not_safe_fault _
  · rw [roundTrips_texts]
    rintro ⟨plain, -⟩
    exact absurd (plain _ (mem_singleton.mpr rfl)).1.2.1 (by decide)

end Cells

end GalaxDb.Sql.Types
