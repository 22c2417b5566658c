import GalaxDb.Sql.RowRoundTrip
import GalaxDb.Sql.TypedValues

/-!
# The fields of dates and times

The parser reads the numbers between dashes and between colons, and a fraction of six bytes.
The numbers that are written for a date and for a time of day are its fields again.
-/

namespace GalaxDb.Sql.Types

open Decoded Utf8 Calendar List Option
open Server (Text isWhitespace trimBy trimEndBy utf8)

section Numerals

def Digits (t : Text) : Prop := ∀ c ∈ t, c.isDigit = true

instance (t : Text) : Decidable (Digits t) := inferInstanceAs (Decidable (∀ c ∈ t, _))

/-- The number with these decimal digits. -/
def digitsValue (t : Text) : Nat := Nat.ofDigitChars 10 t 0

variable {t : Text} {n : Int} {width : Nat}

theorem Digits.utf8_eq (digits : Digits t) : utf8 t = t.map fun c => c.toNat.toUInt8 :=
  Server.utf8_of_narrow fun c member => by
    have := (toNat_of_isDigit (digits c member)).2
    omega

theorem isDigit_toUInt8 {c : Char} (digit : c.isDigit = true) : isDigit c.toNat.toUInt8 = true := by
  obtain ⟨low, high⟩ := toNat_of_isDigit digit
  simp only [isDigit, Bool.and_eq_true, decide_eq_true_eq, UInt8.le_iff_toNat_le,
    toUInt8_toNat_of_isDigit digit]
  exact ⟨low, high⟩

theorem parseInt_of_digits (proper : t ≠ []) (digits : Digits t) (small :
    (digitsValue t : Int) ≤ i64Max) :
    parseInt t = some (digitsValue t : Int) := by
  have bytes : ∀ b ∈ utf8 t, isDigit b = true := by
    intro b member
    rw [digits.utf8_eq] at member
    obtain ⟨c, inside, rfl⟩ := mem_map.mp member
    exact isDigit_toUInt8 (digits c inside)
  have all : (utf8 t).all isDigit = true := all_eq_true.mpr bytes
  have some_ : utf8 t ≠ [] := by
    rw [digits.utf8_eq]
    simpa using proper
  have value : digitsToNat (utf8 t) = digitsValue t := by
    rw [digits.utf8_eq, digitsToNat, digitsToNat_map t digits]
    rfl
  have low : i64Min ≤ (digitsValue t : Int) := by
    unfold i64Min
    omega
  simp [parseInt, parseI64, takeSign_of_digits bytes, all, some_, value, low, small]

theorem parseInt_spec (read : parseInt t = some n) : InI64 n ∧
    n = if (takeSign (utf8 t)).1 then -(digitsToNat (takeSign (utf8 t)).2 : Int)
      else digitsToNat (takeSign (utf8 t)).2 := by
  unfold parseInt parseI64 at read
  simp only [ite_none_left_eq_some, ite_none_right_eq_some, some.injEq] at read
  obtain ⟨-, ⟨low, high⟩, value⟩ := read
  unfold i64Min at low
  unfold i64Max at high
  exact ⟨⟨by omega, by omega⟩, value.symm⟩

/-- A number without a minus is not negative. -/
theorem parseInt_nonneg (unsigned : '-' ∉ t) (read : parseInt t = some n) : 0 ≤ n := by
  have sign : (takeSign (utf8 t)).1 = false := by
    have absent : (45 : UInt8) ∉ utf8 t := by
      intro inside
      obtain ⟨c, member, byte⟩ := mem_flatMap.mp inside
      exact Server.notMem_utf8EncodeChar (d := '-') (fun same => unsigned (same ▸ member))
        (by decide) byte
    unfold takeSign
    split
    · rename_i starts
      exact absurd (starts ▸ mem_cons_self) absent
    · rfl
    · rfl
  have value := (parseInt_spec read).2
  rw [sign, if_neg Bool.false_ne_true] at value
  omega

/-- Zeros in front of a number leave it as it is. -/
theorem padded_spec (width : Nat) (nonneg : 0 ≤ n) : padded width n ≠ [] ∧ Digits (padded width n) ∧
    (digitsValue (padded width n) : Int) = n := by
  have value : (n.natAbs : Int) = n := Int.natAbs_of_nonneg nonneg
  unfold padded
  simp only [if_neg (Int.not_lt.mpr nonneg)]
  refine ⟨?_, ?_, ?_⟩
  · simp [Nat.toDigits_ne_nil]
  · intro c member
    rcases mem_append.mp member with zero | digit
    · rw [eq_of_mem_replicate zero]
      rfl
    · exact Nat.isDigit_of_mem_toDigits (by decide) (by decide) digit
  · rw [digitsValue, Nat.ofDigitChars_append, Nat.ofDigitChars_replicate_zero, Nat.mul_zero,
      Nat.ofDigitChars_ten_toDigits, value]

theorem parseInt_padded (width : Nat) (nonneg : 0 ≤ n) (small : n ≤ i64Max) :
    parseInt (padded width n) = some n := by
  obtain ⟨proper, digits, value⟩ := padded_spec width nonneg
  rw [parseInt_of_digits proper digits (by omega), value]

end Numerals

section DateFields

variable {s : Text} {y m d : Int}

/-- The numbers between the dashes. -/
def dateFields (s : Text) : Option (Int × Int × Int) :=
  match (trim s).splitOn '-' with
  | [year, month, day] => do
    let y ← parseInt year
    let m ← parseInt month
    let d ← parseInt day
    return (y, m, d)
  | _ => none

/-- What the parser asks of a month and a day. -/
def Coarse (m d : Int) : Prop := (1 ≤ m ∧ m ≤ 12) ∧ 1 ≤ d ∧ d ≤ 31

instance : Decidable (Coarse m d) := inferInstanceAs (Decidable (_ ∧ _))

theorem dateFields_range (fields : dateFields s = some (y, m, d)) : InI64 y ∧ 0 ≤ y := by
  unfold dateFields at fields
  split at fields
  · rename_i year month day parts
    have unsigned : '-' ∉ year := not_mem_of_mem_splitOn (parts ▸ mem_cons_self)
    cases read : parseInt year with
    | none => simp [read] at fields
    | some n =>
      have same : n = y := by
        simp only [read, bind_eq_bind, bind_some, bind_eq_some_iff] at fields
        obtain ⟨_, -, _, -, eq⟩ := fields
        exact (Prod.mk.inj (some.inj eq)).1
      exact same ▸ ⟨(parseInt_spec read).1, parseInt_nonneg unsigned read⟩
  · cases fields

theorem parseDateToDays_of_fields (b : Build) (fields : dateFields s = some (y, m, d))
    (coarse : Coarse m d) : parseDateToDays b s = daysFromCivil b y m d := by
  unfold dateFields at fields
  split at fields
  · rename_i year month day parts
    simp only [bind_eq_bind, bind_eq_some_iff] at fields
    obtain ⟨_, readY, _, readM, _, readD, eq⟩ := fields
    obtain ⟨rfl, rest⟩ := Prod.mk.inj (some.inj eq)
    obtain ⟨rfl, rfl⟩ := Prod.mk.inj rest
    rw [parseDateToDays, parts]
    simp only [readY, readM, readD, orError_some, ok_bind]
    rw [if_neg (not_or.mpr ⟨not_not.mpr coarse.1, not_not.mpr coarse.2⟩)]
  · cases fields

theorem parseDateToDays_error (b : Build)
    (refused : ∀ y m d, dateFields s = some (y, m, d) → ¬ Coarse m d) :
    ∃ e, parseDateToDays b s = .error e := by
  by_cases three : ∃ year month day, List.splitOn '-' (trim s) = [year, month, day]
  · obtain ⟨year, month, day, parts⟩ := three
    simp only [dateFields, parts] at refused
    simp only [parseDateToDays, parts]
    cases readY : parseInt year with
    | none => exact ⟨_, rfl⟩
    | some y =>
      cases readM : parseInt month with
      | none => exact ⟨_, rfl⟩
      | some m =>
        cases readD : parseInt day with
        | none => exact ⟨_, rfl⟩
        | some d =>
          have bad := refused y m d (by simp [readY, readM, readD])
          refine ⟨quoting "invalid date '" s "': month/day out of range", ?_⟩
          exact if_pos (not_and_or.mp bad)
  · rw [parseDateToDays]
    split
    · rename_i parts
      exact absurd ⟨_, _, _, parts⟩ three
    · exact ⟨_, rfl⟩

end DateFields

section TimeFields

variable {s : Text} {h mi se f : Int}

/-- The text in front of the point and the digits behind it. -/
def timeParts (s : Text) : Text × Text := (splitOnce (· == '.') s).getD (s, [])

def fraction (s : Text) : Text := (timeParts s).2

/-- The numbers between the colons, zero where they are missing. -/
def timeFields (s : Text) : Option (Int × Int × Int) :=
  if s = [] then some (0, 0, 0)
  else
    match (timeParts s).1.splitOn ':' with
    | [hour] => do return (← parseInt hour, 0, 0)
    | [hour, minute] => do return (← parseInt hour, ← parseInt minute, 0)
    | [hour, minute, second] => do return (← parseInt hour, ← parseInt minute, ← parseInt second)
    | _ => none

/-- The sixth byte of the fraction does not end a character. -/
def FractionCut (s : Text) : Prop := 6 < byteLen (fraction s) ∧ splitAtByte (fraction s) 6 = none

instance : Decidable (FractionCut s) := inferInstanceAs (Decidable (_ ∧ _))

/-- Six bytes of the fraction. -/
def sixDigits (s : Text) : Text :=
  let front := if byteLen (fraction s) ≤ 6 then fraction s
    else ((splitAtByte (fraction s) 6).map Prod.fst).getD []
  front ++ List.replicate (6 - byteLen front) '0'

def fractionMicros (s : Text) : Option Int :=
  if fraction s = [] then some 0 else parseInt (sixDigits s)

/-- The microseconds of an hour, a minute, a second and a fraction. -/
def timeSum (b : Build) (h mi se f : Int) : Decoded Text Int := do
  let minutes ← i64 b ((← i64 b (h * 60)) + mi)
  let seconds ← i64 b ((← i64 b (minutes * 60)) + se)
  i64 b ((← i64 b (seconds * 1000000)) + f)

theorem truncate_fraction (cut : ¬ FractionCut s) : ∃ front : Text,
    (truncate 6 (fraction s) : Decoded Text Text) = .ok front ∧
      sixDigits s = front ++ List.replicate (6 - byteLen front) '0' := by
  unfold truncate sixDigits slice
  by_cases short : byteLen (fraction s) ≤ 6
  · exact ⟨fraction s, if_pos short, by simp [short]⟩
  · cases parts : splitAtByte (fraction s) 6 with
    | none => exact absurd ⟨by omega, parts⟩ cut
    | some cutting => exact ⟨cutting.1, by simp [short], by simp [short]⟩

theorem truncate_cut (cut : FractionCut s) :
    (truncate 6 (fraction s) : Decoded Text Text) = .fault .outOfRange := by
  rw [truncate, if_neg (by have := cut.1; omega), slice, cut.2]
  rfl

/-- The number of hours, minutes and seconds in a list of parts. -/
theorem timeFields_of_parts (proper : s ≠ []) : timeFields s =
    (if 3 < ((timeParts s).1.splitOn ':').length then none else do
        let h ← parseInt (((timeParts s).1.splitOn ':').headD [])
        let mi ← (((timeParts s).1.splitOn ':')[1]?).elim (some 0) parseInt
        let se ← (((timeParts s).1.splitOn ':')[2]?).elim (some 0) parseInt
        return (h, mi, se)) := by
  have some_ := splitOn_ne_nil ':' (timeParts s).1
  rw [timeFields, if_neg proper]
  generalize (timeParts s).1.splitOn ':' = parts at *
  match parts with
  | [] => exact absurd rfl some_
  | [_] => rfl
  | [_, _] => rfl
  | [_, _, _] => rfl
  | _ :: _ :: _ :: _ :: _ => simp

/-- Behind the fields: the fraction is cut to six bytes and read, and all is summed up. -/
theorem parseTimeToMicros_of_fields (b : Build) (fields : timeFields s = some (h, mi, se)) :
    parseTimeToMicros b s = if FractionCut s then .fault .outOfRange
      else orError (quoting "invalid time fraction '" s "'") (fractionMicros s) >>=
        timeSum b h mi se := by
  by_cases empty : s = []
  · subst empty
    obtain ⟨rfl, rest⟩ := Prod.mk.inj (some.inj fields)
    obtain ⟨rfl, rfl⟩ := Prod.mk.inj rest
    cases b <;> rfl
  · rw [timeFields_of_parts empty] at fields
    rw [parseTimeToMicros, if_neg empty]
    have some_ := splitOn_ne_nil ':' (timeParts s).1
    split_ifs at fields with count
    simp only [bind_eq_bind, bind_eq_some_iff] at fields
    obtain ⟨_, readH, _, readMi, _, readSe, eq⟩ := fields
    obtain ⟨rfl, rest⟩ := Prod.mk.inj (some.inj eq)
    obtain ⟨rfl, rfl⟩ := Prod.mk.inj rest
    have parts_eq : (splitOnce (· == '.') s).getD (s, []) = timeParts s := rfl
    simp only [parts_eq]
    rw [if_neg (not_or.mpr ⟨some_, count⟩), readH, readMi, readSe]
    have behind : (timeParts s).2 = fraction s := rfl
    simp only [orError_some, ok_bind, behind]
    by_cases cut : FractionCut s
    · rw [if_pos cut, truncate_cut cut, fault_bind]
    · obtain ⟨front, truncated, six⟩ := truncate_fraction cut
      rw [if_neg cut, truncated, ok_bind, ← six]
      rfl

theorem parseTimeToMicros_error (b : Build) (unread : timeFields s = none) :
    ∃ e, parseTimeToMicros b s = .error e := by
  by_cases empty : s = []
  · subst empty
    cases unread
  · rw [timeFields_of_parts empty] at unread
    rw [parseTimeToMicros, if_neg empty]
    have some_ := splitOn_ne_nil ':' (timeParts s).1
    have parts_eq : (splitOnce (· == '.') s).getD (s, []) = timeParts s := rfl
    simp only [parts_eq]
    by_cases count : 3 < ((timeParts s).1.splitOn ':').length
    · rw [if_pos (.inr count)]
      exact ⟨_, rfl⟩
    · rw [if_neg count] at unread
      rw [if_neg (not_or.mpr ⟨some_, count⟩)]
      generalize parseInt (((timeParts s).1.splitOn ':').headD []) = hour at *
      generalize (((timeParts s).1.splitOn ':')[1]?).elim (some 0) parseInt = minute at *
      generalize (((timeParts s).1.splitOn ':')[2]?).elim (some 0) parseInt = second at *
      cases hour with
      | none => exact ⟨_, rfl⟩
      | some h =>
        cases minute with
        | none => exact ⟨_, rfl⟩
        | some mi =>
          cases second with
          | none => exact ⟨_, rfl⟩
          | some se => cases unread

end TimeFields

section TimeOfDays

variable {s : Text} {h mi se f : Int}

variable {t : Text}

theorem digitsValue_lt (digits : Digits t) : digitsValue t < 10 ^ t.length := by
  suffices bound : ∀ n, Nat.ofDigitChars 10 t n < (n + 1) * 10 ^ t.length by
    simpa [digitsValue] using bound 0
  induction t with
  | nil => simp
  | cons c t ih =>
    intro n
    obtain ⟨low, high⟩ := toNat_of_isDigit (digits c mem_cons_self)
    have rest :=
      ih (fun d member => digits d (mem_cons_of_mem c member)) (10 * n + (c.toNat - '0'.toNat))
    refine rest.trans_le ?_
    have zero : '0'.toNat = 48 := rfl
    rw [length_cons, Nat.pow_succ', ← Nat.mul_assoc]
    exact Nat.mul_le_mul_right _ (by omega)

theorem Digits.byteLen_eq (digits : Digits t) : byteLen t = t.length := by
  induction t with
  | nil => rfl
  | cons c t ih =>
    have one : c.utf8Size = 1 := utf8Size_of_narrow (by
      have := (toNat_of_isDigit (digits c mem_cons_self)).2
      omega)
    rw [byteLen_cons, one, ih fun d member => digits d (mem_cons_of_mem c member), length_cons]
    omega

/-- Six digits, cut off or filled up with zeros. -/
def microDigits (t : Text) : Text := (t ++ List.replicate 6 '0').take 6

theorem microDigits_spec (digits : Digits t) :
    (microDigits t).length = 6 ∧ Digits (microDigits t) := by
  refine ⟨by simp [microDigits], fun c member => ?_⟩
  rcases mem_append.mp (mem_of_mem_take member) with inside | zero
  · exact digits c inside
  · rw [eq_of_mem_replicate zero]
    rfl

/-- A fraction of digits is not cut inside of a character. -/
theorem sixDigits_of_digits (digits : Digits (fraction s)) :
    ¬ FractionCut s ∧ sixDigits s = microDigits (fraction s) := by
  have length := digits.byteLen_eq
  unfold FractionCut sixDigits microDigits
  generalize fraction s = t at *
  by_cases short : byteLen t ≤ 6
  · refine ⟨fun cut => by omega, ?_⟩
    rw [if_pos short]
    change t ++ List.replicate (6 - byteLen t) '0' = _
    rw [length, take_append, take_of_length_le (by omega), take_replicate]
    congr 2
    omega
  · have front : byteLen (t.take 6) = 6 := by
      have : Digits (t.take 6) := fun c member => digits c (mem_of_mem_take member)
      rw [this.byteLen_eq, length_take]
      omega
    have parts : splitAtByte t 6 = some (t.take 6, t.drop 6) := by
      rw [splitAtByte_eq_some]
      exact ⟨(take_append_drop 6 t).symm, front⟩
    rw [if_neg short, parts, take_append_of_le_length (by omega)]
    simp [front]

theorem fractionMicros_of_digits (digits : Digits (fraction s)) :
    fractionMicros s = some (digitsValue (microDigits (fraction s)) : Int) := by
  obtain ⟨six, sixth⟩ := microDigits_spec digits
  unfold fractionMicros
  split_ifs with empty
  · rw [empty]
    rfl
  · rw [(sixDigits_of_digits digits).2]
    refine parseInt_of_digits (ne_nil_of_length_pos (by omega)) sixth ?_
    have := digitsValue_lt sixth
    rw [six] at this
    unfold i64Max
    omega

theorem timeSum_eq (b : Build) (t : TimeOfDay) :
    timeSum b t.hour t.minute t.second t.micro = .ok t.micros := by
  have := t.hour_range
  have := t.minute_range
  have := t.second_range
  have := t.micro_range
  unfold timeSum TimeOfDay.micros
  rw [i64_bind _ ⟨by omega, by omega⟩, i64_bind _ ⟨by omega, by omega⟩,
    i64_bind _ ⟨by omega, by omega⟩,
    i64_bind _ ⟨by omega, by omega⟩, i64_bind _ ⟨by omega, by omega⟩,
      i64_of_fits ⟨by omega, by omega⟩]

/-- A debug build that gets through has the sum. -/
theorem timeSum_debug (safe : (timeSum .debug h mi se f).Safe) :
    timeSum .debug h mi se f = .ok (((h * 60 + mi) * 60 + se) * 1000000 + f) := by
  simp only [timeSum, i64_debug_bind_safe] at safe
  obtain ⟨hours, minutes, scaled, seconds, micros, sum⟩ := safe
  have last : InI64 (((h * 60 + mi) * 60 + se) * 1000000 + f) := by simpa [i64_safe_iff] using sum
  rw [timeSum, i64_bind _ hours, i64_bind _ minutes, i64_bind _ scaled, i64_bind _ seconds,
    i64_bind _ micros,
    i64_of_fits last]

end TimeOfDays

/-- The date and the time of a timestamp. -/
def momentParts (s : Text) : Text × Text :=
  (splitOnce (fun c => c == ' ' || c == 'T') (stripSuffix 'Z' (trim s))).getD
    (stripSuffix 'Z' (trim s), "00:00:00".toList)

def datePart (s : Text) : Text := (momentParts s).1

def timePart (s : Text) : Text := (momentParts s).2

/-- The text has the fields of the date. -/
def DenotesDate (s : Text) (date : Date) :
    Prop := dateFields s = some (date.year, date.month, date.day)

/-- The text has the fields of the time of day, and a fraction of digits alone. -/
def DenotesTime (s : Text) (t : TimeOfDay) : Prop :=
  timeFields s = some (t.hour, t.minute, t.second) ∧ Digits (fraction s) ∧
    t.micro = digitsValue (microDigits (fraction s))

theorem parseTimestampToMicros_eq (b : Build) (s : Text) : parseTimestampToMicros b s = (do
    let days ← parseDateToDays b (datePart s)
    let microsInDay ← parseTimeToMicros b (timePart s)
    i64 b ((← i64 b (days * microsPerDay)) + microsInDay)) := rfl

section Written

variable {s : Text} {c : Char}

theorem isWhitespace_of_isDigit (digit : c.isDigit = true) : isWhitespace c = false := by
  obtain ⟨low, high⟩ := toNat_of_isDigit digit
  simp only [isWhitespace, Bool.or_eq_false_iff, Bool.and_eq_false_iff, decide_eq_false_iff_not,
    beq_eq_false_iff_ne]
  omega

/-- Nothing is taken off a text that neither begins nor ends with a blank. -/
theorem trim_eq_self (first : ∀ c, s.head? = some c → isWhitespace c = false)
    (last : ∀ c, s.getLast? = some c → isWhitespace c = false) : trim s = s := by
  have front : s.dropWhile isWhitespace = s := by
    cases s with
    | nil => rfl
    | cons c s => rw [dropWhile_cons_of_neg (by simp [first c rfl])]
  have back : s.reverse.dropWhile isWhitespace = s.reverse := by
    cases reversed : s.reverse with
    | nil => rfl
    | cons c t =>
      have final : s.getLast? = some c := by rw [← head?_reverse, reversed]; rfl
      rw [dropWhile_cons_of_neg (by simp [last c final])]
  rw [trim, trimBy, front, trimEndBy, back, reverse_reverse]

/-- The digits of a field, and its first and its last one. -/
structure Field (t : Text) (n : Int) : Prop where
  proper : t ≠ []
  digits : Digits t
  read : parseInt t = some n

theorem field_padded (width : Nat) {n : Int} (nonneg : 0 ≤ n) (small : n ≤ i64Max) :
    Field (padded width n) n :=
  ⟨(padded_spec width nonneg).1, (padded_spec width nonneg).2.1, parseInt_padded width nonneg small⟩

variable {t y m d : Text} {yn mn dn : Int}

theorem Field.not_mem (field : Field t dn) (other : c.isDigit = false) : c ∉ t := fun member => by
  rw [field.digits c member] at other
  cases other

theorem Field.head (field : Field t dn) (rest : Text) (start : (t ++ rest).head? = some c) :
    isWhitespace c = false := by
  obtain ⟨first, tail, rfl⟩ := exists_cons_of_ne_nil field.proper
  obtain rfl : first = c := some.inj start
  exact isWhitespace_of_isDigit (field.digits first mem_cons_self)

theorem Field.getLast (field : Field t dn) (front : Text) (stop : (front ++ t).getLast? = some c) :
    c.isDigit = true := by
  rw [getLast?_append_of_ne_nil _ field.proper] at stop
  exact field.digits c (mem_of_getLast? stop)

/-- Three fields with dashes between them are the fields of the text. -/
theorem dateFields_of_fields (year : Field y yn) (month : Field m mn) (day : Field d dn) :
    dateFields (y ++ '-' :: (m ++ '-' :: d)) = some (yn, mn, dn) := by
  have trimmed : trim (y ++ '-' :: (m ++ '-' :: d)) = y ++ '-' :: (m ++ '-' :: d) := by
    refine trim_eq_self (fun c => year.head _) fun c stop => ?_
    have front : y ++ '-' :: (m ++ '-' :: d) = (y ++ '-' :: (m ++ ['-'])) ++ d := by simp
    rw [front] at stop
    exact isWhitespace_of_isDigit (day.getLast _ stop)
  have dash : '-'.isDigit = false := by decide
  rw [dateFields, trimmed, splitOn_append_cons_self_of_not_mem (year.not_mem dash),
    splitOn_append_cons_self_of_not_mem (month.not_mem dash),
    splitOn_eq_singleton (day.not_mem dash)]
  simp [year.read, month.read, day.read]

variable {p : Char → Bool} {a : Text}

theorem splitOnce_append {b : Text} (none_ : ∀ d ∈ a, p d = false) (hit : p c = true) :
    splitOnce p (a ++ c :: b) = some (a, b) := by
  have front : (a ++ c :: b).takeWhile (!p ·) = a := by
    rw [takeWhile_append_of_pos fun d member => by simp [none_ d member],
      takeWhile_cons_of_neg (by simp [hit]), append_nil]
  have back : (a ++ c :: b).dropWhile (!p ·) = c :: b := by
    rw [dropWhile_append_of_pos fun d member => by simp [none_ d member],
      dropWhile_cons_of_neg (by simp [hit])]
  rw [splitOnce, if_pos (by simp [hit]), front, back]
  rfl

theorem splitOnce_none (none_ : ∀ d ∈ a, p d = false) : splitOnce p a = none := by
  rw [splitOnce, if_neg]
  simpa using none_

end Written

theorem field_hour (t : TimeOfDay) : Field (padded 2 t.hour) t.hour :=
  field_padded 2 t.hour_range.1 (by have := t.hour_range.2; unfold i64Max; omega)

theorem field_minute (t : TimeOfDay) : Field (padded 2 t.minute) t.minute :=
  field_padded 2 t.minute_range.1 (by have := t.minute_range.2; unfold i64Max; omega)

theorem field_second (t : TimeOfDay) : Field (padded 2 t.second) t.second :=
  field_padded 2 t.second_range.1 (by have := t.second_range.2; unfold i64Max; omega)

theorem field_micro (t : TimeOfDay) : Field (padded 6 t.micro) t.micro :=
  field_padded 6 t.micro_range.1 (by have := t.micro_range.2; unfold i64Max; omega)

theorem length_padded_micro (t : TimeOfDay) : (padded 6 t.micro).length = 6 := by
  have := t.micro_range
  have short : (Nat.toDigits 10 t.micro.natAbs).length ≤ 6 :=
    (Nat.length_toDigits_le_iff (by decide) (by decide)).mpr (by omega)
  unfold padded
  simp only [if_neg (Int.not_lt.mpr t.micro_range.1), length_append, length_replicate]
  omega

/-- The hours, minutes and seconds of a time. -/
def clockText (t : TimeOfDay) :
    Text := padded 2 t.hour ++ ':' :: (padded 2 t.minute ++ ':' :: padded 2 t.second)

theorem splitOn_clockText (t : TimeOfDay) :
    (clockText t).splitOn ':' = [padded 2 t.hour, padded 2 t.minute, padded 2 t.second] := by
  have colon : ':'.isDigit = false := by decide
  rw [clockText, splitOn_append_cons_self_of_not_mem ((field_hour t).not_mem colon),
    splitOn_append_cons_self_of_not_mem ((field_minute t).not_mem colon),
    splitOn_eq_singleton ((field_second t).not_mem colon)]

theorem clockText_ne (t : TimeOfDay) {c : Char} (other : c.isDigit = false) (colon : c ≠ ':') :
    c ∉ clockText t := by
  simp only [clockText, mem_append, mem_cons, not_or]
  exact ⟨(field_hour t).not_mem other, colon, (field_minute t).not_mem other, colon,
    (field_second t).not_mem other⟩

def clock (t : TimeOfDay) : Text := timeText t.hour t.minute t.second t.micro

theorem clock_eq (t : TimeOfDay) :
    clock t = clockText t ++ if t.micro = 0 then [] else '.' :: padded 6 t.micro := by
  simp [clock, timeText, clockText]

theorem timeParts_clock (t : TimeOfDay) :
    timeParts (clock t) = (clockText t, if t.micro = 0 then [] else padded 6 t.micro) := by
  have none_ : ∀ d ∈ clockText t, (d == '.') = false := fun d member =>
    beq_eq_false_iff_ne.mpr fun same =>
      clockText_ne t (c := '.') (by decide) (by decide) (same ▸ member)
  rw [timeParts, clock_eq]
  split_ifs with whole
  · rw [append_nil, splitOnce_none none_]
    rfl
  · rw [splitOnce_append none_ (by decide)]
    rfl

theorem clock_ne_nil (t : TimeOfDay) : clock t ≠ [] := by
  rw [clock_eq, clockText]
  simp

/-- The written time stands for the time. -/
theorem denotesTime_clock (t : TimeOfDay) : DenotesTime (clock t) t := by
  have parts := timeParts_clock t
  have micro := field_micro t
  refine ⟨?_, ?_, ?_⟩
  · rw [timeFields, if_neg (clock_ne_nil t), parts, splitOn_clockText]
    simp [(field_hour t).read, (field_minute t).read, (field_second t).read]
  · rw [fraction, parts]
    split_ifs
    · intro c member
      cases member
    · exact micro.digits
  · rw [fraction, parts]
    split_ifs with whole
    · rw [whole]
      rfl
    · have six : microDigits (padded 6 t.micro) = padded 6 t.micro := by
        rw [microDigits, take_append_of_le_length (length_padded_micro t).ge,
          take_of_length_le (length_padded_micro t).le]
      rw [six]
      exact (padded_spec 6 t.micro_range.1).2.2.symm

theorem getLast_clock (t : TimeOfDay) (front : Text) {c : Char}
    (stop : (front ++ clock t).getLast? = some c) : c.isDigit = true := by
  rw [clock_eq] at stop
  split_ifs at stop with whole
  · refine (field_second t).getLast
      (front ++ padded 2 t.hour ++ ':' :: (padded 2 t.minute ++ [':'])) ?_
    simpa [clockText] using stop
  · refine (field_micro t).getLast (front ++ clockText t ++ ['.']) ?_
    simpa using stop

/-- The text of a moment has the parts that it was written from. -/
theorem momentParts_written {y m d : Text} {yn mn dn : Int} (year : Field y yn) (month : Field m mn)
    (day : Field d dn) (t : TimeOfDay) :
    momentParts ((y ++ '-' :: (m ++ '-' :: d)) ++ ' ' :: clock t) =
      (y ++ '-' :: (m ++ '-' :: d), clock t) := by
  have stop : ∀ c, ((y ++ '-' :: (m ++ '-' :: d)) ++ ' ' :: clock t).getLast? = some c →
      c.isDigit = true := by
    intro c last
    refine getLast_clock t ((y ++ '-' :: (m ++ '-' :: d)) ++ [' ']) ?_
    simpa using last
  have trimmed : trim ((y ++ '-' :: (m ++ '-' :: d)) ++ ' ' :: clock t) =
      (y ++ '-' :: (m ++ '-' :: d)) ++ ' ' :: clock t := by
    refine trim_eq_self (fun c first => ?_) fun c last => isWhitespace_of_isDigit (stop c last)
    rw [append_assoc] at first
    exact year.head _ first
  have noZ : stripSuffix 'Z' ((y ++ '-' :: (m ++ '-' :: d)) ++ ' ' :: clock t) =
      (y ++ '-' :: (m ++ '-' :: d)) ++ ' ' :: clock t := by
    rw [stripSuffix, if_neg]
    intro last
    exact absurd (stop 'Z' last) (by decide)
  have plain : ∀ c ∈ y ++ '-' :: (m ++ '-' :: d), (c == ' ' || c == 'T') = false := by
    intro c member
    have kinds : c.isDigit = true ∨ c = '-' := by
      simp only [mem_append, mem_cons] at member
      rcases member with inside | rfl | inside | rfl | inside
      · exact .inl (year.digits c inside)
      · exact .inr rfl
      · exact .inl (month.digits c inside)
      · exact .inr rfl
      · exact .inl (day.digits c inside)
    rcases kinds with digit | rfl
    · rw [Bool.or_eq_false_iff, beq_eq_false_iff_ne, beq_eq_false_iff_ne]
      constructor
      · rintro rfl
        cases digit
      · rintro rfl
        cases digit
    · rfl
  rw [momentParts, trimmed, noZ, splitOnce_append plain (by decide)]
  rfl

end GalaxDb.Sql.Types
