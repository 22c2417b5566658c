import GalaxDb.Sql.DateTexts

/-!
# Dates and timestamps under a type

A text is read as the day or the microsecond that it denotes exactly if its fields are those
of a date that exists and of a time of day, and the number fits. What is read is written as
a text that reads back.
-/

namespace GalaxDb.Sql.Types

open Decoded Utf8 Calendar
open Server (Text)

/-- The types whose values are days or microseconds. -/
inductive Temporal where
  | date
  | timestamp
  | timestampTz
  deriving DecidableEq

def Temporal.sqlType : Temporal → SqlType
  | .date => .date
  | .timestamp => .timestamp
  | .timestampTz => .timestampTz

/-- The number that a text stands for. -/
def Temporal.Denotes (ty : Temporal) (s : Text) (n : Int) : Prop :=
  match ty with
  | .date => ∃ date, DenotesDate s date ∧ n = date.sinceEpoch
  | _ => ∃ m : Moment, DenotesDate (datePart s) m.date ∧ DenotesTime (timePart s) m.time ∧
    n = m.micros

/-- Reading the text under the type never faults; what it gives is the number that the text
stands for, and the text written for that number reads back. -/
structure CalendarCorrect (ty : Temporal) (s : Text) : Prop where
  total : ∀ b, (parseValue b s ty.sqlType).Safe
  real : ∀ b v, parseValue b s ty.sqlType = .ok v → ∃ n, v = .integer n ∧ ty.Denotes s n
  back : ∀ b v, parseValue b s ty.sqlType = .ok v →
    ∃ t, formatValue b v ty.sqlType = .ok t ∧ parseValue b t ty.sqlType = .ok v

/-- A date that the parser accepts exists, and its number fits. -/
def DateFits (s : Text) : Prop :=
  ∀ y m d, dateFields s = some (y, m, d) → Coarse m d → d ≤ monthLength y m ∧ CivilFits y m d

/-- The time of a timestamp that the parser accepts exists, and the microseconds fit. -/
def MomentFits (s : Text) : Prop :=
  ∀ y m d, dateFields (datePart s) = some (y, m, d) → Coarse m d → CivilFits y m d ∧
    ∀ h mi se, timeFields (timePart s) = some (h, mi, se) → ¬ FractionCut (timePart s) ∧
      ∀ f, fractionMicros (timePart s) = some f →
        d ≤ monthLength y m ∧ (0 ≤ h ∧ h < 24) ∧ (0 ≤ mi ∧ mi < 60) ∧ (0 ≤ se ∧ se < 60) ∧
          Digits (fraction (timePart s)) ∧
          (dayNumber y m d - dayNumber 1970 1 1) * microsPerDay +
            (((h * 60 + mi) * 60 + se) * 1000000 + f) < 2 ^ 63

def Temporal.Fits (ty : Temporal) (s : Text) : Prop :=
  match ty with
  | .date => DateFits s
  | _ => MomentFits s

section Reading

variable {s : Text} {ty : Temporal} {b : Build} {n : Int}

def Temporal.read (ty : Temporal) (b : Build) (s : Text) : Decoded Text Int :=
  match ty with
  | .date => parseDateToDays b s
  | _ => parseTimestampToMicros b s

def Temporal.write (ty : Temporal) (b : Build) (n : Int) : Decoded Text Text :=
  match ty with
  | .date => formatDaysAsDate b n
  | _ => formatMicrosAsTimestamp b n

theorem parseValue_temporal : parseValue b s ty.sqlType =
    mapErr parseErr (ty.read b s) >>= fun n => .ok (.integer n) := by
  cases ty <;> rfl

theorem formatValue_temporal : formatValue b (.integer n) ty.sqlType = ty.write b n := by
  cases ty <;> rfl

theorem parseValue_eq_ok {v : Value} :
    parseValue b s ty.sqlType = .ok v ↔ ∃ n, ty.read b s = .ok n ∧ v = .integer n := by
  rw [parseValue_temporal]
  cases ty.read b s <;> simp [mapErr, eq_comm]

theorem parseValue_safe : (parseValue b s ty.sqlType).Safe ↔ (ty.read b s).Safe := by
  rw [parseValue_temporal]
  cases ty.read b s <;> simp [mapErr]

/-- The three parts, for the numbers alone. -/
theorem calendarCorrect_iff : CalendarCorrect ty s ↔ ∀ b, (ty.read b s).Safe ∧
    ∀ n, ty.read b s = .ok n → ty.Denotes s n ∧ ∃ t, ty.write b n = .ok t ∧
      ty.read b t = .ok n := by
  constructor
  · rintro ⟨total, real, back⟩ b
    refine ⟨parseValue_safe.mp (total b), fun n run => ?_⟩
    have value : parseValue b s ty.sqlType = .ok (.integer n) := parseValue_eq_ok.mpr ⟨n, run, rfl⟩
    obtain ⟨n', same, denotes⟩ := real b _ value
    cases same
    obtain ⟨t, written, again⟩ := back b _ value
    rw [formatValue_temporal] at written
    obtain ⟨n', run', same⟩ := parseValue_eq_ok.mp again
    cases same
    exact ⟨denotes, t, written, run'⟩
  · intro all
    refine ⟨fun b => parseValue_safe.mpr (all b).1, fun b v value => ?_, fun b v value => ?_⟩
    · obtain ⟨n, run, rfl⟩ := parseValue_eq_ok.mp value
      exact ⟨n, rfl, ((all b).2 n run).1⟩
    · obtain ⟨n, run, rfl⟩ := parseValue_eq_ok.mp value
      obtain ⟨t, written, again⟩ := ((all b).2 n run).2
      exact ⟨t, formatValue_temporal.trans written, parseValue_eq_ok.mpr ⟨n, again, rfl⟩⟩

variable {date : Date}

theorem civilFits_date :
    CivilFits date.year date.month date.day ↔
      InI64 date.sinceEpoch ∧ date.sinceEpoch + 719468 < 2 ^ 63 := by
  unfold CivilFits InI64 Date.sinceEpoch Date.number
  omega

theorem coarse_date (date : Date) : Coarse date.month date.day := ⟨date.month_range, date.day_le⟩

/-- The date that accepted fields make. -/
theorem exists_date {y m d : Int} (coarse : Coarse m d) (day : d ≤ monthLength y m) :
    ∃ date : Date, date.year = y ∧ date.month = m ∧ date.day = d :=
  ⟨⟨y, m, d, coarse.1, coarse.2.1, day⟩, rfl, rfl, rfl⟩

theorem field_year (denotes : DenotesDate s date) : Field (padded 4 date.year) date.year := by
  obtain ⟨range, nonneg⟩ := dateFields_range denotes
  exact field_padded 4 nonneg (by have := range.2; unfold i64Max; omega)

theorem field_month (date : Date) : Field (padded 2 date.month) date.month :=
  field_padded 2 (by have := date.month_range; omega)
    (by have := date.month_range; unfold i64Max; omega)

theorem field_day (date : Date) : Field (padded 2 date.day) date.day := by
  have := date.day_le
  exact field_padded 2 (by omega) (by unfold i64Max; omega)

theorem denotesDate_written (denotes : DenotesDate s date) :
    DenotesDate (dateText date.year date.month date.day) date :=
  dateFields_of_fields (field_year denotes) (field_month date) (field_day date)

/-- A text that stands for a date is read as its number. -/
theorem parseDateToDays_date (denotes : DenotesDate s date)
    (fits : CivilFits date.year date.month date.day) :
    parseDateToDays b s = .ok date.sinceEpoch := by
  obtain ⟨inside, room⟩ := civilFits_date.mp fits
  rw [parseDateToDays_of_fields b denotes (coarse_date date), daysFromCivil_date inside room]

theorem date_correct (fits : DateFits s) : CalendarCorrect .date s := by
  rw [calendarCorrect_iff]
  intro b
  by_cases accepted : ∃ y m d, dateFields s = some (y, m, d) ∧ Coarse m d
  · obtain ⟨y, m, d, fields, coarse⟩ := accepted
    obtain ⟨day, room⟩ := fits y m d fields coarse
    obtain ⟨date, rfl, rfl, rfl⟩ := exists_date coarse day
    have run : parseDateToDays b s = .ok date.sinceEpoch := parseDateToDays_date fields room
    obtain ⟨inside, above⟩ := civilFits_date.mp room
    refine ⟨by rw [Temporal.read, run]; exact safe_ok _, fun n same => ?_⟩
    obtain rfl : date.sinceEpoch = n := by
      rw [Temporal.read, run] at same
      exact Decoded.ok.inj same
    refine ⟨⟨date, fields, rfl⟩, dateText date.year date.month date.day, ?_,
      parseDateToDays_date (denotesDate_written fields) room⟩
    rw [Temporal.write, formatDaysAsDate, civilFromDays_sinceEpoch inside above]
    rfl
  · obtain ⟨e, refused⟩ := parseDateToDays_error b (s := s)
      fun y m d fields coarse => accepted ⟨y, m, d, fields, coarse⟩
    refine ⟨by rw [Temporal.read, refused]; exact safe_error e, fun n same => ?_⟩
    rw [Temporal.read, refused] at same
    cases same

theorem date_fits (correct : CalendarCorrect .date s) : DateFits s := by
  rw [calendarCorrect_iff] at correct
  intro y m d fields coarse
  obtain ⟨safe, denoted⟩ := correct .debug
  simp only [Temporal.read, parseDateToDays_of_fields .debug fields coarse] at safe denoted
  have room := civilFits_of_safe coarse.1 safe
  obtain ⟨⟨date, same, -⟩, -⟩ := denoted _ (daysFromCivil_eq .debug coarse.1 coarse.2 room)
  rw [DenotesDate, fields] at same
  obtain ⟨rfl, rest⟩ := Prod.mk.inj (Option.some.inj same)
  obtain ⟨rfl, rfl⟩ := Prod.mk.inj rest
  exact ⟨date.day_range.2, room⟩

end Reading

section ReadingMoments

variable {s : Text} {ty : Temporal} {b : Build} {h mi se f : Int}

theorem parseTimeToMicros_time {t : TimeOfDay} (denotes : DenotesTime s t) :
    parseTimeToMicros b s = .ok t.micros := by
  obtain ⟨fields, digits, micro⟩ := denotes
  rw [parseTimeToMicros_of_fields b fields, if_neg (sixDigits_of_digits digits).1,
    fractionMicros_of_digits digits, orError_some, ok_bind, ← micro, timeSum_eq]

/-- A text that stands for a moment is read as its microseconds. -/
theorem parseTimestampToMicros_moment {m : Moment} (date : DenotesDate (datePart s) m.date)
    (time : DenotesTime (timePart s) m.time) (room : CivilFits m.date.year m.date.month m.date.day)
    (small : m.micros < 2 ^ 63) : parseTimestampToMicros b s = .ok m.micros := by
  have year := Date.number_nonneg (dateFields_range date).2
  have range := m.time.micros_range
  have epoch := epoch_eq
  unfold Moment.micros Date.sinceEpoch Calendar.microsPerDay at small
  rw [parseTimestampToMicros_eq, parseDateToDays_date date room, ok_bind,
    parseTimeToMicros_time time, ok_bind]
  unfold Moment.micros Date.sinceEpoch Calendar.microsPerDay microsPerDay
  rw [i64_bind _ ⟨by omega, by omega⟩, i64_of_fits ⟨by omega, by omega⟩]

/-- The parts of a time of day, from its microseconds. -/
theorem time_parts (t : TimeOfDay) :
    (t.micros.tdiv 1000000).tdiv 3600 = t.hour ∧
    ((t.micros.tdiv 1000000).tmod 3600).tdiv 60 = t.minute ∧
      (t.micros.tdiv 1000000).tmod 60 = t.second ∧ t.micros.tmod 1000000 = t.micro := by
  have := t.hour_range
  have := t.minute_range
  have := t.second_range
  have := t.micro_range
  have low := t.micros_range.1
  have secs : t.micros.tdiv 1000000 = (t.hour * 60 + t.minute) * 60 + t.second := by
    rw [Int.tdiv_eq_ediv_of_nonneg low, TimeOfDay.micros]
    omega
  have micro : t.micros.tmod 1000000 = t.micro := by
    rw [Int.tmod_eq_emod_of_nonneg low, TimeOfDay.micros]
    omega
  rw [secs, Int.tdiv_eq_ediv_of_nonneg (by omega), Int.tmod_eq_emod_of_nonneg (by omega),
    Int.tmod_eq_emod_of_nonneg (by omega), Int.tdiv_eq_ediv_of_nonneg (by omega)]
  exact ⟨by omega, by omega, by omega, micro⟩

theorem formatMicros_moment {m : Moment} (inside : InI64 m.date.sinceEpoch)
    (above : m.date.sinceEpoch + 719468 < 2 ^ 63) : formatMicrosAsTimestamp b m.micros =
      .ok (dateText m.date.year m.date.month m.date.day ++ ' ' :: clock m.time) := by
  have range := m.time.micros_range
  unfold Calendar.microsPerDay at range
  have days : m.micros / microsPerDay = m.date.sinceEpoch := by
    unfold Moment.micros Calendar.microsPerDay microsPerDay
    omega
  have rem : m.micros % microsPerDay = m.time.micros := by
    unfold Moment.micros Calendar.microsPerDay microsPerDay
    omega
  obtain ⟨hour, minute, second, micro⟩ := time_parts m.time
  rw [formatMicrosAsTimestamp, days, rem, civilFromDays_sinceEpoch inside above]
  simp only [ok_bind, hour, minute, second, micro]
  rfl

/-- The text stands for the microseconds. -/
def DenotesMoment (s : Text) (n : Int) : Prop :=
  ∃ m : Moment, DenotesDate (datePart s) m.date ∧ DenotesTime (timePart s) m.time ∧ n = m.micros

/-- What it takes for a text to be right as a timestamp, with or without a zone. -/
def StampCorrect (s : Text) : Prop :=
  ∀ b, (parseTimestampToMicros b s).Safe ∧ ∀ n, parseTimestampToMicros b s = .ok n →
    DenotesMoment s n ∧
    ∃ t, formatMicrosAsTimestamp b n = .ok t ∧ parseTimestampToMicros b t = .ok n

theorem stampCorrect_of_error (refused : ∀ b, ∃ e, parseTimestampToMicros b s = .error e) :
    StampCorrect s := by
  intro b
  obtain ⟨e, run⟩ := refused b
  refine ⟨run ▸ safe_error e, fun n same => ?_⟩
  rw [run] at same
  cases same

/-- The moment of accepted fields. -/
theorem exists_moment {y m d : Int} (coarse : Coarse m d) (fields :
    dateFields (datePart s) = some (y, m, d))
    (times : timeFields (timePart s) = some (h, mi, se))
    (micros : fractionMicros (timePart s) = some f)
    (day : d ≤ monthLength y m) (hours : 0 ≤ h ∧ h < 24) (minutes : 0 ≤ mi ∧ mi < 60)
    (seconds : 0 ≤ se ∧ se < 60) (digits : Digits (fraction (timePart s))) :
    ∃ w : Moment, DenotesDate (datePart s) w.date ∧ DenotesTime (timePart s) w.time ∧
      w.date.number = dayNumber y m d ∧
        w.time.micros = ((h * 60 + mi) * 60 + se) * 1000000 + f := by
  have value := fractionMicros_of_digits digits
  rw [micros, Option.some.injEq] at value
  obtain ⟨length, six⟩ := microDigits_spec digits
  have small := digitsValue_lt six
  rw [length] at small
  exact ⟨⟨⟨y, m, d, coarse.1, coarse.2.1, day⟩,
    ⟨h, mi, se, f, hours, minutes, seconds, by omega, by omega⟩⟩,
    fields, ⟨times, digits, value⟩, rfl, rfl⟩

theorem stampCorrect_of_fits (fits : MomentFits s) : StampCorrect s := by
  by_cases accepted : ∃ y m d, dateFields (datePart s) = some (y, m, d) ∧ Coarse m d
  case neg =>
    refine stampCorrect_of_error fun b => ?_
    obtain ⟨e, refused⟩ := parseDateToDays_error b (s := datePart s)
      fun y m d fields coarse => accepted ⟨y, m, d, fields, coarse⟩
    exact ⟨e, by rw [parseTimestampToMicros_eq, refused, error_bind]⟩
  obtain ⟨y, m, d, fields, coarse⟩ := accepted
  obtain ⟨room, rest⟩ := fits y m d fields coarse
  have days : ∀ b, parseDateToDays b (datePart s) = .ok (dayNumber y m d - dayNumber 1970 1 1) :=
    fun b => by
    rw [parseDateToDays_of_fields b fields coarse, daysFromCivil_eq b coarse.1 coarse.2 room]
  cases times : timeFields (timePart s) with
  | none =>
    refine stampCorrect_of_error fun b => ?_
    obtain ⟨e, refused⟩ := parseTimeToMicros_error b times
    exact ⟨e, by rw [parseTimestampToMicros_eq, days, ok_bind, refused, error_bind]⟩
  | some read =>
    obtain ⟨h, mi, se⟩ := read
    obtain ⟨uncut, rest⟩ := rest h mi se times
    cases micros : fractionMicros (timePart s) with
    | none =>
      refine stampCorrect_of_error fun b => ⟨quoting "invalid time fraction '" (timePart s) "'", ?_⟩
      rw [parseTimestampToMicros_eq, days, ok_bind, parseTimeToMicros_of_fields b times,
        if_neg uncut, micros]
      rfl
    | some f =>
      obtain ⟨day, hours, minutes, seconds, digits, small⟩ := rest f micros
      obtain ⟨w, date, time, number, sum⟩ :=
        exists_moment coarse fields times micros day hours minutes seconds digits
      have same := Option.some.inj (fields.symm.trans date)
      obtain ⟨rfl, rfl, rfl⟩ : y = w.date.year ∧ m = w.date.month ∧ d = w.date.day := by
        simpa using same
      have below : w.micros < 2 ^ 63 := by
        rw [Moment.micros, sum]
        exact small
      obtain ⟨inside, above⟩ := civilFits_date.mp room
      intro b
      have run := parseTimestampToMicros_moment (b := b) date time room below
      refine ⟨run ▸ safe_ok _, fun n again => ?_⟩
      obtain rfl : w.micros = n := Decoded.ok.inj (run.symm.trans again)
      refine ⟨⟨w, date, time, rfl⟩, _, formatMicros_moment inside above, ?_⟩
      have parts :=
        momentParts_written (field_year date) (field_month w.date) (field_day w.date) w.time
      refine parseTimestampToMicros_moment ?_ ?_ room below
      · rw [datePart, dateText, parts]
        exact denotesDate_written date
      · rw [timePart, dateText, parts]
        exact denotesTime_clock w.time

theorem fits_of_stampCorrect (correct : StampCorrect s) : MomentFits s := by
  intro y m d fields coarse
  obtain ⟨safe, denoted⟩ := correct .debug
  rw [parseTimestampToMicros_eq, parseDateToDays_of_fields .debug fields coarse] at safe denoted
  obtain ⟨first, later⟩ := safe_bind_iff.mp safe
  have room := civilFits_of_safe coarse.1 first
  have days := daysFromCivil_eq (ε := Text) .debug coarse.1 coarse.2 room
  refine ⟨room, fun h mi se times => ?_⟩
  have second := later _ days
  obtain ⟨time, last⟩ := safe_bind_iff.mp second
  rw [parseTimeToMicros_of_fields .debug times] at time
  have uncut : ¬ FractionCut (timePart s) := fun cut => by
    rw [if_pos cut] at time
    exact not_safe_fault _ time
  refine ⟨uncut, fun f micros => ?_⟩
  rw [if_neg uncut, micros, orError_some, ok_bind] at time
  have sum := timeSum_debug time
  have timed : parseTimeToMicros .debug (timePart s) =
      .ok (((h * 60 + mi) * 60 + se) * 1000000 + f) := by
    rw [parseTimeToMicros_of_fields .debug times, if_neg uncut, micros, orError_some, ok_bind, sum]
  obtain ⟨product, whole⟩ := i64_debug_bind_safe.mp (last _ timed)
  have total : InI64 ((dayNumber y m d - dayNumber 1970 1 1) * microsPerDay +
      (((h * 60 + mi) * 60 + se) * 1000000 + f)) := by simpa [i64_safe_iff] using whole
  obtain ⟨⟨w, date, ⟨times', digits, micro⟩, -⟩, -⟩ := denoted _ (by
    rw [days, ok_bind, timed, ok_bind, i64_bind _ product, i64_of_fits total])
  rw [DenotesDate, fields] at date
  rw [times] at times'
  obtain ⟨rfl, rfl, rfl⟩ : y = w.date.year ∧ m = w.date.month ∧ d = w.date.day := by
    simpa using date
  obtain ⟨rfl, rfl, rfl⟩ : h = w.time.hour ∧ mi = w.time.minute ∧ se = w.time.second := by
    simpa using times'
  exact ⟨w.date.day_range.2, w.time.hour_range, w.time.minute_range, w.time.second_range, digits,
    total.2⟩

theorem calendarCorrect_iff_fits : CalendarCorrect ty s ↔ ty.Fits s := by
  rw [calendarCorrect_iff]
  cases ty with
  | date =>
    exact ⟨fun all => date_fits (calendarCorrect_iff.mpr all),
      fun fits => calendarCorrect_iff.mp (date_correct fits)⟩
  | timestamp | timestampTz => exact ⟨fits_of_stampCorrect, stampCorrect_of_fits⟩

end ReadingMoments

section Calendars

variable {ε : Type}

/-- The dates that two texts stand for are in this order. -/
def Temporal.Earlier (ty : Temporal) (s s' : Text) : Prop :=
  match ty with
  | .date => ∃ a b : Date, DenotesDate s a ∧ DenotesDate s' b ∧ a < b
  | _ => ∃ a b : Moment, (DenotesDate (datePart s) a.date ∧ DenotesTime (timePart s) a.time) ∧
      (DenotesDate (datePart s') b.date ∧ DenotesTime (timePart s') b.time) ∧ a.Before b

theorem DenotesDate.unique {s : Text} {a b : Date} (first : DenotesDate s a) (second :
    DenotesDate s b) :
    a = b := by
  have same := Option.some.inj (first.symm.trans second)
  exact Date.triple_injective (by simpa [Date.triple] using same)

theorem DenotesTime.unique {s : Text} {a b : TimeOfDay} (first : DenotesTime s a)
    (second : DenotesTime s b) : a = b := by
  obtain ⟨fields, -, micro⟩ := first
  obtain ⟨fields', -, micro'⟩ := second
  cases a
  cases b
  simp_all

theorem Temporal.lt_of_earlier {ty : Temporal} {s s' : Text} {n n' : Int} (first : ty.Denotes s n)
    (second : ty.Denotes s' n') (earlier : ty.Earlier s s') : n < n' := by
  have moments : ∀ {s s' : Text} {n n' : Int}, DenotesMoment s n → DenotesMoment s' n' →
      Temporal.timestamp.Earlier s s' → n < n' := by
    rintro s s' _ _ ⟨w, date, time, rfl⟩ ⟨w', date', time', rfl⟩
      ⟨a, b, ⟨dateA, timeA⟩, ⟨dateB, timeB⟩, before⟩
    have left : a = w := by
      exact Moment.mk.injEq .. ▸ ⟨dateA.unique date, timeA.unique time⟩
    have right : b = w' := by
      exact Moment.mk.injEq .. ▸ ⟨dateB.unique date', timeB.unique time'⟩
    subst left
    subst right
    exact Moment.micros_lt before
  cases ty with
  | date =>
    obtain ⟨w, date, rfl⟩ := first
    obtain ⟨w', date', rfl⟩ := second
    obtain ⟨a, b, dateA, dateB, before⟩ := earlier
    obtain rfl := dateA.unique date
    obtain rfl := dateB.unique date'
    exact Date.sinceEpoch_strictMono before
  | timestamp => exact moments first second earlier
  | timestampTz => exact moments first second earlier

/-- A day number belongs to a date, and the date to it, where adding the days before the epoch
fits. -/
theorem civil_inverse_iff {z : Int} (inside : InI64 z) :
    (∃ date : Date, ∀ b, (civilFromDays b z : Decoded ε _) = .ok (date.year, date.month, date.day) ∧
      (daysFromCivil b date.year date.month date.day : Decoded ε _) = .ok z) ↔
        z + 719468 < 2 ^ 63 := by
  constructor
  · rintro ⟨date, inverse⟩
    have safe : (civilFromDays .debug z : Decoded ε _).Safe := (inverse .debug).1 ▸ safe_ok _
    rw [civilFromDays, i64_debug_bind_safe] at safe
    exact safe.1.2
  · intro above
    obtain ⟨date, rfl, run⟩ := civilFromDays_eq (ε := ε) inside above
    exact ⟨date, fun b => ⟨run b, daysFromCivil_date inside above b⟩⟩

theorem days_inverse_iff (date : Date) :
    (∃ z, ∀ b, (daysFromCivil b date.year date.month date.day : Decoded ε _) = .ok z ∧
      (civilFromDays b z : Decoded ε _) = .ok (date.year, date.month, date.day)) ↔
    -2 ^ 63 ≤ date.sinceEpoch ∧ date.sinceEpoch + 719468 < 2 ^ 63 := by
  constructor
  · rintro ⟨z, inverse⟩
    have safe : (daysFromCivil .debug date.year date.month date.day : Decoded ε _).Safe :=
      (inverse .debug).1 ▸ safe_ok _
    exact civilFits_of_safe date.month_range safe
  · rintro ⟨low, above⟩
    have inside : InI64 date.sinceEpoch := ⟨low, by omega⟩
    exact ⟨date.sinceEpoch, fun b =>
      ⟨daysFromCivil_date inside above b, civilFromDays_sinceEpoch inside above b⟩⟩

/-- A text under a calendar type is right exactly if every date and time of day that the parser
accepts in it exists and fits. Later texts have greater numbers, the two conversions are inverse
as far as the sums fit, and the signer's copy agrees. -/
theorem calendar_exact (ty : Temporal) (s : Text) : (CalendarCorrect ty s ↔ ty.Fits s) ∧
      (∀ s', ty.Fits s → ty.Fits s' → ty.Earlier s s' → ∀ b n n',
        parseValue b s ty.sqlType = .ok (.integer n) →
          parseValue b s' ty.sqlType = .ok (.integer n') →
          n < n') ∧
      (∀ z, InI64 z → ((∃ date : Date, ∀ b,
        (civilFromDays b z : Decoded Text _) = .ok (date.year, date.month, date.day) ∧
          (daysFromCivil b date.year date.month date.day : Decoded Text _) = .ok z) ↔
        z + 719468 < 2 ^ 63)) ∧
      (∀ date : Date, (∃ z, ∀ b,
        (daysFromCivil b date.year date.month date.day : Decoded Text _) = .ok z ∧
          (civilFromDays b z : Decoded Text _) = .ok (date.year, date.month, date.day)) ↔
        -2 ^ 63 ≤ date.sinceEpoch ∧ date.sinceEpoch + 719468 < 2 ^ 63) ∧
      ∀ secs < 2 ^ 50, ∀ b, ∃ y m d,
        (civilFromDays b ((secs / 86400 : Nat) : Int) : Decoded Text _) = .ok (y, m, d) ∧
          formatAmzTime b secs = (.ok (padded 4 y ++ padded 2 m ++ padded 2 d ++
            'T' ::
              (padded 2 (secs % 86400 / 3600 : Nat) ++ padded 2 (secs % 86400 % 3600 / 60 : Nat) ++
              padded 2 (secs % 86400 % 60 : Nat) ++ ['Z']),
                padded 4 y ++ padded 2 m ++ padded 2 d) :
            Decoded Text _) := by
  refine ⟨calendarCorrect_iff_fits, fun s' fits fits' earlier b n n' run run' => ?_,
    fun z inside => civil_inverse_iff inside, days_inverse_iff, fun secs small b => ?_⟩
  · obtain ⟨_, same, denotes⟩ := (calendarCorrect_iff_fits.mpr fits).real b _ run
    cases same
    obtain ⟨_, same', denotes'⟩ := (calendarCorrect_iff_fits.mpr fits').real b _ run'
    cases same'
    exact Temporal.lt_of_earlier denotes denotes' earlier
  · obtain ⟨date, -, run⟩ := civilFromDays_eq (ε := Text) (z := ((secs / 86400 : Nat) : Int))
      ⟨by omega, by omega⟩ (by omega)
    refine ⟨_, _, _, run b, ?_⟩
    rw [formatAmzTime_eq, run b]
    rfl

/-- The 31 February is read as the 3 March. -/
theorem february_31_accepted : ¬ CalendarCorrect .date "2026-02-31".toList ∧
    parseValue .release "2026-02-31".toList .date = .ok (.integer 20515) ∧
    parseValue .release "2026-03-03".toList .date = .ok (.integer 20515) := by
  have february : parseDateToDays .release "2026-02-31".toList = .ok 20515 := by decide +kernel
  have march : parseDateToDays .release "2026-03-03".toList = .ok 20515 := by decide +kernel
  refine ⟨fun correct => ?_, ?_, ?_⟩
  · have fields : dateFields "2026-02-31".toList = some (2026, 2, 31) := by decide +kernel
    have exists_ := (date_fits correct 2026 2 31 fields (by decide)).1
    exact absurd exists_ (by decide)
  · rw [parseValue, february]
    rfl
  · rw [parseValue, march]
    rfl

end Calendars

end GalaxDb.Sql.Types
