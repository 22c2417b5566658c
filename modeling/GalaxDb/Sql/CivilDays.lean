import GalaxDb.Lib.Calendar
import GalaxDb.Lib.Overflow

/-!
# Days and dates

The numbers of days since 1970-01-01 and the years, months and days they belong to, by
Hinnant's arithmetic on 64-bit integers. It counts the years from 1 March, in eras of 400.
-/

namespace GalaxDb.Sql.Types

open Decoded Calendar

section Source

variable {ε : Type} (b : Build)

/-- Days since 1970-01-01 of a year, a month and a day. -/
def daysFromCivil (y m d : Int) : Decoded ε Int := do
  let y ← i64 b (if m ≤ 2 then y - 1 else y)
  let low ← i64 b (if 0 ≤ y then y else y - 399)
  let era := low.tdiv 400
  let first ← i64 b (era * 400)
  let yoe ← i64 b (y - first)
  let mp ← i64 b (if 2 < m then m - 3 else m + 9)
  let scaled ← i64 b (153 * mp)
  let scaled ← i64 b (scaled + 2)
  let doy ← i64 b (scaled.tdiv 5 + d)
  let doy ← i64 b (doy - 1)
  let doe ← i64 b (yoe * 365)
  let doe ← i64 b (doe + yoe.tdiv 4)
  let doe ← i64 b (doe - yoe.tdiv 100)
  let doe ← i64 b (doe + doy)
  let start ← i64 b (era * 146097)
  let days ← i64 b (start + doe)
  i64 b (days - 719468)

/-- The year, the month and the day of a number of days since 1970-01-01. -/
def civilFromDays (z : Int) : Decoded ε (Int × Int × Int) := do
  let z ← i64 b (z + 719468)
  let low ← i64 b (if 0 ≤ z then z else z - 146096)
  let era := low.tdiv 146097
  let start ← i64 b (era * 146097)
  let doe ← i64 b (z - start)
  let n ← i64 b (doe - doe.tdiv 1460)
  let n ← i64 b (n + doe.tdiv 36524)
  let n ← i64 b (n - doe.tdiv 146096)
  let yoe := n.tdiv 365
  let first ← i64 b (era * 400)
  let y ← i64 b (yoe + first)
  let days ← i64 b (365 * yoe)
  let days ← i64 b (days + yoe.tdiv 4)
  let days ← i64 b (days - yoe.tdiv 100)
  let doy ← i64 b (doe - days)
  let scaled ← i64 b (5 * doy)
  let scaled ← i64 b (scaled + 2)
  let mp := scaled.tdiv 153
  let before ← i64 b (153 * mp)
  let before ← i64 b (before + 2)
  let d ← i64 b (doy - before.tdiv 5)
  let d ← i64 b (d + 1)
  let m ← i64 b (if mp < 10 then mp + 3 else mp - 9)
  let y ← i64 b (if m ≤ 2 then y + 1 else y)
  return (y, m, d)

/-- `{:0width}` of a number: the sign counts. -/
def padded (width : Nat) (n : Int) : List Char :=
  let digits := Nat.toDigits 10 n.natAbs
  if n < 0 then '-' :: (List.replicate (width - 1 - digits.length) '0' ++ digits)
  else List.replicate (width - digits.length) '0' ++ digits

/-- A time in seconds, as the signer of backups writes it, and its date. It has its own copy of
the arithmetic. -/
def formatAmzTime (secsSinceEpoch : Nat) : Decoded ε (List Char × List Char) := do
  let days : Int := (secsSinceEpoch / 86400 : Nat)
  let secsOfDay := secsSinceEpoch % 86400
  let h := secsOfDay / 3600
  let mi := secsOfDay % 3600 / 60
  let s := secsOfDay % 60
  let z ← i64 b (days + 719468)
  let low ← i64 b (if 0 ≤ z then z else z - 146096)
  let era := low.tdiv 146097
  let start ← i64 b (era * 146097)
  let doe ← i64 b (z - start)
  let n ← i64 b (doe - doe.tdiv 1460)
  let n ← i64 b (n + doe.tdiv 36524)
  let n ← i64 b (n - doe.tdiv 146096)
  let yoe := n.tdiv 365
  let first ← i64 b (era * 400)
  let y ← i64 b (yoe + first)
  let days ← i64 b (365 * yoe)
  let days ← i64 b (days + yoe.tdiv 4)
  let days ← i64 b (days - yoe.tdiv 100)
  let doy ← i64 b (doe - days)
  let scaled ← i64 b (5 * doy)
  let scaled ← i64 b (scaled + 2)
  let mp := scaled.tdiv 153
  let before ← i64 b (153 * mp)
  let before ← i64 b (before + 2)
  let d ← i64 b (doy - before.tdiv 5)
  let d ← i64 b (d + 1)
  let m ← i64 b (if mp < 10 then mp + 3 else mp - 9)
  let y ← i64 b (if m ≤ 2 then y + 1 else y)
  let dateStamp := padded 4 y ++ padded 2 m ++ padded 2 d
  return (dateStamp ++ 'T' :: (padded 2 h ++ padded 2 mi ++ padded 2 s ++ ['Z']), dateStamp)

end Source

/-- The era of a year or of a day: the division rounds down. -/
theorem era_eq {n : Int} (pos : 0 < n) (y : Int) :
    (if 0 ≤ y then y else y - (n - 1)).tdiv n = y / n := by
  split_ifs with sign
  · exact Int.tdiv_eq_ediv_of_nonneg sign
  · have whole := Int.mul_ediv_add_emod y n
    have low := Int.emod_nonneg y pos.ne'
    have high := Int.emod_lt_of_pos y pos
    have opposite : y - (n - 1) = -(n - 1 - y % n + n * -(y / n)) := by
      rw [mul_neg]
      omega
    rw [opposite, Int.neg_tdiv, Int.tdiv_eq_ediv_of_nonneg (by omega),
      Int.add_mul_ediv_left _ _ pos.ne', Int.ediv_eq_zero_of_lt (by omega) (by omega)]
    omega

variable {doe m y : Int}

theorem daysBeforeMonth_eq (months : 1 ≤ m ∧ m ≤ 12) : daysBeforeMonth y m =
    if m ≤ 2 then 31 * (m - 1) else (153 * (m - 3) + 2) / 5 + (if IsLeap y then 60 else 59) := by
  obtain ⟨low, high⟩ := months
  interval_cases m <;> by_cases leap : IsLeap y <;>
    simp [daysBeforeMonth, List.range_succ, monthLength, leap]

theorem epoch_eq : dayNumber 1970 1 1 = 719528 := by decide

/-- The days before a March, counted from the March of the year 0. -/
def daysBeforeMarch (y : Int) : Int := 365 * y + y / 4 - y / 100 + y / 400

/-- The number of a day by its distance from the March before it. -/
theorem dayNumber_eq (d : Int) (months : 1 ≤ m ∧ m ≤ 12) : dayNumber y m d - 719528 =
      daysBeforeMarch (if m ≤ 2 then y - 1 else y) +
        ((153 * (if 2 < m then m - 3 else m + 9) + 2) / 5 + d - 1) - 719468 := by
  rw [dayNumber, daysBeforeMonth_eq months]
  unfold daysBeforeYear daysBeforeMarch IsLeap
  by_cases early : m ≤ 2
  · omega
  · rw [if_neg early, if_neg early, if_pos (by omega)]
    split_ifs <;> omega

section Days

variable {ε : Type} {y m d : Int}

/-- The sum before the last subtraction fits. -/
def CivilFits (y m d : Int) : Prop :=
  -2 ^ 63 ≤ dayNumber y m d - dayNumber 1970 1 1 ∧
    dayNumber y m d - dayNumber 1970 1 1 + 719468 < 2 ^ 63

section March

variable {mp : Int}

theorem yearOfEra_range (y : Int) : 0 ≤ y % 400 ∧ y % 400 < 400 := by omega

/-- The days up to a day, put together from its era and its year in the era. -/
theorem daysBeforeMarch_eq (y : Int) : y / 400 * 146097 +
    (y % 400 * 365 + y % 400 / 4 - y % 400 / 100) = daysBeforeMarch y := by
  unfold daysBeforeMarch
  omega

end March

/-- The truncated divisions of the algorithm are those of non-negative numbers. -/
theorem divisions (y : Int) {mp : Int} (place : 0 ≤ mp) :
    (if 0 ≤ y then y else y - 399).tdiv 400 = y / 400 ∧ y - y / 400 * 400 = y % 400 ∧
      (153 * mp + 2).tdiv 5 = (153 * mp + 2) / 5 ∧ (y % 400).tdiv 4 = y % 400 / 4 ∧
      (y % 400).tdiv 100 = y % 400 / 100 :=
  ⟨@era_eq 400 (by decide) y, by omega, Int.tdiv_eq_ediv_of_nonneg (by omega),
    Int.tdiv_eq_ediv_of_nonneg (yearOfEra_range y).1,
      Int.tdiv_eq_ediv_of_nonneg (yearOfEra_range y).1⟩

theorem daysFromCivil_eq (b : Build) (months : 1 ≤ m ∧ m ≤ 12) (days : 1 ≤ d ∧ d ≤ 31)
    (fits : CivilFits y m d) :
    (daysFromCivil b y m d : Decoded ε Int) = .ok (dayNumber y m d - dayNumber 1970 1 1) := by
  have number := dayNumber_eq (y := y) d months
  unfold CivilFits at fits
  rw [epoch_eq] at fits ⊢
  have place : 0 ≤ (if 2 < m then m - 3 else m + 9) ∧ (if 2 < m then m - 3 else m + 9) ≤ 11 := by
    split_ifs <;> omega
  rw [daysFromCivil]
  generalize (if m ≤ 2 then y - 1 else y) = y at *
  have whole := daysBeforeMarch_eq y
  obtain ⟨era, yoe, scaled, fourth, century⟩ := divisions y place.1
  simp (disch := first | assumption | (unfold InI64; omega)) only [i64_of_fits, ok_bind, era, yoe,
    scaled, fourth, century, Decoded.ok.injEq]
  omega

/-- The debug build finds every sum that does not fit. -/
theorem civilFits_of_safe (months : 1 ≤ m ∧ m ≤ 12)
    (safe : (daysFromCivil .debug y m d : Decoded ε Int).Safe) : CivilFits y m d := by
  have number := dayNumber_eq (y := y) d months
  have place : 0 ≤ (if 2 < m then m - 3 else m + 9) := by split_ifs <;> omega
  unfold CivilFits
  rw [epoch_eq, number]
  rw [daysFromCivil] at safe
  generalize (if m ≤ 2 then y - 1 else y) = y at *
  have whole := daysBeforeMarch_eq y
  obtain ⟨era, yoe, scaled, fourth, century⟩ := divisions y place
  simp only [i64_debug_bind_safe, i64_safe_iff, era, yoe, scaled, fourth, century, InI64] at safe
  obtain ⟨_, _, _, _, _, _, _, _, _, _, _, _, _, _, sum, last⟩ := safe
  simp only [reduceCtorEq, false_or] at last
  omega

end Days

/-- The days of an era up to a day, less its leap days. -/
def withoutLeapDays (doe : Int) : Int := doe - doe / 1460 + doe / 36524 - doe / 146096

/-- The first day of a year in its era. -/
def startOfYear (yoe : Int) : Int := yoe * 365 + yoe / 4 - yoe / 100

theorem withoutLeapDays_mono {doe' : Int} (before : doe ≤ doe') :
    withoutLeapDays doe ≤ withoutLeapDays doe' := by
  have fourths : doe - doe / 1460 ≤ doe' - doe' / 1460 := by omega
  unfold withoutLeapDays
  omega

theorem withoutLeapDays_startOfYear : ∀ n < 400, 365 * (n : Nat) ≤ withoutLeapDays (startOfYear n) ∧
    withoutLeapDays (startOfYear (n + 1) - 1) ≤ 365 * n + 364 := by
  intro n early
  obtain ⟨a, c, d, rfl, few, fourths, years⟩ : ∃ a c d : Nat, n = 100 * a + 4 * c + d ∧
      a < 4 ∧ c < 25 ∧ d < 4 :=
    ⟨n / 100, n % 100 / 4, n % 4, by omega, by omega, by omega, by omega⟩
  constructor
  · have start : startOfYear ((100 * a + 4 * c + d : Nat) : Int) =
        36524 * a + 1461 * c + 365 * d := by
      unfold startOfYear
      omega
    have fourYears : startOfYear ((100 * a + 4 * c + d : Nat) : Int) / 1460 = 25 * a + c := by omega
    have century : startOfYear ((100 * a + 4 * c + d : Nat) : Int) / 36524 = a := by omega
    unfold withoutLeapDays
    omega
  · generalize last : startOfYear ((100 * a + 4 * c + d : Nat) + 1 : Int) - 1 = x
    have leap : x = 36524 * a + 1461 * c + 365 * d + 364 +
        ((if d = 3 then 1 else 0) - if d = 3 ∧ c = 24 then 1 else 0) := by
      unfold startOfYear at last
      split_ifs <;> omega
    have fourYears : x / 1460 = 25 * a + c + if d = 3 then 1 else 0 := by
      split_ifs at leap ⊢ <;> omega
    have century : x / 36524 = a := by split_ifs at leap <;> omega
    unfold withoutLeapDays
    split_ifs at leap fourYears <;> omega

/-- The quotient is the year that the day lies in. -/
theorem year_of_day (low : 0 ≤ doe) (high : doe ≤ 146096) :
    0 ≤ withoutLeapDays doe / 365 ∧ withoutLeapDays doe / 365 < 400 ∧
      startOfYear (withoutLeapDays doe / 365) ≤ doe ∧
      (doe < startOfYear (withoutLeapDays doe / 365 + 1) ∨ withoutLeapDays doe / 365 = 399) := by
  have first : 0 ≤ withoutLeapDays doe := withoutLeapDays_mono low
  have last : withoutLeapDays doe ≤ 145999 := withoutLeapDays_mono high
  obtain ⟨n, year⟩ := Int.eq_ofNat_of_zero_le (show 0 ≤ withoutLeapDays doe / 365 by omega)
  refine ⟨by omega, by omega, ?_, ?_⟩
  · by_contra later
    cases n with
    | zero => exact later (by rw [year]; exact low)
    | succ k =>
      obtain ⟨_, end_⟩ := withoutLeapDays_startOfYear k (by omega)
      have := withoutLeapDays_mono
        (show doe ≤ startOfYear (k + 1) - 1 by push_cast at year; rw [year] at later; omega)
      omega
  · by_contra later
    rw [not_or, year] at later
    by_cases final : n + 1 < 400
    · obtain ⟨next, _⟩ := withoutLeapDays_startOfYear (n + 1) final
      have :=
        withoutLeapDays_mono (show startOfYear ((n + 1 : Nat) : Int) ≤ doe by push_cast; omega)
      omega
    · omega

/-- A year from March to March has the leap day of the year in which it ends. -/
theorem day_of_year {yoe : Int} (high : doe ≤ 146096) (low : 0 ≤ yoe) (last : yoe < 400)
    (stop : doe < startOfYear (yoe + 1) ∨ yoe = 399) :
    doe - startOfYear yoe ≤ 365 ∧ (doe - startOfYear yoe = 365 → IsLeap (yoe + 1)) := by
  unfold startOfYear IsLeap at *
  rcases stop with stop | rfl
  · exact ⟨by omega, by omega⟩
  · exact ⟨by omega, by omega⟩

theorem isLeap_add (y k : Int) : IsLeap (y + k * 400) ↔ IsLeap y := by
  unfold IsLeap
  omega

section Civil

variable {ε : Type} {z : Int}

/-- The month and the day of a day of the year that begins in March. -/
theorem month_of_day {doy mp : Int} (low : 0 ≤ doy) (high : doy ≤ 365) (month :
    mp = (5 * doy + 2) / 153) :
    0 ≤ mp ∧ mp ≤ 11 ∧ 1 ≤ doy - (153 * mp + 2) / 5 + 1 := by
  omega

theorem day_le {doy mp y m : Int} (low : 0 ≤ doy) (high : doy ≤ 365)
    (leap : doy = 365 → IsLeap y) (month : mp = (5 * doy + 2) / 153)
    (eq : m = if mp < 10 then mp + 3 else mp - 9) :
    doy - (153 * mp + 2) / 5 + 1 ≤ monthLength y m := by
  obtain ⟨first, last, _⟩ := month_of_day low high month
  interval_cases mp <;> simp only [monthLength] <;> norm_num <;> try omega
  · by_cases final : doy = 365
    · rw [if_pos (leap final)]
      omega
    · split_ifs <;> omega

/-- The steps of the conversion, when each stays within its bounds. -/
theorem civilFromDays_run (b : Build) {day doe yoe doy mp : Int} (inside : InI64 z)
    (shifted : day = z + 719468) (fits : z + 719468 < 2 ^ 63) (doeLow : 0 ≤ doe)
    (doeHigh : doe ≤ 146096)
    (doe_eq : day % 146097 = doe) (yoe_eq : withoutLeapDays doe / 365 = yoe) (yoeLow : 0 ≤ yoe)
    (yoeHigh : yoe < 400) (doy_eq : doy = doe - startOfYear yoe) (doyLow : 0 ≤ doy)
    (doyHigh : doy ≤ 365)
    (mp_eq : mp = (5 * doy + 2) / 153) :
    (civilFromDays b z : Decoded ε _) =
      .ok (if (if mp < 10 then mp + 3 else mp - 9) ≤ 2 then yoe + day / 146097 * 400 + 1
        else yoe + day / 146097 * 400, if mp < 10 then mp + 3 else mp - 9,
          doy - (153 * mp + 2) / 5 + 1) := by
  unfold InI64 at inside
  have era : (if 0 ≤ day then day else day - 146096).tdiv 146097 = day / 146097 :=
    era_eq (n := 146097) (by decide) day
  have low : InI64 (if 0 ≤ day then day else day - 146096) :=
    ⟨by split_ifs <;> omega, by split_ifs <;> omega⟩
  have remainder : day - day / 146097 * 146097 = doe := by omega
  rw [civilFromDays, ← shifted, i64_bind _ ⟨by omega, by omega⟩, i64_bind _ low]
  simp only [era]
  rw [i64_bind _ ⟨by omega, by omega⟩, remainder]
  have eraLow : -63131837319500 ≤ day / 146097 := by omega
  have eraHigh : day / 146097 ≤ 63131837319500 := by omega
  clear remainder low era doe_eq inside shifted fits
  generalize day / 146097 = era at *
  have yoeDiv : (doe - doe.tdiv 1460 + doe.tdiv 36524 - doe.tdiv 146096).tdiv 365 = yoe := by
    rw [← yoe_eq, Int.tdiv_eq_ediv_of_nonneg doeLow, Int.tdiv_eq_ediv_of_nonneg doeLow,
      Int.tdiv_eq_ediv_of_nonneg doeLow]
    exact Int.tdiv_eq_ediv_of_nonneg (withoutLeapDays_mono doeLow)
  have yearFourth := Int.tdiv_eq_ediv_of_nonneg (b := 4) yoeLow
  have yearCentury := Int.tdiv_eq_ediv_of_nonneg (b := 100) yoeLow
  have month : (5 * doy + 2).tdiv 153 = mp := by
    rw [mp_eq]
    exact Int.tdiv_eq_ediv_of_nonneg (by omega)
  have before : (153 * mp + 2).tdiv 5 = (153 * mp + 2) / 5 := Int.tdiv_eq_ediv_of_nonneg (by omega)
  have dayOfYear : doe - (365 * yoe + yoe.tdiv 4 - yoe.tdiv 100) = doy := by
    rw [yearFourth, yearCentury, doy_eq, startOfYear]
    omega
  have ⟨quads, centuries, eras⟩ : (0 ≤ doe.tdiv 1460 ∧ doe.tdiv 1460 ≤ 101) ∧
      (0 ≤ doe.tdiv 36524 ∧ doe.tdiv 36524 ≤ 4) ∧ 0 ≤ doe.tdiv 146096 ∧ doe.tdiv 146096 ≤ 1 := by
    rw [Int.tdiv_eq_ediv_of_nonneg doeLow, Int.tdiv_eq_ediv_of_nonneg doeLow,
      Int.tdiv_eq_ediv_of_nonneg doeLow]
    omega
  have ⟨leaps, skipped⟩ : (0 ≤ yoe.tdiv 4 ∧ yoe.tdiv 4 ≤ 100) ∧ 0 ≤ yoe.tdiv 100 ∧
      yoe.tdiv 100 ≤ 4 := by
    omega
  rw [i64_bind _ ⟨by omega, by omega⟩, i64_bind _ ⟨by omega, by omega⟩,
    i64_bind _ ⟨by omega, by omega⟩,
    i64_bind _ ⟨by omega, by omega⟩, yoeDiv, i64_bind _ ⟨by omega, by omega⟩,
      i64_bind _ ⟨by omega, by omega⟩,
    i64_bind _ ⟨by omega, by omega⟩, i64_bind _ ⟨by omega, by omega⟩,
      i64_bind _ ⟨by omega, by omega⟩,
    dayOfYear, i64_bind _ ⟨by omega, by omega⟩, i64_bind _ ⟨by omega, by omega⟩,
    i64_bind _ ⟨by omega, by omega⟩, month]
  have fitsM : InI64 (if mp < 10 then mp + 3 else mp - 9) :=
    ⟨by split_ifs <;> omega, by split_ifs <;> omega⟩
  rw [i64_bind _ ⟨by omega, by omega⟩, i64_bind _ ⟨by omega, by omega⟩, before,
    i64_bind _ ⟨by omega, by omega⟩, i64_bind _ ⟨by omega, by omega⟩, i64_bind _ fitsM]
  have fitsY : InI64 (if (if mp < 10 then mp + 3 else mp - 9) ≤ 2 then yoe + era * 400 + 1
      else yoe + era * 400) := by
    exact ⟨by split_ifs <;> omega, by split_ifs <;> omega⟩
  rw [i64_bind _ fitsY]
  rfl

theorem civilFromDays_eq (inside : InI64 z) (fits : z + 719468 < 2 ^ 63) :
    ∃ date : Date, date.sinceEpoch = z ∧
      ∀ b, (civilFromDays b z : Decoded ε _) = .ok (date.year, date.month, date.day) := by
  obtain ⟨day, shifted⟩ : ∃ day, day = z + 719468 := ⟨_, rfl⟩
  have ⟨doeLow, doeHigh⟩ : 0 ≤ day % 146097 ∧ day % 146097 ≤ 146096 := by omega
  obtain ⟨yoeLow, yoeHigh, start, stop⟩ := year_of_day doeLow doeHigh
  generalize doe_eq : day % 146097 = doe at *
  generalize yoe_eq : withoutLeapDays doe / 365 = yoe at *
  obtain ⟨doyHigh, leap⟩ := day_of_year doeHigh yoeLow yoeHigh stop
  obtain ⟨doy, doy_eq⟩ : ∃ doy, doy = doe - startOfYear yoe := ⟨_, rfl⟩
  rw [← doy_eq] at doyHigh leap
  have doyLow : 0 ≤ doy := by omega
  obtain ⟨year, year_eq⟩ : ∃ year, year = yoe + day / 146097 * 400 := ⟨_, rfl⟩
  rw [← isLeap_add _ (day / 146097), show yoe + 1 + day / 146097 * 400 = year + 1 by omega] at leap
  obtain ⟨mp, mp_eq⟩ : ∃ mp, mp = (5 * doy + 2) / 153 := ⟨_, rfl⟩
  obtain ⟨mpLow, mpHigh, dLow⟩ := month_of_day doyLow doyHigh mp_eq
  obtain ⟨m, m_eq⟩ : ∃ m, m = if mp < 10 then mp + 3 else mp - 9 := ⟨_, rfl⟩
  have months : 1 ≤ m ∧ m ≤ 12 := by split_ifs at m_eq <;> omega
  obtain ⟨y, y_eq⟩ : ∃ y, y = if m ≤ 2 then year + 1 else year := ⟨_, rfl⟩
  have days : doy - (153 * mp + 2) / 5 + 1 ≤ monthLength y m := by
    refine day_le doyLow doyHigh (fun final => ?_) mp_eq m_eq
    rw [y_eq, if_pos (by split_ifs at m_eq <;> omega)]
    exact leap final
  refine ⟨⟨y, m, doy - (153 * mp + 2) / 5 + 1, months, dLow, days⟩, ?_, fun b => ?_⟩
  · have number := dayNumber_eq (y := y) (doy - (153 * mp + 2) / 5 + 1) months
    have march : (if m ≤ 2 then y - 1 else y) = year := by split_ifs at y_eq ⊢ <;> omega
    have month : (if 2 < m then m - 3 else m + 9) = mp := by split_ifs at m_eq ⊢ <;> omega
    have whole := daysBeforeMarch_eq year
    have yoe_mod : year % 400 = yoe := by omega
    have era_div : year / 400 = day / 146097 := by omega
    rw [march, month] at number
    rw [yoe_mod, era_div] at whole
    rw [Date.sinceEpoch, Date.number, epoch_eq, number]
    unfold startOfYear at doy_eq
    omega
  · rw [civilFromDays_run b inside shifted fits doeLow doeHigh doe_eq yoe_eq yoeLow yoeHigh doy_eq
      doyLow
      doyHigh mp_eq, ← m_eq, ← year_eq, ← y_eq]

end Civil

section Inverse

variable {ε : Type}

/-- The date with a number is found again by it. -/
theorem civilFromDays_sinceEpoch {date : Date} (inside : InI64 date.sinceEpoch)
    (fits : date.sinceEpoch + 719468 < 2 ^ 63) (b : Build) :
    (civilFromDays b date.sinceEpoch : Decoded ε _) = .ok (date.year, date.month, date.day) := by
  obtain ⟨found, number, run⟩ := civilFromDays_eq (ε := ε) inside fits
  obtain rfl := Date.sinceEpoch_strictMono.injective number
  exact run b

theorem daysFromCivil_date {date : Date} (inside : InI64 date.sinceEpoch)
    (fits : date.sinceEpoch + 719468 < 2 ^ 63) (b : Build) :
    (daysFromCivil b date.year date.month date.day : Decoded ε _) = .ok date.sinceEpoch :=
  daysFromCivil_eq b date.month_range date.day_le ⟨inside.1, fits⟩

/-- The copy in the signer computes the same date. -/
theorem formatAmzTime_eq (b : Build) (secs : Nat) : (formatAmzTime b secs : Decoded ε _) =
    civilFromDays b ((secs / 86400 : Nat) : Int) >>= fun (y, m, d) =>
      let dateStamp := padded 4 y ++ padded 2 m ++ padded 2 d
      .ok (dateStamp ++ 'T' :: (padded 2 (secs % 86400 / 3600 : Nat) ++
        padded 2 (secs % 86400 % 3600 / 60 : Nat) ++ padded 2 (secs % 86400 % 60 : Nat) ++ ['Z']),
        dateStamp) := by
  simp only [civilFromDays, Decoded.bind_assoc]
  rfl

end Inverse

end GalaxDb.Sql.Types
