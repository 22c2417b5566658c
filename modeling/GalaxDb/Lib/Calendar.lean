import Mathlib.Data.Int.ConditionallyCompleteOrder
import Mathlib.Data.Prod.Lex
import Mathlib.Order.Monotone.Basic
import Mathlib.Tactic.IntervalCases

/-!
# The proleptic Gregorian calendar

A date is a year, a month and a day that the month has. Dates are numbered in their order,
without gaps, and the number of a date and the microseconds of a day number the moments.
-/

namespace GalaxDb.Calendar

def IsLeap (y : Int) : Prop := 4 ∣ y ∧ (100 ∣ y → 400 ∣ y)

instance (y : Int) : Decidable (IsLeap y) := inferInstanceAs (Decidable (_ ∧ _))

def monthLength (y m : Int) : Int :=
  if m = 2 then if IsLeap y then 29 else 28
  else if m = 4 ∨ m = 6 ∨ m = 9 ∨ m = 11 then 30 else 31

def yearLength (y : Int) : Int := if IsLeap y then 366 else 365

/-- The days from 1 January of the year 0 to 1 January of a year. -/
def daysBeforeYear (y : Int) : Int := 365 * y + (y + 3) / 4 - (y + 99) / 100 + (y + 399) / 400

def daysBeforeMonth (y m : Int) : Int :=
  ((List.range (m - 1).toNat).map fun i : Nat => monthLength y (i + 1)).sum

/-- The number of a day, counted from 1 January of the year 0. -/
def dayNumber (y m d : Int) : Int := daysBeforeYear y + daysBeforeMonth y m + (d - 1)

theorem daysBeforeYear_succ (y : Int) :
    daysBeforeYear (y + 1) = daysBeforeYear y + yearLength y := by
  unfold daysBeforeYear yearLength IsLeap
  split_ifs <;> omega

theorem yearLength_pos (y : Int) : 0 < yearLength y := by
  unfold yearLength
  split_ifs <;> omega

variable {m y : Int}

theorem daysBeforeYear_lt {y' : Int} (before : y < y') :
    daysBeforeYear y + yearLength y ≤ daysBeforeYear y' := by
  induction y', before using Int.leInduction with
  | base => exact (daysBeforeYear_succ y).ge
  | succ y' _ ih =>
    have := daysBeforeYear_succ y'
    have := yearLength_pos y'
    omega

theorem daysBeforeMonth_succ (low : 1 ≤ m) :
    daysBeforeMonth y (m + 1) = daysBeforeMonth y m + monthLength y m := by
  obtain ⟨n, eq⟩ := Int.eq_ofNat_of_zero_le (Int.sub_nonneg_of_le low)
  obtain rfl : m = n + 1 := by omega
  simp [daysBeforeMonth, List.range_succ]

theorem monthLength_range (y m : Int) : 28 ≤ monthLength y m ∧ monthLength y m ≤ 31 := by
  unfold monthLength
  split_ifs <;> omega

@[simp] theorem daysBeforeMonth_one (y : Int) : daysBeforeMonth y 1 = 0 := by
  simp [daysBeforeMonth]

theorem daysBeforeMonth_lt {m' : Int} (low : 1 ≤ m) (before : m < m') :
    daysBeforeMonth y m + monthLength y m ≤ daysBeforeMonth y m' := by
  induction m', before using Int.leInduction with
  | base => exact (daysBeforeMonth_succ low).ge
  | succ m' later ih =>
    have := daysBeforeMonth_succ (y := y) (m := m') (by omega)
    have := monthLength_range y m'
    omega

theorem daysBeforeMonth_nonneg (low : 1 ≤ m) : 0 ≤ daysBeforeMonth y m := by
  have first := daysBeforeMonth_one y
  rcases Int.lt_or_eq_of_le low with later | rfl
  · have := daysBeforeMonth_lt (y := y) (le_refl 1) later
    have := monthLength_range y 1
    omega
  · exact first.ge

/-- The months of a year fill it. -/
theorem daysBeforeMonth_last (y : Int) :
    daysBeforeMonth y 12 + monthLength y 12 = yearLength y := by
  have months : (List.range ((12 : Int) - 1).toNat) = [0, 1, 2, 3, 4, 5, 6, 7, 8, 9, 10] := rfl
  rw [daysBeforeMonth, months]
  by_cases leap : IsLeap y <;> simp [monthLength, yearLength, leap]

structure Date where
  year : Int
  month : Int
  day : Int
  month_range : 1 ≤ month ∧ month ≤ 12
  day_range : 1 ≤ day ∧ day ≤ monthLength year month
  deriving DecidableEq

namespace Date

def triple (d : Date) : Lex (Int × Lex (Int × Int)) := toLex (d.year, toLex (d.month, d.day))

theorem triple_injective : Function.Injective triple := by
  rintro ⟨y, m, d, _, _⟩ ⟨y', m', d', _, _⟩ same
  obtain ⟨rfl, rest⟩ := Prod.mk.inj (toLex.injective same)
  obtain ⟨rfl, rfl⟩ := Prod.mk.inj (toLex.injective rest)
  rfl

/-- By the year, the month and the day. -/
instance : LinearOrder Date := LinearOrder.lift' triple triple_injective

theorem lt_iff {a b : Date} : a < b ↔
    a.year < b.year ∨ a.year = b.year ∧
      (a.month < b.month ∨ a.month = b.month ∧ a.day < b.day) := by
  change a.triple < b.triple ↔ _
  simp [triple, Prod.Lex.toLex_lt_toLex]

def number (d : Date) : Int := dayNumber d.year d.month d.day

/-- The number of the day, counted from 1 January 1970. -/
def sinceEpoch (d : Date) : Int := d.number - dayNumber 1970 1 1

theorem number_strictMono : StrictMono number := by
  rintro ⟨y, m, d, months, days⟩ ⟨y', m', d', months', days'⟩ before
  rw [lt_iff] at before
  have later := daysBeforeMonth_last y
  unfold number dayNumber
  simp only at before months days months' days' ⊢
  rcases before with year | ⟨rfl, month | ⟨rfl, day⟩⟩
  · have whole : daysBeforeMonth y m + monthLength y m ≤ yearLength y := by
      rcases Int.lt_or_eq_of_le months.2 with inside | rfl
      · have := daysBeforeMonth_lt (y := y) months.1 inside
        have := monthLength_range y 12
        omega
      · exact later.le
    have start := daysBeforeMonth_nonneg (y := y') months'.1
    have := daysBeforeYear_lt year
    omega
  · have := daysBeforeMonth_lt (y := y) months.1 month
    omega
  · omega

/-- No month has more than 31 days. -/
theorem day_le (d : Date) : 1 ≤ d.day ∧ d.day ≤ 31 :=
  ⟨d.day_range.1, d.day_range.2.trans (monthLength_range _ _).2⟩

theorem number_nonneg {d : Date} (year : 0 ≤ d.year) : 0 ≤ d.number := by
  have months := daysBeforeMonth_nonneg (y := d.year) d.month_range.1
  have days := d.day_range.1
  unfold number dayNumber daysBeforeYear
  omega

theorem sinceEpoch_strictMono : StrictMono sinceEpoch := fun _ _ before =>
  Int.sub_lt_sub_right (number_strictMono before) _

end Date

structure TimeOfDay where
  hour : Int
  minute : Int
  second : Int
  micro : Int
  hour_range : 0 ≤ hour ∧ hour < 24
  minute_range : 0 ≤ minute ∧ minute < 60
  second_range : 0 ≤ second ∧ second < 60
  micro_range : 0 ≤ micro ∧ micro < 1000000
  deriving DecidableEq

/-- By the hour, the minute, the second and the microsecond. -/
def TimeOfDay.Before (a b : TimeOfDay) : Prop :=
  a.hour < b.hour ∨ a.hour = b.hour ∧ (a.minute < b.minute ∨ a.minute = b.minute ∧
    (a.second < b.second ∨ a.second = b.second ∧ a.micro < b.micro))

def microsPerDay : Int := 86400000000

def TimeOfDay.micros (t : TimeOfDay) : Int :=
  ((t.hour * 60 + t.minute) * 60 + t.second) * 1000000 + t.micro

theorem TimeOfDay.micros_range (t : TimeOfDay) : 0 ≤ t.micros ∧ t.micros < microsPerDay := by
  have := t.hour_range
  have := t.minute_range
  have := t.second_range
  have := t.micro_range
  unfold TimeOfDay.micros microsPerDay
  omega

theorem TimeOfDay.micros_lt {a b : TimeOfDay} (before : a.Before b) : a.micros < b.micros := by
  have := a.minute_range
  have := a.second_range
  have := a.micro_range
  have := b.minute_range
  have := b.second_range
  have := b.micro_range
  unfold TimeOfDay.Before at before
  unfold TimeOfDay.micros
  omega

structure Moment where
  date : Date
  time : TimeOfDay
  deriving DecidableEq

namespace Moment

/-- The microseconds since the beginning of 1970. -/
def micros (m : Moment) : Int := m.date.sinceEpoch * microsPerDay + m.time.micros

def Before (a b : Moment) : Prop := a.date < b.date ∨ a.date = b.date ∧ a.time.Before b.time

theorem micros_lt {a b : Moment} (before : a.Before b) : a.micros < b.micros := by
  have := a.time.micros_range
  have := b.time.micros_range
  unfold micros
  rcases before with day | ⟨same, time⟩
  · have := Date.sinceEpoch_strictMono day
    unfold microsPerDay at *
    omega
  · have := TimeOfDay.micros_lt time
    rw [same]
    omega

end Moment

end GalaxDb.Calendar
