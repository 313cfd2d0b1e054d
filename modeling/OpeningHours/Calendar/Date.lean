import OpeningHours.Weekday
import OpeningHours.Text.Digits

/-! Dates of the Gregorian calendar, which is taken to hold in all years. A date is known by the
number of days since the first of January of the year 1, which was a Monday. The calendar has a
first and a last day, and a date is never outside them. -/

namespace OpeningHours

namespace Calendar

/-- The years that the calendar covers. -/
def firstYear : Int := -262143

/-- The last of the years that the calendar covers. -/
def lastYear : Int := 262142

/-- Whether a year has a 29th of February. -/
def isLeapYear (year : Int) : Bool := year % 4 == 0 && (year % 100 != 0 || year % 400 == 0)

/-- The days from the start of the year 1 to the start of a year. -/
def yearStart (year : Int) : Int :=
  365 * (year - 1) + (year - 1) / 4 - (year - 1) / 100 + (year - 1) / 400

/-- The lengths of the months of a year. -/
def monthLengths (year : Int) : List Nat :=
  [31, if isLeapYear year then 29 else 28, 31, 30, 31, 30, 31, 31, 30, 31, 30, 31]

/-- The number of the first day of the calendar. -/
def firstDay : Int := yearStart firstYear

/-- The number of the last day of the calendar. -/
def lastDay : Int := yearStart (lastYear + 1) - 1

/-- The year of a day. The number of the day is taken apart into cycles of 400 years, centuries,
cycles of four years and years; the last century and the last year of a cycle are a day longer. -/
def yearOf (day : Int) : Int :=
  let inCycle := day % 146097
  let century := min 3 (inCycle / 36524)
  let inCentury := inCycle - century * 36524
  let inFour := inCentury % 1461
  400 * (day / 146097) + 100 * century + 4 * (inCentury / 1461) + min 3 (inFour / 365) + 1

/-- The month and the day of the month for a number of days since the months of a list began, of
which `month` is the first. -/
def monthAndDay (month : Nat) : List Nat → Nat → Nat × Nat
  | [], days => (month, days + 1)
  | length :: rest, days =>
    if days < length then (month, days + 1) else monthAndDay (month + 1) rest (days - length)

/-- The number of days of some months together. -/
def daysOf (lengths : List Nat) : Nat := lengths.foldl (· + ·) 0

end Calendar

open Calendar

/-- A date, by the number of its day. -/
structure Date where
  day : Int
  first_le : firstDay ≤ day
  le_last : day ≤ lastDay
  deriving DecidableEq

namespace Date

/-- The date of a day number, if the calendar covers it. -/
def ofDay? (day : Int) : Option Date :=
  if h : firstDay ≤ day ∧ day ≤ lastDay then some ⟨day, h.1, h.2⟩ else none

/-- The date of a year, a month and a day of the month, if there is one. -/
def ofParts? (year : Int) (month day : Nat) : Option Date :=
  if 1 ≤ month ∧ 1 ≤ day ∧ day ≤ (monthLengths year).getD (month - 1) 0 then
    ofDay? (yearStart year + daysOf ((monthLengths year).take (month - 1)) + (day - 1 : Nat))
  else none

/-- The date some days later, or earlier for a negative number, if the calendar covers it. -/
def shift? (date : Date) (days : Int) : Option Date := ofDay? (date.day + days)

theorem day_of_shift? {date other : Date} {days : Int} (h : date.shift? days = some other) :
    other.day = date.day + days := by
  rw [shift?, ofDay?] at h
  split at h
  · cases h
    rfl
  · cases h

@[ext] theorem ext {a b : Date} (h : a.day = b.day) : a = b := by
  cases a
  cases b
  cases h
  rfl

@[simp] theorem shift?_zero (date : Date) : date.shift? 0 = some date := by
  rw [shift?, ofDay?, dif_pos ⟨by have := date.first_le; omega, by have := date.le_last; omega⟩]
  exact congrArg some (ext (Int.add_zero _))

theorem shift?_shift? {date other : Date} {days : Int} (h : date.shift? days = some other)
    (more : Int) : other.shift? more = date.shift? (days + more) := by
  rw [shift?, shift?, day_of_shift? h, Int.add_assoc]

theorem isSome_shift? {date : Date} {days : Int} : (date.shift? days).isSome = true ↔
    firstDay ≤ date.day + days ∧ date.day + days ≤ lastDay := by
  rw [shift?, ofDay?]
  split <;> simp_all

/-- A date between today and a date of the calendar is in the calendar. -/
theorem exists_shift? {date : Date} {last days : Int} (hlast : (date.shift? last).isSome = true)
    (hlow : 0 ≤ days) (hhigh : days ≤ last) : ∃ other, date.shift? days = some other := by
  rw [isSome_shift?] at hlast
  have hfirst := date.first_le
  exact Option.isSome_iff_exists.mp (isSome_shift?.mpr ⟨by omega, by omega⟩)

/-- The day of the week. -/
def weekday (date : Date) : Weekday := .ofIndex (date.day % 7).toNat

theorem weekday_yesterday {date yesterday : Date} (h : date.shift? (-1) = some yesterday) :
    yesterday.weekday = date.weekday.pred := by
  rw [weekday, weekday, Weekday.pred, Weekday.index_ofIndex, day_of_shift? h]
  apply Weekday.ofIndex_congr
  omega

/-- Each day of the week comes within the next seven days. -/
theorem exists_weekday_ahead {date : Date} (hweek : (date.shift? 7).isSome = true)
    (day : Weekday) : ∃ days : Int, 1 ≤ days ∧ days ≤ 7 ∧
      ∃ other, date.shift? days = some other ∧ other.weekday = day := by
  obtain ⟨days, hdays⟩ : ∃ days, days = 1 + ((day.index : Int) - date.day - 1) % 7 := ⟨_, rfl⟩
  obtain ⟨other, hother⟩ := exists_shift? hweek (by omega : 0 ≤ days) (by omega)
  refine ⟨days, by omega, by omega, other, hother, ?_⟩
  have hindex := day.index_lt
  rw [weekday, day_of_shift? hother, ← day.ofIndex_index]
  apply Weekday.ofIndex_congr
  omega

/-- The year, the month and the day of the month. -/
def parts (date : Date) : Int × Nat × Nat :=
  let year := yearOf date.day
  (year, monthAndDay 1 (monthLengths year) (date.day - yearStart year).toNat)

/-- A year as text: four digits, or a sign and four digits at least where four digits alone do not
do. -/
def renderYear (year : Int) : List Char :=
  if 0 ≤ year ∧ year ≤ 9999 then Text.padded 4 year.toNat
  else (if year < 0 then '-' else '+') :: Text.padded 4 year.natAbs

/-- The date as `YYYY-MM-DD`. -/
def render (date : Date) : List Char :=
  let (year, month, day) := date.parts
  renderYear year ++ '-' :: Text.padded 2 month ++ '-' :: Text.padded 2 day

end Date

/-- A calendar of holidays, which tells of each date whether it is one. -/
abbrev Holidays := Date → Bool

namespace Holidays

/-- No holidays. -/
def none : Holidays := fun _ => false

/-- The holidays of some runs of days, each given by its first day and its length. -/
def ofRuns (runs : List (Date × Nat)) : Holidays := fun date =>
  runs.any fun (first, length) => first.day ≤ date.day && date.day < first.day + length

end Holidays

end OpeningHours
