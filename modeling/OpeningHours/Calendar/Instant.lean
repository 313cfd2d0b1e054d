import OpeningHours.Calendar.Date
import OpeningHours.Span

/-! Instants of local time: a date with a time of day. The last second of a minute can be followed
by a leap second, which is told by a nanosecond of a thousand million or more. -/

namespace OpeningHours

/-- A date with a time of day. -/
structure Instant where
  date : Date
  /-- The minute of the day. -/
  minute : Nat
  second : Nat := 0
  nanosecond : Nat := 0
  minute_lt : minute < 1440
  deriving DecidableEq

namespace Instant

/-- The nanoseconds of a second. -/
def nanosPerSecond : Nat := 1000000000

/-- The instant of a date and a time of day, if there is one. Only the last second of a minute can
have a leap second after it. -/
def ofParts? (date : Date) (hour minute second nanosecond : Nat) : Option Instant :=
  if h : hour < 24 ∧ minute < 60 ∧ second < 60 ∧
      (nanosecond < nanosPerSecond ∨ second = 59 ∧ nanosecond < 2 * nanosPerSecond) then
    some ⟨date, 60 * hour + minute, second, nanosecond, by omega⟩
  else none

/-- The instant lies in a leap second. -/
def IsLeap (instant : Instant) : Prop := nanosPerSecond ≤ instant.nanosecond

instance (instant : Instant) : Decidable instant.IsLeap := inferInstanceAs (Decidable (_ ≤ _))

/-- The start of the minute of an instant. -/
def truncate (instant : Instant) : Instant := { instant with second := 0, nanosecond := 0 }

/-- The instant on which a number of minutes after the midnight of a date falls. -/
def onAxis? (date : Date) (minutes : Int) (second nanosecond : Nat) : Option Instant :=
  (date.shift? (minutes / minutesPerDay)).map
    fun date => ⟨date, (minutes % minutesPerDay).toNat, second, nanosecond, by
      simp only [minutesPerDay]
      omega⟩

/-- The instant some minutes later, or earlier for a negative number, if the calendar covers it. A
leap second is left for the second before it on the way to a later instant, and for the first
second of the next minute on the way to an earlier one. -/
def addMinutes? (instant : Instant) (minutes : Int) : Option Instant :=
  if minutes = 0 then some instant
  else if ¬instant.IsLeap then
    onAxis? instant.date (instant.minute + minutes) instant.second instant.nanosecond
  else if 0 < minutes then
    onAxis? instant.date (instant.minute + minutes) instant.second
      (instant.nanosecond - nanosPerSecond)
  else
    onAxis? instant.date (instant.minute + 1 + minutes) 0 (instant.nanosecond - nanosPerSecond)

/-- The start of a minute has no leap second to leave, so that it moves by whole minutes. -/
theorem addMinutes?_truncate (instant : Instant) (minutes : Int) :
    instant.truncate.addMinutes? minutes =
      onAxis? instant.date (instant.minute + minutes) 0 0 := by
  have hminute := instant.minute_lt
  rw [addMinutes?]
  split
  · rename_i hzero
    subst hzero
    rw [onAxis?, Int.add_zero, show (instant.minute : Int) / minutesPerDay = 0 by
      simp only [minutesPerDay]
      omega, Date.shift?_zero]
    simp only [truncate, Option.map_some, Option.some.injEq, mk.injEq, true_and, and_true,
      minutesPerDay]
    omega
  · have hleap : ¬instant.truncate.IsLeap := (by decide : ¬nanosPerSecond ≤ 0)
    rw [if_pos hleap]
    rfl

/-- The instant as `YYYY-MM-DDTHH:MM:SS`. -/
def render (instant : Instant) : List Char :=
  instant.date.render ++ 'T' :: Text.padded 2 (instant.minute / 60) ++
    ':' :: Text.padded 2 (instant.minute % 60) ++ ':' :: Text.padded 2 instant.second

end Instant

end OpeningHours
