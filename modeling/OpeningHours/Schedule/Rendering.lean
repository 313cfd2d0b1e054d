import OpeningHours.Schedule.Fault

/-! The canonical text of a schedule. Rules follow the order of the groups with `; ` between them.
Three days or more in a row are written as a run, `Mo-Fr`. A span that crosses midnight is written
overnight, `22:00-02:00`, and one that lies after midnight in extended hours, `25:00-28:00`. -/

namespace OpeningHours

namespace WeekdaySet

/-- Puts a day in front of some runs. It lengthens the first run if it is the day before. -/
def consRun (day : Weekday) : List (Weekday × Weekday) → List (Weekday × Weekday)
  | [] => [(day, day)]
  | (first, last) :: rest =>
    if day.index + 1 = first.index then (day, last) :: rest
    else (day, day) :: (first, last) :: rest

/-- The days in runs without a gap, each given by its first and last day. -/
def runs (days : WeekdaySet) : List (Weekday × Weekday) := days.toList.foldr consRun []

/-- A run as text: two days in a row stay apart, more are written by the first and the last. -/
def renderRun (first last : Weekday) : List Char :=
  if first = last then first.letters
  else if first.index + 1 = last.index then first.letters ++ ',' :: last.letters
  else first.letters ++ '-' :: last.letters

/-- The days as text, such as `Mo-Fr,Su`. -/
def render (days : WeekdaySet) : List Char :=
  [','].intercalate (days.runs.map fun (first, last) => renderRun first last)

end WeekdaySet

namespace Span

/-- A minute of a day, or of the day after, as `HH:MM`. -/
def renderMinute (minute : Int) : List Char :=
  Text.twoDigits (minute / 60).toNat ++ ':' :: Text.twoDigits (minute % 60).toNat

/-- The end of a span as it is written: an end past midnight goes back to the clock when the span
starts before midnight. An end at midnight is 24:00. -/
def writtenStop (span : Span) : Int :=
  if span.start < minutesPerDay ∧ minutesPerDay < span.stop then span.stop - minutesPerDay
  else span.stop

/-- A span of a day as `HH:MM-HH:MM`. -/
def render (span : Span) : List Char :=
  renderMinute span.start ++ '-' :: renderMinute span.writtenStop

end Span

/-- The rule of a group as text. -/
def DayGroup.render (group : DayGroup) : List Char :=
  group.days.render ++ ' ' ::
    if group.isFullDay then "open".toList
    else if group.openSpans.isEmpty then "off".toList
    else [','].intercalate (group.openSpans.map Span.render)

namespace Schedule

/-- The rules of the groups that have a day. -/
def rules (schedule : Schedule) : List (List Char) :=
  (schedule.groups.filter fun group => !group.days.isEmpty).map DayGroup.render

/-- The characters of the canonical text. -/
def render (schedule : Schedule) : List Char :=
  if schedule.IsAlwaysOpen then "24/7".toList
  else if schedule.rules.isEmpty then "off".toList
  else "; ".toList.intercalate schedule.rules

/-- The canonical text. It reads back to an equivalent schedule if the schedule is sound; the text
of any other schedule is well formed all the same. -/
def text (schedule : Schedule) : String := String.ofList schedule.render

/-- The canonical text of a sound schedule, or the faults. -/
def soundText (schedule : Schedule) : Except (List Fault) String :=
  if schedule.IsSound then .ok schedule.text else .error schedule.faults

end Schedule

end OpeningHours
