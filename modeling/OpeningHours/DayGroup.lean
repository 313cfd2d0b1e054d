import OpeningHours.Clock
import OpeningHours.Sorting
import OpeningHours.WeekdaySet

/-! A group of weekdays with one rule for their hours: open all day, closed, or open for one range
of times less the breaks in it. `openSpans` gives the minutes that the rule opens. -/

namespace OpeningHours

/-- Weekdays that share their hours. -/
structure DayGroup where
  days : WeekdaySet
  /-- The range of times in which the group is open. -/
  opening : Option ClockRange := none
  /-- The parts of the opening in which the group is closed. -/
  breaks : List ClockRange := []
  /-- The group is open around the clock; opening and breaks then count for nothing. -/
  isFullDay : Bool := false
  deriving DecidableEq, Repr

namespace DayGroup

/-- A group that never opens. -/
def closed (days : WeekdaySet) : DayGroup := { days }

/-- A group that opens for one range of times. -/
def timed (days : WeekdaySet) (opening : ClockRange) : DayGroup := { days, opening := some opening }

/-- A group that is open around the clock. -/
def fullDay (days : WeekdaySet) : DayGroup := { days, isFullDay := true }

/-- The group with one more break after the others, which is not checked. -/
def withBreak (group : DayGroup) (range : ClockRange) : DayGroup :=
  { group with breaks := group.breaks ++ [range] }

/-- The group never opens. -/
def IsClosed (group : DayGroup) : Prop := group.isFullDay = false ∧ group.opening = none

instance (group : DayGroup) : Decidable group.IsClosed := inferInstanceAs (Decidable (_ ∧ _))

/-- The minutes of the opening, breaks included, if the group has one that counts. -/
def openingSpan? (group : DayGroup) : Option Span :=
  if group.isFullDay then none else group.opening.map ClockRange.span

/-- The range lies strictly inside the opening. -/
def FitsBreak (group : DayGroup) (range : ClockRange) : Prop :=
  match group.openingSpan? with
  | some opening => opening.StrictlyContains (range.spanAfter opening.start)
  | none => False

instance (group : DayGroup) (range : ClockRange) : Decidable (group.FitsBreak range) := by
  unfold FitsBreak
  split <;> infer_instance

/-- The minutes of the breaks by rising start. -/
def breakSpans (group : DayGroup) : List Span :=
  match group.openingSpan? with
  | some opening => sortOn Span.start (group.breaks.map (·.spanAfter opening.start))
  | none => []

/-- The minutes of the day on which the group is open, as spans by rising start that keep a gap
between them. A span past midnight belongs to the day on which the opening starts. -/
def openSpans (group : DayGroup) : List Span :=
  if group.isFullDay then [⟨0, minutesPerDay⟩]
  else match group.openingSpan? with
    | some opening => opening.gaps opening.start group.breakSpans
    | none => []

/-- The groups open for the same minutes, whatever their days. -/
def SameHours (a b : DayGroup) : Prop := a.openSpans = b.openSpans

instance (a b : DayGroup) : Decidable (a.SameHours b) := inferInstanceAs (Decidable (_ = _))

/-- What a group states, the spelling of its times aside. -/
structure Content where
  days : WeekdaySet
  opening : Option (Int × Int)
  breaks : List (Int × Int)
  isFullDay : Bool
  deriving DecidableEq, Repr

/-- The statement of a group. -/
def content (group : DayGroup) : Content where
  days := group.days
  opening := group.opening.map ClockRange.minutes
  breaks := group.breaks.map ClockRange.minutes
  isFullDay := group.isFullDay

/-- The groups state the same, breaks in the same order. -/
def SameContent (a b : DayGroup) : Prop := a.content = b.content

instance (a b : DayGroup) : Decidable (a.SameContent b) := inferInstanceAs (Decidable (_ = _))

end DayGroup

end OpeningHours
