import OpeningHours.DayGroup
import OpeningHours.Reading.Error

/-! The hours of a rule. Each clock span is laid on the axis of the day that the rule is for; spans
that touch become one stretch, and the stretches together become one opening with a break for each
gap between them. -/

namespace OpeningHours.Reading

open Weekly

/-- A clock time on the axis of a day, past 1440 in extended hours. -/
structure Clock where
  minute : Int
  /-- Whether the minutes are spelled out. -/
  explicit : Bool
  deriving DecidableEq, Repr

/-- The time of day that a clock shows. -/
def Clock.time (clock : Clock) : ClockTime :=
  { ClockTime.ofMinute clock.minute with minutesExplicit := clock.explicit }

/-- The minutes from one clock time to another on the axis of a day. -/
structure Stretch where
  start : Clock
  stop : Clock
  deriving DecidableEq, Repr

/-- The minutes of a stretch. -/
def Stretch.span (stretch : Stretch) : Span := ⟨stretch.start.minute, stretch.stop.minute⟩

/-- The latest minute of the two days that the hours of a rule can reach. -/
abbrev lastMinute : Int := 2 * minutesPerDay

/-- Reads a clock time: hours, or hours and two digits of minutes, up to 48:00. -/
def readClock (text : List Char) : Except ReadError Clock :=
  let hours := text.takeWhile (· != ':')
  match text.dropWhile (· != ':') with
  | [] =>
    if 60 * Text.number hours ≤ lastMinute then .ok ⟨60 * Text.number hours, false⟩
    else .error (.invalidTime (String.ofList text))
  | _ :: minutes =>
    let minute := 60 * Text.number hours + Text.number minutes
    if minutes.length = 2 ∧ Text.number minutes ≤ 59 ∧ minute ≤ lastMinute then .ok ⟨minute, true⟩
    else .error (.invalidTime (String.ofList text))

/-- The minute at which a span stops that starts at `start` and ends at `stop` on the clock: an end
earlier in the day belongs to the next day. -/
def liftStop (start stop : Int) : Int := if stop < start then stop + minutesPerDay else stop

/-- Reads a clock span. It has to have an end other than its start. Its end may not come before its
start once it is moved to the next day, nor more than a day after it, nor after the next day. The
two can meet then: `24:00-0` is a span without a minute at the end of the day. -/
def readSpan (span : ClockSpan) : Except ReadError Stretch := do
  let start ← readClock span.start
  let stop ← span.stop.mapM readClock
  match stop with
  | none => .error (.invalidTime (String.ofList span.text))
  | some stop =>
    let lifted := liftStop start.minute stop.minute
    if start.minute = stop.minute then .error (.emptyRange (String.ofList span.text))
    else if start.minute ≤ lifted ∧ lifted ≤ start.minute + minutesPerDay ∧ lifted ≤ lastMinute then
      .ok ⟨start, { stop with minute := lifted }⟩
    else .error (.spanTooLong (String.ofList span.text))

/-- Joins stretches that touch, where the stretches come by rising start and `current` is the first
of them. There is no result if two of them overlap. -/
def joinStretches (current : Stretch) : List Stretch → Option (List Stretch)
  | [] => some [current]
  | next :: rest =>
    if next.start.minute < current.stop.minute then none
    else if next.start.minute = current.stop.minute then
      joinStretches { current with stop := next.stop } rest
    else (joinStretches next rest).map (current :: ·)

/-- The breaks between stretches. -/
def breaksBetween : List Stretch → List ClockRange
  | a :: b :: rest => ⟨a.stop.time, b.start.time⟩ :: breaksBetween (b :: rest)
  | _ => []

/-- The group that is open for some stretches by rising start with gaps between them, of which
`first` is the first. They may take a day from the first start to the last stop, and a whole day
only without a gap. -/
def groupOfStretches (days : WeekdaySet) (text : List Char) (first : Stretch)
    (more : List Stretch) : Except ReadError DayGroup :=
  let stop := (more.getLast?.getD first).stop
  let total := stop.minute - first.start.minute
  if minutesPerDay ≤ first.start.minute then .error (.lateStart (String.ofList text))
  else if minutesPerDay < total ∨ (total = minutesPerDay ∧ more ≠ []) then
    .error (.spanTooLong (String.ofList text))
  else if total = minutesPerDay then .ok (.fullDay days)
  else .ok {
    days
    opening := some ⟨first.start.time, stop.time⟩
    breaks := breaksBetween (first :: more) }

/-- The group that is open for some stretches in any order. -/
def groupOfSpans (days : WeekdaySet) (text : List Char) (stretches : List Stretch) :
    Except ReadError DayGroup :=
  match sortOn (·.start.minute) stretches with
  | [] => .error (.invalidTime (String.ofList text))
  | first :: rest =>
    match joinStretches first rest with
    | none => .error (.overlappingRanges (String.ofList text))
    | some [] => .error (.invalidTime (String.ofList text))
    | some (first :: more) => groupOfStretches days text first more

/-- Reads the clock spans of a rule for some days. -/
def readSelector (days : WeekdaySet) (selector : ClockSelector) : Except ReadError DayGroup := do
  let stretches ← selector.spans.mapM readSpan
  groupOfSpans days selector.text stretches

end OpeningHours.Reading
