import OpeningHours.Calendar.Instant
import OpeningHours.Reading.Words
import OpeningHours.Schedule.Fault
import OpeningHours.Timeline

/-! The outlook at an instant: whether the place is open, and when that changes. The days from
yesterday on to a horizon are laid on one axis of minutes. Holidays are blocked from midnight to
midnight, which cuts off what runs into them from the evening before. -/

namespace OpeningHours

/-- Limits on the days that are looked at for the next change. -/
structure Limits where
  /-- The days after today, holidays not counted, to look at in any case. -/
  lookahead : Nat := 7
  /-- The days after today, holidays counted, after which the search ends. -/
  scan : Nat := 366
  deriving DecidableEq, Repr

/-- Whether a place is open. -/
inductive State where
  | opened | closed
  /-- The schedule cannot be evaluated, which is not to say that the place is closed. -/
  | unknown
  deriving DecidableEq, Repr

/-- Whether a place is open at an instant, and when that changes. -/
structure Outlook where
  state : State
  /-- The minutes up to the next change, if one is found. -/
  minutes : Option Nat := none
  /-- The instant of the next change, if the calendar covers it. -/
  next : Option Instant := none
  deriving DecidableEq

namespace Outlook

/-- The outlook of a schedule that cannot be evaluated. -/
def unknown : Outlook := { state := .unknown }

/-- The outlook in a minute for a state that changes after some minutes. -/
def known (state : State) (minutes : Option Nat) (now : Instant) : Outlook where
  state
  minutes
  next := minutes.bind fun minutes => now.truncate.addMinutes? minutes

end Outlook

namespace Schedule

/-- Whether the schedule opens on a weekday, be it past midnight only. -/
def opensOn (schedule : Schedule) (day : Weekday) : Bool := !(schedule.openSpans day).isEmpty

/-- The last day to look at, as a number of days after today, from `offset` on. The search has
`left` days to go. It has passed `regular` days that are no holidays, and it still waits for a day
with an opening if `pending` holds. -/
def horizonFrom (schedule : Schedule) (holidays : Holidays) (today : Date) (lookahead : Nat) :
    (left offset regular : Nat) → (pending : Bool) → Nat
  | 0, offset, _, _ => offset
  | left + 1, offset, regular, pending =>
    match today.shift? (offset + 1) with
    | none => offset
    | some date =>
      let isRegular := !holidays date
      let regular := if isRegular then regular + 1 else regular
      let pending := pending && !(isRegular && schedule.opensOn date.weekday)
      if lookahead ≤ regular ∧ pending = false then offset + 1
      else horizonFrom schedule holidays today lookahead left (offset + 1) regular pending

/-- The last day to look at, as a number of days after today: far enough for the look-ahead and for
the first day after today that is no holiday and has an opening, within the limit and the
calendar. -/
def horizon (schedule : Schedule) (holidays : Holidays) (today : Date) (limits : Limits) : Nat :=
  let opens := Weekday.all.any schedule.opensOn
  if limits.lookahead = 0 ∧ opens = false then 0
  else schedule.horizonFrom holidays today limits.lookahead limits.scan 0 0 opens

/-- The open windows of the day `offset` days after today, on the axis of today. -/
def windowsOn (schedule : Schedule) (holidays : Holidays) (today : Date) (offset : Int) :
    List Span :=
  match today.shift? offset with
  | none => []
  | some date =>
    if holidays date then []
    else (schedule.openSpans date.weekday).map (·.shift (offset * minutesPerDay))

/-- The blocked period of the day `offset` days after today, if that is a holiday. -/
def blockedOn (holidays : Holidays) (today : Date) (offset : Int) : Option Span :=
  match today.shift? offset with
  | none => none
  | some date =>
    if holidays date then some ⟨offset * minutesPerDay, offset * minutesPerDay + minutesPerDay⟩
    else none

/-- The days from yesterday to the horizon on the axis of today. A holiday on the day after the
horizon cuts off what runs into it. -/
def timeline (schedule : Schedule) (holidays : Holidays) (today : Date) (horizon : Nat) :
    Timeline :=
  let offsets (n : Nat) : List Int := (List.range n).map fun (i : Nat) => (i : Int) - 1
  { windows := (offsets (horizon + 2)).flatMap (schedule.windowsOn holidays today)
    blocked := (offsets (horizon + 3)).filterMap (blockedOn holidays today) }

/-- The bound below which the minutes up to the next change are told. -/
def countdownLimit : Int := 4294967296

/-- A distance in minutes as a countdown, if it is below the bound. -/
def countdown? (minutes : Int) : Option Nat :=
  if 0 ≤ minutes ∧ minutes < countdownLimit then some minutes.toNat else none

/-- The outlook at an instant. An open state changes at the end of the span that has the minute,
unless that span reaches the horizon, and a closed state at the start of the next span. -/
def outlook (schedule : Schedule) (holidays : Holidays) (limits : Limits) (now : Instant) :
    Outlook :=
  if ¬schedule.IsSound then .unknown
  else
    let minute : Int := now.minute
    let horizon := schedule.horizon holidays now.date limits
    let spans := (schedule.timeline holidays now.date horizon).openSpans
    match spans.find? fun span => minute ∈ span with
    | some span =>
      let stop := if span.stop < (horizon + 1) * minutesPerDay then some span.stop else none
      .known .opened (stop.bind fun stop => countdown? (stop - minute)) now
    | none =>
      let start := (spans.find? fun span => minute < span.start).map Span.start
      .known .closed (start.bind fun start => countdown? (start - minute)) now

end Schedule

/-- The outlook of a text at an instant, which is unknown for a text that is no weekly schedule. -/
def outlookOf (text : String) (holidays : Holidays) (limits : Limits) (now : Instant) : Outlook :=
  match Schedule.read text with
  | .ok schedule => schedule.outlook holidays limits now
  | .error _ => .unknown

/-- What the program answers to a text at an instant. There is no answer where it breaks off in
the text. -/
def parseOutlook (text : String) (holidays : Holidays) (limits : Limits) (now : Instant) :
    Option Outlook := do
  match ← Schedule.parse text with
  | .ok schedule => return schedule.outlook holidays limits now
  | .error _ => return .unknown

end OpeningHours
