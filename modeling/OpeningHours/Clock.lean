import OpeningHours.Span
import OpeningHours.Text.Digits

/-! Times of day and the ranges between two of them. Two times are the same when they name the same
minute of the day, whether or not a text spelled the minutes out: the relations `SameTime` and
`SameTimes` say so, and `=` compares the spelling too. -/

namespace OpeningHours

/-- A time of day. The numbers can be out of range, and `IsValid` says when they are not. -/
structure ClockTime where
  hour : Nat
  minute : Nat
  /-- Whether the minutes are spelled out, as in `09:00`, or left out, as in `9`. -/
  minutesExplicit : Bool := true
  deriving DecidableEq, Repr

namespace ClockTime

/-- The minutes since midnight. -/
def minuteOfDay (time : ClockTime) : Int := 60 * time.hour + time.minute

/-- Hour and minute are those of a clock. -/
def IsValid (time : ClockTime) : Prop := time.hour < 24 ∧ time.minute < 60

instance (time : ClockTime) : Decidable time.IsValid := inferInstanceAs (Decidable (_ ∧ _))

/-- The times name the same minute of the day. -/
def SameTime (a b : ClockTime) : Prop := a.minuteOfDay = b.minuteOfDay

instance (a b : ClockTime) : Decidable (a.SameTime b) := inferInstanceAs (Decidable (_ = _))

/-- The times name the same minute and are spelled alike. -/
def Identical (a b : ClockTime) : Prop := a.SameTime b ∧ a.minutesExplicit = b.minutesExplicit

instance (a b : ClockTime) : Decidable (a.Identical b) := inferInstanceAs (Decidable (_ ∧ _))

/-- The order of two times within the day. -/
def compare (a b : ClockTime) : Ordering := Ord.compare a.minuteOfDay b.minuteOfDay

/-- The time so many minutes after a midnight, with its minutes spelled out. -/
def ofMinute (minute : Int) : ClockTime where
  hour := (minute % minutesPerDay / 60).toNat
  minute := (minute % 60).toNat

theorem minuteOfDay_ofMinute (minute : Int) :
    (ofMinute minute).minuteOfDay = minute % minutesPerDay := by
  simp only [minuteOfDay, ofMinute, minutesPerDay]
  omega

theorem ofMinute_isValid (minute : Int) : (ofMinute minute).IsValid := by
  simp only [IsValid, ofMinute, minutesPerDay]
  omega

/-- The time of an hour and a minute, if a clock shows them. -/
def ofParts? (hour minute : Nat) : Option ClockTime :=
  if IsValid ⟨hour, minute, true⟩ then some ⟨hour, minute, true⟩ else none

/-- A full hour with its minutes left out. -/
def onTheHour (hour : Nat) : ClockTime := ⟨hour, 0, false⟩

/-- The time as `HH:MM`. -/
def render (time : ClockTime) : List Char :=
  Text.twoDigits time.hour ++ ':' :: Text.twoDigits time.minute

instance : ToString ClockTime := ⟨fun time => String.ofList time.render⟩

/-- The minutes of the day that a list of times names, each of them once. -/
def distinctMinutes (times : List ClockTime) : List Int := (times.map minuteOfDay).eraseDups

end ClockTime

/-- A range from one time of day to another. It is overnight when it ends earlier in the day than
it starts. -/
structure ClockRange where
  start : ClockTime
  stop : ClockTime
  deriving DecidableEq, Repr

namespace ClockRange

/-- Start and end name the same minute, so that the range has no length. -/
def IsDegenerate (range : ClockRange) : Prop := range.start.SameTime range.stop

instance (range : ClockRange) : Decidable range.IsDegenerate := inferInstanceAs (Decidable (_ = _))

/-- Both times are valid and they differ. -/
def IsValid (range : ClockRange) : Prop :=
  range.start.IsValid ∧ range.stop.IsValid ∧ ¬range.IsDegenerate

instance (range : ClockRange) : Decidable range.IsValid := inferInstanceAs (Decidable (_ ∧ _))

/-- The range runs past midnight. -/
def IsOvernight (range : ClockRange) : Prop := range.stop.minuteOfDay < range.start.minuteOfDay

instance (range : ClockRange) : Decidable range.IsOvernight := inferInstanceAs (Decidable (_ < _))

/-- The minutes of the two times, which are what counts of a range. -/
def minutes (range : ClockRange) : Int × Int :=
  (range.start.minuteOfDay, range.stop.minuteOfDay)

/-- The minutes of the range on the axis of the day on which it starts. -/
def span (range : ClockRange) : Span :=
  Span.ofTimes range.start.minuteOfDay range.stop.minuteOfDay

/-- The minutes of the range on the axis of a day that begins at `origin`: a range that starts
earlier in the day than `origin` belongs to the next morning. -/
def spanAfter (range : ClockRange) (origin : Int) : Span :=
  if range.span.start < origin % minutesPerDay then range.span.shift minutesPerDay else range.span

/-- The range as `HH:MM-HH:MM`. -/
def render (range : ClockRange) : List Char := range.start.render ++ '-' :: range.stop.render

instance : ToString ClockRange := ⟨fun range => String.ofList range.render⟩

end ClockRange

end OpeningHours
