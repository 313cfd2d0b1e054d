/-! Half-open spans of minutes. A span is laid on an axis whose zero is the midnight that starts a
day: the day itself is `[0, 1440)`, the next morning lies past 1440 and the evening before is
negative. -/

namespace OpeningHours

/-- The minutes of one day. -/
abbrev minutesPerDay : Int := 1440

/-- The day of a minute that is counted from the midnight of another day. -/
theorem axis_ediv (days minute : Int) :
    (days * minutesPerDay + minute) / minutesPerDay = days + minute / minutesPerDay := by
  simp only [minutesPerDay]
  omega

theorem axis_emod (days minute : Int) :
    (days * minutesPerDay + minute) % minutesPerDay = minute % minutesPerDay := by
  simp only [minutesPerDay]
  omega

/-- The minutes from `start` up to, and without, `stop`. -/
structure Span where
  start : Int
  stop : Int
  deriving DecidableEq, Repr

namespace Span

instance : Membership Int Span := ⟨fun span minute => span.start ≤ minute ∧ minute < span.stop⟩

theorem mem_iff {minute : Int} {span : Span} :
    minute ∈ span ↔ span.start ≤ minute ∧ minute < span.stop := Iff.rfl

instance (minute : Int) (span : Span) : Decidable (minute ∈ span) :=
  inferInstanceAs (Decidable (_ ∧ _))

/-- The number of minutes, 0 for a span that stops before it starts. -/
def duration (span : Span) : Int := max 0 (span.stop - span.start)

/-- `inner` lies in `outer` and reaches neither of its edges. -/
def StrictlyContains (outer inner : Span) : Prop :=
  outer.start < inner.start ∧ inner.stop < outer.stop

/-- Each span starts before the other one stops. -/
def Overlaps (a b : Span) : Prop := a.start < b.stop ∧ b.start < a.stop

/-- The spans overlap or meet end to start. -/
def Touches (a b : Span) : Prop := a.start ≤ b.stop ∧ b.start ≤ a.stop

instance (outer inner : Span) : Decidable (outer.StrictlyContains inner) :=
  inferInstanceAs (Decidable (_ ∧ _))

instance (a b : Span) : Decidable (a.Overlaps b) := inferInstanceAs (Decidable (_ ∧ _))

instance (a b : Span) : Decidable (a.Touches b) := inferInstanceAs (Decidable (_ ∧ _))

theorem Touches.symm {a b : Span} (h : a.Touches b) : b.Touches a := ⟨h.2, h.1⟩

/-- The span moved by a number of minutes. -/
def shift (span : Span) (minutes : Int) : Span := ⟨span.start + minutes, span.stop + minutes⟩

@[simp] theorem start_shift (span : Span) (minutes : Int) :
    (span.shift minutes).start = span.start + minutes := rfl

@[simp] theorem stop_shift (span : Span) (minutes : Int) :
    (span.shift minutes).stop = span.stop + minutes := rfl

/-- The span from one time of day to another, placed on the axis of the day on which it starts: it
runs past midnight when it would not stop after its start otherwise. -/
def ofTimes (start stop : Int) : Span :=
  let start := start % minutesPerDay
  let stop := stop % minutesPerDay
  ⟨start, if stop ≤ start then stop + minutesPerDay else stop⟩

theorem ofTimes_bounds (start stop : Int) :
    0 ≤ (ofTimes start stop).start ∧ (ofTimes start stop).start < minutesPerDay ∧
      (ofTimes start stop).start < (ofTimes start stop).stop ∧
      (ofTimes start stop).stop ≤ (ofTimes start stop).start + minutesPerDay := by
  simp only [ofTimes, minutesPerDay]
  split <;> omega

/-- What a list of closed spans leaves of the minutes from `cursor` to the end of `window`. The
closed spans come by rising start; the parts of them outside the window count for nothing. -/
def gaps (window : Span) (cursor : Int) : List Span → List Span
  | [] => if cursor < window.stop then [⟨cursor, window.stop⟩] else []
  | closed :: rest =>
    let start := max window.start (min closed.start window.stop)
    let stop := max window.start (min closed.stop window.stop)
    let later := gaps window (max cursor stop) rest
    if cursor < start then ⟨cursor, start⟩ :: later else later

end Span

end OpeningHours
