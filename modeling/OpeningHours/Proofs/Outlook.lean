import OpeningHours.Outlook
import OpeningHours.Proofs.Soundness
import OpeningHours.Proofs.Timeline

/-! The state that an outlook tells is the one that the hours of two days give: those of the day
itself, and what is left over from the day before. `OpenAt` says so of one minute of one date,
without any axis. On the axis of an outlook the days before the horizon are open at those minutes
and no others. -/

namespace OpeningHours

open OpeningHours.Span

namespace State

/-- The state after a change. -/
def opposite : State → State
  | opened => closed
  | closed => opened
  | unknown => unknown

end State

namespace Schedule

variable {schedule : Schedule} {holidays : Holidays} {limits : Limits} {now : Instant}
  {today date : Date} {horizon : Nat} {offset minute : Int}

/-- The schedule is open at a minute of a date: the date is no holiday, and the minute lies in the
hours of its weekday, or past midnight in those of the day before if that is no holiday either. -/
def OpenAt (schedule : Schedule) (holidays : Holidays) (date : Date) (minute : Int) : Prop :=
  holidays date = false ∧
    (Covers (schedule.openSpans date.weekday) minute ∨
      ∃ yesterday ∈ date.shift? (-1), holidays yesterday = false ∧
        Covers (schedule.openSpans yesterday.weekday) (minute + minutesPerDay))

instance (schedule : Schedule) (holidays : Holidays) (date : Date) (minute : Int) :
    Decidable (schedule.OpenAt holidays date minute) := inferInstanceAs (Decidable (_ ∧ _))

/-- The state at an instant by the hours of its date and of the day before. -/
def stateAt (schedule : Schedule) (holidays : Holidays) (instant : Instant) : State :=
  if schedule.OpenAt holidays instant.date instant.minute then .opened else .closed

theorem bounds_of_covers {day : Weekday} (h : Covers (schedule.openSpans day) minute) :
    0 ≤ minute ∧ minute < 2 * minutesPerDay := by
  rw [openSpans] at h
  cases howner : schedule.owner? day with
  | none => simp [howner] at h
  | some group =>
    rw [howner] at h
    exact DayGroup.bounds_of_covers h

/-! ### The days on the axis -/

theorem covers_windowsOn : Covers (schedule.windowsOn holidays today offset) minute ↔
    ∃ date ∈ today.shift? offset, holidays date = false ∧
      Covers (schedule.openSpans date.weekday) (minute - offset * minutesPerDay) := by
  rw [windowsOn]
  cases today.shift? offset with
  | none => simp
  | some date =>
    cases hholiday : holidays date with
    | true => simp [hholiday]
    | false => simp [hholiday, covers_map_shift]

theorem mem_blockedOn {span : Span} : span ∈ blockedOn holidays today offset ↔
    ∃ date ∈ today.shift? offset, holidays date = true ∧
      span = ⟨offset * minutesPerDay, offset * minutesPerDay + minutesPerDay⟩ := by
  rw [blockedOn]
  cases today.shift? offset with
  | none => simp
  | some date =>
    cases hholiday : holidays date with
    | true => simpa [hholiday] using eq_comm
    | false => simp [hholiday]

theorem mem_offsets {n : Nat} :
    offset ∈ (List.range n).map (fun (i : Nat) => (i : Int) - 1) ↔
      -1 ≤ offset ∧ offset + 1 < n := by
  rw [List.mem_map]
  constructor
  · rintro ⟨i, hi, rfl⟩
    have := List.mem_range.mp hi
    omega
  · rintro ⟨hlow, hhigh⟩
    exact ⟨(offset + 1).toNat, List.mem_range.mpr (by omega), by omega⟩

theorem covers_windows : Covers (schedule.timeline holidays today horizon).windows minute ↔
    ∃ offset : Int, -1 ≤ offset ∧ offset ≤ horizon ∧ ∃ date ∈ today.shift? offset,
      holidays date = false ∧
        Covers (schedule.openSpans date.weekday) (minute - offset * minutesPerDay) := by
  simp only [timeline, covers_flatMap, mem_offsets, covers_windowsOn]
  constructor
  · rintro ⟨offset, ⟨hlow, hhigh⟩, h⟩
    exact ⟨offset, hlow, by omega, h⟩
  · rintro ⟨offset, hlow, hhigh, h⟩
    exact ⟨offset, ⟨hlow, by omega⟩, h⟩

theorem covers_blocked : Covers (schedule.timeline holidays today horizon).blocked minute ↔
    ∃ offset : Int, -1 ≤ offset ∧ offset ≤ horizon + 1 ∧ ∃ date ∈ today.shift? offset,
      holidays date = true ∧ offset * minutesPerDay ≤ minute ∧
        minute < offset * minutesPerDay + minutesPerDay := by
  simp only [timeline, Covers, List.mem_filterMap, mem_offsets]
  constructor
  · rintro ⟨span, ⟨offset, ⟨hlow, hhigh⟩, hspan⟩, hminute⟩
    obtain ⟨date, hdate, hholiday, rfl⟩ := mem_blockedOn.mp hspan
    exact ⟨offset, hlow, by omega, date, hdate, hholiday, hminute.1, hminute.2⟩
  · rintro ⟨offset, hlow, hhigh, date, hdate, hholiday, hminute⟩
    exact ⟨_, ⟨offset, ⟨hlow, by omega⟩, mem_blockedOn.mpr ⟨date, hdate, hholiday, rfl⟩⟩, hminute⟩

/-- A day on the axis is blocked if it is a holiday, and no other day blocks a minute of it. -/
theorem covers_blocked_on (hdate : today.shift? offset = some date) (hlow : -1 ≤ offset)
    (hhigh : offset ≤ horizon + 1) (hminute : 0 ≤ minute ∧ minute < minutesPerDay) :
    Covers (schedule.timeline holidays today horizon).blocked (offset * minutesPerDay + minute) ↔
      holidays date = true := by
  rw [covers_blocked]
  simp only [minutesPerDay] at *
  constructor
  · rintro ⟨other, -, -, date', hdate', hholiday, hfrom, hto⟩
    obtain rfl : other = offset := by omega
    obtain rfl : date = date' := Option.some.inj (hdate.symm.trans hdate')
    exact hholiday
  · intro hholiday
    exact ⟨offset, hlow, hhigh, date, hdate, hholiday, by omega, by omega⟩

/-- A day from today to the horizon opens on the axis when the schedule opens it: hours reach into
the day after at most, so that no other day counts than that one and the day before. -/
theorem covers_timeline (schedule : Schedule) (holidays : Holidays)
    (hdate : today.shift? offset = some date) (hlow : 0 ≤ offset) (hhigh : offset ≤ horizon)
    (hminute : 0 ≤ minute ∧ minute < minutesPerDay) :
    Covers (schedule.timeline holidays today horizon).openSpans (offset * minutesPerDay + minute) ↔
      schedule.OpenAt holidays date minute := by
  rw [Timeline.covers_openSpans, covers_blocked_on hdate (by omega) (by omega) hminute,
    covers_windows, OpenAt, and_comm, Bool.not_eq_true, Date.shift?_shift? hdate]
  apply and_congr_right
  intro hregular
  constructor
  · rintro ⟨other, hfrom, hto, date', hdate', hregular', hcovers⟩
    have hbounds := bounds_of_covers hcovers
    simp only [minutesPerDay] at *
    obtain rfl | rfl : other = offset ∨ other = offset + -1 := by omega
    · obtain rfl : date = date' := Option.some.inj (hdate.symm.trans hdate')
      left
      rwa [show other * 1440 + minute - other * 1440 = minute by omega] at hcovers
    · right
      refine ⟨date', hdate', hregular', ?_⟩
      rwa [show offset * 1440 + minute - (offset + -1) * 1440 = minute + 1440 by omega] at hcovers
  · rintro (hcovers | ⟨yesterday, hyesterday, hregular', hcovers⟩)
    · refine ⟨offset, by omega, hhigh, date, hdate, hregular, ?_⟩
      rwa [show offset * minutesPerDay + minute - offset * minutesPerDay = minute by omega]
    · refine ⟨offset + -1, by omega, by omega, yesterday, hyesterday, hregular', ?_⟩
      rwa [show offset * minutesPerDay + minute - (offset + -1) * minutesPerDay =
        minute + minutesPerDay by simp only [minutesPerDay]; omega]

/-- Fewer holidays and more days close no minute of the axis, and fewer days close none of the days
that are left. -/
theorem covers_timeline_mono {more : Holidays} {other : Nat}
    (hmore : ∀ date, holidays date = true → more date = true)
    (hreach : horizon ≤ other ∨ minute < (other + 1) * minutesPerDay)
    (h : Covers (schedule.timeline more today horizon).openSpans minute) :
    Covers (schedule.timeline holidays today other).openSpans minute := by
  obtain ⟨hopen, hfree⟩ := Timeline.covers_openSpans.mp h
  obtain ⟨offset, hlow, hhigh, date, hdate, hregular, hin⟩ := covers_windows.mp hopen
  have hbounds := bounds_of_covers hin
  have hregular' : holidays date = false := by
    cases hholiday : holidays date with
    | false => rfl
    | true => rw [hmore date hholiday] at hregular; cases hregular
  have hoffset : offset ≤ other := by
    simp only [minutesPerDay] at *
    omega
  refine Timeline.covers_openSpans.mpr
    ⟨covers_windows.mpr ⟨offset, hlow, hoffset, date, hdate, hregular', hin⟩, fun hblocked => ?_⟩
  -- A holiday that blocks the minute comes no later than the day after the one that opens it.
  obtain ⟨day, hfrom, -, holiday, hday, hholiday, hstart, hstop⟩ := covers_blocked.mp hblocked
  have hnext : day ≤ horizon + 1 := by
    simp only [minutesPerDay] at *
    omega
  exact hfree (covers_blocked.mpr
    ⟨day, hfrom, hnext, holiday, hday, hmore holiday hholiday, hstart, hstop⟩)

/-! ### What an outlook reads off the axis -/

/-- The open spans of the days up to the horizon of an instant. -/
def spansAhead (schedule : Schedule) (holidays : Holidays) (limits : Limits) (now : Instant) :
    List Span :=
  (schedule.timeline holidays now.date (schedule.horizon holidays now.date limits)).openSpans

theorem spansAhead_separated : Separated (schedule.spansAhead holidays limits now) :=
  Timeline.openSpans_separated _

theorem covers_spansAhead_now :
    Covers (schedule.spansAhead holidays limits now) now.minute ↔
      schedule.OpenAt holidays now.date now.minute := by
  have hminute := now.minute_lt
  have hcovers := covers_timeline schedule holidays (Date.shift?_zero now.date) (Int.le_refl 0)
    (Int.natCast_nonneg (schedule.horizon holidays now.date limits))
    (by simp only [minutesPerDay]; omega : (0 : Int) ≤ now.minute ∧ now.minute < minutesPerDay)
  rwa [Int.zero_mul, Int.zero_add] at hcovers

/-- An outlook is open in a span and tells its end, or closed and tells the start of the next. -/
theorem outlook_cases (hsound : schedule.IsSound) (holidays : Holidays) (limits : Limits)
    (now : Instant) :
    (∃ span ∈ schedule.spansAhead holidays limits now, (now.minute : Int) ∈ span ∧
      schedule.outlook holidays limits now = .known .opened
        (if span.stop < (schedule.horizon holidays now.date limits + 1) * minutesPerDay then
          countdown? (span.stop - now.minute) else none) now) ∨
    ¬Covers (schedule.spansAhead holidays limits now) now.minute ∧
      schedule.outlook holidays limits now = .known .closed
        (((schedule.spansAhead holidays limits now).find?
          fun span => (now.minute : Int) < span.start).bind
            fun span => countdown? (span.start - now.minute)) now := by
  simp only [spansAhead]
  rw [outlook, if_neg (not_not_intro hsound)]
  simp only
  split
  · rename_i span hfind
    left
    refine ⟨span, List.mem_of_find?_eq_some hfind, by simpa using List.find?_some hfind, ?_⟩
    split <;> rfl
  · rename_i hfind
    refine .inr ⟨?_, ?_⟩
    · rintro ⟨span, hspan, hminute⟩
      exact absurd hminute (by simpa using List.find?_eq_none.mp hfind span hspan)
    · rw [Option.bind_map]
      rfl

theorem outlook_state (hsound : schedule.IsSound) (holidays : Holidays) (limits : Limits)
    (now : Instant) : (schedule.outlook holidays limits now).state =
      if Covers (schedule.spansAhead holidays limits now) now.minute then .opened else .closed := by
  rcases outlook_cases hsound holidays limits now with ⟨span, hspan, hminute, h⟩ | ⟨hclosed, h⟩
  · have hopen : Covers (schedule.spansAhead holidays limits now) now.minute :=
      ⟨span, hspan, hminute⟩
    rw [if_pos hopen, h]
    rfl
  · rw [if_neg hclosed, h]
    rfl

theorem outlook_opened_iff (hsound : schedule.IsSound) :
    (schedule.outlook holidays limits now).state = .opened ↔
      Covers (schedule.spansAhead holidays limits now) now.minute := by
  rw [outlook_state hsound]
  split <;> simp [*]

theorem outlook_closed_iff (hsound : schedule.IsSound) :
    (schedule.outlook holidays limits now).state = .closed ↔
      ¬Covers (schedule.spansAhead holidays limits now) now.minute := by
  rw [outlook_state hsound]
  split <;> simp [*]

/-- Only a schedule with a fault has no outlook. -/
theorem outlook_unknown_iff :
    (schedule.outlook holidays limits now).state = .unknown ↔ ¬schedule.IsSound := by
  by_cases hsound : schedule.IsSound
  · rw [outlook_state hsound]
    split <;> simp [hsound]
  · rw [outlook, if_pos hsound]
    exact iff_of_true rfl hsound

/-- The outlook tells the state that the hours of today and yesterday give, however far it looks. -/
theorem outlook_state_eq_stateAt (hsound : schedule.IsSound) (holidays : Holidays)
    (limits : Limits) (now : Instant) :
    (schedule.outlook holidays limits now).state = schedule.stateAt holidays now := by
  have hminute := now.minute_lt
  have hcovers := covers_timeline schedule holidays (Date.shift?_zero now.date) (Int.le_refl 0)
    (Int.natCast_nonneg (schedule.horizon holidays now.date limits))
    (by simp only [minutesPerDay]; omega : (0 : Int) ≤ now.minute ∧ now.minute < minutesPerDay)
  rw [Int.zero_mul, Int.zero_add] at hcovers
  rw [outlook_state hsound, spansAhead, stateAt]
  simp only [hcovers]

/-- A holiday cuts off the night that runs into it. -/
theorem outlook_state_eq_stateAt_nights :
    let holidays : Holidays := fun date => date.day == 738001
    let now : Instant := ⟨⟨738001, by decide, by decide⟩, 150, 0, 0, by decide⟩
    (nights.outlook holidays {} now).state = nights.stateAt holidays now ∧
      nights.stateAt holidays now = .closed ∧ nights.stateAt (fun _ => false) now = .opened :=
  ⟨outlook_state_eq_stateAt (by decide) _ _ _, by decide, by decide⟩

end Schedule

end OpeningHours
