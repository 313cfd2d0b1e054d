import OpeningHours.Proofs.Countdown

/-! An open outlook without a countdown. An outlook that looks a week ahead passes each day of the
week, so that a closed minute of the week or a holiday would end the span that is open now. Nothing
ends it, and the place is open around the clock all week. -/

namespace OpeningHours

open OpeningHours.Span

namespace Schedule

variable {schedule : Schedule} {holidays : Holidays} {limits : Limits} {now : Instant}
  {date : Date} {minute : Int}

/-- Each minute of each day of the week is open, by the hours of the day or by those that the day
before has past midnight. -/
def CoversWeek (schedule : Schedule) : Prop :=
  ∀ day minute, 0 ≤ minute → minute < minutesPerDay →
    Covers (schedule.openSpans day) minute ∨
      Covers (schedule.openSpans day.pred) (minute + minutesPerDay)

/-- Without a countdown nothing closes an open place before the horizon. -/
theorem openOnAxis_of_no_countdown (hsound : schedule.IsSound)
    (hstate : (schedule.outlook holidays limits now).state = .opened)
    (hnone : (schedule.outlook holidays limits now).minutes = none)
    (hfrom : (now.minute : Int) ≤ minute)
    (hto : minute < (schedule.horizon holidays now.date limits + 1) * minutesPerDay)
    (hlimit : minute < countdownLimit) : schedule.OpenOnAxis holidays now.date minute := by
  have hnow := (outlook_opened_iff hsound).mp hstate
  rw [← covers_spansAhead_iff (by omega) hto]
  apply Classical.byContradiction
  intro hclosed
  obtain ⟨k, rfl⟩ := Int.le.dest hfrom
  obtain ⟨minutes, -, hsome⟩ := exists_minutes_le hsound
    (iff_of_false hclosed (not_not_intro hnow)) (by omega) fun _ => by omega
  rw [hnone] at hsome
  cases hsome

section Week

variable (hsound : schedule.IsSound) (hlookahead : 7 ≤ limits.lookahead) (hscan : 7 ≤ limits.scan)
  (hdates : (now.date.shift? 7).isSome = true)
  (hstate : (schedule.outlook holidays limits now).state = .opened)
  (hnone : (schedule.outlook holidays limits now).minutes = none)

include hsound hlookahead hscan hdates hstate hnone

theorem openAt_of_no_countdown {days : Int} (hweek : days ≤ 7)
    (hdate : now.date.shift? days = some date) (hminute : 0 ≤ minute ∧ minute < minutesPerDay)
    (hfrom : (now.minute : Int) ≤ days * minutesPerDay + minute) :
    schedule.OpenAt holidays date minute := by
  have hhorizon : 7 ≤ schedule.horizon holidays now.date limits :=
    le_horizon hdates hlookahead hscan
  have hopen : schedule.OpenOnAxis holidays now.date (days * minutesPerDay + minute) := by
    refine openOnAxis_of_no_countdown hsound hstate hnone hfrom ?_ ?_
    · simp only [minutesPerDay] at *
      omega
    · simp only [minutesPerDay, countdownLimit] at *
      omega
  have hday : (days * minutesPerDay + minute) / minutesPerDay = days := by
    rw [axis_ediv, Int.ediv_eq_zero_of_lt hminute.1 hminute.2, Int.add_zero]
  rwa [openOnAxis_iff (hday ▸ hdate), axis_emod, Int.emod_eq_of_lt hminute.1 hminute.2] at hopen

theorem coversWeek_of_no_countdown : schedule.CoversWeek := by
  intro day minute hlow hhigh
  obtain ⟨days, hfirst, hlast, date, hdate, rfl⟩ := Date.exists_weekday_ahead hdates day
  have hminute := now.minute_lt
  have hopen : schedule.OpenAt holidays date minute := by
    refine openAt_of_no_countdown hsound hlookahead hscan hdates hstate hnone hlast hdate
      ⟨hlow, hhigh⟩ ?_
    simp only [minutesPerDay]
    omega
  obtain ⟨-, hcovers | ⟨yesterday, hyesterday, -, hcovers⟩⟩ := hopen
  · exact .inl hcovers
  · rw [← Date.weekday_yesterday hyesterday]
    exact .inr hcovers

end Week

/-- An open place with no closing time to tell, a week or more ahead, has no holiday from today on
through that week, and it is open at every minute of every weekday. -/
theorem opened_without_countdown (hsound : schedule.IsSound) (hlookahead : 7 ≤ limits.lookahead)
    (hscan : 7 ≤ limits.scan) (hdates : (now.date.shift? 7).isSome = true)
    (hstate : (schedule.outlook holidays limits now).state = .opened)
    (hnone : (schedule.outlook holidays limits now).minutes = none) :
    (∀ days : Int, 0 ≤ days → days ≤ 7 →
      ∃ date, now.date.shift? days = some date ∧ holidays date = false) ∧
    schedule.CoversWeek := by
  refine ⟨fun days hlow hhigh => ?_,
    coversWeek_of_no_countdown hsound hlookahead hscan hdates hstate hnone⟩
  obtain ⟨date, hdate⟩ := Date.exists_shift? hdates hlow hhigh
  have hminute := now.minute_lt
  -- The last minute of any of the days is still to come.
  have hopen : schedule.OpenAt holidays date 1439 := by
    refine openAt_of_no_countdown hsound hlookahead hscan hdates hstate hnone hhigh hdate
      (by decide) ?_
    simp only [minutesPerDay]
    omega
  exact ⟨date, hdate, hopen.1⟩

/-- A holiday on the day after the week is too late to be told. -/
theorem opened_without_countdown_monday :
    let around : Schedule :=
      ⟨[.fullDay (.range .monday .friday), .fullDay (.range .saturday .sunday)]⟩
    let holidays : Holidays := fun date => date.day == 738011
    let monday : Instant := ⟨⟨738003, by decide, by decide⟩, 600, 0, 0, by decide⟩
    (around.outlook holidays {} monday).state = .opened ∧
      (around.outlook holidays {} monday).minutes = none ∧
      (∃ date, monday.date.shift? 7 = some date ∧ holidays date = false) ∧ around.CoversWeek := by
  intro around holidays monday
  have hstate : (around.outlook holidays {} monday).state = .opened := by decide
  have hnone : (around.outlook holidays {} monday).minutes = none := by decide
  obtain ⟨hdays, hweek⟩ := opened_without_countdown (by decide : around.IsSound) (by decide)
    (by decide) (by decide) hstate hnone
  exact ⟨hstate, hnone, hdays 7 (by decide) (by decide), hweek⟩

end Schedule

end OpeningHours
