import OpeningHours.Proofs.Horizon

/-! Outlooks under more holidays. They close the place and never open it: an open place is open
under fewer holidays too, a closed one opens no later under fewer, and an open one closes no later
under more. More holidays also move the horizon on, but the search under fewer holidays ends early
only where it has an opening to tell. -/

namespace OpeningHours

open OpeningHours.Span

namespace Schedule

variable {schedule : Schedule} {holidays more : Holidays} {limits : Limits} {now : Instant}
  {minutes : Nat}

section MoreHolidays

variable (hmore : ∀ date, holidays date = true → more date = true)

include hmore

theorem covers_now_of_more (h : Covers (schedule.spansAhead more limits now) now.minute) :
    Covers (schedule.spansAhead holidays limits now) now.minute := by
  have hminute := now.minute_lt
  refine covers_timeline_mono hmore (.inr ?_) h
  simp only [minutesPerDay]
  omega

/-- A minute that is open under more holidays is open under fewer, or the axis under fewer shows an
earlier opening. -/
theorem exists_covers_of_more (hsound : schedule.IsSound)
    (hdates : (now.date.shift? limits.scan).isSome = true)
    (h : Covers (schedule.spansAhead more limits now) (now.minute + minutes)) :
    ∃ k ≤ minutes, Covers (schedule.spansAhead holidays limits now) (now.minute + k) := by
  by_cases hreach :
      schedule.horizon more now.date limits ≤ schedule.horizon holidays now.date limits ∨
      (now.minute : Int) + minutes < (schedule.horizon holidays now.date limits + 1) * minutesPerDay
  · exact ⟨minutes, Nat.le_refl _, covers_timeline_mono hmore hreach h⟩
  · obtain ⟨hfurther, hpast⟩ := not_or.mp hreach
    have hbound := horizon_le schedule more now.date limits
    rcases horizon_cases schedule holidays now.date limits (fun days hdays =>
        Option.isSome_iff_exists.mpr (Date.exists_shift? hdates (by omega) (by omega))) with
      hhours | hlimit | ⟨days, hlater, hahead, date, hdate, hregular, hopens⟩
    · obtain ⟨hopen, -⟩ := Timeline.covers_openSpans.mp h
      obtain ⟨_, -, -, date, -, -, hin⟩ := covers_windows.mp hopen
      rw [hhours] at hin
      exact absurd hin covers_nil
    · omega
    · -- The search under fewer holidays has stopped at a day that opens.
      obtain ⟨k, hk, hopen⟩ :=
        exists_covers_of_opens hsound hlater hahead hdate hregular hopens
      refine ⟨k, ?_, hopen⟩
      simp only [minutesPerDay] at *
      omega

/-- A place that is closed under fewer holidays opens no later than under more. -/
theorem opens_no_later (hsound : schedule.IsSound)
    (hdates : (now.date.shift? limits.scan).isSome = true)
    (hclosed : (schedule.outlook holidays limits now).state = .closed)
    (h : (schedule.outlook more limits now).minutes = some minutes) :
    ∃ earlier ≤ minutes, (schedule.outlook holidays limits now).minutes = some earlier := by
  rw [outlook_closed_iff hsound] at hclosed
  have hclosed' : ¬Covers (schedule.spansAhead more limits now) now.minute :=
    fun hopen => hclosed (covers_now_of_more hmore hopen)
  obtain ⟨hfirst, hlimit, -⟩ := (minutes_eq_some_iff hsound).mp h
  obtain ⟨k, hk, hopen⟩ :=
    exists_covers_of_more hmore hsound hdates (hfirst.change.mpr hclosed')
  obtain ⟨earlier, hle, hminutes⟩ := exists_minutes_le hsound (iff_of_true hopen hclosed) (by omega)
    fun hnow => absurd hnow hclosed
  exact ⟨earlier, by omega, hminutes⟩

/-- A place that is open under more holidays closes no later than under fewer. -/
theorem closes_no_later (hsound : schedule.IsSound)
    (hopened : (schedule.outlook more limits now).state = .opened)
    (h : (schedule.outlook holidays limits now).minutes = some minutes) :
    ∃ earlier ≤ minutes, (schedule.outlook more limits now).minutes = some earlier := by
  rw [outlook_opened_iff hsound] at hopened
  obtain ⟨hfirst, hlimit, hbefore⟩ := (minutes_eq_some_iff hsound).mp h
  have hopen := covers_now_of_more hmore hopened
  have hhorizon :
      schedule.horizon holidays now.date limits ≤ schedule.horizon more now.date limits :=
    horizon_mono hmore (Nat.le_refl _) (Nat.le_refl _)
  have hchange := hbefore hopen
  have hclosed : ¬Covers (schedule.spansAhead more limits now) (now.minute + minutes) := by
    intro hlater
    exact hfirst.change.mp (covers_timeline_mono hmore (.inr hchange) hlater) hopen
  refine exists_minutes_le hsound (iff_of_false hclosed (not_not_intro hopened)) hlimit fun _ => ?_
  simp only [minutesPerDay] at *
  omega

end MoreHolidays

/-- Holidays only close. With more of them a place is open at no more instants, a closed place is
told to open no earlier, and an open place to close no later. -/
theorem outlook_of_more_holidays (hsound : schedule.IsSound)
    (hmore : ∀ date, holidays date = true → more date = true)
    (hdates : (now.date.shift? limits.scan).isSome = true) :
    ((schedule.outlook more limits now).state = .opened →
      (schedule.outlook holidays limits now).state = .opened) ∧
    ((schedule.outlook holidays limits now).state = .closed →
      ∀ minutes, (schedule.outlook more limits now).minutes = some minutes →
        ∃ earlier ≤ minutes, (schedule.outlook holidays limits now).minutes = some earlier) ∧
    ((schedule.outlook more limits now).state = .opened →
      ∀ minutes, (schedule.outlook holidays limits now).minutes = some minutes →
        ∃ earlier ≤ minutes, (schedule.outlook more limits now).minutes = some earlier) := by
  refine ⟨fun hopened => ?_, fun hclosed minutes h => ?_, fun hopened minutes h => ?_⟩
  · rw [outlook_opened_iff hsound] at hopened ⊢
    exact covers_now_of_more hmore hopened
  · exact opens_no_later hmore hsound hdates hclosed h
  · exact closes_no_later hmore hsound hopened h

/-- A place around the clock, with one holiday on a Wednesday or one on each side of it too. -/
theorem outlook_of_more_holidays_midweek :
    let around : Schedule := ⟨[.fullDay .all]⟩
    let one : Holidays := fun date => date.day == 738005
    let three : Holidays := fun date => 738004 ≤ date.day && date.day ≤ 738006
    let monday : Instant := ⟨⟨738003, by decide, by decide⟩, 600, 0, 0, by decide⟩
    let wednesday : Instant := ⟨⟨738005, by decide, by decide⟩, 600, 0, 0, by decide⟩
    (around.outlook one {} monday).state = .opened ∧
      (∃ earlier ≤ 2280, (around.outlook one {} wednesday).minutes = some earlier) ∧
      ∃ earlier ≤ 2280, (around.outlook three {} monday).minutes = some earlier := by
  intro around one three monday wednesday
  have hmore : ∀ date, one date = true → three date = true := by
    intro date hdate
    simp only [one, three, beq_iff_eq, Bool.and_eq_true, decide_eq_true_eq] at *
    omega
  have hsound : around.IsSound := by decide
  obtain ⟨hstate, -, hcloses⟩ :=
    @outlook_of_more_holidays around one three {} monday hsound hmore (by decide)
  obtain ⟨-, hopens, -⟩ :=
    @outlook_of_more_holidays around one three {} wednesday hsound hmore (by decide)
  have hopened : (around.outlook three {} monday).state = .opened := by decide
  exact ⟨hstate hopened, hopens (by decide) 2280 (by decide), hcloses hopened 2280 (by decide)⟩

end Schedule

end OpeningHours
