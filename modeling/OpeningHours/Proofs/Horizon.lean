import OpeningHours.Proofs.Countdown

/-! A closed outlook without a countdown. The search for an opening ends early only at a regular day
that opens, and such a day is on the axis. So the search went on to its limit, or there is nothing
to find in any week, and the place stays closed on every day that the search was to look at. -/

namespace OpeningHours

open OpeningHours.Span

namespace Schedule

variable {schedule : Schedule} {holidays : Holidays} {limits : Limits} {now : Instant}
  {today date : Date} {minute : Int}

theorem not_openAt_of_no_hours (h : ∀ day, schedule.openSpans day = []) :
    ¬schedule.OpenAt holidays date minute := by
  simp [OpenAt, h]

/-- The day some days after today is no holiday, and the schedule opens on it. -/
def OpensAfter (schedule : Schedule) (holidays : Holidays) (today : Date) (days : Nat) : Prop :=
  ∃ date ∈ today.shift? days, holidays date = false ∧ schedule.openSpans date.weekday ≠ []

theorem opensAfter_of_pendingWith {offset : Nat} (hdate : today.shift? (offset + 1) = some date)
    (h : schedule.pendingWith holidays date true = false) :
    schedule.OpensAfter holidays today (offset + 1) := by
  refine ⟨date, by simpa using hdate, ?_⟩
  simpa [pendingWith, opensOn] using h

/-- A search that waits for an opening and ends before its limit has found one. -/
theorem opensAfter_of_horizonFrom_lt {lookahead left offset regular : Nat}
    (hdates : ∀ days : Nat, days ≤ offset + left → (today.shift? days).isSome = true)
    (h : schedule.horizonFrom holidays today lookahead left offset regular true < offset + left) :
    ∃ days : Nat, offset < days ∧
      days ≤ schedule.horizonFrom holidays today lookahead left offset regular true ∧
      schedule.OpensAfter holidays today days := by
  induction left generalizing offset regular with
  | zero => exact absurd h (Nat.lt_irrefl _)
  | succ left ih =>
    obtain ⟨date, hdate⟩ := Option.isSome_iff_exists.mp (hdates (offset + 1) (by omega))
    have hnext : today.shift? (offset + 1) = some date := by simpa using hdate
    rw [horizonFrom_succ hnext] at h ⊢
    cases hpending : schedule.pendingWith holidays date true with
    | false =>
      refine ⟨offset + 1, by omega, ?_, opensAfter_of_pendingWith hnext hpending⟩
      split
      · exact Nat.le_refl _
      · exact horizonFrom_bounds.1
    | true =>
      rw [hpending] at h
      simp only [Bool.true_eq_false, and_false, if_false] at h ⊢
      obtain ⟨days, hlow, hhigh, hopens⟩ := @ih (offset + 1) (regularWith holidays date regular)
        (fun days hdays => hdates days (by omega)) (by omega)
      exact ⟨days, by omega, hhigh, hopens⟩

/-- The horizon lies at the limit, past an opening day, or there is no such day in the week. -/
theorem horizon_cases (schedule : Schedule) (holidays : Holidays) (today : Date) (limits : Limits)
    (hdates : ∀ days : Nat, days ≤ limits.scan → (today.shift? days).isSome = true) :
    (∀ day, schedule.openSpans day = []) ∨
    schedule.horizon holidays today limits = limits.scan ∨
    ∃ days : Nat, 0 < days ∧ days ≤ schedule.horizon holidays today limits ∧
      schedule.OpensAfter holidays today days := by
  have hbound := horizon_le schedule holidays today limits
  cases hopens : Weekday.all.any schedule.opensOn with
  | false =>
    left
    intro day
    simpa [opensOn] using List.any_eq_false.mp hopens day (Weekday.mem_all day)
  | true =>
    right
    simp only [horizon, hopens, Bool.true_eq_false, and_false, if_false] at hbound ⊢
    by_cases hlimit : schedule.horizonFrom holidays today limits.lookahead limits.scan 0 0 true =
        limits.scan
    · exact .inl hlimit
    · exact .inr (opensAfter_of_horizonFrom_lt (fun days hdays => hdates days (by omega))
        (by omega))

/-- A closed outlook tells a countdown if the axis has an open minute from now on. -/
theorem not_covers_of_no_countdown (hsound : schedule.IsSound)
    (hlimit : (limits.scan + 2) * minutesPerDay < countdownLimit)
    (hstate : (schedule.outlook holidays limits now).state = .closed)
    (hnone : (schedule.outlook holidays limits now).minutes = none)
    (hminute : (now.minute : Int) ≤ minute) :
    ¬Covers (schedule.spansAhead holidays limits now) minute := by
  intro hopen
  have hclosed := (outlook_closed_iff hsound).mp hstate
  have hbound := horizon_le schedule holidays now.date limits
  have hahead := lt_of_covers_spansAhead hopen
  obtain ⟨k, rfl⟩ := Int.le.dest hminute
  -- The minute lies too early for the bound to hide the change that it makes.
  obtain ⟨minutes, -, hsome⟩ := exists_minutes_le hsound (iff_of_true hopen hclosed)
    (by simp only [minutesPerDay, countdownLimit] at *; omega) fun h => absurd h hclosed
  rw [hnone] at hsome
  cases hsome

/-- A closed outlook without a countdown misses no opening: the place is closed from now on to the
end of the last day that the limit allows to look at. -/
theorem closed_of_no_countdown (hsound : schedule.IsSound)
    (hlimit : (limits.scan + 2) * minutesPerDay < countdownLimit)
    (hdates : ∀ days : Int, -1 ≤ days → days ≤ limits.scan → (now.date.shift? days).isSome = true)
    (hstate : (schedule.outlook holidays limits now).state = .closed)
    (hnone : (schedule.outlook holidays limits now).minutes = none)
    {days : Nat} (hdays : days ≤ limits.scan) (hdate : now.date.shift? days = some date)
    (hminute : 0 ≤ minute ∧ minute < minutesPerDay)
    (hfrom : (now.minute : Int) ≤ days * minutesPerDay + minute) :
    ¬schedule.OpenAt holidays date minute := by
  have hnothing {other : Int} (h : (now.minute : Int) ≤ other) :
      ¬Covers (schedule.spansAhead holidays limits now) other :=
    not_covers_of_no_countdown hsound hlimit hstate hnone h
  rcases horizon_cases schedule holidays now.date limits
      (fun days hdays => hdates days (by omega) (by omega)) with
    hhours | hhorizon | ⟨found, hlater, hahead, opening, hopening, hregular, hopens⟩
  · exact not_openAt_of_no_hours hhours
  · rw [← covers_timeline schedule holidays hdate (Int.natCast_nonneg _)
      (Int.ofNat_le.mpr (hhorizon ▸ hdays)) hminute]
    exact hnothing hfrom
  · -- The day that ended the search opens before midnight, so that the axis shows it.
    obtain ⟨early, hlow, hhigh, hcovers⟩ := exists_covers_before_midnight hsound hopens
    have hopen : Covers (schedule.spansAhead holidays limits now)
        (found * minutesPerDay + early) :=
      (covers_timeline schedule holidays hopening (Int.natCast_nonneg _)
        (Int.ofNat_le.mpr hahead) ⟨hlow, hhigh⟩).mpr ⟨hregular, .inl hcovers⟩
    have hnow := now.minute_lt
    refine absurd hopen (hnothing ?_)
    simp only [minutesPerDay]
    omega

/-- Two holidays hide the nights of a week from the search. -/
theorem closed_of_no_countdown_nights :
    let now : Instant := ⟨⟨738003, by decide, by decide⟩, 600, 0, 0, by decide⟩
    let holidays : Holidays := fun date => 738007 ≤ date.day
    let saturday : Date := ⟨738008, by decide, by decide⟩
    (nights.outlook holidays ⟨1, 5⟩ now).state = .closed ∧
      (nights.outlook holidays ⟨1, 5⟩ now).minutes = none ∧
      nights.openSpans saturday.weekday ≠ [] ∧ ¬nights.OpenAt holidays saturday 1380 := by
  intro now holidays saturday
  have hdates : ∀ days : Int, -1 ≤ days → days ≤ 5 → (now.date.shift? days).isSome = true := by
    intro days hlow hhigh
    have hfirst : Calendar.firstDay ≤ 738002 := by decide
    have hlast : 738008 ≤ Calendar.lastDay := by decide
    have hday : now.date.day = 738003 := rfl
    exact Date.isSome_shift?.mpr ⟨by omega, by omega⟩
  have hstate : (nights.outlook holidays ⟨1, 5⟩ now).state = .closed := by decide
  have hnone : (nights.outlook holidays ⟨1, 5⟩ now).minutes = none := by decide
  have hsaturday : now.date.shift? (5 : Nat) = some saturday := by decide
  refine ⟨hstate, hnone, by decide, ?_⟩
  exact closed_of_no_countdown (by decide) (by decide) hdates hstate hnone (Nat.le_refl 5)
    hsaturday (by decide) (by decide)

end Schedule

end OpeningHours
