import OpeningHours.Proofs.Countdown

/-! Outlooks under wider limits. The further horizon lays more days on the axis. That takes no open
minute away, and up to the nearer horizon it adds none. So a countdown that ends before the nearer
horizon is told again. Only an outlook that looks at no day after today can count further than that:
its axis has the hours of today past midnight, but not those of tomorrow. -/

namespace OpeningHours

open OpeningHours.Span

namespace Schedule

variable {schedule : Schedule} {holidays : Holidays} {limits near far : Limits} {now : Instant}
  {minutes : Nat}

theorem outlook_state_of_limits (hsound : schedule.IsSound) :
    (schedule.outlook holidays far now).state = (schedule.outlook holidays near now).state := by
  rw [outlook_state hsound, outlook_state hsound]
  simp only [covers_spansAhead_now]

/-- The outlook looks at no day after today, and the closed place opens before the countdown that it
tells has run down. -/
def OverlooksOpening (schedule : Schedule) (holidays : Holidays) (limits : Limits) (now : Instant)
    (minutes : Nat) : Prop :=
  limits.scan = 0 ∧ (schedule.outlook holidays limits now).state = .closed ∧
    ∃ k < minutes, schedule.stateAfter? holidays now k = some .opened

instance : Decidable (schedule.OverlooksOpening holidays limits now minutes) :=
  inferInstanceAs (Decidable (_ ∧ _))

section Wider

variable (hsound : schedule.IsSound)
  (hle : schedule.horizon holidays now.date near ≤ schedule.horizon holidays now.date far)
  (h : (schedule.outlook holidays near now).minutes = some minutes)

include hsound hle h

/-- A change before the nearer horizon is found again. -/
theorem outlook_minutes_of_lt (hbefore : (now.minute : Int) + minutes <
      (schedule.horizon holidays now.date near + 1) * minutesPerDay) :
    (schedule.outlook holidays far now).minutes = some minutes := by
  obtain ⟨hfirst, hlimit, -⟩ := (minutes_eq_some_iff hsound).mp h
  have hagree (k : Nat) (hk : k ≤ minutes) :
      Covers (schedule.spansAhead holidays near now) (now.minute + k) ↔
        Covers (schedule.spansAhead holidays far now) (now.minute + k) := by
    rw [covers_spansAhead_iff (by omega) (by omega),
      covers_spansAhead_iff (by omega) (by simp only [minutesPerDay] at *; omega)]
  refine (minutes_eq_some_iff hsound).mpr ⟨hfirst.transfer hagree, hlimit, fun _ => ?_⟩
  simp only [minutesPerDay] at *
  omega

/-- An opening is told again where the wider outlook has no earlier one. -/
theorem outlook_minutes_iff_of_closed
    (hclosed : ¬Covers (schedule.spansAhead holidays near now) now.minute) :
    (schedule.outlook holidays far now).minutes = some minutes ↔
      ∀ k < minutes, ¬Covers (schedule.spansAhead holidays far now) (now.minute + k) := by
  obtain ⟨hfirst, hlimit, -⟩ := (minutes_eq_some_iff hsound).mp h
  have hclosed' : ¬Covers (schedule.spansAhead holidays far now) now.minute := by
    rwa [covers_spansAhead_now, ← @covers_spansAhead_now _ _ near]
  have hopen : Covers (schedule.spansAhead holidays far now) (now.minute + minutes) :=
    covers_timeline_mono (fun _ => id) (.inl hle) (hfirst.change.mpr hclosed)
  rw [minutes_eq_some_iff hsound]
  constructor
  · rintro ⟨hchange, -, -⟩ k hk hearlier
    exact hclosed' ((hchange.same k hk).mp hearlier)
  · intro hnothing
    refine ⟨⟨fun k hk => iff_of_false (hnothing k hk) hclosed', iff_of_true hopen hclosed'⟩,
      hlimit, fun hnow => absurd hnow hclosed'⟩

end Wider

theorem openOnAxis_of_overlooks (h : schedule.OverlooksOpening holidays limits now minutes) :
    ∃ k < minutes, schedule.OpenOnAxis holidays now.date (now.minute + k) := by
  obtain ⟨-, -, k, hk, hopen⟩ := h
  exact ⟨k, hk, stateAfter?_eq_opened_iff.mp hopen⟩

/-- A countdown past the horizon: today is the horizon, because the outlook looks no further or
because the calendar ends. -/
theorem horizon_of_minutes_past (hsound : schedule.IsSound)
    (h : (schedule.outlook holidays limits now).minutes = some minutes)
    (hpast : (schedule.horizon holidays now.date limits + 1) * minutesPerDay ≤
      (now.minute : Int) + minutes) :
    ¬Covers (schedule.spansAhead holidays limits now) now.minute ∧
      schedule.horizon holidays now.date limits = 0 ∧
      (limits.scan = 0 ∨ now.date.shift? 1 = none) := by
  obtain ⟨hfirst, -, hbefore⟩ := (minutes_eq_some_iff hsound).mp h
  have hclosed : ¬Covers (schedule.spansAhead holidays limits now) now.minute := by
    intro hopen
    have := hbefore hopen
    omega
  refine ⟨hclosed, ?_⟩
  cases htomorrow : now.date.shift? 1 with
  | none => exact ⟨horizon_of_last_day htomorrow, .inr rfl⟩
  | some date =>
    have hscan : limits.scan = 0 := by
      apply Nat.eq_zero_of_not_pos
      intro hscan
      have := lt_horizon_of_changesAfter hsound hscan htomorrow hclosed hfirst
      omega
    have := horizon_le schedule holidays now.date limits
    exact ⟨by omega, .inl hscan⟩

/-- For a countdown past the horizon, to look further finds an earlier opening just where the nearer
outlook overlooks one. -/
theorem exists_covers_wider_iff (hsound : schedule.IsSound)
    (hle : schedule.horizon holidays now.date near ≤ schedule.horizon holidays now.date far)
    (h : (schedule.outlook holidays near now).minutes = some minutes)
    (hpast : (schedule.horizon holidays now.date near + 1) * minutesPerDay ≤
      (now.minute : Int) + minutes) :
    (∃ k < minutes, Covers (schedule.spansAhead holidays far now) (now.minute + k)) ↔
      far.scan ≠ 0 ∧ schedule.OverlooksOpening holidays near now minutes := by
  obtain ⟨hclosed, hzero, hblind⟩ := horizon_of_minutes_past hsound h hpast
  obtain ⟨hfirst, -, -⟩ := (minutes_eq_some_iff hsound).mp h
  have hopen := hfirst.change.mpr hclosed
  have hahead := lt_of_covers_spansAhead hopen
  have hscan := horizon_le schedule holidays now.date far
  constructor
  · rintro ⟨k, hk, hearlier⟩
    -- What the nearer axis misses lies on a day that only the further one has.
    have hone : 1 ≤ schedule.horizon holidays now.date far := by
      apply Nat.pos_of_ne_zero
      intro hfar
      have hnear : Covers (schedule.spansAhead holidays near now) (now.minute + k) :=
        covers_timeline_mono (fun _ => id) (.inl (by omega)) hearlier
      exact hclosed ((hfirst.same k hk).mp hnear)
    have hnear : near.scan = 0 := by
      rcases hblind with hnear | hlast
      · exact hnear
      · have := @horizon_of_last_day schedule holidays far _ hlast
        omega
    rw [covers_spansAhead_iff (by omega) (by simp only [minutesPerDay] at *; omega)] at hearlier
    exact ⟨by omega, hnear, (outlook_closed_iff hsound).mpr hclosed, k, hk,
      stateAfter?_eq_opened_iff.mpr hearlier⟩
  · rintro ⟨hfar, hoverlooks⟩
    obtain ⟨k, hk, hearlier⟩ := openOnAxis_of_overlooks hoverlooks
    refine ⟨k, hk, (covers_spansAhead_iff (by omega) ?_).mpr hearlier⟩
    by_cases htoday : (now.minute : Int) + k < minutesPerDay
    · simp only [minutesPerDay] at *
      omega
    · obtain ⟨last, -, -, hopens⟩ := exists_of_covers_past hopen hpast
      obtain ⟨tomorrow, htomorrow, -⟩ := hearlier
      rw [show ((now.minute : Int) + k) / minutesPerDay = 1 by
        simp only [minutesPerDay] at *
        omega] at htomorrow
      have := one_le_horizon holidays (Nat.pos_of_ne_zero hfar) htomorrow hopens
      simp only [minutesPerDay] at *
      omega

/-- Looking further tells the same state. It tells the same countdown too, unless the nearer outlook
overlooks an opening that the further one finds. -/
theorem outlook_of_wider_limits (hsound : schedule.IsSound)
    (hlookahead : near.lookahead ≤ far.lookahead) (hscan : near.scan ≤ far.scan)
    (h : (schedule.outlook holidays near now).minutes = some minutes) :
    (schedule.outlook holidays far now).state = (schedule.outlook holidays near now).state ∧
      ((schedule.outlook holidays far now).minutes = some minutes ↔
        ¬(far.scan ≠ 0 ∧ schedule.OverlooksOpening holidays near now minutes)) := by
  refine ⟨outlook_state_of_limits hsound, ?_⟩
  have hle : schedule.horizon holidays now.date near ≤ schedule.horizon holidays now.date far :=
    horizon_mono (fun _ => id) hlookahead hscan
  by_cases hbefore : (now.minute : Int) + minutes <
      (schedule.horizon holidays now.date near + 1) * minutesPerDay
  · refine iff_of_true (outlook_minutes_of_lt hsound hle h hbefore) ?_
    rintro ⟨-, hoverlooks⟩
    have hclosed := (outlook_closed_iff hsound).mp hoverlooks.2.1
    obtain ⟨k, hk, hopen⟩ := openOnAxis_of_overlooks hoverlooks
    have hnear : Covers (schedule.spansAhead holidays near now) (now.minute + k) :=
      (covers_spansAhead_iff (by omega) (by omega)).mpr hopen
    obtain ⟨hfirst, -, -⟩ := (minutes_eq_some_iff hsound).mp h
    exact hclosed ((hfirst.same k hk).mp hnear)
  · have hpast := Int.not_lt.mp hbefore
    obtain ⟨hclosed, -, -⟩ := horizon_of_minutes_past hsound h hpast
    rw [outlook_minutes_iff_of_closed hsound hle h hclosed,
      ← exists_covers_wider_iff hsound hle h hpast]
    simp

/-- An outlook that does look at tomorrow is confirmed, over a holiday. -/
theorem outlook_of_wider_limits_nights :
    let holidays : Holidays := fun date => date.day == 738001
    let now : Instant := ⟨⟨738001, by decide, by decide⟩, 1410, 0, 0, by decide⟩
    (nights.outlook holidays ⟨0, 1⟩ now).minutes = some 30 ∧
      (nights.outlook holidays ⟨3, 9⟩ now).state = .closed ∧
      (nights.outlook holidays ⟨3, 9⟩ now).minutes = some 30 := by
  intro holidays now
  have hminutes : (nights.outlook holidays ⟨0, 1⟩ now).minutes = some 30 := by decide
  have hstate : (nights.outlook holidays ⟨0, 1⟩ now).state = .closed := by decide
  obtain ⟨hsame, hagain⟩ := @outlook_of_wider_limits nights holidays ⟨0, 1⟩ ⟨3, 9⟩ now 30
    (by decide) (by decide) (by decide) hminutes
  exact ⟨hminutes, hsame.trans hstate, hagain.mpr (by decide)⟩

/-- Late on a Saturday an outlook that looks at no other day counts to the end of the break after
midnight, although Sunday opens at midnight. -/
theorem outlook_overlooks_sunday :
    let now : Instant := ⟨⟨738001, by decide, by decide⟩, 1410, 0, 0, by decide⟩
    nights.IsSound ∧
      (nights.outlook Holidays.none ⟨0, 0⟩ now).minutes = some 60 ∧
      (nights.outlook Holidays.none ⟨0, 1⟩ now).minutes = some 30 ∧
      nights.OverlooksOpening Holidays.none ⟨0, 0⟩ now 60 := by
  intro now
  refine ⟨by decide, by decide, by decide, by decide⟩

end Schedule

end OpeningHours
