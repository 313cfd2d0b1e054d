import OpeningHours.Proofs.Countdown

/-! The outlook as time passes. The axis of a later minute can start from another day and end on
another, but it has the same open minutes, and its horizon has not moved back. So the outlook finds
the same change again, with a countdown that is shorter by the minutes passed. -/

namespace OpeningHours

open OpeningHours.Span

namespace Instant

variable {today date : Date} {minutes : Int} {second nanosecond : Nat}

theorem exists_onAxis? (h : today.shift? (minutes / minutesPerDay) = some date)
    (second nanosecond : Nat) : ∃ instant, onAxis? today minutes second nanosecond = some instant ∧
      instant.date = date ∧ (instant.minute : Int) = minutes % minutesPerDay := by
  rw [onAxis?, h]
  refine ⟨_, rfl, rfl, Int.toNat_of_nonneg ?_⟩
  simp only [minutesPerDay]
  omega

/-- The axis of a later day is that of today from that day on. -/
theorem onAxis?_of_shift? {days : Int} (h : today.shift? days = some date) :
    onAxis? date minutes second nanosecond =
      onAxis? today (days * minutesPerDay + minutes) second nanosecond := by
  simp only [onAxis?, axis_ediv, axis_emod, Date.shift?_shift? h]

/-- An instant moves forward by whole minutes, also out of a leap second. -/
theorem exists_addMinutes? {now : Instant} {k : Nat}
    (h : now.date.shift? ((now.minute + k) / minutesPerDay) = some date) :
    ∃ later, now.addMinutes? k = some later ∧ later.date = date ∧
      (later.minute : Int) = (now.minute + k) % minutesPerDay := by
  have hminute := now.minute_lt
  unfold addMinutes?
  split
  · rename_i hzero
    have hday : ((now.minute : Int) + k) / minutesPerDay = 0 := by
      simp only [minutesPerDay]
      omega
    rw [hday, Date.shift?_zero] at h
    refine ⟨now, rfl, Option.some.inj h, ?_⟩
    simp only [minutesPerDay]
    omega
  · split
    · exact exists_onAxis? h _ _
    · rw [if_pos (by omega)]
      exact exists_onAxis? h _ _

/-- The later instant lies `k` minutes after this one, with so many midnights between them. -/
structure LiesAfter (now later : Instant) (midnights k : Nat) : Prop where
  date : now.date.shift? midnights = some later.date
  minute : (midnights * minutesPerDay + later.minute : Int) = now.minute + k

/-- Each minute up to a day of the calendar has its instant. -/
theorem exists_liesAfter {now : Instant} {last k : Nat}
    (hlast : (now.date.shift? last).isSome = true)
    (hk : (now.minute : Int) + k < (last + 1) * minutesPerDay) :
    ∃ later midnights, now.addMinutes? k = some later ∧ now.LiesAfter later midnights k := by
  obtain ⟨midnights, hmidnights⟩ : ∃ n : Nat, (n : Int) = (now.minute + k) / minutesPerDay :=
    ⟨((now.minute + k) / minutesPerDay).toNat, by simp only [minutesPerDay]; omega⟩
  have hreach : (midnights : Int) ≤ last := by
    simp only [minutesPerDay] at *
    omega
  obtain ⟨date, hdate⟩ := Date.exists_shift? hlast (Int.natCast_nonneg midnights) hreach
  obtain ⟨later, hlater, rfl, hrest⟩ := exists_addMinutes? (hmidnights ▸ hdate)
  refine ⟨later, midnights, hlater, hdate, ?_⟩
  simp only [minutesPerDay] at *
  omega

theorem LiesAfter.addMinutes?_truncate {now later : Instant} {midnights k : Nat}
    (h : now.LiesAfter later midnights k) (j : Nat) :
    later.truncate.addMinutes? j = now.truncate.addMinutes? (k + j : Nat) := by
  rw [Instant.addMinutes?_truncate, Instant.addMinutes?_truncate, onAxis?_of_shift? h.date,
    ← Int.add_assoc, h.minute, Int.natCast_add, Int.add_assoc]

end Instant

namespace Schedule

variable {schedule : Schedule} {holidays : Holidays} {limits : Limits} {now later : Instant}
  {today date : Date} {midnights k minutes : Nat}

theorem openOnAxis_of_shift? {days minute : Int} (h : today.shift? days = some date) :
    schedule.OpenOnAxis holidays date minute ↔
      schedule.OpenOnAxis holidays today (days * minutesPerDay + minute) := by
  rw [OpenOnAxis, OpenOnAxis, axis_ediv, axis_emod, Date.shift?_shift? h]

/-- What lies before the horizon of an instant lies before that of a later one. -/
theorem lt_horizon_later (h : now.LiesAfter later midnights k) {j : Nat}
    (hbefore : (now.minute : Int) + k + j <
      (schedule.horizon holidays now.date limits + 1) * minutesPerDay) :
    (later.minute : Int) + j <
      (schedule.horizon holidays later.date limits + 1) * minutesPerDay := by
  have hhorizon := @horizon_never_back schedule holidays limits _ _ _ h.date
  have hminute := h.minute
  simp only [minutesPerDay] at *
  omega

/-- A later instant sees the same open minutes, as far as the horizon of the earlier one reaches. -/
theorem covers_spansAhead_later (h : now.LiesAfter later midnights k) {j : Nat}
    (hbefore : (now.minute : Int) + k + j <
      (schedule.horizon holidays now.date limits + 1) * minutesPerDay) :
    Covers (schedule.spansAhead holidays limits now) (now.minute + k + j) ↔
      Covers (schedule.spansAhead holidays limits later) (later.minute + j) := by
  rw [covers_spansAhead_iff (by omega) hbefore,
    covers_spansAhead_iff (by omega) (lt_horizon_later h hbefore), openOnAxis_of_shift? h.date,
    ← Int.add_assoc, h.minute]

section BeforeChange

variable (hsound : schedule.IsSound) (hafter : now.LiesAfter later midnights k) (hk : k < minutes)
  (hbefore : (now.minute : Int) + minutes <
    (schedule.horizon holidays now.date limits + 1) * minutesPerDay)
  (h : (schedule.outlook holidays limits now).minutes = some minutes)

include hsound hafter hk hbefore h

theorem outlook_state_later : (schedule.outlook holidays limits later).state =
    (schedule.outlook holidays limits now).state := by
  obtain ⟨hfirst, -, -⟩ := (minutes_eq_some_iff hsound).mp h
  have hcovers := @covers_spansAhead_later schedule holidays limits _ _ _ _ hafter 0 (by omega)
  rw [Int.natCast_zero, Int.add_zero, Int.add_zero, hfirst.same k hk] at hcovers
  rw [outlook_state hsound, outlook_state hsound]
  simp only [hcovers]

theorem outlook_minutes_later :
    (schedule.outlook holidays limits later).minutes = some (minutes - k) := by
  obtain ⟨hfirst, hlimit, -⟩ := (minutes_eq_some_iff hsound).mp h
  have hchange : ChangesAfter (Covers (schedule.spansAhead holidays limits later)) later.minute
      (minutes - k) := by
    refine (hfirst.later hk).transfer fun j hj => covers_spansAhead_later hafter ?_
    omega
  refine (minutes_eq_some_iff hsound).mpr ⟨hchange, by omega, fun _ => ?_⟩
  exact lt_horizon_later hafter (by omega)

end BeforeChange

/-- An outlook that is known is made of its state and its countdown. -/
theorem outlook_eq_known (hsound : schedule.IsSound) (holidays : Holidays) (limits : Limits)
    (now : Instant) : schedule.outlook holidays limits now =
      .known (schedule.outlook holidays limits now).state
        (schedule.outlook holidays limits now).minutes now := by
  rcases outlook_cases hsound holidays limits now with ⟨span, -, -, heq⟩ | ⟨-, heq⟩
  · rw [heq]
    rfl
  · rw [heq]
    rfl

/-- The countdown runs down. Until then each later minute has the same state, the same next change,
and a countdown that is shorter by the minutes passed. -/
theorem outlook_counts_down (hsound : schedule.IsSound) (hscan : 1 ≤ limits.scan)
    (htomorrow : (now.date.shift? 1).isSome = true)
    (h : (schedule.outlook holidays limits now).minutes = some minutes) (hk : k < minutes) :
    ∃ later, now.addMinutes? k = some later ∧ schedule.outlook holidays limits later =
      { schedule.outlook holidays limits now with minutes := some (minutes - k) } := by
  obtain ⟨tomorrow, htomorrow⟩ := Option.isSome_iff_exists.mp htomorrow
  obtain ⟨-, hbefore, -, -⟩ := spansAhead_of_minutes hsound hscan htomorrow h
  have hreach : (now.minute : Int) + k <
      (schedule.horizon holidays now.date limits + 1) * minutesPerDay := by omega
  obtain ⟨later, midnights, hlater, hafter⟩ := Instant.exists_liesAfter
    (isSome_shift?_horizon schedule holidays now.date limits) hreach
  have hnext := hafter.addMinutes?_truncate (minutes - k)
  rw [show k + (minutes - k) = minutes by omega] at hnext
  have hthen : (schedule.outlook holidays limits now).next = now.truncate.addMinutes? minutes := by
    rw [outlook_eq_known hsound holidays limits now, h]
    rfl
  refine ⟨later, hlater, ?_⟩
  rw [outlook_eq_known hsound holidays limits later, outlook_state_later hsound hafter hk hbefore h,
    outlook_minutes_later hsound hafter hk hbefore h]
  show Outlook.mk _ _ (later.truncate.addMinutes? _) = Outlook.mk _ _ (outlook _ _ _ now).next
  rw [hnext, hthen]

/-- Past midnight the night of the evening before counts down on. -/
theorem outlook_counts_down_nights :
    let now : Instant := ⟨⟨738000, by decide, by decide⟩, 1425, 0, 0, by decide⟩
    (nights.outlook (fun _ => false) ⟨1, 3⟩ now).minutes = some 45 ∧
      ∃ later, now.addMinutes? 20 = some later ∧ later.date.day = 738001 ∧
        nights.outlook (fun _ => false) ⟨1, 3⟩ later =
          { nights.outlook (fun _ => false) ⟨1, 3⟩ now with minutes := some 25 } := by
  intro now
  have hminutes : (nights.outlook (fun _ => false) ⟨1, 3⟩ now).minutes = some 45 := by decide
  obtain ⟨later, hlater, heq⟩ := outlook_counts_down (by decide) (by decide) (by decide) hminutes
    (by decide : 20 < 45)
  refine ⟨hminutes, later, hlater, ?_, heq⟩
  have hday : (now.addMinutes? 20).map (·.date.day) = some 738001 := by decide
  rw [show now.addMinutes? 20 = some later from hlater] at hday
  exact Option.some.inj hday

end Schedule

end OpeningHours
