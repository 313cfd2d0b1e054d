import OpeningHours.Proofs.Changes
import OpeningHours.Proofs.HorizonReach
import OpeningHours.Proofs.Outlook

/-! The countdown of an outlook: the state stays until it has run down and changes then. The days
past the horizon are not on the axis, so that a span that reaches the horizon has no end to tell,
and the next span starts before the horizon if there is one at all. -/

namespace OpeningHours

open OpeningHours.Span

namespace Schedule

variable {schedule : Schedule} {holidays : Holidays} {limits : Limits} {now : Instant}
  {today date : Date}

theorem exists_covers_before_midnight (hsound : schedule.IsSound) {day : Weekday}
    (h : schedule.openSpans day ≠ []) :
    ∃ minute, 0 ≤ minute ∧ minute < minutesPerDay ∧ Covers (schedule.openSpans day) minute := by
  rw [openSpans] at h ⊢
  cases howner : schedule.owner? day with
  | none =>
    rw [howner] at h
    exact absurd rfl h
  | some group =>
    rw [howner] at h
    have hmem : group ∈ schedule.groups := List.mem_of_find?_eq_some howner
    exact DayGroup.exists_covers_before_midnight ((isSound_iff.mp hsound).hours group hmem) h

/-! ### The axis up to the horizon -/

/-- The schedule is open at a minute on the axis of a date. -/
def OpenOnAxis (schedule : Schedule) (holidays : Holidays) (today : Date) (minute : Int) : Prop :=
  ∃ date ∈ today.shift? (minute / minutesPerDay),
    schedule.OpenAt holidays date (minute % minutesPerDay)

instance (schedule : Schedule) (holidays : Holidays) (today : Date) (minute : Int) :
    Decidable (schedule.OpenOnAxis holidays today minute) :=
  inferInstanceAs (Decidable (∃ date ∈ today.shift? _, _))

theorem openOnAxis_iff {minute : Int} (hdate : today.shift? (minute / minutesPerDay) = some date) :
    schedule.OpenOnAxis holidays today minute ↔
      schedule.OpenAt holidays date (minute % minutesPerDay) := by
  rw [OpenOnAxis, hdate]
  simp

/-- Up to the horizon the open minutes of the axis are those of the schedule. -/
theorem covers_spansAhead_iff {minute : Int} (hfrom : 0 ≤ minute)
    (hto : minute < (schedule.horizon holidays now.date limits + 1) * minutesPerDay) :
    Covers (schedule.spansAhead holidays limits now) minute ↔
      schedule.OpenOnAxis holidays now.date minute := by
  have hlow : 0 ≤ minute / minutesPerDay := Int.ediv_nonneg hfrom (by decide)
  have hhigh : minute / minutesPerDay ≤ schedule.horizon holidays now.date limits := by
    simp only [minutesPerDay] at *
    omega
  have hrest : 0 ≤ minute % minutesPerDay ∧ minute % minutesPerDay < minutesPerDay :=
    ⟨Int.emod_nonneg _ (by decide), Int.emod_lt_of_pos _ (by decide)⟩
  obtain ⟨date, hdate⟩ :=
    Date.exists_shift? (isSome_shift?_horizon schedule holidays now.date limits) hlow hhigh
  have hcovers := covers_timeline schedule holidays hdate hlow hhigh hrest
  rw [show minute / minutesPerDay * minutesPerDay + minute % minutesPerDay = minute by
    simp only [minutesPerDay]
    omega] at hcovers
  rw [openOnAxis_iff hdate, spansAhead, hcovers]

/-- No minute is open on the axis two days past the horizon. -/
theorem lt_of_covers_spansAhead {minute : Int}
    (h : Covers (schedule.spansAhead holidays limits now) minute) :
    minute < (schedule.horizon holidays now.date limits + 2) * minutesPerDay := by
  rw [spansAhead, Timeline.covers_openSpans, covers_windows] at h
  obtain ⟨⟨offset, -, hhigh, date, -, -, hin⟩, -⟩ := h
  have hbounds := bounds_of_covers hin
  simp only [minutesPerDay] at *
  omega

/-! ### The next change -/

theorem countdown?_eq_some_iff {distance : Int} {minutes : Nat} :
    countdown? distance = some minutes ↔ distance = minutes ∧ (minutes : Int) < countdownLimit := by
  rw [countdown?]
  split
  · rw [Option.some.injEq]
    omega
  · simp only [reduceCtorEq, false_iff]
    omega

/-- The countdown of an outlook is the first change on the axis, if that is below the bound and,
for an open place, before the horizon. -/
theorem minutes_eq_some_iff (hsound : schedule.IsSound) {minutes : Nat} :
    (schedule.outlook holidays limits now).minutes = some minutes ↔
      ChangesAfter (Covers (schedule.spansAhead holidays limits now)) now.minute minutes ∧
        (minutes : Int) < countdownLimit ∧
        (Covers (schedule.spansAhead holidays limits now) now.minute →
          (now.minute : Int) + minutes <
            (schedule.horizon holidays now.date limits + 1) * minutesPerDay) := by
  rcases outlook_cases hsound holidays limits now with ⟨span, hspan, hminute, heq⟩ | ⟨hclosed, heq⟩
  · have hfirst := spansAhead_separated.changesAfter_stop hspan hminute
    have hopen : Covers (schedule.spansAhead holidays limits now) now.minute :=
      ⟨span, hspan, hminute⟩
    rw [mem_iff] at hminute
    rw [heq]
    show (if _ then _ else _) = _ ↔ _
    constructor
    · intro h
      split at h
      · obtain ⟨hdistance, hlimit⟩ := countdown?_eq_some_iff.mp h
        rw [hdistance, Int.toNat_natCast] at hfirst
        exact ⟨hfirst, hlimit, fun _ => by omega⟩
      · cases h
    · rintro ⟨hchange, hlimit, hbefore⟩
      have hdistance := hfirst.unique hchange
      have := hbefore hopen
      rw [if_pos (by omega), countdown?_eq_some_iff]
      omega
  · rw [heq]
    show Option.bind _ _ = _ ↔ _
    cases hnext : (schedule.spansAhead holidays limits now).find?
        fun span => (now.minute : Int) < span.start with
    | none =>
      refine iff_of_false nofun ?_
      rintro ⟨hchange, -, -⟩
      exact not_covers_of_no_next hclosed hnext (by omega)
        (hchange.change.mpr hclosed)
    | some span =>
      have hlater : (now.minute : Int) < span.start := by simpa using List.find?_some hnext
      have hfirst := spansAhead_separated.changesAfter_start hclosed hnext
      show countdown? _ = _ ↔ _
      rw [countdown?_eq_some_iff]
      constructor
      · rintro ⟨hdistance, hlimit⟩
        rw [hdistance, Int.toNat_natCast] at hfirst
        exact ⟨hfirst, hlimit, fun hopen => absurd hopen hclosed⟩
      · rintro ⟨hchange, hlimit, -⟩
        have hdistance := hfirst.unique hchange
        omega

/-- An outlook counts down to a change on the axis or to an earlier one. -/
theorem exists_minutes_le (hsound : schedule.IsSound) {k : Nat}
    (hchange : Covers (schedule.spansAhead holidays limits now) (now.minute + k) ↔
      ¬Covers (schedule.spansAhead holidays limits now) now.minute)
    (hlimit : (k : Int) < countdownLimit)
    (hbefore : Covers (schedule.spansAhead holidays limits now) now.minute →
      (now.minute : Int) + k < (schedule.horizon holidays now.date limits + 1) * minutesPerDay) :
    ∃ minutes ≤ k, (schedule.outlook holidays limits now).minutes = some minutes := by
  obtain ⟨minutes, hle, hfirst⟩ := ChangesAfter.exists_le hchange
  refine ⟨minutes, hle, (minutes_eq_some_iff hsound).mpr ⟨hfirst, by omega, fun hopen => ?_⟩⟩
  have := hbefore hopen
  omega

/-- A minute past the horizon is open by the hours of the last day on the axis. -/
theorem exists_of_covers_past {minute : Int}
    (h : Covers (schedule.spansAhead holidays limits now) minute)
    (hpast : (schedule.horizon holidays now.date limits + 1) * minutesPerDay ≤ minute) :
    ∃ last ∈ now.date.shift? (schedule.horizon holidays now.date limits),
      holidays last = false ∧ schedule.openSpans last.weekday ≠ [] := by
  rw [spansAhead, Timeline.covers_openSpans, covers_windows] at h
  obtain ⟨⟨offset, -, hhigh, last, hlast, hregular, hlate⟩, -⟩ := h
  have hbounds := bounds_of_covers hlate
  obtain rfl : offset = schedule.horizon holidays now.date limits := by
    simp only [minutesPerDay] at *
    omega
  refine ⟨last, hlast, hregular, ?_⟩
  intro hnil
  rw [hnil] at hlate
  exact covers_nil hlate

/-- A later day that opens is open on the axis before its midnight. -/
theorem exists_covers_of_opens (hsound : schedule.IsSound) {days : Nat} (hlater : 1 ≤ days)
    (hahead : days ≤ schedule.horizon holidays now.date limits)
    (hdate : now.date.shift? days = some date) (hregular : holidays date = false)
    (hopens : schedule.openSpans date.weekday ≠ []) :
    ∃ k : Nat, (now.minute : Int) + k < (days + 1) * minutesPerDay ∧
      Covers (schedule.spansAhead holidays limits now) (now.minute + k) := by
  obtain ⟨early, hfrom, hto, hcovers⟩ := exists_covers_before_midnight hsound hopens
  have hopen : Covers (schedule.spansAhead holidays limits now) (days * minutesPerDay + early) :=
    (covers_timeline _ _ hdate (Int.natCast_nonneg _) (Int.ofNat_le.mpr hahead)
      ⟨hfrom, hto⟩).mpr ⟨hregular, .inl hcovers⟩
  have hminute := now.minute_lt
  have hahead' : (now.minute : Int) ≤ days * minutesPerDay + early := by
    simp only [minutesPerDay]
    omega
  obtain ⟨k, hk⟩ := Int.le.dest hahead'
  refine ⟨k, ?_, hk ▸ hopen⟩
  simp only [minutesPerDay] at *
  omega

/-- A closed place opens before the horizon. What lies past it belongs to the last day on the axis,
and that day opens before midnight too. -/
theorem lt_horizon_of_changesAfter (hsound : schedule.IsSound) (hscan : 1 ≤ limits.scan)
    (htomorrow : now.date.shift? 1 = some date)
    (hclosed : ¬Covers (schedule.spansAhead holidays limits now) now.minute) {minutes : Nat}
    (h : ChangesAfter (Covers (schedule.spansAhead holidays limits now)) now.minute minutes) :
    (now.minute : Int) + minutes <
      (schedule.horizon holidays now.date limits + 1) * minutesPerDay := by
  apply Int.not_le.mp
  intro hpast
  obtain ⟨last, hlast, hregular, hopens⟩ := exists_of_covers_past (h.change.mpr hclosed) hpast
  have hone := one_le_horizon holidays hscan htomorrow hopens
  obtain ⟨k, hk, hopen⟩ :=
    exists_covers_of_opens hsound hone (Nat.le_refl _) hlast hregular hopens
  exact hclosed ((h.same k (by omega)).mp hopen)

/-- What the countdown of an outlook tells of the axis: no change before it has run down, and one
then, all of it before the horizon. -/
theorem spansAhead_of_minutes (hsound : schedule.IsSound) (hscan : 1 ≤ limits.scan)
    (htomorrow : now.date.shift? 1 = some date) {minutes : Nat}
    (h : (schedule.outlook holidays limits now).minutes = some minutes) :
    1 ≤ minutes ∧
      (now.minute : Int) + minutes <
        (schedule.horizon holidays now.date limits + 1) * minutesPerDay ∧
      (∀ k < minutes, Covers (schedule.spansAhead holidays limits now) (now.minute + k) ↔
        Covers (schedule.spansAhead holidays limits now) now.minute) ∧
      (Covers (schedule.spansAhead holidays limits now) (now.minute + minutes) ↔
        ¬Covers (schedule.spansAhead holidays limits now) now.minute) := by
  obtain ⟨hfirst, -, hbefore⟩ := (minutes_eq_some_iff hsound).mp h
  refine ⟨hfirst.pos, ?_, hfirst.same, hfirst.change⟩
  by_cases hopen : Covers (schedule.spansAhead holidays limits now) now.minute
  · exact hbefore hopen
  · exact lt_horizon_of_changesAfter hsound hscan htomorrow hopen hfirst

/-- The state some minutes after an instant, if the calendar covers the minute. -/
def stateAfter? (schedule : Schedule) (holidays : Holidays) (now : Instant) (minutes : Nat) :
    Option State := (now.truncate.addMinutes? minutes).map (schedule.stateAt holidays)

theorem stateAfter?_of_date {minutes : Nat}
    (hdate : now.date.shift? ((now.minute + minutes) / minutesPerDay) = some date) :
    schedule.stateAfter? holidays now minutes =
      some (if schedule.OpenOnAxis holidays now.date (now.minute + minutes) then .opened
        else .closed) := by
  have hrest : 0 ≤ ((now.minute : Int) + minutes) % minutesPerDay :=
    Int.emod_nonneg _ (by decide)
  rw [stateAfter?, Instant.addMinutes?_truncate, Instant.onAxis?, hdate]
  simp only [Option.map_some, stateAt, openOnAxis_iff hdate, Int.toNat_of_nonneg hrest]

theorem stateAfter?_eq_opened_iff {minutes : Nat} :
    schedule.stateAfter? holidays now minutes = some .opened ↔
      schedule.OpenOnAxis holidays now.date (now.minute + minutes) := by
  cases hdate : now.date.shift? ((now.minute + minutes) / minutesPerDay) with
  | none =>
    rw [stateAfter?, Instant.addMinutes?_truncate, Instant.onAxis?, OpenOnAxis, hdate]
    simp
  | some date => simp [stateAfter?_of_date hdate]

/-- Up to the horizon the axis gives the state at any later minute. -/
theorem stateAfter?_eq {minutes : Nat}
    (hdates : (now.date.shift? (schedule.horizon holidays now.date limits)).isSome = true)
    (h : (now.minute : Int) + minutes <
      (schedule.horizon holidays now.date limits + 1) * minutesPerDay) :
    schedule.stateAfter? holidays now minutes =
      some (if Covers (schedule.spansAhead holidays limits now) (now.minute + minutes) then .opened
        else .closed) := by
  obtain ⟨date, hdate⟩ : ∃ date, now.date.shift? ((now.minute + minutes) / minutesPerDay) =
      some date := by
    refine Date.exists_shift? hdates ?_ ?_ <;> simp only [minutesPerDay] at * <;> omega
  rw [stateAfter?_of_date hdate]
  simp only [covers_spansAhead_iff (by omega) h]

/-- The countdown of an outlook is right: the state stays as it is told until the countdown has run
down, and it is the opposite one then. -/
theorem countdown_exact (hsound : schedule.IsSound) (hscan : 1 ≤ limits.scan)
    (hdates : ∀ days : Int, -1 ≤ days → days ≤ limits.scan + 1 →
      (now.date.shift? days).isSome = true) {minutes : Nat}
    (h : (schedule.outlook holidays limits now).minutes = some minutes) :
    1 ≤ minutes ∧
      (∀ k < minutes, schedule.stateAfter? holidays now k =
        some (schedule.outlook holidays limits now).state) ∧
      schedule.stateAfter? holidays now minutes =
        some (schedule.outlook holidays limits now).state.opposite := by
  have hhorizon := horizon_le schedule holidays now.date limits
  obtain ⟨tomorrow, htomorrow⟩ := Option.isSome_iff_exists.mp (hdates 1 (by omega) (by omega))
  have hlast := hdates (schedule.horizon holidays now.date limits) (by omega) (by omega)
  obtain ⟨hpositive, hbefore, hsame, hchange⟩ := spansAhead_of_minutes hsound hscan htomorrow h
  rw [outlook_state hsound]
  refine ⟨hpositive, fun k hk => ?_, ?_⟩
  · rw [stateAfter?_eq hlast (by omega)]
    simp only [hsame k hk]
  · rw [stateAfter?_eq hlast hbefore]
    simp only [hchange, ite_not]
    split <;> rfl

theorem countdown_exact_nights :
    let now : Instant := ⟨⟨738000, by decide, by decide⟩, 1425, 0, 0, by decide⟩
    (nights.outlook (fun _ => false) ⟨1, 3⟩ now).minutes = some 45 ∧
      (∀ k < 45, nights.stateAfter? (fun _ => false) now k = some .closed) ∧
      nights.stateAfter? (fun _ => false) now 45 = some .opened := by
  intro now
  have hdates : ∀ days : Int, -1 ≤ days → days ≤ 3 + 1 → (now.date.shift? days).isSome = true := by
    intro days hlow hhigh
    have hfirst : Calendar.firstDay ≤ 737999 := by decide
    have hlast : 738004 ≤ Calendar.lastDay := by decide
    have hday : now.date.day = 738000 := rfl
    exact Date.isSome_shift?.mpr ⟨by omega, by omega⟩
  have hminutes : (nights.outlook (fun _ => false) ⟨1, 3⟩ now).minutes = some 45 := by decide
  have hstate : (nights.outlook (fun _ => false) ⟨1, 3⟩ now).state = .closed := by decide
  have hexact := countdown_exact (by decide) (by decide) hdates hminutes
  rw [hstate] at hexact
  exact ⟨hminutes, hexact.2⟩

end Schedule

end OpeningHours
