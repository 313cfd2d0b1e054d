import OpeningHours.DayGroup
import OpeningHours.Proofs.Spans

/-! The open minutes of a group are those of its opening less those of its breaks, as separated
spans on the axis of the day and the day after. -/

namespace OpeningHours

open OpeningHours.Span

namespace ClockRange

theorem span_bounds (range : ClockRange) :
    0 ≤ range.span.start ∧ range.span.start < minutesPerDay ∧
      range.span.start < range.span.stop ∧
      range.span.stop ≤ range.span.start + minutesPerDay :=
  ofTimes_bounds _ _

theorem spanAfter_bounds (range : ClockRange) (origin : Int) :
    origin % minutesPerDay ≤ (range.spanAfter origin).start ∧
      (range.spanAfter origin).start < origin % minutesPerDay + minutesPerDay ∧
      (range.spanAfter origin).start < (range.spanAfter origin).stop ∧
      (range.spanAfter origin).stop ≤ (range.spanAfter origin).start + minutesPerDay := by
  have hspan := range.span_bounds
  simp only [spanAfter]
  split
  · simp only [start_shift, stop_shift, minutesPerDay] at *
    omega
  · simp only [minutesPerDay] at *
    omega

/-- Only the time of day of the origin counts. -/
theorem spanAfter_congr (range : ClockRange) {a b : Int}
    (h : a % minutesPerDay = b % minutesPerDay) : range.spanAfter a = range.spanAfter b := by
  rw [spanAfter, spanAfter, h]

@[simp] theorem spanAfter_minuteOfDay (range opening : ClockRange) :
    range.spanAfter opening.start.minuteOfDay = range.spanAfter opening.span.start :=
  range.spanAfter_congr (by simp only [span, ofTimes, minutesPerDay]; omega)

end ClockRange

namespace DayGroup

variable {group : DayGroup} {opening : ClockRange} {minute : Int}

theorem openingSpan?_eq_some (hday : group.isFullDay = false) (h : group.opening = some opening) :
    group.openingSpan? = some opening.span := by
  simp [openingSpan?, hday, h]

theorem breakSpans_eq (hday : group.isFullDay = false) (h : group.opening = some opening) :
    group.breakSpans =
      sortOn Span.start (group.breaks.map (·.spanAfter opening.span.start)) := by
  rw [breakSpans, openingSpan?_eq_some hday h]

theorem breakSpans_nonempty (group : DayGroup) :
    ∀ span ∈ group.breakSpans, span.start < span.stop := by
  intro span hspan
  rw [breakSpans] at hspan
  split at hspan
  · obtain ⟨range, -, rfl⟩ := List.mem_map.mp (mem_sortOn.mp hspan)
    exact (range.spanAfter_bounds _).2.2.1
  · cases hspan

theorem openSpans_fullDay (h : group.isFullDay = true) :
    group.openSpans = [⟨0, minutesPerDay⟩] := by
  rw [openSpans, if_pos h]

theorem openSpans_closed (hday : group.isFullDay = false) (h : group.opening = none) :
    group.openSpans = [] := by
  simp [openSpans, openingSpan?, hday, h]

theorem openSpans_timed (hday : group.isFullDay = false) (h : group.opening = some opening) :
    group.openSpans = opening.span.gaps opening.span.start group.breakSpans := by
  rw [openSpans, openingSpan?_eq_some hday h]
  simp [hday]

/-- The three forms of a group: open around the clock, closed, and open at times. -/
theorem forms (group : DayGroup) : group.isFullDay = true ∨
    group.isFullDay = false ∧ group.opening = none ∨
    group.isFullDay = false ∧ ∃ opening, group.opening = some opening := by
  cases group.isFullDay <;> cases group.opening <;> simp

theorem covers_openSpans (hday : group.isFullDay = false) (h : group.opening = some opening) :
    Covers group.openSpans minute ↔ minute ∈ opening.span ∧
      ∀ range ∈ group.breaks, minute ∉ range.spanAfter opening.span.start := by
  rw [openSpans_timed hday h, breakSpans_eq hday h,
    covers_gaps (Int.le_refl _) (sortOn_sorted _ _), mem_iff, and_assoc]
  simp

theorem openSpans_separated (group : DayGroup) : Separated group.openSpans := by
  rcases group.forms with hday | ⟨hday, hnone⟩ | ⟨hday, opening, hsome⟩
  · rw [openSpans_fullDay hday]
    exact ⟨by decide, by simp, trivial⟩
  · rw [openSpans_closed hday hnone]
    trivial
  · rw [openSpans_timed hday hsome]
    exact gaps_separated (Int.le_refl _) group.breakSpans_nonempty

theorem openSpans_within {span : Span} (hday : group.isFullDay = false)
    (h : group.opening = some opening) (hspan : span ∈ group.openSpans) :
    opening.span.start ≤ span.start ∧ span.stop ≤ opening.span.stop := by
  rw [openSpans_timed hday h] at hspan
  have hgap := gaps_bounds (Int.le_refl _) hspan
  exact ⟨hgap.1, hgap.2.2⟩

theorem openSpans_bounds {span : Span} (h : span ∈ group.openSpans) :
    0 ≤ span.start ∧ span.stop ≤ 2 * minutesPerDay := by
  rcases group.forms with hday | ⟨hday, hnone⟩ | ⟨hday, opening, hsome⟩
  · rw [openSpans_fullDay hday] at h
    obtain rfl := List.mem_singleton.mp h
    decide
  · rw [openSpans_closed hday hnone] at h
    cases h
  · have hwithin := openSpans_within hday hsome h
    have hopening := opening.span_bounds
    simp only [minutesPerDay] at *
    omega

theorem bounds_of_covers (h : Covers group.openSpans minute) :
    0 ≤ minute ∧ minute < 2 * minutesPerDay := by
  obtain ⟨span, hspan, hminute⟩ := h
  have := openSpans_bounds hspan
  rw [mem_iff] at hminute
  omega

/-- A group that opens at times is open for the minutes of its opening that no break has, wherever
the breaks lie and however they are stored. Its open spans come in order with gaps between them and
stay within the opening, which starts on the day and takes a day at most. -/
theorem openSpans_opening_less_breaks (hday : group.isFullDay = false)
    (h : group.opening = some opening) :
    (∀ minute, Covers group.openSpans minute ↔ minute ∈ opening.span ∧
      ∀ range ∈ group.breaks, minute ∉ range.spanAfter opening.span.start) ∧
    Separated group.openSpans ∧
    (∀ span ∈ group.openSpans,
      opening.span.start ≤ span.start ∧ span.stop ≤ opening.span.stop) ∧
    0 ≤ opening.span.start ∧ opening.span.start < minutesPerDay ∧
    opening.span.stop ≤ opening.span.start + minutesPerDay := by
  have hopening := opening.span_bounds
  refine ⟨fun minute => covers_openSpans hday h, group.openSpans_separated, ?_, hopening.1,
    hopening.2.1, hopening.2.2.2⟩
  intro span hspan
  exact openSpans_within hday h hspan

/-- A night with breaks out of order: two that overlap, one past the end of the opening, and one
that starts before the opening and so counts for the next evening. -/
def patchyNight : DayGroup where
  days := .ofList [.friday]
  opening := some ⟨⟨20, 0, true⟩, ⟨4, 0, true⟩⟩
  breaks := [⟨⟨1, 0, true⟩, ⟨2, 0, true⟩⟩, ⟨⟨23, 30, true⟩, ⟨0, 30, true⟩⟩,
    ⟨⟨3, 30, true⟩, ⟨5, 0, true⟩⟩, ⟨⟨23, 0, true⟩, ⟨23, 45, true⟩⟩,
    ⟨⟨18, 0, true⟩, ⟨20, 30, true⟩⟩]

theorem openSpans_opening_less_breaks_patchyNight :
    let opening : ClockRange := ⟨⟨20, 0, true⟩, ⟨4, 0, true⟩⟩
    patchyNight.isFullDay = false ∧ patchyNight.opening = some opening ∧
      patchyNight.openSpans = [⟨1200, 1380⟩, ⟨1470, 1500⟩, ⟨1560, 1650⟩] ∧
      (∀ minute, Covers patchyNight.openSpans minute ↔ minute ∈ opening.span ∧
        ∀ range ∈ patchyNight.breaks, minute ∉ range.spanAfter opening.span.start) ∧
      Separated patchyNight.openSpans := by
  intro opening
  have hday : patchyNight.isFullDay = false := rfl
  have hopening : patchyNight.opening = some opening := rfl
  obtain ⟨hminutes, hseparated, -⟩ := openSpans_opening_less_breaks hday hopening
  exact ⟨hday, hopening, by decide, hminutes, hseparated⟩

end DayGroup

end OpeningHours
