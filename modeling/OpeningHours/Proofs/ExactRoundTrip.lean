import OpeningHours.Proofs.NormalForm
import OpeningHours.Proofs.RoundTrip

/-! The canonical text of a schedule in normal form reads back to the same statements, group by
group and break by break. The open spans of a group are the spaces that its breaks leave, so that
the breaks are the spaces that the open spans leave, and the times of day come back from their
places on the axis. -/

namespace OpeningHours

open Reading OpeningHours.Span

namespace Span

variable {window : Span} {cursor : Int} {closed : List Span}

/-- The spaces between the gaps that closed spans leave in a window are the closed spans. -/
theorem between_gaps (hclosed : Separated closed)
    (hinside : ∀ span ∈ closed, cursor < span.start ∧ span.stop < window.stop)
    (hstart : window.start ≤ cursor) (hcursor : cursor < window.stop) :
    ∃ first more, gaps window cursor closed = first :: more ∧ first.start = cursor ∧
      (more.getLast?.getD first).stop = window.stop ∧ between (first :: more) = closed := by
  induction closed generalizing cursor with
  | nil =>
    rw [gaps, if_pos hcursor]
    exact ⟨_, [], rfl, rfl, rfl, rfl⟩
  | cons span rest ih =>
    obtain ⟨hlength, hgap, hrest⟩ := hclosed
    obtain ⟨⟨hfrom, hto⟩, hlater⟩ := List.forall_mem_cons.mp hinside
    have hrest' : ∀ next ∈ rest, span.stop < next.start ∧ next.stop < window.stop :=
      fun next hnext => ⟨hgap next hnext, (hlater next hnext).2⟩
    obtain ⟨first, more, hgaps, hfirst, hlast, hbetween⟩ := ih hrest hrest' (by omega) hto
    -- Inside the window nothing is cut off, and the cursor moves on to the end of the closed span.
    have hopen : max window.start (min span.start window.stop) = span.start := by omega
    have hclose : max cursor (max window.start (min span.stop window.stop)) = span.stop := by omega
    simp only [gaps, hopen, hclose, if_pos hfrom, hgaps]
    refine ⟨_, _, rfl, rfl, ?_, ?_⟩
    · rw [List.getLast?_cons, Option.getD_some, hlast]
    · rw [between, hfirst, hbetween]

/-- The times of day at which a span starts and stops. -/
def times (span : Span) : Int × Int := (span.start % minutesPerDay, span.stop % minutesPerDay)

theorem times_ofTimes (start stop : Int) :
    (ofTimes start stop).times = (start % minutesPerDay, stop % minutesPerDay) := by
  simp only [times, ofTimes, minutesPerDay, Prod.mk.injEq]
  split <;> omega

end Span

namespace ClockRange

variable {range : ClockRange}

theorem times_span (h : range.IsValid) : range.span.times = range.minutes := by
  obtain ⟨⟨hhour, hminute⟩, ⟨hhour', hminute'⟩, -⟩ := h
  rw [span, times_ofTimes, minutes]
  simp only [ClockTime.minuteOfDay, minutesPerDay, Prod.mk.injEq]
  omega

theorem times_spanAfter (h : range.IsValid) (origin : Int) :
    (range.spanAfter origin).times = range.minutes := by
  rw [← times_span h, spanAfter]
  split
  · simp only [times, start_shift, stop_shift, minutesPerDay, Prod.mk.injEq]
    omega
  · rfl

end ClockRange

theorem minutes_breaksBetween (stretches : List Stretch) :
    (breaksBetween stretches).map ClockRange.minutes =
      (between (stretches.map Stretch.span)).map Span.times := by
  induction stretches with
  | nil => rfl
  | cons first rest ih =>
    cases rest with
    | nil => rfl
    | cons next rest =>
      rw [breaksBetween, List.map_cons, ih, ClockRange.minutes, minuteOfDay_time, minuteOfDay_time]
      rfl

namespace DayGroup

variable {group : DayGroup} {opening : ClockRange}

/-- A group in normal form with an opening opens from the start of the opening to its end, with its
breaks between its open spans. -/
theorem IsTimed.openSpans (h : group.IsTimed opening) : ∃ first more,
    group.openSpans = first :: more ∧ first.start = opening.span.start ∧
      (more.getLast?.getD first).stop = opening.span.stop ∧
      between (first :: more) = group.breaks.map (·.spanAfter opening.span.start) := by
  have hsorted : SortedOn Span.start (group.breaks.map (·.spanAfter opening.span.start)) := by
    rw [SortedOn, List.pairwise_map]
    exact h.sorted
  have hspans : group.breakSpans = group.breaks.map (·.spanAfter opening.span.start) := by
    rw [breakSpans_eq h.day h.opens, sortOn_of_sorted hsorted]
  have hseparated := (breakSpans_separated_iff h.day h.opens).mpr h.fit.apart
  have hinside : ∀ span ∈ group.breakSpans,
      opening.span.start < span.start ∧ span.stop < opening.span.stop := by
    rw [hspans, List.forall_mem_map]
    exact h.fit.inside
  rw [openSpans_timed h.day h.opens, ← hspans]
  exact between_gaps hseparated hinside (Int.le_refl _) opening.span_bounds.2.2.1

theorem content_ofStretches (days : WeekdaySet) (first : Stretch) (more : List Stretch) :
    (ofStretches days first more).content =
      ⟨days, some (Span.times ⟨first.start.minute, (more.getLast?.getD first).stop.minute⟩),
        (between ((first :: more).map Stretch.span)).map Span.times, false⟩ := by
  rw [content, ofStretches, minutes_breaksBetween, Option.map_some, ClockRange.minutes,
    minuteOfDay_time, minuteOfDay_time]
  rfl

/-- Opening and breaks come back from the open spans. -/
theorem IsTimed.readBack_content (h : group.IsTimed opening) :
    group.readBack.content = group.content := by
  obtain ⟨first, more, hspans, hstart, hstop, hbetween⟩ := h.openSpans
  have hback : group.readBack =
      ofStretches group.days first.stretch (more.map Span.stretch) := by
    simp only [readBack, h.day, hspans]
    rfl
  have hlast : ((more.map Span.stretch).getLast?.getD first.stretch).stop.minute =
      opening.span.stop := by
    rw [List.getLast?_map, Option.getD_map]
    exact hstop
  have hfirst : first.stretch.start.minute = opening.span.start := hstart
  have hopening : Span.times ⟨opening.span.start, opening.span.stop⟩ = opening.minutes :=
    ClockRange.times_span h.valid
  have hbreaks : (group.breaks.map (·.spanAfter opening.span.start)).map Span.times =
      group.breaks.map ClockRange.minutes := by
    rw [List.map_map]
    exact List.map_congr_left fun range hrange =>
      ClockRange.times_spanAfter (h.fit.valid range hrange) _
  rw [hback, content_ofStretches, hlast, hfirst, hopening, ← List.map_cons, map_span_stretch,
    hbetween, hbreaks, content, h.day, h.opens, Option.map_some]

/-- A sound and tidy group states the same when it is read from its text. -/
theorem content_readBack (hhours : group.HasSoundHours) (htidy : group.IsTidy) :
    group.readBack.content = group.content := by
  rcases group.forms with hday | ⟨hday, hnone⟩ | ⟨hday, opening, hsome⟩
  · obtain ⟨hopening, hbreaks⟩ := htidy.bare hday
    simp [readBack, content, fullDay, hday, hopening, hbreaks]
  · have hbreaks := hhours.breaks_nil htidy hnone
    simp [readBack, content, closed, hday, hnone, hbreaks, openSpans_closed hday hnone]
  · exact (isTimed_of_opening hhours htidy hsome).readBack_content

end DayGroup

namespace Schedule

variable {schedule : Schedule}

/-- The canonical text of a schedule in normal form reads back to the same groups in the same order,
which have the same days, opening and breaks. Two texts stand apart: that of a week that is always
open, and that of a schedule without a group. -/
theorem read_text_sameContent (hnormal : schedule.IsNormal) (hsome : schedule.groups ≠ [])
    (hnot : ¬schedule.IsAlwaysOpen) :
    ∃ other, Schedule.read schedule.text = .ok other ∧ other.SameContent schedule := by
  have hformed := isSound_iff.mp hnormal.sound
  refine ⟨⟨schedule.groups.map DayGroup.readBack⟩, ?_, ?_⟩
  · obtain ⟨first, more, hgroups⟩ := List.exists_cons_of_ne_nil hsome
    rw [Schedule.read, text, String.toList_ofList, render, if_neg hnot, rules_eq hformed, hgroups,
      if_neg (by simp)]
    rw [hgroups] at hformed
    exact readChars_rules hformed
  · rw [SameContent, List.map_map]
    exact List.map_congr_left fun group hgroup =>
      DayGroup.content_readBack (hformed.hours group hgroup) (hnormal.tidy group hgroup)

/-- A break over midnight comes back to its times of day, and to its place before a later break. -/
theorem read_text_sameContent_shift :
    let schedule := ((office.step (.setOpening 0 ⟨⟨20, 0, true⟩, ⟨8, 0, true⟩⟩)).step
      (.addBreak 0 ⟨⟨1, 0, true⟩, ⟨2, 0, true⟩⟩)).step
      (.addBreak 0 ⟨⟨23, 30, true⟩, ⟨0, 30, true⟩⟩)
    schedule.IsNormal ∧ schedule.groups ≠ [] ∧ ¬schedule.IsAlwaysOpen ∧
      schedule.text = "Mo-Fr 20:00-23:30,24:30-25:00,26:00-32:00" ∧
      ∃ other, Schedule.read schedule.text = .ok other ∧ other.SameContent schedule := by
  have hnormal := step_isNormal (step_isNormal (step_isNormal office_isNormal
    (.setOpening 0 ⟨⟨20, 0, true⟩, ⟨8, 0, true⟩⟩)) (.addBreak 0 ⟨⟨1, 0, true⟩, ⟨2, 0, true⟩⟩))
    (.addBreak 0 ⟨⟨23, 30, true⟩, ⟨0, 30, true⟩⟩)
  exact ⟨hnormal, by decide, by decide, by decide,
    read_text_sameContent hnormal (by decide) (by decide)⟩

end Schedule

end OpeningHours
