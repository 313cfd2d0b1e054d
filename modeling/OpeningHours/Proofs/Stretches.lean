import OpeningHours.Proofs.OpenHours
import OpeningHours.Reading.Hours

/-! How stretches become a group. The opening runs from the first start to the last stop on the
clock, with a break for each gap between stretches, and what the group opens is the stretches
themselves: the breaks come back to their places on the axis, past midnight too. -/

namespace OpeningHours

open OpeningHours.Span Reading

namespace Span

/-- The spans between the spans of a list. -/
def between : List Span → List Span
  | a :: b :: rest => ⟨a.stop, b.start⟩ :: between (b :: rest)
  | _ => []

/-- Spans in order with gaps between them. A span without a minute can be among them. -/
structure Gapped (spans : List Span) : Prop where
  forward : ∀ span ∈ spans, span.start ≤ span.stop
  apart : spans.Pairwise fun a b => a.stop < b.start

variable {first span : Span} {more spans : List Span} {window : Span}

theorem gapped_cons : Gapped (first :: more) ↔
    first.start ≤ first.stop ∧ (∀ next ∈ more, first.stop < next.start) ∧ Gapped more := by
  constructor
  · rintro ⟨hforward, hapart⟩
    obtain ⟨hfirst, hmore⟩ := List.forall_mem_cons.mp hforward
    obtain ⟨hgap, hrest⟩ := List.pairwise_cons.mp hapart
    exact ⟨hfirst, hgap, hmore, hrest⟩
  · rintro ⟨hfirst, hgap, hmore, hrest⟩
    exact ⟨List.forall_mem_cons.mpr ⟨hfirst, hmore⟩, List.pairwise_cons.mpr ⟨hgap, hrest⟩⟩

theorem separated_iff_gapped : Separated spans ↔
    Gapped spans ∧ ∀ span ∈ spans, span.start < span.stop := by
  rw [separated_iff_pairwise]
  constructor
  · rintro ⟨hlength, hapart⟩
    exact ⟨⟨fun span hspan => Int.le_of_lt (hlength span hspan), hapart⟩, hlength⟩
  · rintro ⟨hgapped, hlength⟩
    exact ⟨hlength, hgapped.apart⟩

theorem Gapped.stop_le_last (h : Gapped (first :: more)) :
    ∀ span ∈ first :: more, span.stop ≤ (more.getLast?.getD first).stop := by
  induction more generalizing first with
  | nil => simp
  | cons next rest ih =>
    obtain ⟨-, hgap, hmore⟩ := gapped_cons.mp h
    have hrest := ih hmore
    have hnext := hrest next (by simp)
    have hfirst := hgap next (by simp)
    have hforward := hmore.forward next (by simp)
    rw [List.getLast?_cons, Option.getD_some]
    exact List.forall_mem_cons.mpr ⟨by omega, hrest⟩

theorem start_le_of_mem_between (h : Gapped (first :: more))
    (hspan : span ∈ between (first :: more)) :
    first.stop ≤ span.start ∧ span.start < span.stop ∧
      span.stop ≤ (more.getLast?.getD first).stop := by
  induction more generalizing first with
  | nil => cases hspan
  | cons next rest ih =>
    obtain ⟨-, hgap, hmore⟩ := gapped_cons.mp h
    have hfirst := hgap next (by simp)
    have hforward := hmore.forward next (by simp)
    have hlast := hmore.stop_le_last next (by simp)
    rw [List.getLast?_cons, Option.getD_some]
    rcases List.mem_cons.mp hspan with rfl | hlater
    · exact ⟨Int.le_refl _, hfirst, by simp only; omega⟩
    · have := ih hmore hlater
      omega

theorem between_strict (h : Gapped (first :: more)) :
    (between (first :: more)).Pairwise fun a b => a.start < b.start := by
  induction more generalizing first with
  | nil => exact List.Pairwise.nil
  | cons next rest ih =>
    obtain ⟨-, hgap, hmore⟩ := gapped_cons.mp h
    refine List.pairwise_cons.mpr ⟨?_, ih hmore⟩
    intro span hspan
    have hfirst := hgap next (by simp)
    have hforward := hmore.forward next (by simp)
    have hlater := start_le_of_mem_between hmore hspan
    simp only
    omega

theorem between_sorted (h : Gapped (first :: more)) :
    SortedOn Span.start (between (first :: more)) :=
  (between_strict h).imp Int.le_of_lt

/-- The gaps between the spaces between spans are the spans that have a minute. -/
theorem gaps_between (h : Gapped (first :: more)) (hstart : window.start ≤ first.start)
    (hstop : window.stop = (more.getLast?.getD first).stop) :
    gaps window first.start (between (first :: more)) =
      (first :: more).filter fun span => span.start < span.stop := by
  induction more generalizing first with
  | nil =>
    simp only [List.getLast?_nil, Option.getD_none] at hstop
    have hnone : between [first] = [] := rfl
    rw [hnone, gaps, hstop, List.filter_cons, List.filter_nil]
    simp only [decide_eq_true_eq]
  | cons next rest ih =>
    obtain ⟨hforward, hgap, hmore⟩ := gapped_cons.mp h
    have hnext := hgap next (by simp)
    have hlength := hmore.forward next (by simp)
    have hlast := hmore.stop_le_last next (by simp)
    rw [List.getLast?_cons, Option.getD_some] at hstop
    have hfrom : max window.start (min first.stop window.stop) = first.stop := by omega
    have hto : max window.start (min next.start window.stop) = next.start := by omega
    have hcursor : max first.start next.start = next.start := by omega
    rw [between, gaps, List.filter_cons]
    simp only [hfrom, hto, hcursor, ih hmore (by omega) hstop, decide_eq_true_eq]

end Span

/-! ### Times on the clock -/

theorem minuteOfDay_time (clock : Clock) :
    clock.time.minuteOfDay = clock.minute % minutesPerDay :=
  ClockTime.minuteOfDay_ofMinute clock.minute

namespace ClockRange

variable {start stop : Clock} {origin : Int}

/-- Two times less than a day apart come back to their places on the axis of the day. -/
theorem spanAfter_times (horigin : 0 ≤ origin ∧ origin < minutesPerDay)
    (hstart : origin ≤ start.minute) (hlength : start.minute < stop.minute)
    (hstop : stop.minute < origin + minutesPerDay) :
    (⟨start.time, stop.time⟩ : ClockRange).spanAfter origin = ⟨start.minute, stop.minute⟩ := by
  simp only [spanAfter, span, ofTimes, shift, minuteOfDay_time, minutesPerDay] at *
  split <;> simp only [Span.mk.injEq] <;> split <;> omega

theorem span_times (hstart : 0 ≤ start.minute ∧ start.minute < minutesPerDay)
    (hlength : start.minute < stop.minute) (hstop : stop.minute < start.minute + minutesPerDay) :
    (⟨start.time, stop.time⟩ : ClockRange).span = ⟨start.minute, stop.minute⟩ := by
  simp only [span, ofTimes, minuteOfDay_time, minutesPerDay, Span.mk.injEq] at *
  split <;> omega

/-- The breaks between stretches of less than a day fill the spaces between them. -/
theorem spanAfter_breaksBetween {first : Stretch} {more : List Stretch}
    (horigin : 0 ≤ origin ∧ origin < minutesPerDay)
    (hgapped : Gapped ((first :: more).map Stretch.span))
    (hstart : origin ≤ first.start.minute)
    (hstop : ∀ stretch ∈ more, stretch.stop.minute < origin + minutesPerDay) :
    (breaksBetween (first :: more)).map (·.spanAfter origin) =
      between ((first :: more).map Stretch.span) := by
  induction more generalizing first with
  | nil => rfl
  | cons next rest ih =>
    obtain ⟨hfirst, hgap, hmore⟩ := gapped_cons.mp hgapped
    obtain ⟨hnext, hrest⟩ := List.forall_mem_cons.mp hstop
    have hforward : first.start.minute ≤ first.stop.minute := hfirst
    have hgap : first.stop.minute < next.start.minute := hgap next.span (by simp)
    have hlength : next.start.minute ≤ next.stop.minute := hmore.forward next.span (by simp)
    rw [breaksBetween, List.map_cons, spanAfter_times horigin (by omega) hgap (by omega),
      ih hmore (by omega) hrest]
    rfl

end ClockRange

/-- The group that opens for stretches: an opening around all of them with breaks between them. -/
def DayGroup.ofStretches (days : WeekdaySet) (first : Stretch) (more : List Stretch) :
    DayGroup where
  days
  opening := some ⟨first.start.time, (more.getLast?.getD first).stop.time⟩
  breaks := breaksBetween (first :: more)

section Group

variable {days : WeekdaySet} {first : Stretch} {more : List Stretch} {text : List Char}
  {group : DayGroup}

theorem stop_last_span (first : Stretch) (more : List Stretch) :
    ((more.map Stretch.span).getLast?.getD first.span).stop =
      (more.getLast?.getD first).stop.minute := by
  rw [List.getLast?_map, Option.getD_map]
  rfl

theorem stop_le_last_of_gapped (hgapped : Gapped ((first :: more).map Stretch.span)) :
    ∀ stretch ∈ first :: more,
      stretch.stop.minute ≤ (more.getLast?.getD first).stop.minute := by
  intro stretch hstretch
  rw [← stop_last_span]
  exact hgapped.stop_le_last stretch.span (List.mem_map_of_mem hstretch)

/-- The breaks of the group fill the spaces between its stretches. -/
theorem spanAfter_ofStretches (hgapped : Gapped ((first :: more).map Stretch.span))
    (hfirst : 0 ≤ first.start.minute ∧ first.start.minute < minutesPerDay)
    (htotal : (more.getLast?.getD first).stop.minute < first.start.minute + minutesPerDay) :
    (DayGroup.ofStretches days first more).breaks.map (·.spanAfter first.start.minute) =
      between ((first :: more).map Stretch.span) := by
  refine ClockRange.spanAfter_breaksBetween hfirst hgapped (Int.le_refl _) ?_
  intro stretch hstretch
  have := stop_le_last_of_gapped hgapped stretch (List.mem_cons_of_mem _ hstretch)
  omega

section Hours

variable (hgapped : Gapped ((first :: more).map Stretch.span))
  (hfirst : 0 ≤ first.start.minute ∧ first.start.minute < minutesPerDay)
  (hlength : first.start.minute < (more.getLast?.getD first).stop.minute)
  (htotal : (more.getLast?.getD first).stop.minute < first.start.minute + minutesPerDay)

include hfirst hlength htotal

theorem openingSpan?_ofStretches : (DayGroup.ofStretches days first more).openingSpan? =
    some ⟨first.start.minute, (more.getLast?.getD first).stop.minute⟩ := by
  rw [DayGroup.openingSpan?_eq_some rfl rfl, ClockRange.span_times hfirst hlength htotal]

include hgapped

theorem breakSpans_ofStretches : (DayGroup.ofStretches days first more).breakSpans =
    between ((first :: more).map Stretch.span) := by
  rw [DayGroup.breakSpans_eq rfl rfl, ClockRange.span_times hfirst hlength htotal]
  simp only [spanAfter_ofStretches hgapped hfirst htotal]
  exact sortOn_of_sorted (between_sorted hgapped)

/-- The group opens for the stretches that have a minute and for nothing else. -/
theorem openSpans_ofStretches : (DayGroup.ofStretches days first more).openSpans =
    ((first :: more).map Stretch.span).filter fun span => span.start < span.stop := by
  rw [DayGroup.openSpans_timed rfl rfl, breakSpans_ofStretches hgapped hfirst hlength htotal,
    ClockRange.span_times hfirst hlength htotal]
  exact gaps_between hgapped (Int.le_refl _) (stop_last_span first more).symm

end Hours

theorem openSpans_of_separated (hseparated : Separated ((first :: more).map Stretch.span))
    (hfirst : 0 ≤ first.start.minute ∧ first.start.minute < minutesPerDay)
    (htotal : (more.getLast?.getD first).stop.minute < first.start.minute + minutesPerDay) :
    (DayGroup.ofStretches days first more).openSpans = (first :: more).map Stretch.span := by
  have hgapped := (separated_iff_gapped.mp hseparated).1
  have hlength : first.start.minute < first.stop.minute := hseparated.1
  have hstop := stop_le_last_of_gapped hgapped first (by simp)
  rw [openSpans_ofStretches hgapped hfirst (by omega) htotal, List.filter_eq_self]
  intro span hspan
  exact decide_eq_true (hseparated.start_lt_stop hspan)

theorem groupOfStretches_eq (hfirst : first.start.minute < minutesPerDay)
    (htotal : (more.getLast?.getD first).stop.minute < first.start.minute + minutesPerDay) :
    groupOfStretches days text first more = .ok (.ofStretches days first more) := by
  simp only [groupOfStretches]
  rw [if_neg (by omega), if_neg (by omega), if_neg (by omega)]
  rfl

/-- Stretches become a group of timed hours, or one open around the clock if they are one stretch of
a whole day. -/
theorem groupOfStretches_eq_ok_iff : groupOfStretches days text first more = .ok group ↔
    first.start.minute < minutesPerDay ∧
      ((more.getLast?.getD first).stop.minute = first.start.minute + minutesPerDay ∧ more = [] ∧
          group = .fullDay days ∨
        (more.getLast?.getD first).stop.minute < first.start.minute + minutesPerDay ∧
          group = .ofStretches days first more) := by
  simp only [groupOfStretches]
  constructor
  · intro h
    split at h
    · cases h
    split at h
    · cases h
    rename_i hearly hlong
    rw [not_or, not_and, Classical.not_not] at hlong
    refine ⟨by omega, ?_⟩
    split at h
    · rename_i htotal
      exact .inl ⟨by omega, hlong.2 htotal, (Except.ok.inj h).symm⟩
    · exact .inr ⟨by omega, (Except.ok.inj h).symm⟩
  · rintro ⟨hearly, ⟨htotal, rfl, rfl⟩ | ⟨htotal, rfl⟩⟩
    · rw [if_neg (by omega), if_neg, if_pos (by omega)]
      rintro (hover | ⟨-, hmore⟩)
      · omega
      · exact hmore rfl
    · exact groupOfStretches_eq hearly htotal

theorem joinStretches_of_separated (h : Separated ((first :: more).map Stretch.span)) :
    joinStretches first more = some (first :: more) := by
  induction more generalizing first with
  | nil => rfl
  | cons next rest ih =>
    have hgap : first.stop.minute < next.start.minute := h.2.1 next.span (by simp)
    rw [joinStretches, if_neg (by omega), if_neg (by omega), ih h.tail]
    rfl

/-- Stretches that are in order with gaps between them are neither moved nor joined. -/
theorem groupOfSpans_of_separated (h : Separated ((first :: more).map Stretch.span)) :
    groupOfSpans days text (first :: more) = groupOfStretches days text first more := by
  have hsorted : SortedOn (·.start.minute) (first :: more) := by
    have hspans := h.sorted
    rw [SortedOn, List.pairwise_map] at hspans
    exact hspans
  simp only [groupOfSpans, sortOn_of_sorted hsorted, joinStretches_of_separated h]

end Group

end OpeningHours
