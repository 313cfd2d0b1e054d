import OpeningHours.Schedule.Fault
import OpeningHours.Proofs.OpenHours

/-! What it means that a schedule has no fault: every group has a day, no day is in two groups, and
the hours of every group are sound, which says of a timed group that its breaks lie strictly inside
the opening and that no two of them touch. The check compares neighbours in the order of their
starts only, and that covers all pairs. -/

namespace OpeningHours

/-- Where the order of two items does not count, a relation between any two items of a list is one
between any two places of it. -/
theorem pairwise_iff_places {R : α → α → Prop} {xs : List α} (hsymm : ∀ x y, R x y → R y x) :
    xs.Pairwise R ↔ ∀ (i j : Nat) (x y : α), xs[i]? = some x → xs[j]? = some y → i ≠ j →
      R x y := by
  rw [List.pairwise_iff_getElem]
  constructor
  · intro h i j x y hx hy hne
    obtain ⟨hi, rfl⟩ := List.getElem?_eq_some_iff.mp hx
    obtain ⟨hj, rfl⟩ := List.getElem?_eq_some_iff.mp hy
    rcases Nat.lt_or_gt_of_ne hne with hlt | hgt
    · exact h i j hi hj hlt
    · exact hsymm _ _ (h j i hj hi hgt)
  · intro h i j hi hj hlt
    exact h i j _ _ (List.getElem?_eq_getElem hi) (List.getElem?_eq_getElem hj)
      (Nat.ne_of_lt hlt)

namespace Span

theorem touches_iff_of_start_le {a b : Span} (ha : a.start ≤ b.start) (hb : b.start < b.stop) :
    a.Touches b ↔ b.start ≤ a.stop := by
  simp only [Touches]
  omega

/-- Spans by rising start keep gaps between all of them if no two neighbours touch. -/
theorem not_someTouch_iff {spans : List Span} (hsorted : SortedOn Span.start spans)
    (hlength : ∀ span ∈ spans, span.start < span.stop) :
    ¬SomeTouch spans ↔ Separated spans := by
  induction spans with
  | nil => simp [SomeTouch, Separated]
  | cons a rest ih =>
    have ha := List.pairwise_cons.mp hsorted
    cases rest with
    | nil => simpa [SomeTouch, Separated] using hlength
    | cons b rest =>
      have hb := hlength b (by simp)
      rw [SomeTouch, not_or, touches_iff_of_start_le (ha.1 b (by simp)) hb,
        ih ha.2 fun span hspan => hlength span (List.mem_cons_of_mem _ hspan)]
      constructor
      · rintro ⟨hgap, hrest⟩
        refine ⟨hlength a (by simp), ?_, hrest⟩
        intro next hnext
        rcases List.mem_cons.mp hnext with rfl | hlater
        · omega
        · have := hrest.2.1 next hlater
          omega
      · intro h
        have := h.2.1 b (by simp)
        exact ⟨by omega, h.tail⟩

theorem separated_iff_apart {spans : List Span} (hsorted : SortedOn Span.start spans)
    (hlength : ∀ span ∈ spans, span.start < span.stop) :
    Separated spans ↔ spans.Pairwise fun a b => ¬a.Touches b := by
  induction spans with
  | nil => simp [Separated]
  | cons a rest ih =>
    have ha := List.pairwise_cons.mp hsorted
    rw [Separated, List.pairwise_cons,
      ih ha.2 fun span hspan => hlength span (List.mem_cons_of_mem _ hspan)]
    have hfirst : (∀ b ∈ rest, a.stop < b.start) ↔ ∀ b ∈ rest, ¬a.Touches b := by
      apply forall₂_congr
      intro b hb
      rw [touches_iff_of_start_le (ha.1 b hb) (hlength b (List.mem_cons_of_mem _ hb))]
      omega
    simp [hfirst, hlength a]

end Span

namespace WeekdaySet

/-- No day is in both sets. -/
def Disjoint (a b : WeekdaySet) : Prop :=
  ∀ day, ¬(a.contains day = true ∧ b.contains day = true)

theorem Disjoint.symm {a b : WeekdaySet} (h : a.Disjoint b) : b.Disjoint a :=
  fun day hday => h day hday.symm

theorem disjoint_empty (a : WeekdaySet) : a.Disjoint ∅ := by simp [Disjoint]

theorem Disjoint.diff_eq {a b : WeekdaySet} (h : a.Disjoint b) : a \ b = a := by
  ext day
  have hday := h day
  rw [contains_diff]
  cases ha : a.contains day <;> cases hb : b.contains day <;> simp_all

theorem Disjoint.insert {a b : WeekdaySet} {day : Weekday} (h : a.Disjoint b)
    (hday : b.contains day = false) : (a.insert day).Disjoint b := by
  rintro other ⟨hin, hother⟩
  rw [contains_insert, Bool.or_eq_true, beq_iff_eq] at hin
  rcases hin with hin | rfl
  · exact h other ⟨hin, hother⟩
  · rw [hday] at hother
    cases hother

theorem Disjoint.erase {a b : WeekdaySet} (h : a.Disjoint b) (day : Weekday) :
    (a.erase day).Disjoint b := by
  rintro other ⟨hin, hother⟩
  rw [contains_erase, Bool.and_eq_true] at hin
  exact h other ⟨hin.1, hother⟩

theorem isEmpty_eq_false_iff {days : WeekdaySet} :
    days.isEmpty = false ↔ ∃ day, days.contains day = true := by
  rw [← Bool.not_eq_true, isEmpty_iff]
  simp

theorem disjoint_union_right {a b c : WeekdaySet} :
    a.Disjoint (b ∪ c) ↔ a.Disjoint b ∧ a.Disjoint c := by
  simp [Disjoint, ← forall_and]

end WeekdaySet

open OpeningHours.Span

/-- The breaks of an opening are valid and lie strictly inside it, and no two of them touch. -/
structure BreaksFit (opening : ClockRange) (breaks : List ClockRange) : Prop where
  valid : ∀ range ∈ breaks, range.IsValid
  inside : ∀ range ∈ breaks,
    opening.span.StrictlyContains (range.spanAfter opening.span.start)
  apart : breaks.Pairwise fun a b =>
    ¬(a.spanAfter opening.span.start).Touches (b.spanAfter opening.span.start)

namespace BreaksFit

variable {opening : ClockRange} {breaks more : List ClockRange} {range : ClockRange}

theorem perm (h : BreaksFit opening breaks) (hperm : more.Perm breaks) :
    BreaksFit opening more where
  valid b hb := h.valid b (hperm.mem_iff.mp hb)
  inside b hb := h.inside b (hperm.mem_iff.mp hb)
  apart := (hperm.pairwise_iff fun hab => mt Touches.symm hab).mpr h.apart

theorem sublist (h : BreaksFit opening breaks) (hsub : more.Sublist breaks) :
    BreaksFit opening more where
  valid b hb := h.valid b (hsub.mem hb)
  inside b hb := h.inside b (hsub.mem hb)
  apart := h.apart.sublist hsub

theorem cons (h : BreaksFit opening breaks) (hvalid : range.IsValid)
    (hinside : opening.span.StrictlyContains (range.spanAfter opening.span.start))
    (hapart : ∀ b ∈ breaks,
      ¬(b.spanAfter opening.span.start).Touches (range.spanAfter opening.span.start)) :
    BreaksFit opening (range :: breaks) where
  valid := List.forall_mem_cons.mpr ⟨hvalid, h.valid⟩
  inside := List.forall_mem_cons.mpr ⟨hinside, h.inside⟩
  apart := List.pairwise_cons.mpr ⟨fun b hb => mt Touches.symm (hapart b hb), h.apart⟩

end BreaksFit

namespace DayGroup

variable {group : DayGroup} {opening : ClockRange} {index : Nat}

/-- The hours of a group are without a fault. Around the clock, opening and breaks do not count. -/
def HasSoundHours (group : DayGroup) : Prop :=
  group.isFullDay = false →
    match group.opening with
    | none => group.breaks = []
    | some opening => opening.IsValid ∧ BreaksFit opening group.breaks

theorem fitsBreak_iff (hday : group.isFullDay = false) (h : group.opening = some opening)
    (range : ClockRange) : group.FitsBreak range ↔
      opening.span.StrictlyContains (range.spanAfter opening.span.start) := by
  rw [FitsBreak, openingSpan?_eq_some hday h]

theorem breakSpans_separated_iff (hday : group.isFullDay = false)
    (h : group.opening = some opening) :
    Separated group.breakSpans ↔ group.breaks.Pairwise fun a b =>
      ¬(a.spanAfter opening.span.start).Touches (b.spanAfter opening.span.start) := by
  have hsorted : SortedOn Span.start group.breakSpans := by
    rw [breakSpans_eq hday h]
    exact sortOn_sorted _ _
  rw [separated_iff_apart hsorted group.breakSpans_nonempty, breakSpans_eq hday h,
    (sortOn_perm _ _).pairwise_iff fun hab => mt Touches.symm hab, List.pairwise_map]

theorem breakFaults_eq_nil_iff {range : ClockRange} :
    group.breakFaults opening index range = [] ↔ range.IsValid ∧ group.FitsBreak range := by
  rw [breakFaults]
  by_cases hvalid : range.IsValid <;> by_cases hfits : group.FitsBreak range <;>
    simp [hvalid, hfits]

theorem rangeFaults_eq_nil_iff : group.rangeFaults index = [] ↔ group.HasSoundHours := by
  rw [rangeFaults, HasSoundHours]
  cases hday : group.isFullDay
  · cases hopening : group.opening with
    | none => cases group.breaks <;> simp
    | some opening =>
      have hsorted : SortedOn Span.start group.breakSpans := by
        rw [breakSpans_eq hday hopening]
        exact sortOn_sorted _ _
      have htouch := (not_someTouch_iff hsorted group.breakSpans_nonempty).trans
        (breakSpans_separated_iff hday hopening)
      by_cases hvalid : opening.IsValid
      · simp only [hvalid, not_true, if_false, List.append_eq_nil_iff, List.flatMap_eq_nil_iff,
          breakFaults_eq_nil_iff, fitsBreak_iff hday hopening, true_and, Bool.false_eq_true]
        constructor
        · rintro ⟨hbreaks, hsome⟩ -
          refine ⟨fun range h => (hbreaks range h).1, fun range h => (hbreaks range h).2, ?_⟩
          exact htouch.mp fun hs => by simp [hs] at hsome
        · intro h
          obtain ⟨hranges, hinside, hapart⟩ := h trivial
          exact ⟨fun range h => ⟨hranges range h, hinside range h⟩, if_neg (htouch.mpr hapart)⟩
      · simp [hvalid]
  · simp

theorem hasSoundHours_iff : group.HasSoundHours ↔ (group.isFullDay = false →
    group.opening = none ∧ group.breaks = [] ∨
    ∃ opening, group.opening = some opening ∧ opening.IsValid ∧
      (∀ range ∈ group.breaks, range.IsValid ∧
        opening.span.StrictlyContains (range.spanAfter opening.span.start)) ∧
      ∀ (i j : Nat) (a b : ClockRange), group.breaks[i]? = some a → group.breaks[j]? = some b →
        i ≠ j →
        ¬(a.spanAfter opening.span.start).Touches (b.spanAfter opening.span.start)) := by
  rw [HasSoundHours]
  apply imp_congr_right
  intro hday
  cases hopening : group.opening with
  | none => simp
  | some opening =>
    simp only [reduceCtorEq, false_and, Option.some.injEq, exists_eq_left', false_or]
    refine and_congr_right fun _ => ⟨fun h => ⟨fun range hrange => ?_, ?_⟩, fun h => ?_⟩
    · exact ⟨h.valid range hrange, h.inside range hrange⟩
    · exact (pairwise_iff_places fun _ _ hab => mt Touches.symm hab).mp h.apart
    · exact ⟨fun range hrange => (h.1 range hrange).1, fun range hrange => (h.1 range hrange).2,
        (pairwise_iff_places fun _ _ hab => mt Touches.symm hab).mpr h.2⟩

/-- A sound group that opens at all opens before midnight: nothing closes the minute in which its
opening starts. -/
theorem exists_covers_before_midnight (hsound : group.HasSoundHours) (h : group.openSpans ≠ []) :
    ∃ minute, 0 ≤ minute ∧ minute < minutesPerDay ∧ Covers group.openSpans minute := by
  rcases group.forms with hday | ⟨hday, hnone⟩ | ⟨hday, opening, hsome⟩
  · rw [openSpans_fullDay hday]
    exact ⟨0, by decide, by decide, by simp [mem_iff, minutesPerDay]⟩
  · exact absurd (openSpans_closed hday hnone) h
  · have hbounds := opening.span_bounds
    have hfit := hsound hday
    rw [hsome] at hfit
    refine ⟨opening.span.start, hbounds.1, hbounds.2.1, (covers_openSpans hday hsome).mpr ?_⟩
    refine ⟨⟨Int.le_refl _, hbounds.2.2.1⟩, ?_⟩
    intro range hrange
    have := (hfit.2.inside range hrange).1
    rw [mem_iff]
    omega

theorem dayFaults_eq_nil_iff {seen : WeekdaySet} : group.dayFaults seen index = [] ↔
    (∃ day, group.days.contains day = true) ∧ group.days.Disjoint seen := by
  have hseen : (group.days ∩ seen).toList = [] ↔ group.days.Disjoint seen := by
    simp [List.eq_nil_iff_forall_not_mem, WeekdaySet.Disjoint]
  rw [dayFaults, List.append_eq_nil_iff, List.map_eq_nil_iff, hseen,
    ← WeekdaySet.isEmpty_eq_false_iff]
  cases group.days.isEmpty <;> simp

end DayGroup

namespace Schedule

/-- Every group has a day, no day is in two groups, and the hours of every group are sound. -/
structure WellFormed (groups : List DayGroup) : Prop where
  inhabited : ∀ group ∈ groups, ∃ day, group.days.contains day = true
  disjoint : groups.Pairwise fun a b => a.days.Disjoint b.days
  hours : ∀ group ∈ groups, group.HasSoundHours

theorem wellFormed_cons {group : DayGroup} {rest : List DayGroup} :
    WellFormed (group :: rest) ↔ (∃ day, group.days.contains day = true) ∧
      group.HasSoundHours ∧ (∀ other ∈ rest, group.days.Disjoint other.days) ∧
      WellFormed rest := by
  constructor
  · rintro ⟨hinhabited, hdisjoint, hhours⟩
    have hpairs := List.pairwise_cons.mp hdisjoint
    have hdays := List.forall_mem_cons.mp hinhabited
    have hranges := List.forall_mem_cons.mp hhours
    exact ⟨hdays.1, hranges.1, hpairs.1, hdays.2, hpairs.2, hranges.2⟩
  · rintro ⟨hday, hrange, hfirst, hrest⟩
    exact ⟨List.forall_mem_cons.mpr ⟨hday, hrest.inhabited⟩,
      List.pairwise_cons.mpr ⟨hfirst, hrest.disjoint⟩,
      List.forall_mem_cons.mpr ⟨hrange, hrest.hours⟩⟩

theorem faultsFrom_eq_nil_iff {index : Nat} {seen : WeekdaySet} {groups : List DayGroup} :
    faultsFrom index seen groups = [] ↔
      WellFormed groups ∧ ∀ group ∈ groups, group.days.Disjoint seen := by
  induction groups generalizing index seen with
  | nil => simpa [faultsFrom] using WellFormed.mk (by simp) .nil (by simp)
  | cons group rest ih =>
    rw [faultsFrom, List.append_eq_nil_iff, List.append_eq_nil_iff,
      DayGroup.dayFaults_eq_nil_iff, DayGroup.rangeFaults_eq_nil_iff, ih, wellFormed_cons]
    simp only [WeekdaySet.disjoint_union_right, List.forall_mem_cons]
    constructor
    · rintro ⟨⟨⟨hday, hseen⟩, hrange⟩, hrest, hapart⟩
      exact ⟨⟨hday, hrange, fun other hother => (hapart other hother).2.symm, hrest⟩, hseen,
        fun other hother => (hapart other hother).1⟩
    · rintro ⟨⟨hday, hrange, hfirst, hrest⟩, hseen, hapart⟩
      exact ⟨⟨⟨hday, hseen⟩, hrange⟩, hrest, fun other hother =>
        ⟨hapart other hother, (hfirst other hother).symm⟩⟩

section WellFormed

variable {groups : List DayGroup} {group changed : DayGroup} {index : Nat}

theorem disjoint_set (h : groups.Pairwise fun a b => a.days.Disjoint b.days)
    (hgroup : groups[index]? = some group)
    (hdays : ∀ other ∈ groups, group.days.Disjoint other.days → changed.days.Disjoint other.days) :
    (groups.set index changed).Pairwise fun a b => a.days.Disjoint b.days := by
  induction groups generalizing index with
  | nil => cases hgroup
  | cons first rest ih =>
    obtain ⟨hfirst, hrest⟩ := List.pairwise_cons.mp h
    obtain ⟨hdays', hdays⟩ := List.forall_mem_cons.mp hdays
    cases index with
    | zero =>
      obtain rfl : first = group := by simpa using hgroup
      exact List.pairwise_cons.mpr ⟨fun other hother => hdays other hother (hfirst other hother),
        hrest⟩
    | succ index =>
      rw [List.getElem?_cons_succ] at hgroup
      refine List.pairwise_cons.mpr ⟨fun other hother => ?_, ih hrest hgroup hdays⟩
      rcases List.mem_or_eq_of_mem_set hother with hother | rfl
      · exact hfirst other hother
      · exact (hdays' (hfirst group (List.mem_of_getElem? hgroup)).symm).symm

/-- A group can be replaced by one with sound hours and some days that keeps clear of the others. -/
theorem WellFormed.set (h : WellFormed groups) (hgroup : groups[index]? = some group)
    (hsome : ∃ day, changed.days.contains day = true)
    (hdays : ∀ other ∈ groups, group.days.Disjoint other.days → changed.days.Disjoint other.days)
    (hhours : changed.HasSoundHours) : WellFormed (groups.set index changed) where
  inhabited other hother := by
    rcases List.mem_or_eq_of_mem_set hother with hother | rfl
    · exact h.inhabited other hother
    · exact hsome
  disjoint := disjoint_set h.disjoint hgroup hdays
  hours other hother := by
    rcases List.mem_or_eq_of_mem_set hother with hother | rfl
    · exact h.hours other hother
    · exact hhours

theorem WellFormed.sublist {more : List DayGroup} (h : WellFormed groups)
    (hsub : more.Sublist groups) : WellFormed more where
  inhabited other hother := h.inhabited other (hsub.mem hother)
  disjoint := h.disjoint.sublist hsub
  hours other hother := h.hours other (hsub.mem hother)

theorem WellFormed.append_singleton (h : WellFormed groups)
    (hsome : ∃ day, group.days.contains day = true)
    (hdays : ∀ other ∈ groups, other.days.Disjoint group.days) (hhours : group.HasSoundHours) :
    WellFormed (groups ++ [group]) where
  inhabited other hother := by
    rcases List.mem_append.mp hother with hother | hother
    · exact h.inhabited other hother
    · obtain rfl := List.mem_singleton.mp hother
      exact hsome
  disjoint := by
    refine List.pairwise_append.mpr ⟨h.disjoint, List.pairwise_singleton _ _, ?_⟩
    intro other hother added hadded
    obtain rfl := List.mem_singleton.mp hadded
    exact hdays other hother
  hours other hother := by
    rcases List.mem_append.mp hother with hother | hother
    · exact h.hours other hother
    · obtain rfl := List.mem_singleton.mp hother
      exact hhours

end WellFormed

/-- Two nights with a break over midnight, the later break first, and a day around the clock with a
break that does not count. -/
def nights : Schedule where
  groups := [
    { days := .range .friday .saturday
      opening := some ⟨⟨20, 0, true⟩, ⟨8, 0, true⟩⟩
      breaks := [⟨⟨1, 0, true⟩, ⟨2, 0, true⟩⟩, ⟨⟨23, 30, true⟩, ⟨0, 30, true⟩⟩] },
    { days := .ofList [.sunday]
      breaks := [⟨⟨9, 0, true⟩, ⟨9, 0, true⟩⟩]
      isFullDay := true }]

theorem isSound_iff {schedule : Schedule} : schedule.IsSound ↔ WellFormed schedule.groups := by
  rw [IsSound, faults, faultsFrom_eq_nil_iff]
  exact and_iff_left fun group _ => group.days.disjoint_empty

/-- A schedule has no fault exactly if every group has a day, groups at different places have no day
in common, and every group that is not open around the clock either never opens and has no breaks,
or has a valid opening with valid breaks strictly inside it, of which those at different places
neither overlap nor meet. -/
theorem isSound_iff_of_places {schedule : Schedule} : schedule.IsSound ↔
    (∀ group ∈ schedule.groups, ∃ day, day ∈ group.days) ∧
    (∀ (i j : Nat) (a b : DayGroup), schedule.groups[i]? = some a → schedule.groups[j]? = some b →
      i ≠ j → ∀ day, ¬(day ∈ a.days ∧ day ∈ b.days)) ∧
    ∀ group ∈ schedule.groups, group.isFullDay = false →
      group.opening = none ∧ group.breaks = [] ∨
      ∃ opening, group.opening = some opening ∧ opening.IsValid ∧
        (∀ range ∈ group.breaks, range.IsValid ∧
          opening.span.StrictlyContains (range.spanAfter opening.span.start)) ∧
        ∀ (i j : Nat) (a b : ClockRange), group.breaks[i]? = some a → group.breaks[j]? = some b →
          i ≠ j → ¬(a.spanAfter opening.span.start).Touches (b.spanAfter opening.span.start) := by
  rw [isSound_iff]
  constructor
  · intro h
    refine ⟨h.inhabited, (pairwise_iff_places fun _ _ => WeekdaySet.Disjoint.symm).mp h.disjoint, ?_⟩
    intro group hgroup
    exact DayGroup.hasSoundHours_iff.mp (h.hours group hgroup)
  · intro h
    refine ⟨h.1, (pairwise_iff_places fun _ _ => WeekdaySet.Disjoint.symm).mpr h.2.1, ?_⟩
    intro group hgroup
    exact DayGroup.hasSoundHours_iff.mpr (h.2.2 group hgroup)

end Schedule

end OpeningHours
