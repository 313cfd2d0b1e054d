import OpeningHours.Proofs.Edits
import OpeningHours.Proofs.Lists

/-! The normal form of schedules. A schedule is normal when it is sound, a group that is open around
the clock stores nothing else, and the breaks of a group come in the order in which they fall. Every
edit that is accepted keeps the form, so that no run of edits leaves it. -/

namespace OpeningHours

open OpeningHours.Span

namespace ClockRange

/-- The minutes from the start of an opening on to the start of a range. -/
def offset (range opening : ClockRange) : Int :=
  (range.start.minuteOfDay - opening.start.minuteOfDay) % minutesPerDay

theorem start_spanAfter (range opening : ClockRange) :
    (range.spanAfter opening.span.start).start = opening.span.start + range.offset opening := by
  simp only [spanAfter, span, ofTimes, offset, minutesPerDay]
  split
  · simp only [start_shift]
    omega
  · simp only
    omega

theorem spanAfter_span_start (range opening : ClockRange) :
    range.spanAfter opening.span.start =
      if range.span.start < opening.span.start then range.span.shift minutesPerDay
      else range.span := by
  have hopening := opening.span_bounds
  rw [spanAfter, Int.emod_eq_of_lt hopening.1 hopening.2.1]

/-- Ranges that lie apart within one opening lie apart on the axis of any other. Both move by whole
days, and an opening takes a day at most, so that no move makes them meet. -/
theorem apart_of_apart {old new a b : ClockRange}
    (ha : old.span.StrictlyContains (a.spanAfter old.span.start))
    (hb : old.span.StrictlyContains (b.spanAfter old.span.start))
    (h : ¬(a.spanAfter old.span.start).Touches (b.spanAfter old.span.start)) :
    ¬(a.spanAfter new.span.start).Touches (b.spanAfter new.span.start) := by
  have hold := old.span_bounds
  have hspan := a.span_bounds
  have hspan' := b.span_bounds
  have shifted (range : ClockRange) (opening : ClockRange) :
      ∃ days : Int, (range.spanAfter opening.span.start).start = range.span.start + 1440 * days ∧
        (range.spanAfter opening.span.start).stop = range.span.stop + 1440 * days := by
    rw [spanAfter_span_start]
    split
    · exact ⟨1, by simp [minutesPerDay], by simp [minutesPerDay]⟩
    · exact ⟨0, by simp, by simp⟩
  obtain ⟨i, hi, hi'⟩ := shifted a old
  obtain ⟨j, hj, hj'⟩ := shifted b old
  obtain ⟨k, hk, hk'⟩ := shifted a new
  obtain ⟨l, hl, hl'⟩ := shifted b new
  simp only [StrictlyContains, Touches, minutesPerDay] at *
  omega

end ClockRange

namespace BreaksFit

variable {opening : ClockRange} {breaks : List ClockRange}

/-- The breaks that fit into another opening fit it together. -/
theorem reopen (h : BreaksFit opening breaks) (range : ClockRange) :
    BreaksFit range (breaks.filter fun b =>
      range.span.StrictlyContains (b.spanAfter range.span.start)) where
  valid b hb := h.valid b (List.mem_filter.mp hb).1
  inside b hb := by simpa using (List.mem_filter.mp hb).2
  apart := by
    have hkept := h.apart.sublist (List.filter_sublist (p := fun b =>
      decide (range.span.StrictlyContains (b.spanAfter range.span.start))))
    apply hkept.imp_of_mem
    intro a b ha hb hab
    exact ClockRange.apart_of_apart (h.inside a (List.mem_filter.mp ha).1)
      (h.inside b (List.mem_filter.mp hb).1) hab

/-- Breaks that fit start at different minutes, so that their order is strict. -/
theorem strict (h : BreaksFit opening breaks)
    (hsorted : SortedOn (fun b => (b.spanAfter opening.span.start).start) breaks) :
    breaks.Pairwise fun a b => a.offset opening < b.offset opening := by
  apply (h.apart.and hsorted).imp
  intro a b hab
  have ha := a.spanAfter_bounds opening.span.start
  have hb := b.spanAfter_bounds opening.span.start
  simp only [Touches, a.start_spanAfter, b.start_spanAfter] at ha hb hab
  omega

end BreaksFit

namespace DayGroup

variable {group next : DayGroup} {opening : ClockRange} {index : Nat} {range : ClockRange}

/-- A group that is open around the clock stores nothing else, and breaks come in the order in which
they fall after the start of the opening. -/
structure IsTidy (group : DayGroup) : Prop where
  bare : group.isFullDay = true → group.opening = none ∧ group.breaks = []
  ordered : ∀ opening, group.opening = some opening →
    group.breaks.Pairwise fun a b => a.offset opening < b.offset opening

/-- A group in normal form that has an opening. -/
structure IsTimed (group : DayGroup) (opening : ClockRange) : Prop where
  day : group.isFullDay = false
  opens : group.opening = some opening
  valid : opening.IsValid
  fit : BreaksFit opening group.breaks
  sorted : SortedOn (fun b => (b.spanAfter opening.span.start).start) group.breaks

theorem IsTidy.withDays (h : group.IsTidy) (days : WeekdaySet) :
    IsTidy { group with days } := ⟨h.bare, h.ordered⟩

theorem IsTimed.hours (h : group.IsTimed opening) : group.HasSoundHours := by
  intro _
  rw [h.opens]
  exact ⟨h.valid, h.fit⟩

theorem IsTimed.isTidy (h : group.IsTimed opening) : group.IsTidy where
  bare hday := by
    rw [h.day] at hday
    cases hday
  ordered other hother := by
    obtain rfl : opening = other := Option.some.inj (h.opens.symm.trans hother)
    exact h.fit.strict h.sorted

/-- A sound and tidy group is bare, or it is timed. -/
theorem isTimed_of_opening (hhours : group.HasSoundHours) (htidy : group.IsTidy)
    (h : group.opening = some opening) : group.IsTimed opening := by
  have hday : group.isFullDay = false := by
    cases hday : group.isFullDay with
    | false => rfl
    | true =>
      rw [(htidy.bare hday).1] at h
      cases h
  have hsound := hhours hday
  rw [h] at hsound
  refine ⟨hday, h, hsound.1, hsound.2, (htidy.ordered opening h).imp ?_⟩
  intro a b hab
  simp only [a.start_spanAfter, b.start_spanAfter]
  omega

theorem IsTimed.insertBreak (h : group.IsTimed opening) (hvalid : range.IsValid)
    (hinside : opening.span.StrictlyContains (range.spanAfter opening.span.start))
    (hapart : ∀ b ∈ group.breaks,
      ¬(b.spanAfter opening.span.start).Touches (range.spanAfter opening.span.start)) :
    (group.insertBreak opening range).IsTimed opening where
  day := h.day
  opens := h.opens
  valid := h.valid
  fit := (h.fit.cons hvalid hinside hapart).perm (insertOn_perm _ _ _)
  sorted := insertOn_sorted h.sorted

theorem IsTimed.addBreak (h : group.IsTimed opening)
    (hadd : group.addBreak index range = .ok next) :
    next.IsTimed opening ∧ next.days = group.days := by
  obtain ⟨-, other, hother, hvalid, hinside, hapart, rfl⟩ := addBreak_eq_ok.mp hadd
  obtain rfl : opening = other := Option.some.inj (h.opens.symm.trans hother)
  exact ⟨h.insertBreak hvalid hinside hapart, rfl⟩

theorem IsTimed.addBreaks {breaks : List ClockRange} (h : group.IsTimed opening)
    (hadd : breaks.foldlM (fun group range => group.addBreak index range) group = .ok next) :
    next.IsTimed opening ∧ next.days = group.days := by
  induction breaks generalizing group with
  | nil =>
    cases hadd
    exact ⟨h, rfl⟩
  | cons range rest ih =>
    obtain ⟨middle, hfirst, hrest⟩ := foldlM_cons_eq_ok_iff.mp hadd
    obtain ⟨hmiddle, hdays⟩ := h.addBreak hfirst
    obtain ⟨hnext, hdays'⟩ := ih hmiddle hrest
    exact ⟨hnext, hdays'.trans hdays⟩

theorem fullDay_hours (days : WeekdaySet) : (fullDay days).HasSoundHours := nofun

theorem fullDay_isTidy (days : WeekdaySet) : (fullDay days).IsTidy := ⟨fun _ => ⟨rfl, rfl⟩, nofun⟩

theorem closed_hours (days : WeekdaySet) : (closed days).HasSoundHours := fun _ => rfl

theorem closed_isTidy (days : WeekdaySet) : (closed days).IsTidy := ⟨nofun, nofun⟩

theorem timed_isTimed (days : WeekdaySet) (h : opening.IsValid) :
    (timed days opening).IsTimed opening :=
  ⟨rfl, rfl, h, ⟨nofun, nofun, .nil⟩, .nil⟩

/-- A group that is built up from its parts is in normal form, whatever the parts. -/
theorem rebuild_normal (h : group.rebuild index = .ok next) :
    next.HasSoundHours ∧ next.IsTidy ∧ next.days = group.days := by
  rcases rebuild_eq_ok.mp h with ⟨-, rfl⟩ | ⟨-, -, -, rfl⟩ | ⟨-, opening, -, hvalid, hbuilt⟩
  · exact ⟨fullDay_hours _, fullDay_isTidy _, rfl⟩
  · exact ⟨closed_hours _, closed_isTidy _, rfl⟩
  · obtain ⟨htimed, hdays⟩ := (timed_isTimed group.days hvalid).addBreaks hbuilt
    exact ⟨htimed.hours, htimed.isTidy, hdays⟩

theorem HasSoundHours.breaks_nil (hhours : group.HasSoundHours) (htidy : group.IsTidy)
    (hopening : group.opening = none) : group.breaks = [] := by
  cases hday : group.isFullDay with
  | true => exact (htidy.bare hday).2
  | false => simpa [hopening] using hhours hday

theorem reopen_isTimed (hhours : group.HasSoundHours) (htidy : group.IsTidy)
    (hvalid : range.IsValid) : (group.reopen range).IsTimed range := by
  rw [reopen_eq]
  refine ⟨rfl, rfl, hvalid, ?_, sortOn_sorted _ _⟩
  refine BreaksFit.perm ?_ (sortOn_perm _ _)
  cases hopening : group.opening with
  | some opening => exact (isTimed_of_opening hhours htidy hopening).fit.reopen range
  | none =>
    simp only [hhours.breaks_nil htidy hopening, List.filter_nil]
    exact ⟨nofun, nofun, .nil⟩

theorem IsTimed.removeBreak (h : group.IsTimed opening) (position : Nat) :
    IsTimed { group with breaks := group.breaks.eraseIdx position } opening :=
  ⟨h.day, h.opens, h.valid, h.fit.sublist (List.eraseIdx_sublist _ _),
    List.Pairwise.sublist (List.eraseIdx_sublist _ _) h.sorted⟩

end DayGroup

namespace Schedule

variable {schedule next : Schedule} {group changed : DayGroup} {index : Nat}

/-- A schedule in normal form. -/
structure IsNormal (schedule : Schedule) : Prop where
  sound : schedule.IsSound
  tidy : ∀ group ∈ schedule.groups, group.IsTidy

namespace IsNormal

theorem replace (h : schedule.IsNormal) (hgroup : schedule.groups[index]? = some group)
    (hsome : ∃ day, changed.days.contains day = true)
    (hdays : ∀ other ∈ schedule.groups,
      group.days.Disjoint other.days → changed.days.Disjoint other.days)
    (hhours : changed.HasSoundHours) (htidy : changed.IsTidy) :
    (schedule.replace index changed).IsNormal where
  sound := isSound_iff.mpr ((isSound_iff.mp h.sound).set hgroup hsome hdays hhours)
  tidy other hother := by
    rcases List.mem_or_eq_of_mem_set hother with hother | rfl
    · exact h.tidy other hother
    · exact htidy

/-- A group can be given other hours. -/
theorem replace_hours (h : schedule.IsNormal) (hgroup : schedule.groups[index]? = some group)
    (hdays : changed.days = group.days) (hhours : changed.HasSoundHours)
    (htidy : changed.IsTidy) : (schedule.replace index changed).IsNormal := by
  refine h.replace hgroup ?_ (fun _ _ hother => hdays ▸ hother) hhours htidy
  rw [hdays]
  exact (isSound_iff.mp h.sound).inhabited group (List.mem_of_getElem? hgroup)

theorem without (h : schedule.IsNormal) (index : Nat) : (schedule.without index).IsNormal where
  sound := isSound_iff.mpr ((isSound_iff.mp h.sound).sublist (List.eraseIdx_sublist _ _))
  tidy other hother := h.tidy other ((List.eraseIdx_sublist _ _).mem hother)

end IsNormal

theorem addDay_isNormal {day : Weekday} (h : schedule.IsNormal)
    (hedit : schedule.addDay index day = .ok next) : next.IsNormal := by
  obtain ⟨-, group, hgroup, ⟨-, rfl⟩ | ⟨hfree, rfl⟩⟩ := addDay_eq_ok.mp hedit
  · exact h
  · have hmem := List.mem_of_getElem? hgroup
    exact h.replace hgroup ⟨day, by simp⟩
      (fun other hother hdays => hdays.insert (ownerIndex?_eq_none_iff.mp hfree other hother))
      ((isSound_iff.mp h.sound).hours group hmem) ((h.tidy group hmem).withDays _)

theorem removeDay_isNormal {day : Weekday} (h : schedule.IsNormal)
    (hedit : schedule.removeDay index day = .ok next) : next.IsNormal := by
  obtain ⟨-, group, hgroup, -, ⟨-, rfl⟩ | ⟨hleft, rfl⟩⟩ := removeDay_eq_ok.mp hedit
  · exact h.without index
  · have hmem := List.mem_of_getElem? hgroup
    exact h.replace hgroup (WeekdaySet.isEmpty_eq_false_iff.mp hleft)
      (fun _ _ hdays => hdays.erase day) ((isSound_iff.mp h.sound).hours group hmem)
      ((h.tidy group hmem).withDays _)

theorem setOpening_isNormal {range : ClockRange} (h : schedule.IsNormal)
    (hedit : schedule.setOpening index range = .ok next) : next.IsNormal := by
  obtain ⟨-, group, hgroup, hvalid, rfl⟩ := setOpening_eq_ok.mp hedit
  have hmem := List.mem_of_getElem? hgroup
  have htimed := DayGroup.reopen_isTimed ((isSound_iff.mp h.sound).hours group hmem)
    (h.tidy group hmem) hvalid
  exact h.replace_hours hgroup rfl htimed.hours htimed.isTidy

theorem setFullDay_isNormal {on : Bool} (h : schedule.IsNormal)
    (hedit : schedule.setFullDay index on = .ok next) : next.IsNormal := by
  obtain ⟨-, group, hgroup, rfl⟩ := setFullDay_eq_ok.mp hedit
  have hmem := List.mem_of_getElem? hgroup
  cases on with
  | true =>
    exact h.replace_hours hgroup rfl (DayGroup.fullDay_hours _) (DayGroup.fullDay_isTidy _)
  | false =>
    have htidy := h.tidy group hmem
    refine h.replace_hours hgroup rfl ?_ ⟨nofun, htidy.ordered⟩
    -- Around the clock nothing was stored, so that the group is closed from now on.
    cases hday : group.isFullDay with
    | true =>
      obtain ⟨hopening, hbreaks⟩ := htidy.bare hday
      intro _
      simp [DayGroup.setFullDay, hopening, hbreaks]
    | false =>
      intro _
      exact (isSound_iff.mp h.sound).hours group hmem hday

theorem addBreak_isNormal {range : ClockRange} (h : schedule.IsNormal)
    (hedit : schedule.addBreak index range = .ok next) : next.IsNormal := by
  obtain ⟨-, group, hgroup, changed, hadd, rfl⟩ := addBreak_eq_ok.mp hedit
  have hmem := List.mem_of_getElem? hgroup
  obtain ⟨-, opening, hopening, -⟩ := DayGroup.addBreak_eq_ok.mp hadd
  have htimed := DayGroup.isTimed_of_opening ((isSound_iff.mp h.sound).hours group hmem)
    (h.tidy group hmem) hopening
  obtain ⟨hchanged, hdays⟩ := htimed.addBreak hadd
  exact h.replace_hours hgroup hdays hchanged.hours hchanged.isTidy

theorem removeBreak_isNormal {position : Nat} (h : schedule.IsNormal)
    (hedit : schedule.removeBreak index position = .ok next) : next.IsNormal := by
  obtain ⟨-, group, hgroup, hposition, rfl⟩ := removeBreak_eq_ok.mp hedit
  have hmem := List.mem_of_getElem? hgroup
  have hhours := (isSound_iff.mp h.sound).hours group hmem
  have htidy := h.tidy group hmem
  rcases Option.eq_none_or_eq_some group.opening with hnone | ⟨opening, hopening⟩
  · rw [hhours.breaks_nil htidy hnone] at hposition
    cases hposition
  · have htimed := (DayGroup.isTimed_of_opening hhours htidy hopening).removeBreak position
    exact h.replace_hours hgroup rfl htimed.hours htimed.isTidy

theorem append_isNormal {value : DayGroup} (h : schedule.IsNormal)
    (hedit : schedule.append value = .ok next) : next.IsNormal := by
  obtain ⟨-, hsome, hfree, built, hbuilt, rfl⟩ := append_eq_ok.mp hedit
  obtain ⟨hhours, htidy, hdays⟩ := DayGroup.rebuild_normal hbuilt
  rw [← hdays] at hsome hfree
  refine ⟨isSound_iff.mpr ((isSound_iff.mp h.sound).append_singleton hsome hfree hhours), ?_⟩
  intro other hother
  rcases List.mem_append.mp hother with hother | hother
  · exact h.tidy other hother
  · obtain rfl := List.mem_singleton.mp hother
    exact htidy

theorem removeGroup_isNormal (h : schedule.IsNormal)
    (hedit : schedule.removeGroup index = .ok next) : next.IsNormal := by
  obtain ⟨-, group, -, rfl⟩ := removeGroup_eq_ok.mp hedit
  exact h.without index

theorem edit_isNormal {edit : Edit} (h : schedule.IsNormal)
    (hedit : schedule.edit edit = .ok next) : next.IsNormal := by
  cases edit with
  | addDay group day => exact addDay_isNormal h hedit
  | removeDay group day => exact removeDay_isNormal h hedit
  | setOpening group range => exact setOpening_isNormal h hedit
  | setFullDay group on => exact setFullDay_isNormal h hedit
  | addBreak group range => exact addBreak_isNormal h hedit
  | removeBreak group position => exact removeBreak_isNormal h hedit
  | append value => exact append_isNormal h hedit
  | removeGroup group => exact removeGroup_isNormal h hedit

theorem step_isNormal (h : schedule.IsNormal) (edit : Edit) : (schedule.step edit).IsNormal := by
  rw [step]
  split
  · rename_i hedit
    exact edit_isNormal h hedit
  · exact h

theorem empty_isNormal : ({} : Schedule).IsNormal := ⟨rfl, by simp⟩

theorem office_isNormal : office.IsNormal := by
  refine ⟨by decide, ?_⟩
  intro group hgroup
  obtain rfl := List.mem_singleton.mp hgroup
  exact (DayGroup.timed_isTimed _ (by decide)).isTidy

/-- The schedules to start from are normal, and no run of edits leaves the normal form. -/
theorem run_isNormal : ({} : Schedule).IsNormal ∧ office.IsNormal ∧
    ∀ schedule : Schedule, schedule.IsNormal →
      ∀ edits : List Edit, (schedule.run edits).IsNormal := by
  refine ⟨empty_isNormal, office_isNormal, ?_⟩
  intro schedule h edits
  induction edits generalizing schedule with
  | nil => exact h
  | cons edit rest ih => exact ih _ (step_isNormal h edit)

/-- Breaks that come in the wrong order are put in order again when the opening moves past them. -/
theorem run_isNormal_office :
    let edits := [
      .setOpening 0 ⟨⟨20, 0, true⟩, ⟨8, 0, true⟩⟩,
      .addBreak 0 ⟨⟨1, 0, true⟩, ⟨2, 0, true⟩⟩,
      .addBreak 0 ⟨⟨22, 0, true⟩, ⟨23, 0, true⟩⟩,
      .setFullDay 1 true,
      .setOpening 0 ⟨⟨0, 30, true⟩, ⟨23, 30, true⟩⟩]
    (office.run edits).groups.map DayGroup.breaks =
        [[⟨⟨1, 0, true⟩, ⟨2, 0, true⟩⟩, ⟨⟨22, 0, true⟩, ⟨23, 0, true⟩⟩]] ∧
      (office.run edits).IsNormal :=
  ⟨by decide, run_isNormal.2.2 office run_isNormal.2.1 _⟩

end Schedule

end OpeningHours
