import OpeningHours.Proofs.DormantHours
import OpeningHours.Proofs.EquivalentSchedules

/-! The checks of an edit against the faults of a schedule. An edit tests a new break against the
others one at a time, and a new day against the owner of each day, while the faults of a schedule
come from neighbours in the order of their starts and from a running set of days. Both let the same
groups and breaks in, in any order, and both leave the same minutes open. -/

namespace OpeningHours

open OpeningHours.Span

theorem BreaksFit.of_cons {opening range : ClockRange} {breaks : List ClockRange}
    (h : BreaksFit opening (range :: breaks)) :
    range.IsValid ∧ opening.span.StrictlyContains (range.spanAfter opening.span.start) ∧
      ∀ b ∈ breaks,
        ¬(b.spanAfter opening.span.start).Touches (range.spanAfter opening.span.start) :=
  ⟨h.valid range (by simp), h.inside range (by simp), fun b hb =>
    mt Touches.symm ((List.pairwise_cons.mp h.apart).1 b hb)⟩

namespace DayGroup

variable {group next : DayGroup} {opening range : ClockRange} {breaks : List ClockRange}
  {index : Nat}

/-! ### One more break -/

/-- A break is accepted if it fits together with the breaks that are there. -/
theorem exists_addBreak_iff (hday : group.isFullDay = false)
    (hopening : group.opening = some opening) (hfit : BreaksFit opening group.breaks) :
    (∃ next, group.addBreak index range = .ok next) ↔
      BreaksFit opening (range :: group.breaks) := by
  constructor
  · rintro ⟨next, hnext⟩
    obtain ⟨-, other, hother, hvalid, hinside, hapart, -⟩ := addBreak_eq_ok.mp hnext
    obtain rfl : opening = other := Option.some.inj (hopening.symm.trans hother)
    exact hfit.cons hvalid hinside hapart
  · intro h
    obtain ⟨hvalid, hinside, hapart⟩ := h.of_cons
    exact ⟨_, addBreak_eq_ok.mpr ⟨hday, opening, hopening, hvalid, hinside, hapart, rfl⟩⟩

theorem addBreak_perm (h : group.addBreak index range = .ok next) :
    next.breaks.Perm (range :: group.breaks) := by
  obtain ⟨-, opening, -, -, -, -, rfl⟩ := addBreak_eq_ok.mp h
  exact insertOn_perm _ _ _

theorem withBreak_perm (group : DayGroup) (range : ClockRange) :
    (range :: group.breaks).Perm (group.withBreak range).breaks :=
  (List.perm_append_singleton range group.breaks).symm

/-- The check of a new break is that of the hours with the break. -/
theorem exists_addBreak_iff_hours (hhours : group.HasSoundHours) (hday : group.isFullDay = false) :
    (∃ next, group.addBreak index range = .ok next) ↔ (group.withBreak range).HasSoundHours := by
  have hsound := hhours hday
  cases hopening : group.opening with
  | none =>
    refine iff_of_false ?_ fun h => ?_
    · rintro ⟨next, hnext⟩
      obtain ⟨-, opening, hsome, -⟩ := addBreak_eq_ok.mp hnext
      rw [hopening] at hsome
      cases hsome
    · have hnone : (group.withBreak range).breaks = [] := by
        simpa only [withBreak, hopening] using h hday
      simp [withBreak] at hnone
  | some opening =>
    rw [hopening] at hsound
    rw [exists_addBreak_iff hday hopening hsound.2]
    constructor
    · intro hfit _
      simp only [withBreak, hopening]
      exact ⟨hsound.1, hfit.perm (group.withBreak_perm range).symm⟩
    · intro h
      have hwith := h hday
      simp only [withBreak, hopening] at hwith
      exact hwith.2.perm (group.withBreak_perm range)

theorem addBreak_openSpans (h : group.addBreak index range = .ok next) :
    next.openSpans = (group.withBreak range).openSpans := by
  have hperm := (addBreak_perm h).trans (group.withBreak_perm range)
  obtain ⟨hday, opening, hopening, -, -, -, rfl⟩ := addBreak_eq_ok.mp h
  exact openSpans_eq_of_perm hday hopening hday hopening hperm

/-! ### A whole group -/

theorem addBreaks_perm (h : breaks.foldlM (fun group range => group.addBreak index range) group =
    .ok next) : next.breaks.Perm (breaks ++ group.breaks) := by
  induction breaks generalizing group with
  | nil =>
    cases h
    exact .refl _
  | cons range rest ih =>
    obtain ⟨middle, hfirst, hrest⟩ := foldlM_cons_eq_ok_iff.mp h
    exact (ih hrest).trans (((addBreak_perm hfirst).append_left rest).trans List.perm_middle)

/-- Breaks that come one at a time are accepted if they fit all together. -/
theorem IsTimed.exists_addBreaks_iff (h : group.IsTimed opening) :
    (∃ next, breaks.foldlM (fun group range => group.addBreak index range) group = .ok next) ↔
      BreaksFit opening (breaks ++ group.breaks) := by
  induction breaks generalizing group with
  | nil => exact iff_of_true ⟨group, rfl⟩ h.fit
  | cons range rest ih =>
    -- The group sorts each break in as it comes, so that the sides agree up to order only.
    have hperm : (rest ++ range :: group.breaks).Perm (range :: rest ++ group.breaks) :=
      List.perm_middle
    constructor
    · rintro ⟨next, hnext⟩
      obtain ⟨middle, hfirst, hrest⟩ := foldlM_cons_eq_ok_iff.mp hnext
      have hfit := (ih (h.addBreak hfirst).1).mp ⟨next, hrest⟩
      exact hfit.perm (((addBreak_perm hfirst).append_left rest).trans hperm).symm
    · intro hfit
      have hone : BreaksFit opening (range :: group.breaks) :=
        (hfit.perm hperm).sublist (List.sublist_append_right _ _)
      obtain ⟨middle, hfirst⟩ := (exists_addBreak_iff h.day h.opens h.fit).mpr hone
      have hmore := hfit.perm (((addBreak_perm hfirst).append_left rest).trans hperm)
      obtain ⟨next, hrest⟩ := (ih (h.addBreak hfirst).1).mpr hmore
      exact ⟨next, foldlM_cons_eq_ok_iff.mpr ⟨middle, hfirst, hrest⟩⟩

/-- A group is built up from its parts if its hours are sound. -/
theorem exists_rebuild_iff (group : DayGroup) (index : Nat) :
    (∃ next, group.rebuild index = .ok next) ↔ group.HasSoundHours := by
  have hbare (opening : ClockRange) :
      group.breaks ++ (timed group.days opening).breaks = group.breaks := List.append_nil _
  constructor
  · rintro ⟨next, hnext⟩ hday
    rcases rebuild_eq_ok.mp hnext with ⟨hfull, -⟩ | ⟨-, hopening, hbreaks, -⟩ |
      ⟨-, opening, hopening, hvalid, hbuilt⟩
    · rw [hday] at hfull
      cases hfull
    · rw [hopening]
      exact hbreaks
    · rw [hopening]
      have hfit := (timed_isTimed group.days hvalid).exists_addBreaks_iff.mp ⟨next, hbuilt⟩
      rw [hbare] at hfit
      exact ⟨hvalid, hfit⟩
  · intro h
    rcases group.forms with hday | ⟨hday, hopening⟩ | ⟨hday, opening, hopening⟩
    · exact ⟨_, rebuild_eq_ok.mpr (.inl ⟨hday, rfl⟩)⟩
    · have hbreaks := h hday
      rw [hopening] at hbreaks
      exact ⟨_, rebuild_eq_ok.mpr (.inr (.inl ⟨hday, hopening, hbreaks, rfl⟩))⟩
    · have hsound := h hday
      rw [hopening] at hsound
      have hfit : BreaksFit opening (group.breaks ++ (timed group.days opening).breaks) := by
        rw [hbare]
        exact hsound.2
      obtain ⟨next, hbuilt⟩ := (timed_isTimed group.days hsound.1).exists_addBreaks_iff.mpr hfit
      exact ⟨next, rebuild_eq_ok.mpr (.inr (.inr ⟨hday, opening, hopening, hsound.1, hbuilt⟩))⟩

theorem rebuild_openSpans (h : group.rebuild index = .ok next) :
    next.openSpans = group.openSpans := by
  rcases rebuild_eq_ok.mp h with ⟨hday, rfl⟩ | ⟨hday, hopening, -, rfl⟩ |
    ⟨hday, opening, hopening, hvalid, hbuilt⟩
  · rw [openSpans_fullDay hday, openSpans_fullDay rfl]
  · rw [openSpans_closed hday hopening, openSpans_closed rfl rfl]
  · have htimed := ((timed_isTimed group.days hvalid).addBreaks hbuilt).1
    have hperm : next.breaks.Perm group.breaks := by
      simpa only [timed, List.append_nil] using addBreaks_perm hbuilt
    exact openSpans_eq_of_perm htimed.day htimed.opens hday hopening hperm

end DayGroup

namespace Schedule

variable {schedule next : Schedule} {group changed : DayGroup} {index : Nat}

theorem isSound_push_iff (h : schedule.IsSound) : (schedule.push group).IsSound ↔
    (∃ day, group.days.contains day = true) ∧
      (∀ other ∈ schedule.groups, other.days.Disjoint group.days) ∧ group.HasSoundHours := by
  rw [isSound_iff]
  constructor
  · intro hpush
    have hmem : group ∈ schedule.groups ++ [group] := by simp
    refine ⟨hpush.inhabited group hmem, fun other hother => ?_, hpush.hours group hmem⟩
    exact (List.pairwise_append.mp hpush.disjoint).2.2 other hother group (by simp)
  · rintro ⟨hday, hfree, hhours⟩
    exact (isSound_iff.mp h).append_singleton hday hfree hhours

/-- An edit accepts what gives a schedule without a fault when it is put in with no check, and both
schedules are open for the same minutes. -/
def ChecksAs (edited : Except EditError Schedule) (unchecked : Schedule) : Prop :=
  ((∃ next, edited = .ok next) ↔ unchecked.IsSound) ∧
    ∀ next, edited = .ok next → next.Equivalent unchecked

theorem append_checksAs (h : schedule.IsSound) (group : DayGroup) :
    ChecksAs (schedule.append group) (schedule.push group) := by
  constructor
  · rw [isSound_push_iff h, ← group.exists_rebuild_iff schedule.groups.length]
    constructor
    · rintro ⟨next, hnext⟩
      obtain ⟨-, hday, hfree, built, hbuilt, -⟩ := append_eq_ok.mp hnext
      exact ⟨hday, hfree, built, hbuilt⟩
    · rintro ⟨hday, hfree, built, hbuilt⟩
      exact ⟨_, append_eq_ok.mpr ⟨h, hday, hfree, built, hbuilt, rfl⟩⟩
  · intro next hnext
    obtain ⟨-, -, -, built, hbuilt, rfl⟩ := append_eq_ok.mp hnext
    have hdays := (DayGroup.rebuild_normal hbuilt).2.2
    exact schedule.push_equivalent ⟨hdays, DayGroup.rebuild_openSpans hbuilt⟩

theorem addBreak_checksAs (h : schedule.IsSound) (hgroup : schedule.groups[index]? = some group)
    (hday : group.isFullDay = false) (range : ClockRange) :
    ChecksAs (schedule.addBreak index range)
      (schedule.replace index (group.withBreak range)) := by
  have hhours := (isSound_iff.mp h).hours group (List.mem_of_getElem? hgroup)
  have hdays : (group.withBreak range).days = group.days := rfl
  constructor
  · rw [isSound_replace_iff h hgroup hdays, ← DayGroup.exists_addBreak_iff_hours hhours hday]
    constructor
    · rintro ⟨next, hnext⟩
      obtain ⟨-, other, hother, changed, hadd, -⟩ := addBreak_eq_ok.mp hnext
      obtain rfl : group = other := Option.some.inj (hgroup.symm.trans hother)
      exact ⟨changed, hadd⟩
    · rintro ⟨changed, hadd⟩
      exact ⟨_, addBreak_eq_ok.mpr ⟨h, group, hgroup, changed, hadd, rfl⟩⟩
  · intro next hnext
    obtain ⟨-, other, hother, changed, hadd, rfl⟩ := addBreak_eq_ok.mp hnext
    obtain rfl : group = other := Option.some.inj (hgroup.symm.trans hother)
    have hdays := (DayGroup.addBreak_hours hhours hadd).2
    exact schedule.replace_equivalent index ⟨hdays, DayGroup.addBreak_openSpans hadd⟩

/-- Whatever the group, and whatever the break for a group that is not open around the clock: the
edit of a sound schedule accepts what the list of faults accepts. -/
theorem edits_checkAs_faults (h : schedule.IsSound) :
    (∀ group, ChecksAs (schedule.append group) (schedule.push group)) ∧
      ∀ index group, schedule.groups[index]? = some group → group.isFullDay = false →
        ∀ range, ChecksAs (schedule.addBreak index range)
          (schedule.replace index (group.withBreak range)) :=
  ⟨append_checksAs h, fun _ _ hgroup hday => addBreak_checksAs h hgroup hday⟩

/-- The nights take one more break after midnight, and the check of the faults takes it too. -/
theorem edits_checkAs_faults_nights :
    nights.IsSound ∧ ∃ group, nights.groups[0]? = some group ∧ group.isFullDay = false ∧
      ChecksAs (nights.append (.fullDay (.ofList [.monday])))
        (nights.push (.fullDay (.ofList [.monday]))) ∧
      ChecksAs (nights.addBreak 0 ⟨⟨3, 0, true⟩, ⟨4, 0, true⟩⟩)
        (nights.replace 0 (group.withBreak ⟨⟨3, 0, true⟩, ⟨4, 0, true⟩⟩)) := by
  have hsound : nights.IsSound := by decide
  have hgroup : nights.groups[0]? = some _ := rfl
  obtain ⟨happend, hbreak⟩ := edits_checkAs_faults hsound
  exact ⟨hsound, _, hgroup, rfl, happend _, hbreak 0 _ hgroup rfl _⟩

end Schedule

end OpeningHours
