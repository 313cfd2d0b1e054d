import OpeningHours.Proofs.NormalForm

/-! Edits of sound schedules in any form. A group that is open around the clock can store an opening
and breaks, which nothing checks as long as they do not count. An accepted edit keeps a schedule
sound unless it makes such hours count again and they have a fault. -/

namespace OpeningHours

namespace DayGroup

variable {group : DayGroup} {index : Nat} {range : ClockRange}

/-- The group with the hours that it stores, whether or not they counted. -/
def awake (group : DayGroup) : DayGroup := { group with isFullDay := false }

/-- The breaks of the group that fit strictly inside another opening. -/
def keptBreaks (group : DayGroup) (range : ClockRange) : List ClockRange :=
  group.breaks.filter fun b => range.span.StrictlyContains (b.spanAfter range.span.start)

theorem awake_of_not_fullDay (h : group.isFullDay = false) : group.awake = group := by
  rw [awake, ← h]

theorem setFullDay_true_hours (group : DayGroup) : (group.setFullDay true).HasSoundHours :=
  fullDay_hours group.days

theorem reopen_hours_iff (hvalid : range.IsValid) :
    (group.reopen range).HasSoundHours ↔ BreaksFit range (group.keptBreaks range) := by
  have hperm : (group.reopen range).breaks.Perm (group.keptBreaks range) := by
    rw [reopen_eq]
    exact sortOn_perm _ _
  constructor
  · intro h
    exact (h rfl).2.perm hperm.symm
  · intro h _
    exact ⟨hvalid, h.perm hperm⟩

/-- The breaks that counted before fit any other opening that has room for them. -/
theorem keptBreaks_fit (hhours : group.HasSoundHours) (hday : group.isFullDay = false)
    (range : ClockRange) : BreaksFit range (group.keptBreaks range) := by
  have hsound := hhours hday
  cases hopening : group.opening with
  | none =>
    rw [hopening] at hsound
    rw [keptBreaks, hsound]
    exact ⟨by simp, by simp, .nil⟩
  | some opening =>
    rw [hopening] at hsound
    exact hsound.2.reopen range

theorem addBreak_hours (hhours : group.HasSoundHours) {next : DayGroup}
    (hadd : group.addBreak index range = .ok next) :
    next.HasSoundHours ∧ next.days = group.days := by
  obtain ⟨hday, opening, hopening, hvalid, hinside, hapart, rfl⟩ := addBreak_eq_ok.mp hadd
  have hsound := hhours hday
  rw [hopening] at hsound
  refine ⟨fun _ => ?_, rfl⟩
  simp only [insertBreak, hopening]
  exact ⟨hsound.1, (hsound.2.cons hvalid hinside hapart).perm (insertOn_perm _ _ _)⟩

theorem removeBreak_hours (hhours : group.HasSoundHours) (position : Nat) :
    HasSoundHours { group with breaks := group.breaks.eraseIdx position } := by
  intro hday
  have hsound := hhours hday
  cases hopening : group.opening with
  | none =>
    rw [hopening] at hsound
    simp [hsound]
  | some opening =>
    rw [hopening] at hsound
    exact ⟨hsound.1, hsound.2.sublist (List.eraseIdx_sublist _ _)⟩

end DayGroup

namespace Schedule

variable {schedule next : Schedule} {group changed : DayGroup} {index : Nat} {day : Weekday}
  {range : ClockRange}

/-- The edit makes hours count that did not count before, and they have a fault. -/
def WakesFault (schedule : Schedule) : Edit → Prop
  | .setFullDay index on => on = false ∧ ∃ group, schedule.groups[index]? = some group ∧
      group.isFullDay = true ∧ ¬group.awake.HasSoundHours
  | .setOpening index range => ∃ group, schedule.groups[index]? = some group ∧
      group.isFullDay = true ∧ ¬BreaksFit range (group.keptBreaks range)
  | _ => False

/-- Other hours for a group leave a sound schedule sound if they are sound. -/
theorem isSound_replace_iff (h : schedule.IsSound) (hgroup : schedule.groups[index]? = some group)
    (hdays : changed.days = group.days) :
    (schedule.replace index changed).IsSound ↔ changed.HasSoundHours := by
  have hformed := isSound_iff.mp h
  rw [isSound_iff]
  constructor
  · intro hnext
    obtain ⟨hindex, -⟩ := List.getElem?_eq_some_iff.mp hgroup
    exact hnext.hours changed (List.mem_set hindex changed)
  · refine hformed.set hgroup ?_ fun _ _ hother => hdays ▸ hother
    rw [hdays]
    exact hformed.inhabited group (List.mem_of_getElem? hgroup)

theorem without_isSound (h : schedule.IsSound) (index : Nat) : (schedule.without index).IsSound :=
  isSound_iff.mpr ((isSound_iff.mp h).sublist (List.eraseIdx_sublist _ _))

theorem addDay_isSound (hedit : schedule.addDay index day = .ok next) : next.IsSound := by
  obtain ⟨hsound, group, hgroup, ⟨-, rfl⟩ | ⟨hfree, rfl⟩⟩ := addDay_eq_ok.mp hedit
  · exact hsound
  · have hformed := isSound_iff.mp hsound
    exact isSound_iff.mpr (hformed.set hgroup ⟨day, by simp⟩
      (fun other hother hdays => hdays.insert (ownerIndex?_eq_none_iff.mp hfree other hother))
      (hformed.hours group (List.mem_of_getElem? hgroup)))

theorem removeDay_isSound (hedit : schedule.removeDay index day = .ok next) : next.IsSound := by
  obtain ⟨hsound, group, hgroup, -, ⟨-, rfl⟩ | ⟨hleft, rfl⟩⟩ := removeDay_eq_ok.mp hedit
  · exact without_isSound hsound index
  · have hformed := isSound_iff.mp hsound
    exact isSound_iff.mpr (hformed.set hgroup (WeekdaySet.isEmpty_eq_false_iff.mp hleft)
      (fun _ _ hdays => hdays.erase day) (hformed.hours group (List.mem_of_getElem? hgroup)))

theorem append_isSound {value : DayGroup} (hedit : schedule.append value = .ok next) :
    next.IsSound := by
  obtain ⟨hsound, hsome, hfree, built, hbuilt, rfl⟩ := append_eq_ok.mp hedit
  obtain ⟨hhours, -, hdays⟩ := DayGroup.rebuild_normal hbuilt
  rw [← hdays] at hsome hfree
  exact isSound_iff.mpr ((isSound_iff.mp hsound).append_singleton hsome hfree hhours)

/-- Only hours that did not count before can have a fault. -/
theorem fits_iff_not_woken (fits : DayGroup → Prop) (hgroup : schedule.groups[index]? = some group)
    (h : group.isFullDay = false → fits group) :
    fits group ↔ ¬∃ group, schedule.groups[index]? = some group ∧
      group.isFullDay = true ∧ ¬fits group := by
  simp only [hgroup, Option.some.injEq, exists_eq_left', not_and, Classical.not_not]
  refine ⟨fun hfits _ => hfits, fun hfits => ?_⟩
  cases hday : group.isFullDay with
  | true => exact hfits hday
  | false => exact h hday

theorem setOpening_isSound_iff (hedit : schedule.setOpening index range = .ok next) :
    next.IsSound ↔ ¬schedule.WakesFault (.setOpening index range) := by
  obtain ⟨hsound, group, hgroup, hvalid, rfl⟩ := setOpening_eq_ok.mp hedit
  have hhours := (isSound_iff.mp hsound).hours group (List.mem_of_getElem? hgroup)
  have hnext : (schedule.replace index (group.reopen range)).IsSound ↔
      (group.reopen range).HasSoundHours := isSound_replace_iff hsound hgroup rfl
  have hfits (hday : group.isFullDay = false) : BreaksFit range (group.keptBreaks range) :=
    DayGroup.keptBreaks_fit hhours hday range
  rw [hnext, DayGroup.reopen_hours_iff hvalid]
  exact fits_iff_not_woken (fun group => BreaksFit range (group.keptBreaks range)) hgroup hfits

theorem setFullDay_isSound_iff {on : Bool} (hedit : schedule.setFullDay index on = .ok next) :
    next.IsSound ↔ ¬schedule.WakesFault (.setFullDay index on) := by
  obtain ⟨hsound, group, hgroup, rfl⟩ := setFullDay_eq_ok.mp hedit
  have hhours := (isSound_iff.mp hsound).hours group (List.mem_of_getElem? hgroup)
  have hnext : (schedule.replace index (group.setFullDay on)).IsSound ↔
      (group.setFullDay on).HasSoundHours :=
    isSound_replace_iff hsound hgroup (by cases on <;> rfl)
  cases on with
  | true => simp [hnext, WakesFault, DayGroup.setFullDay_true_hours]
  | false =>
    have hawake : group.setFullDay false = group.awake := rfl
    rw [hnext, hawake]
    simp only [WakesFault, true_and]
    refine fits_iff_not_woken (fun group => group.awake.HasSoundHours) hgroup ?_
    exact fun hday => (DayGroup.awake_of_not_fullDay hday).symm ▸ hhours

theorem addBreak_isSound (hedit : schedule.addBreak index range = .ok next) : next.IsSound := by
  obtain ⟨hsound, group, hgroup, changed, hadd, rfl⟩ := addBreak_eq_ok.mp hedit
  have hhours := (isSound_iff.mp hsound).hours group (List.mem_of_getElem? hgroup)
  obtain ⟨hchanged, hdays⟩ := DayGroup.addBreak_hours hhours hadd
  exact (isSound_replace_iff hsound hgroup hdays).mpr hchanged

theorem removeBreak_isSound {position : Nat}
    (hedit : schedule.removeBreak index position = .ok next) : next.IsSound := by
  obtain ⟨hsound, group, hgroup, -, rfl⟩ := removeBreak_eq_ok.mp hedit
  have hhours := (isSound_iff.mp hsound).hours group (List.mem_of_getElem? hgroup)
  have hchanged := DayGroup.removeBreak_hours hhours position
  refine (isSound_replace_iff hsound hgroup ?_).mpr hchanged
  rfl

theorem removeGroup_isSound (hedit : schedule.removeGroup index = .ok next) : next.IsSound := by
  obtain ⟨hsound, group, -, rfl⟩ := removeGroup_eq_ok.mp hedit
  exact without_isSound hsound index

/-- An accepted edit keeps a schedule sound unless it wakes hours that have a fault. -/
theorem edit_isSound_iff {edit : Edit} (hedit : schedule.edit edit = .ok next) :
    next.IsSound ↔ ¬schedule.WakesFault edit := by
  have hother (h : next.IsSound) : next.IsSound ↔ ¬False := iff_of_true h not_false
  cases edit with
  | addDay group day => exact hother (addDay_isSound hedit)
  | removeDay group day => exact hother (removeDay_isSound hedit)
  | setOpening group range => exact setOpening_isSound_iff hedit
  | setFullDay group on => exact setFullDay_isSound_iff hedit
  | addBreak group range => exact hother (addBreak_isSound hedit)
  | removeBreak group position => exact hother (removeBreak_isSound hedit)
  | append value => exact hother (append_isSound hedit)
  | removeGroup group => exact hother (removeGroup_isSound hedit)

/-- A Sunday around the clock that stores two breaks with a minute in common. -/
def sleeper : Schedule where
  groups := [{
    days := .ofList [.sunday]
    breaks := [⟨⟨9, 0, true⟩, ⟨11, 0, true⟩⟩, ⟨⟨10, 0, true⟩, ⟨12, 0, true⟩⟩]
    isFullDay := true }]

/-- An opening that has room for one of the breaks only keeps that one. -/
theorem edit_isSound_iff_sleeper :
    sleeper.IsSound ∧
      ∃ next, sleeper.edit (.setOpening 0 ⟨⟨8, 0, true⟩, ⟨12, 0, true⟩⟩) = .ok next ∧
        next.IsSound ∧ ¬sleeper.WakesFault (.setOpening 0 ⟨⟨8, 0, true⟩, ⟨12, 0, true⟩⟩) := by
  have hedit : sleeper.edit (.setOpening 0 ⟨⟨8, 0, true⟩, ⟨12, 0, true⟩⟩) = .ok _ := rfl
  exact ⟨by decide, _, hedit, by decide, (edit_isSound_iff hedit).mp (by decide)⟩

/-- Once the group is no more open around the clock, its breaks have nothing to break, and an
opening with room for both of them keeps both. -/
theorem exists_edit_not_isSound :
    sleeper.IsSound ∧
      (∃ next, sleeper.edit (.setFullDay 0 false) = .ok next ∧ ¬next.IsSound) ∧
      ∃ next, sleeper.edit (.setOpening 0 ⟨⟨8, 0, true⟩, ⟨18, 0, true⟩⟩) = .ok next ∧
        ¬next.IsSound :=
  ⟨by decide, ⟨_, rfl, by decide⟩, _, rfl, by decide⟩

end Schedule

end OpeningHours
