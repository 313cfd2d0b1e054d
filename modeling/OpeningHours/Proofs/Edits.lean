import OpeningHours.Schedule.Edit
import OpeningHours.Proofs.Soundness

/-! What an edit does when it is accepted, for each kind of edit, with the checks that it has passed
then. -/

namespace OpeningHours

namespace DayGroup

variable {group next : DayGroup} {index : Nat} {range : ClockRange}

/-- The group with a break put at its place by rising distance from the start of the opening. -/
def insertBreak (group : DayGroup) (opening range : ClockRange) : DayGroup :=
  { group with
    breaks := insertOn (fun b => (b.spanAfter opening.span.start).start) range group.breaks }

theorem addBreak_eq_ok : group.addBreak index range = .ok next ↔
    group.isFullDay = false ∧ ∃ opening, group.opening = some opening ∧ range.IsValid ∧
      opening.span.StrictlyContains (range.spanAfter opening.span.start) ∧
      (∀ b ∈ group.breaks,
        ¬(b.spanAfter opening.span.start).Touches (range.spanAfter opening.span.start)) ∧
      next = group.insertBreak opening range := by
  rw [addBreak]
  cases hday : group.isFullDay with
  | true => simp
  | false =>
    cases hopening : group.opening with
    | none => simp
    | some opening =>
      simp only [fitsBreak_iff hday hopening, ClockRange.spanAfter_minuteOfDay, Bool.false_eq_true,
        if_false, true_and, Option.some.injEq, exists_eq_left']
      by_cases hvalid : range.IsValid
      · by_cases hfits : opening.span.StrictlyContains (range.spanAfter opening.span.start)
        · simp only [hvalid, hfits, not_true, if_false, true_and]
          by_cases htouch : ∃ b ∈ group.breaks,
              (b.spanAfter opening.span.start).Touches (range.spanAfter opening.span.start)
          · obtain ⟨b, hb, hbt⟩ := htouch
            rw [if_pos ⟨b, hb, hbt⟩]
            exact ⟨fun h => (nomatch h), fun h => absurd hbt (h.1 b hb)⟩
          · have hapart : ∀ b ∈ group.breaks,
                ¬(b.spanAfter opening.span.start).Touches (range.spanAfter opening.span.start) :=
              fun b hb hbt => htouch ⟨b, hb, hbt⟩
            rw [if_neg htouch, Except.ok.injEq, and_iff_right hapart, insertBreak, hday, hopening]
            exact eq_comm
        · simp [hvalid, hfits]
      · simp [hvalid]

theorem rebuild_eq_ok : group.rebuild index = .ok next ↔
    group.isFullDay = true ∧ next = fullDay group.days ∨
    group.isFullDay = false ∧ group.opening = none ∧ group.breaks = [] ∧
      next = closed group.days ∨
    group.isFullDay = false ∧ ∃ opening, group.opening = some opening ∧ opening.IsValid ∧
      group.breaks.foldlM (fun group range => group.addBreak index range)
        (timed group.days opening) = .ok next := by
  rw [rebuild]
  cases group.isFullDay with
  | true => simp [eq_comm]
  | false =>
    cases group.opening with
    | none => cases group.breaks <;> simp [eq_comm]
    | some opening => by_cases hvalid : opening.IsValid <;> simp [hvalid]

theorem reopen_eq (group : DayGroup) (range : ClockRange) :
    group.reopen range = { group with
      opening := some range
      isFullDay := false
      breaks := sortOn (fun b => (b.spanAfter range.span.start).start)
        (group.breaks.filter fun b =>
          range.span.StrictlyContains (b.spanAfter range.span.start)) } := by
  simp only [reopen, ClockRange.spanAfter_minuteOfDay]
  rfl

end DayGroup

namespace Schedule

variable {schedule next : Schedule} {group changed : DayGroup} {index : Nat}

theorem getElem?_replace (hgroup : schedule.groups[index]? = some group) :
    (schedule.replace index changed).groups[index]? = some changed := by
  have hlt := (List.getElem?_eq_some_iff.mp hgroup).1
  simp [replace, hlt]

@[simp] theorem replace_replace (schedule : Schedule) (index : Nat) (first second : DayGroup) :
    (schedule.replace index first).replace index second = schedule.replace index second := by
  simp [replace]

theorem replace_self (hgroup : schedule.groups[index]? = some group) :
    schedule.replace index group = schedule := by
  obtain ⟨hlt, rfl⟩ := List.getElem?_eq_some_iff.mp hgroup
  simp [replace]

/-- What an edit of a group does is told by what it does to each group. -/
theorem editGroup_eq_ok {edit : DayGroup → Except EditError Schedule} {p : DayGroup → Prop}
    (h : ∀ group, edit group = .ok next ↔ p group) :
    schedule.editGroup index edit = .ok next ↔
      schedule.IsSound ∧ ∃ group, schedule.groups[index]? = some group ∧ p group := by
  rw [editGroup]
  by_cases hsound : schedule.IsSound
  · cases hgroup : schedule.groups[index]? <;> simp [hsound, h]
  · simp [hsound]

theorem addDay_eq_ok {day : Weekday} : schedule.addDay index day = .ok next ↔
    schedule.IsSound ∧ ∃ group, schedule.groups[index]? = some group ∧
      (schedule.ownerIndex? day = some index ∧ next = schedule ∨
        schedule.ownerIndex? day = none ∧
          next = schedule.replace index { group with days := group.days.insert day }) := by
  apply editGroup_eq_ok
  intro group
  cases schedule.ownerIndex? day with
  | none => simp [eq_comm]
  | some owner =>
    by_cases h : owner = index
    · simp [h, eq_comm]
    · simp [h]

theorem removeDay_eq_ok {day : Weekday} : schedule.removeDay index day = .ok next ↔
    schedule.IsSound ∧ ∃ group, schedule.groups[index]? = some group ∧
      group.days.contains day = true ∧
      ((group.days.erase day).isEmpty = true ∧ next = schedule.without index ∨
        (group.days.erase day).isEmpty = false ∧
          next = schedule.replace index { group with days := group.days.erase day }) := by
  apply editGroup_eq_ok
  intro group
  have hmem : day ∈ group.days ↔ group.days.contains day = true := Iff.rfl
  by_cases hday : group.days.contains day = true
  · cases (group.days.erase day).isEmpty <;> simp [hmem, hday, eq_comm]
  · simp [hmem, hday]

theorem setOpening_eq_ok {range : ClockRange} : schedule.setOpening index range = .ok next ↔
    schedule.IsSound ∧ ∃ group, schedule.groups[index]? = some group ∧
      range.IsValid ∧ next = schedule.replace index (group.reopen range) := by
  apply editGroup_eq_ok
  intro group
  by_cases hvalid : range.IsValid <;> simp [hvalid, eq_comm]

theorem setFullDay_eq_ok {on : Bool} : schedule.setFullDay index on = .ok next ↔
    schedule.IsSound ∧ ∃ group, schedule.groups[index]? = some group ∧
      next = schedule.replace index (group.setFullDay on) := by
  apply editGroup_eq_ok
  intro group
  simp [eq_comm]

theorem addBreak_eq_ok {range : ClockRange} : schedule.addBreak index range = .ok next ↔
    schedule.IsSound ∧ ∃ group, schedule.groups[index]? = some group ∧
      ∃ changed, group.addBreak index range = .ok changed ∧
        next = schedule.replace index changed := by
  apply editGroup_eq_ok
  intro group
  cases group.addBreak index range <;> simp [Except.map, eq_comm]

theorem removeBreak_eq_ok {position : Nat} : schedule.removeBreak index position = .ok next ↔
    schedule.IsSound ∧ ∃ group, schedule.groups[index]? = some group ∧
      position < group.breaks.length ∧
      next = schedule.replace index { group with breaks := group.breaks.eraseIdx position } := by
  apply editGroup_eq_ok
  intro group
  by_cases h : position < group.breaks.length <;> simp [h, eq_comm]

theorem removeGroup_eq_ok : schedule.removeGroup index = .ok next ↔
    schedule.IsSound ∧ ∃ group, schedule.groups[index]? = some group ∧
      next = schedule.without index := by
  apply editGroup_eq_ok
  intro group
  simp [eq_comm]

theorem ownerIndex?_eq_none_iff {day : Weekday} : schedule.ownerIndex? day = none ↔
    ∀ group ∈ schedule.groups, group.days.contains day = false := by
  simp [ownerIndex?, List.findIdx?_eq_none_iff]

theorem firstOwned?_eq_none_iff {days : WeekdaySet} : schedule.firstOwned? days = none ↔
    ∀ group ∈ schedule.groups, group.days.Disjoint days := by
  simp only [firstOwned?, List.findSome?_eq_none_iff, WeekdaySet.mem_toList,
    Option.map_eq_none_iff, ownerIndex?_eq_none_iff, WeekdaySet.Disjoint]
  constructor
  · rintro h group hgroup day ⟨hin, hday⟩
    rw [h day hday group hgroup] at hin
    cases hin
  · intro h day hday group hgroup
    exact Bool.eq_false_iff.mpr fun hin => h group hgroup day ⟨hin, hday⟩

theorem append_eq_ok {value : DayGroup} : schedule.append value = .ok next ↔
    schedule.IsSound ∧ (∃ day, value.days.contains day = true) ∧
      (∀ group ∈ schedule.groups, group.days.Disjoint value.days) ∧
      ∃ built, value.rebuild schedule.groups.length = .ok built ∧ next = schedule.push built := by
  rw [append, ← firstOwned?_eq_none_iff, ← WeekdaySet.isEmpty_eq_false_iff]
  by_cases hsound : schedule.IsSound
  · cases value.days.isEmpty
    · cases schedule.firstOwned? value.days with
      | some owned => simp [hsound]
      | none =>
        cases value.rebuild schedule.groups.length <;> simp [hsound, Except.map, eq_comm]
    · simp [hsound]
  · simp [hsound]

end Schedule

end OpeningHours
