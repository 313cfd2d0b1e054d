import OpeningHours.Proofs.EditChecks

/-! What an edit leaves alone. An accepted edit changes the group at one place, adds a group at the
end or takes one out, and the groups before and after that place stay as they are. A day that the
edit is not for has a group if it had one before, with the same hours. -/

namespace OpeningHours

open OpeningHours.Span

theorem WeekdaySet.ne_of_not_mem_ofList {day other : Weekday}
    (h : other ∉ WeekdaySet.ofList [day]) : other ≠ day := by
  rintro rfl
  exact h (by simp [mem_iff_contains])

namespace Schedule

variable {schedule next : Schedule} {group changed built : DayGroup} {days : WeekdaySet}
  {index : Nat} {day : Weekday} {edit : Edit}

/-- The days of the group at a position. -/
def daysAt (schedule : Schedule) (index : Nat) : WeekdaySet :=
  schedule.groups[index]?.elim ∅ DayGroup.days

/-- The position of the group that an edit is for. A group that is appended comes after all
others. -/
def target (schedule : Schedule) : Edit → Nat
  | .addDay index _ | .removeDay index _ | .setOpening index _ | .setFullDay index _
  | .addBreak index _ | .removeBreak index _ | .removeGroup index => index
  | .append _ => schedule.groups.length

/-- The days that an edit is for: the day that a group is given or loses, or else all days of the
group. -/
def scope (schedule : Schedule) : Edit → WeekdaySet
  | .addDay _ day | .removeDay _ day => .ofList [day]
  | .setOpening index _ | .setFullDay index _ | .addBreak index _ | .removeBreak index _
  | .removeGroup index => schedule.daysAt index
  | .append value => value.days

/-- The schedule with a group, or without one, in the place of what stands at a position. -/
def put (schedule : Schedule) (index : Nat) (group : Option DayGroup) : Schedule :=
  ⟨schedule.groups.take index ++ group.toList ++ schedule.groups.drop (index + 1)⟩

/-- What a group, if there is one, says of a day: nothing unless it has the day. -/
def hoursOn (group : Option DayGroup) (day : Weekday) : Option (List Span) :=
  (group.filter (·.days.contains day)).map DayGroup.openSpans

/-- What a schedule says of a day: nothing unless some group has the day. -/
def hours? (schedule : Schedule) (day : Weekday) : Option (List Span) :=
  (schedule.owner? day).map DayGroup.openSpans

/-! ### One place of a schedule -/

theorem put_self (schedule : Schedule) (index : Nat) :
    schedule.put index schedule.groups[index]? = schedule := by
  simp only [put, List.append_assoc, ← List.drop_eq_getElem?_toList_append,
    List.take_append_drop]

theorem replace_eq_put (hgroup : schedule.groups[index]? = some group) :
    schedule.replace index changed = schedule.put index (some changed) := by
  have hlt := (List.getElem?_eq_some_iff.mp hgroup).1
  simp [replace, put, List.set_eq_take_append_cons_drop, hlt]

theorem without_eq_put : schedule.without index = schedule.put index none := by
  simp [without, put, List.eraseIdx_eq_take_drop_succ]

theorem push_eq_put : schedule.push built = schedule.put schedule.groups.length (some built) := by
  simp [push, put]

theorem hours?_put (group : Option DayGroup) : (schedule.put index group).hours? day =
    (((schedule.groups.take index).find? (·.days.contains day)).map DayGroup.openSpans).or
      ((hoursOn group day).or
        (((schedule.groups.drop (index + 1)).find? (·.days.contains day)).map
          DayGroup.openSpans)) := by
  have hmiddle : group.toList.find? (·.days.contains day) =
      group.filter (·.days.contains day) := by
    cases group <;> simp [Option.filter]
  simp only [hours?, owner?, put, List.find?_append, Option.map_or, hmiddle, hoursOn,
    Option.or_assoc]

/-- What stands at one place counts for a day only by what it says of the day. -/
theorem hours?_put_eq {group : Option DayGroup}
    (h : hoursOn group day = hoursOn schedule.groups[index]? day) :
    (schedule.put index group).hours? day = schedule.hours? day := by
  calc (schedule.put index group).hours? day
      = (schedule.put index schedule.groups[index]?).hours? day := by
        rw [hours?_put, hours?_put, h]
    _ = schedule.hours? day := by rw [put_self]

theorem openSpans_eq_hours? (schedule : Schedule) (day : Weekday) :
    schedule.openSpans day = (schedule.hours? day).getD [] := by
  rw [openSpans, hours?]
  cases schedule.owner? day <;> rfl

theorem mem_claimed_iff : day ∈ schedule.claimed ↔ (schedule.hours? day).isSome = true := by
  rw [WeekdaySet.mem_iff_contains, contains_claimed, hours?, Option.isSome_map, owner?,
    List.find?_isSome, List.any_eq_true]

theorem hoursOn_eq_none (h : group.days.contains day = false) :
    hoursOn (some group) day = none := by
  simp [hoursOn, h]

theorem hoursOn_withDays (h : days.contains day = group.days.contains day) :
    hoursOn (some { group with days }) day = hoursOn (some group) day := by
  simp only [hoursOn, Option.filter_some, h]
  split <;> rfl

/-! ### The frame of an edit -/

/-- The schedules differ in what stands at one place only, which says the same of all days but some
in both. -/
def DiffersAt (schedule next : Schedule) (index : Nat) (days : WeekdaySet) : Prop :=
  ∃ group, next = schedule.put index group ∧
    ∀ day, day ∉ days → hoursOn group day = hoursOn schedule.groups[index]? day

theorem differsAt_self (schedule : Schedule) (index : Nat) (days : WeekdaySet) :
    DiffersAt schedule schedule index days :=
  ⟨_, (schedule.put_self index).symm, fun _ _ => rfl⟩

theorem differsAt_replace (hgroup : schedule.groups[index]? = some group)
    (h : ∀ day, day ∉ days → hoursOn (some changed) day = hoursOn (some group) day) :
    DiffersAt schedule (schedule.replace index changed) index days :=
  ⟨_, replace_eq_put hgroup, fun day hday => by rw [hgroup, h day hday]⟩

theorem differsAt_without (hgroup : schedule.groups[index]? = some group)
    (h : ∀ day, day ∉ days → group.days.contains day = false) :
    DiffersAt schedule (schedule.without index) index days :=
  ⟨_, without_eq_put, fun day hday => by rw [hgroup, hoursOn_eq_none (h day hday)]; rfl⟩

/-- Other hours for a group concern the days of the group only. -/
theorem differsAt_replace_hours (hgroup : schedule.groups[index]? = some group)
    (hdays : changed.days = group.days) :
    DiffersAt schedule (schedule.replace index changed) index (schedule.daysAt index) := by
  apply differsAt_replace hgroup
  intro day hday
  have hgone : group.days.contains day = false := by
    rw [daysAt, hgroup] at hday
    exact Bool.eq_false_iff.mpr hday
  rw [hoursOn_eq_none hgone, hoursOn_eq_none (hdays ▸ hgone)]

theorem addDay_differsAt (hedit : schedule.addDay index day = .ok next) :
    DiffersAt schedule next index (.ofList [day]) := by
  obtain ⟨-, group, hgroup, ⟨-, rfl⟩ | ⟨-, rfl⟩⟩ := addDay_eq_ok.mp hedit
  · exact differsAt_self _ index _
  · apply differsAt_replace hgroup
    intro other hother
    apply hoursOn_withDays
    simp [WeekdaySet.ne_of_not_mem_ofList hother]

theorem removeDay_differsAt (hedit : schedule.removeDay index day = .ok next) :
    DiffersAt schedule next index (.ofList [day]) := by
  obtain ⟨-, group, hgroup, -, ⟨hlast, rfl⟩ | ⟨-, rfl⟩⟩ := removeDay_eq_ok.mp hedit
  · apply differsAt_without hgroup
    intro other hother
    have hgone := WeekdaySet.isEmpty_iff.mp hlast other
    simpa [WeekdaySet.ne_of_not_mem_ofList hother] using hgone
  · apply differsAt_replace hgroup
    intro other hother
    apply hoursOn_withDays
    simp [WeekdaySet.ne_of_not_mem_ofList hother]

theorem append_differsAt {value : DayGroup} (hedit : schedule.append value = .ok next) :
    DiffersAt schedule next schedule.groups.length value.days := by
  obtain ⟨-, -, -, built, hbuilt, rfl⟩ := append_eq_ok.mp hedit
  have hdays := (DayGroup.rebuild_normal hbuilt).2.2
  refine ⟨_, push_eq_put, fun day hday => ?_⟩
  rw [List.getElem?_eq_none (Nat.le_refl _),
    hoursOn_eq_none (hdays ▸ Bool.eq_false_iff.mpr hday)]
  rfl

/-- Whatever the edit, the schedules before and after it differ at its target, on the days that it is
for. -/
theorem edit_differsAt (hedit : schedule.edit edit = .ok next) :
    DiffersAt schedule next (schedule.target edit) (schedule.scope edit) := by
  cases edit with
  | addDay index day => exact addDay_differsAt hedit
  | removeDay index day => exact removeDay_differsAt hedit
  | setOpening index range =>
    obtain ⟨-, group, hgroup, -, rfl⟩ := setOpening_eq_ok.mp hedit
    exact differsAt_replace_hours hgroup rfl
  | setFullDay index on =>
    obtain ⟨-, group, hgroup, rfl⟩ := setFullDay_eq_ok.mp hedit
    exact differsAt_replace_hours hgroup (by cases on <;> rfl)
  | addBreak index range =>
    obtain ⟨hsound, group, hgroup, changed, hadd, rfl⟩ := addBreak_eq_ok.mp hedit
    have hhours := (isSound_iff.mp hsound).hours group (List.mem_of_getElem? hgroup)
    exact differsAt_replace_hours hgroup (DayGroup.addBreak_hours hhours hadd).2
  | removeBreak index position =>
    obtain ⟨-, group, hgroup, -, rfl⟩ := removeBreak_eq_ok.mp hedit
    exact differsAt_replace_hours hgroup rfl
  | append value => exact append_differsAt hedit
  | removeGroup index =>
    obtain ⟨-, group, hgroup, rfl⟩ := removeGroup_eq_ok.mp hedit
    apply differsAt_without hgroup
    intro day hday
    rw [scope, daysAt, hgroup] at hday
    exact Bool.eq_false_iff.mpr hday

theorem edit_hours? (hedit : schedule.edit edit = .ok next) (hday : day ∉ schedule.scope edit) :
    next.hours? day = schedule.hours? day := by
  obtain ⟨group, rfl, hsilent⟩ := edit_differsAt hedit
  exact hours?_put_eq (hsilent day hday)

/-! ### The days of a new group and of one that is taken away -/

/-- The days of an appended group had no group before, so that it is the first to have them. -/
theorem append_hours? {value : DayGroup} (hedit : schedule.append value = .ok next)
    (hday : day ∈ value.days) : next.hours? day = some value.openSpans := by
  obtain ⟨-, -, hfree, built, hbuilt, rfl⟩ := append_eq_ok.mp hedit
  have hbefore : schedule.groups.find? (·.days.contains day) = none := by
    rw [List.find?_eq_none]
    exact fun group hgroup hin => hfree group hgroup day ⟨hin, hday⟩
  have hbuiltDay : built.days.contains day = true := by
    rw [(DayGroup.rebuild_normal hbuilt).2.2]
    exact hday
  rw [hours?, owner?, push, List.find?_append, hbefore, Option.none_or, List.find?_singleton,
    if_pos hbuiltDay, Option.map_some, DayGroup.rebuild_openSpans hbuilt]

/-- The days of a group that is taken away have no other group. -/
theorem removeGroup_hours? (hedit : schedule.removeGroup index = .ok next)
    (hday : day ∈ schedule.daysAt index) : next.hours? day = none := by
  obtain ⟨hsound, group, hgroup, rfl⟩ := removeGroup_eq_ok.mp hedit
  rw [daysAt, hgroup] at hday
  rw [hours?, owner?, Option.map_eq_none_iff, List.find?_eq_none]
  intro other hother hin
  obtain ⟨place, hne, hplace⟩ := List.mem_eraseIdx_iff_getElem?.mp hother
  have hdisjoint : other.days.Disjoint group.days :=
    (pairwise_iff_places fun _ _ => WeekdaySet.Disjoint.symm).mp (isSound_iff.mp hsound).disjoint
      place index other group hplace hgroup hne
  exact hdisjoint day ⟨hin, hday⟩

/-- An accepted edit leaves the groups before and after its target as they are, and the days that it
is not for keep their hours and stay claimed or free. The days of an appended group are open when the
group is, and those of a group that is taken away are free. -/
theorem edit_keeps_rest (hedit : schedule.edit edit = .ok next) :
    (∃ group : Option DayGroup,
      next.groups = schedule.groups.take (schedule.target edit) ++ group.toList ++
        schedule.groups.drop (schedule.target edit + 1)) ∧
    (∀ day, day ∉ schedule.scope edit → next.openSpans day = schedule.openSpans day ∧
      (day ∈ next.claimed ↔ day ∈ schedule.claimed)) ∧
    (∀ value, edit = .append value → ∀ day ∈ value.days,
      next.openSpans day = value.openSpans ∧ day ∈ next.claimed) ∧
    ∀ index, edit = .removeGroup index → ∀ day ∈ schedule.daysAt index, day ∉ next.claimed := by
  obtain ⟨group, hnext, -⟩ := edit_differsAt hedit
  refine ⟨⟨group, by rw [hnext, put]⟩, fun day hday => ?_, ?_, ?_⟩
  · rw [openSpans_eq_hours?, openSpans_eq_hours?, mem_claimed_iff, mem_claimed_iff,
      edit_hours? hedit hday]
    exact ⟨rfl, Iff.rfl⟩
  · rintro value rfl day hday
    rw [openSpans_eq_hours?, mem_claimed_iff, append_hours? hedit hday]
    exact ⟨rfl, rfl⟩
  · rintro index rfl day hday
    rw [mem_claimed_iff, removeGroup_hours? hedit hday]
    exact Bool.false_ne_true

/-- Two days get their hours beside the nights, whose own hours stay, and without the group of the
nights Saturday is free while Sunday stays open. -/
theorem edit_keeps_rest_nights :
    let value : DayGroup := .timed (.ofList [.monday, .tuesday]) ⟨⟨9, 0, true⟩, ⟨17, 0, true⟩⟩
    (∃ next, nights.edit (.append value) = .ok next ∧
      next.openSpans .friday = nights.openSpans .friday ∧
      next.openSpans .tuesday = [⟨540, 1020⟩]) ∧
    ∃ next, nights.edit (.removeGroup 0) = .ok next ∧
      next.openSpans .sunday = nights.openSpans .sunday ∧ .saturday ∉ next.claimed := by
  intro value
  have happend : nights.edit (.append value) = .ok _ := rfl
  have hremove : nights.edit (.removeGroup 0) = .ok _ := rfl
  obtain ⟨-, hkept, hadded, -⟩ := edit_keeps_rest happend
  obtain ⟨-, hkept', -, hfree⟩ := edit_keeps_rest hremove
  refine ⟨⟨_, happend, (hkept .friday (by decide)).1, ?_⟩, _, hremove,
    (hkept' .sunday (by decide)).1, hfree 0 rfl .saturday (by decide)⟩
  exact (hadded value rfl .tuesday (by decide)).1.trans (by decide)

end Schedule

end OpeningHours
