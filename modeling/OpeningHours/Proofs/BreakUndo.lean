import OpeningHours.Proofs.BreakOrder

/-! Taking a break away and adding it undo each other. A break that is added again passes the checks
as it did before, since it fits with the breaks that were there with it, and where the breaks come in
the order in which they fall it finds its old place. -/

namespace OpeningHours

namespace DayGroup

variable {group next : DayGroup} {opening range : ClockRange} {index position : Nat}

/-- A group that is open around the clock has no breaks, and breaks come by rising distance from the
start of the opening. -/
structure HasOrderedBreaks (group : DayGroup) : Prop where
  bare : group.isFullDay = true → group.breaks = []
  ordered : ∀ opening, group.opening = some opening →
    group.breaks.Pairwise fun a b => a.offset opening ≤ b.offset opening

/-- A group with a break that counts has an opening, and its breaks fit into it. -/
theorem exists_opening_of_break (hhours : group.HasSoundHours) (hordered : group.HasOrderedBreaks)
    (hbreak : group.breaks[position]? = some range) :
    group.isFullDay = false ∧ ∃ opening, group.opening = some opening ∧
      BreaksFit opening group.breaks := by
  have hsome : group.breaks ≠ [] := List.ne_nil_of_mem (List.mem_of_getElem? hbreak)
  have hday : group.isFullDay = false := Bool.eq_false_iff.mpr fun h => hsome (hordered.bare h)
  have hsound := hhours hday
  cases hopening : group.opening with
  | none =>
    rw [hopening] at hsound
    exact absurd hsound hsome
  | some opening =>
    rw [hopening] at hsound
    exact ⟨hday, opening, rfl, hsound.2⟩

/-- Breaks that fit start at different minutes, so that their order leaves one place for each. -/
theorem HasOrderedBreaks.strict (h : group.HasOrderedBreaks) (hopening : group.opening = some opening)
    (hfit : BreaksFit opening group.breaks) : group.breaks.Pairwise fun a b =>
      (a.spanAfter opening.span.start).start < (b.spanAfter opening.span.start).start := by
  have hsorted : SortedOn (fun b => (b.spanAfter opening.span.start).start) group.breaks := by
    apply (h.ordered opening hopening).imp
    intro a b hab
    simp only [a.start_spanAfter, b.start_spanAfter]
    omega
  apply (hfit.strict hsorted).imp
  intro a b hab
  simp only [a.start_spanAfter, b.start_spanAfter]
  omega

/-- A break that was taken away is added again at its old place. -/
theorem addBreak_eraseIdx (hhours : group.HasSoundHours) (hordered : group.HasOrderedBreaks)
    (hbreak : group.breaks[position]? = some range) :
    addBreak { group with breaks := group.breaks.eraseIdx position } index range = .ok group := by
  obtain ⟨hday, opening, hopening, hfit⟩ := exists_opening_of_break hhours hordered hbreak
  have hinsert : insertOn (fun b => (b.spanAfter opening.span.start).start) range
      (group.breaks.eraseIdx position) = group.breaks :=
    insertOn_eraseIdx (hordered.strict hopening hfit) hbreak
  -- The break fits with the others because all of them fit, in whatever order.
  have hperm := insertOn_perm (fun b => (b.spanAfter opening.span.start).start) range
    (group.breaks.eraseIdx position)
  rw [hinsert] at hperm
  refine (addBreak_eq_ok_iff_fit (removeBreak_hours hhours position)).mpr
    ⟨hday, opening, hopening, hfit.perm hperm.symm, ?_⟩
  rw [insertBreak, hinsert]

/-- A break that was added has a place, and without it the group is the old one. -/
theorem exists_eraseIdx_addBreak (h : group.addBreak index range = .ok next) :
    ∃ position, next.breaks[position]? = some range ∧
      { next with breaks := next.breaks.eraseIdx position } = group := by
  obtain ⟨-, opening, -, -, -, -, rfl⟩ := addBreak_eq_ok.mp h
  obtain ⟨position, hplace, hrest⟩ := exists_eraseIdx_insertOn
    (fun b : ClockRange => (b.spanAfter opening.span.start).start) range group.breaks
  exact ⟨position, hplace, by simp only [insertBreak, hrest]⟩

end DayGroup

namespace Schedule

variable {schedule next : Schedule} {range : ClockRange} {index position : Nat}

theorem addBreak_of_removeBreak (hordered : ∀ group ∈ schedule.groups, group.HasOrderedBreaks)
    (hedit : schedule.removeBreak index position = .ok next) :
    ∃ group range, schedule.groups[index]? = some group ∧ group.breaks[position]? = some range ∧
      next.addBreak index range = .ok schedule := by
  have hnext := removeBreak_isSound hedit
  obtain ⟨hsound, group, hgroup, hposition, rfl⟩ := removeBreak_eq_ok.mp hedit
  have hmem := List.mem_of_getElem? hgroup
  have hhours := (isSound_iff.mp hsound).hours group hmem
  have hbreak := List.getElem?_eq_getElem hposition
  refine ⟨group, _, hgroup, hbreak, addBreak_eq_ok.mpr ⟨hnext, _, getElem?_replace hgroup, group,
    DayGroup.addBreak_eraseIdx hhours (hordered group hmem) hbreak, ?_⟩⟩
  rw [replace_replace, replace_self hgroup]

theorem removeBreak_of_addBreak (hedit : schedule.addBreak index range = .ok next) :
    ∃ group position, next.groups[index]? = some group ∧ group.breaks[position]? = some range ∧
      next.removeBreak index position = .ok schedule := by
  have hnext := addBreak_isSound hedit
  obtain ⟨-, group, hgroup, changed, hadd, rfl⟩ := addBreak_eq_ok.mp hedit
  obtain ⟨position, hbreak, hrest⟩ := DayGroup.exists_eraseIdx_addBreak hadd
  have hposition := (List.getElem?_eq_some_iff.mp hbreak).1
  refine ⟨changed, position, getElem?_replace hgroup, hbreak, removeBreak_eq_ok.mpr
    ⟨hnext, changed, getElem?_replace hgroup, hposition, ?_⟩⟩
  rw [hrest, replace_replace, replace_self hgroup]

/-- Where breaks count and come in the order in which they fall, a break that is taken away can be
added again, and a break that is added can be taken away again at the place it was given. Either way
the schedule is the same in the end, spelling included. -/
theorem breakEdits_inverse (hordered : ∀ group ∈ schedule.groups, group.HasOrderedBreaks) :
    (∀ index position next, schedule.removeBreak index position = .ok next →
      ∃ group range, schedule.groups[index]? = some group ∧ group.breaks[position]? = some range ∧
        next.addBreak index range = .ok schedule) ∧
    ∀ index range next, schedule.addBreak index range = .ok next →
      ∃ group position, next.groups[index]? = some group ∧ group.breaks[position]? = some range ∧
        next.removeBreak index position = .ok schedule :=
  ⟨fun _ _ _ => addBreak_of_removeBreak hordered, fun _ _ _ => removeBreak_of_addBreak⟩

/-- Nights with breaks before, over and after midnight in this order, and a day around the clock that
stores an opening. -/
def watches : Schedule where
  groups := [
    { days := .range .friday .saturday
      opening := some ⟨⟨20, 0, true⟩, ⟨8, 0, true⟩⟩
      breaks := [⟨⟨22, 0, true⟩, ⟨22, 30, true⟩⟩, ⟨⟨23, 30, true⟩, ⟨0, 30, true⟩⟩,
        ⟨⟨2, 0, false⟩, ⟨3, 0, false⟩⟩] },
    { days := .ofList [.sunday]
      opening := some ⟨⟨9, 0, true⟩, ⟨18, 0, true⟩⟩
      isFullDay := true }]

theorem breakEdits_inverse_watches :
    (∀ group ∈ watches.groups, group.HasOrderedBreaks) ∧
      (∃ next, watches.removeBreak 0 1 = .ok next ∧
        next.addBreak 0 ⟨⟨23, 30, true⟩, ⟨0, 30, true⟩⟩ = .ok watches) ∧
      ∃ next, watches.addBreak 0 ⟨⟨1, 0, true⟩, ⟨1, 30, true⟩⟩ = .ok next ∧
        ∃ position, next.removeBreak 0 position = .ok watches := by
  have hordered : ∀ group ∈ watches.groups, group.HasOrderedBreaks := by
    intro group hgroup
    rcases List.mem_cons.mp hgroup with rfl | hsunday
    · refine ⟨by simp, ?_⟩
      intro opening hopening
      cases hopening
      decide
    · obtain rfl := List.mem_singleton.mp hsunday
      exact ⟨fun _ => rfl, fun _ _ => .nil⟩
  obtain ⟨hremoved, hadded⟩ := breakEdits_inverse hordered
  have hremove : watches.removeBreak 0 1 = .ok _ := rfl
  have hadd : watches.addBreak 0 ⟨⟨1, 0, true⟩, ⟨1, 30, true⟩⟩ = .ok _ := rfl
  obtain ⟨group, range, hgroup, hbreak, hagain⟩ := hremoved 0 1 _ hremove
  obtain ⟨-, position, -, -, hundone⟩ := hadded 0 _ _ hadd
  obtain rfl := Option.some.inj hgroup
  obtain rfl := Option.some.inj hbreak
  exact ⟨hordered, ⟨_, hremove, hagain⟩, _, hadd, position, hundone⟩

end Schedule

end OpeningHours
