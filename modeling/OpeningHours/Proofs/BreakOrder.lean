import OpeningHours.Proofs.EditChecks

/-! Two breaks added one after the other. The checks of the second count the first among the breaks
that are there, so that both pass exactly if they fit together with all others. That does not depend
on their order, and neither do their places, as breaks that fit start at different minutes. -/

namespace OpeningHours

open OpeningHours.Span

theorem BreaksFit.swap {opening a b : ClockRange} {breaks : List ClockRange}
    (h : BreaksFit opening (b :: a :: breaks)) : BreaksFit opening (a :: b :: breaks) :=
  h.perm (.swap b a breaks)

namespace DayGroup

variable {group next : DayGroup} {index : Nat} {opening range a b : ClockRange}

/-- A break is added where it fits together with the breaks that are there. -/
theorem addBreak_eq_ok_iff_fit (hhours : group.HasSoundHours) :
    group.addBreak index range = .ok next ↔
      group.isFullDay = false ∧ ∃ opening, group.opening = some opening ∧
        BreaksFit opening (range :: group.breaks) ∧ next = group.insertBreak opening range := by
  rw [addBreak_eq_ok]
  refine and_congr_right fun hday => exists_congr fun opening => and_congr_right fun hopening => ?_
  have hsound := hhours hday
  rw [hopening] at hsound
  constructor
  · rintro ⟨hvalid, hinside, hapart, hnext⟩
    exact ⟨hsound.2.cons hvalid hinside hapart, hnext⟩
  · rintro ⟨hfit, hnext⟩
    obtain ⟨hvalid, hinside, hapart⟩ := hfit.of_cons
    exact ⟨hvalid, hinside, hapart, hnext⟩

theorem insertBreak_perm (group : DayGroup) (opening range : ClockRange) :
    (group.insertBreak opening range).breaks.Perm (range :: group.breaks) := insertOn_perm _ _ _

theorem insertBreak_comm (h : BreaksFit opening (b :: a :: group.breaks)) :
    (group.insertBreak opening a).insertBreak opening b =
      (group.insertBreak opening b).insertBreak opening a := by
  have hstart : (b.spanAfter opening.span.start).start ≠
      (a.spanAfter opening.span.start).start := by
    have hapart := (List.pairwise_cons.mp h.apart).1 a (by simp)
    have ha := a.spanAfter_bounds opening.span.start
    have hb := b.spanAfter_bounds opening.span.start
    simp only [Touches] at hapart
    omega
  simp only [insertBreak,
    @insertOn_comm _ (fun c : ClockRange => (c.spanAfter opening.span.start).start) b a hstart]

/-- Two breaks are added one after the other where they fit together with the breaks that are
there. -/
theorem addBreaks_eq_ok_iff (hhours : group.HasSoundHours) :
    (∃ middle, group.addBreak index a = .ok middle ∧ middle.addBreak index b = .ok next) ↔
      group.isFullDay = false ∧ ∃ opening, group.opening = some opening ∧
        BreaksFit opening (b :: a :: group.breaks) ∧
          next = (group.insertBreak opening a).insertBreak opening b := by
  constructor
  · rintro ⟨middle, hfirst, hsecond⟩
    rw [addBreak_eq_ok_iff_fit (addBreak_hours hhours hfirst).1] at hsecond
    obtain ⟨hday, opening, hopening, -, rfl⟩ := (addBreak_eq_ok_iff_fit hhours).mp hfirst
    obtain ⟨-, other, hother, hfit, hnext⟩ := hsecond
    obtain rfl : opening = other := Option.some.inj (hopening.symm.trans hother)
    have hperm := (group.insertBreak_perm opening a).symm.cons b
    exact ⟨hday, opening, hopening, hfit.perm hperm, hnext⟩
  · rintro ⟨hday, opening, hopening, hfit, hnext⟩
    have hone : BreaksFit opening (a :: group.breaks) := hfit.sublist (.cons b (.refl _))
    have hfirst : group.addBreak index a = .ok (group.insertBreak opening a) :=
      (addBreak_eq_ok_iff_fit hhours).mpr ⟨hday, opening, hopening, hone, rfl⟩
    refine ⟨_, hfirst, (addBreak_eq_ok_iff_fit (addBreak_hours hhours hfirst).1).mpr ?_⟩
    exact ⟨hday, opening, hopening, hfit.perm ((group.insertBreak_perm opening a).cons b), hnext⟩

/-- Breaks that are added to a group in one order are added in the other one, with the same group
in the end. -/
theorem addBreaks_swap (hhours : group.HasSoundHours)
    (h : ∃ middle, group.addBreak index a = .ok middle ∧ middle.addBreak index b = .ok next) :
    ∃ middle, group.addBreak index b = .ok middle ∧ middle.addBreak index a = .ok next := by
  obtain ⟨hday, opening, hopening, hfit, rfl⟩ := (addBreaks_eq_ok_iff hhours).mp h
  exact (addBreaks_eq_ok_iff hhours).mpr
    ⟨hday, opening, hopening, hfit.swap, insertBreak_comm hfit⟩

end DayGroup

namespace Schedule

variable {schedule next : Schedule} {index : Nat} {a b : ClockRange}

/-- Breaks added one after the other change the one group that they are for. -/
theorem addBreaks_eq_ok : (do (← schedule.addBreak index a).addBreak index b) = .ok next ↔
    schedule.IsSound ∧ ∃ group, schedule.groups[index]? = some group ∧ ∃ changed,
      (∃ middle, group.addBreak index a = .ok middle ∧ middle.addBreak index b = .ok changed) ∧
        next = schedule.replace index changed := by
  have hbind : (do (← schedule.addBreak index a).addBreak index b) = .ok next ↔
      ∃ first, schedule.addBreak index a = .ok first ∧ first.addBreak index b = .ok next := by
    cases schedule.addBreak index a <;> simp [bind, Except.bind]
  rw [hbind]
  constructor
  · rintro ⟨first, hfirst, hsecond⟩
    obtain ⟨hsound, group, hgroup, middle, hmiddle, rfl⟩ := addBreak_eq_ok.mp hfirst
    obtain ⟨-, other, hother, changed, hchanged, rfl⟩ := addBreak_eq_ok.mp hsecond
    obtain rfl : middle = other := Option.some.inj ((getElem?_replace hgroup).symm.trans hother)
    exact ⟨hsound, group, hgroup, changed, ⟨middle, hmiddle, hchanged⟩, replace_replace ..⟩
  · rintro ⟨hsound, group, hgroup, changed, ⟨middle, hmiddle, hchanged⟩, rfl⟩
    have hfirst := addBreak_eq_ok.mpr ⟨hsound, group, hgroup, middle, hmiddle, rfl⟩
    exact ⟨_, hfirst, addBreak_eq_ok.mpr ⟨addBreak_isSound hfirst, middle,
      getElem?_replace hgroup, changed, hchanged, (replace_replace ..).symm⟩⟩

/-- Two breaks are added to a group in one order if they are in the other, and the schedules are the
same, with the breaks at the same places and their times spelled alike. How the breaks that are
there are ordered does not matter. -/
theorem addBreak_comm (schedule : Schedule) (index : Nat) (a b : ClockRange) (next : Schedule) :
    (do (← schedule.addBreak index a).addBreak index b) = .ok next ↔
      (do (← schedule.addBreak index b).addBreak index a) = .ok next := by
  rw [addBreaks_eq_ok, addBreaks_eq_ok]
  refine and_congr_right fun hsound => exists_congr fun group => and_congr_right fun hgroup => ?_
  have hhours := (isSound_iff.mp hsound).hours group (List.mem_of_getElem? hgroup)
  refine exists_congr fun changed => and_congr_left fun _ => ?_
  exact ⟨DayGroup.addBreaks_swap hhours, DayGroup.addBreaks_swap hhours⟩

/-- A break over midnight and one in the small hours are kept in the order of the night, whichever
is added first. -/
theorem addBreak_comm_night :
    let night : DayGroup := .timed (.ofList [.friday]) ⟨⟨20, 0, true⟩, ⟨8, 0, true⟩⟩
    let midnight : ClockRange := ⟨⟨23, 30, true⟩, ⟨0, 30, true⟩⟩
    let early : ClockRange := ⟨⟨1, 0, true⟩, ⟨2, 0, true⟩⟩
    let schedule : Schedule := ⟨[night]⟩
    (do (← schedule.addBreak 0 early).addBreak 0 midnight) =
        .ok ⟨[{ night with breaks := [midnight, early] }]⟩ ∧
      (do (← schedule.addBreak 0 midnight).addBreak 0 early) =
        .ok ⟨[{ night with breaks := [midnight, early] }]⟩ := by
  intro night midnight early schedule
  have hfirst : (do (← schedule.addBreak 0 early).addBreak 0 midnight) =
      .ok ⟨[{ night with breaks := [midnight, early] }]⟩ := by decide
  exact ⟨hfirst, (addBreak_comm schedule 0 early midnight _).mp hfirst⟩

end Schedule

end OpeningHours
