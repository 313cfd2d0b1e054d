import OpeningHours.Outlook
import OpeningHours.Schedule.Edit
import OpeningHours.Proofs.Lists
import OpeningHours.Proofs.Soundness

/-! Schedules that are open for the same minutes of every weekday. The order of the breaks of a group
does not count, a group may stand in for another one with the same days and hours, and the outlook at
an instant tells no two such schedules apart. -/

namespace OpeningHours

open OpeningHours.Span

namespace DayGroup

/-- The order of the breaks does not count. -/
theorem openSpans_eq_of_perm {group other : DayGroup} {opening : ClockRange}
    (hday : group.isFullDay = false) (hopening : group.opening = some opening)
    (hday' : other.isFullDay = false) (hopening' : other.opening = some opening)
    (hperm : group.breaks.Perm other.breaks) : group.openSpans = other.openSpans := by
  -- The break spans differ in their order, so that only the minutes can be compared.
  apply group.openSpans_separated.eq_of_covers_iff other.openSpans_separated
  intro minute
  rw [covers_openSpans hday hopening, covers_openSpans hday' hopening']
  simp only [hperm.mem_iff]

end DayGroup

namespace Schedule

variable {schedule other : Schedule} {group changed : DayGroup}

/-- The groups have the same days and are open for the same minutes of each. -/
def SameGroup (a b : DayGroup) : Prop := a.days = b.days ∧ a.SameHours b

theorem SameGroup.refl (group : DayGroup) : SameGroup group group := ⟨rfl, rfl⟩

theorem equivalent_of_sameGroups (h : List.Forall₂ SameGroup schedule.groups other.groups) :
    schedule.Equivalent other := by
  intro day
  have howner : Option.Rel SameGroup (schedule.owner? day) (other.owner? day) :=
    find?_rel h fun a b hab => by rw [hab.1]
  rw [openSpans, openSpans]
  generalize schedule.owner? day = left, other.owner? day = right at howner
  cases howner with
  | none => rfl
  | some hab => exact hab.2

theorem push_equivalent (schedule : Schedule) (h : SameGroup changed group) :
    (schedule.push changed).Equivalent (schedule.push group) := by
  apply equivalent_of_sameGroups
  exact List.rel_append (List.forall₂_same.mpr fun other _ => SameGroup.refl other)
    (.cons h .nil)

theorem replace_equivalent (schedule : Schedule) (index : Nat) (h : SameGroup changed group) :
    (schedule.replace index changed).Equivalent (schedule.replace index group) := by
  apply equivalent_of_sameGroups
  exact forall₂_set (fun other _ => SameGroup.refl other) h index

/-! ### The outlook -/

section Outlook

variable {holidays : Holidays} {today : Date}

theorem Equivalent.opensOn (h : schedule.Equivalent other) : schedule.opensOn = other.opensOn := by
  funext day
  rw [Schedule.opensOn, Schedule.opensOn, h day]

theorem Equivalent.horizonFrom (h : schedule.Equivalent other) (lookahead left offset regular : Nat)
    (pending : Bool) :
    schedule.horizonFrom holidays today lookahead left offset regular pending =
      other.horizonFrom holidays today lookahead left offset regular pending := by
  induction left generalizing offset regular pending with
  | zero => rfl
  | succ left ih => simp only [Schedule.horizonFrom, h.opensOn, ih]

theorem Equivalent.horizon (h : schedule.Equivalent other) (limits : Limits) :
    schedule.horizon holidays today limits = other.horizon holidays today limits := by
  rw [Schedule.horizon, Schedule.horizon, h.opensOn, h.horizonFrom]

theorem Equivalent.timeline (h : schedule.Equivalent other) (horizon : Nat) :
    schedule.timeline holidays today horizon = other.timeline holidays today horizon := by
  have hwindows : schedule.windowsOn holidays today = other.windowsOn holidays today := by
    funext offset
    rw [windowsOn, windowsOn]
    cases today.shift? offset with
    | none => rfl
    | some date => simp only [h date.weekday]
  rw [Schedule.timeline, Schedule.timeline, hwindows]

/-- Sound schedules that are open for the same minutes of the week have the same outlook at any
instant, whatever the holidays and the limits. -/
theorem outlook_eq_of_equivalent (hsound : schedule.IsSound) (hother : other.IsSound)
    (h : schedule.Equivalent other) (holidays : Holidays) (limits : Limits) (now : Instant) :
    schedule.outlook holidays limits now = other.outlook holidays limits now := by
  simp only [outlook, if_neg (not_not_intro hsound), if_neg (not_not_intro hother),
    h.horizon, h.timeline]

/-- The days of the nights in other groups and another order, a break in another place, and the
closed days in a group of their own. -/
def splitNights : Schedule where
  groups := [
    .fullDay (.ofList [.sunday]),
    { days := .ofList [.saturday]
      opening := some ⟨⟨20, 0, false⟩, ⟨8, 0, false⟩⟩
      breaks := [⟨⟨23, 30, true⟩, ⟨0, 30, true⟩⟩, ⟨⟨1, 0, true⟩, ⟨2, 0, true⟩⟩] },
    .closed (.range .monday .thursday),
    { days := .ofList [.friday]
      opening := some ⟨⟨20, 0, true⟩, ⟨8, 0, true⟩⟩
      breaks := [⟨⟨1, 0, true⟩, ⟨2, 0, true⟩⟩, ⟨⟨23, 30, true⟩, ⟨0, 30, true⟩⟩] }]

/-- The break that begins on Friday evening ends half an hour after midnight in both. -/
theorem outlook_eq_of_equivalent_nights :
    let friday : Instant := ⟨⟨738000, by decide, by decide⟩, 1425, 0, 0, by decide⟩
    let saturday : Instant := ⟨⟨738001, by decide, by decide⟩, 30, 0, 0, by decide⟩
    nights.IsSound ∧ splitNights.IsSound ∧ nights.Equivalent splitNights ∧ nights ≠ splitNights ∧
      (∀ holidays limits now,
        nights.outlook holidays limits now = splitNights.outlook holidays limits now) ∧
      splitNights.openSpans .friday = [⟨1200, 1410⟩, ⟨1470, 1500⟩, ⟨1560, 1920⟩] ∧
      nights.outlook Holidays.none {} friday = ⟨.closed, some 45, some saturday⟩ ∧
      splitNights.outlook Holidays.none {} friday = ⟨.closed, some 45, some saturday⟩ := by
  intro friday saturday
  have hsound : nights.IsSound := by decide
  have hsplit : splitNights.IsSound := by decide
  have hequivalent : nights.Equivalent splitNights := by decide
  have hsame := outlook_eq_of_equivalent hsound hsplit hequivalent
  have hfriday : nights.outlook Holidays.none {} friday = ⟨.closed, some 45, some saturday⟩ := by
    decide
  exact ⟨hsound, hsplit, hequivalent, by decide, hsame, by decide, hfriday,
    (hsame Holidays.none {} friday).symm.trans hfriday⟩

end Outlook

end Schedule

end OpeningHours
