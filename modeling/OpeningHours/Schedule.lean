import OpeningHours.DayGroup

/-! The schedule of a week: groups of weekdays in the order of their rules. A day belongs to the
first group that has it, and a day without a group is closed. -/

namespace OpeningHours

/-- The groups of a week in order. -/
structure Schedule where
  groups : List DayGroup := []
  deriving DecidableEq, Repr

namespace Schedule

/-- A first schedule to edit: Monday to Friday from 09:00 to 18:00. -/
def office : Schedule where
  groups := [.timed (.range .monday .friday) ⟨⟨9, 0, true⟩, ⟨18, 0, true⟩⟩]

/-- The schedule with one more group, which is not checked. -/
def push (schedule : Schedule) (group : DayGroup) : Schedule := ⟨schedule.groups ++ [group]⟩

/-- The group that has the day. -/
def owner? (schedule : Schedule) (day : Weekday) : Option DayGroup :=
  schedule.groups.find? (·.days.contains day)

/-- The position of the group that has the day. -/
def ownerIndex? (schedule : Schedule) (day : Weekday) : Option Nat :=
  schedule.groups.findIdx? (·.days.contains day)

/-- The days that some group has. -/
def claimed (schedule : Schedule) : WeekdaySet :=
  schedule.groups.foldl (fun days group => days ∪ group.days) ∅

theorem contains_claimed (schedule : Schedule) (day : Weekday) :
    schedule.claimed.contains day = schedule.groups.any (·.days.contains day) := by
  suffices ∀ (groups : List DayGroup) (days : WeekdaySet),
      (groups.foldl (fun days group => days ∪ group.days) days).contains day =
        (days.contains day || groups.any (·.days.contains day)) by
    simpa [claimed] using this schedule.groups ∅
  intro groups
  induction groups with
  | nil => simp
  | cons group rest ih => simp [ih, Bool.or_assoc]

/-- The days that no group has. -/
def unclaimed (schedule : Schedule) : WeekdaySet := schedule.claimed.complement

/-- A closed group of the days that no group has. -/
def rest (schedule : Schedule) : DayGroup := .closed schedule.unclaimed

/-- The minutes of a weekday on which the schedule is open. -/
def openSpans (schedule : Schedule) (day : Weekday) : List Span :=
  (schedule.owner? day).elim [] DayGroup.openSpans

/-- Every day of the week has a group that is open around the clock. -/
def IsAlwaysOpen (schedule : Schedule) : Prop :=
  ∀ day, (schedule.owner? day).any (·.isFullDay) = true

instance (schedule : Schedule) : Decidable schedule.IsAlwaysOpen :=
  inferInstanceAs (Decidable (∀ _, _))

/-- The schedules open for the same minutes of every weekday. How the days are grouped does not
matter, and a closed day equals one without a group. -/
def Equivalent (a b : Schedule) : Prop := ∀ day, a.openSpans day = b.openSpans day

instance (a b : Schedule) : Decidable (a.Equivalent b) := inferInstanceAs (Decidable (∀ _, _))

/-- The schedules state the same group by group. -/
def SameContent (a b : Schedule) : Prop :=
  a.groups.map DayGroup.content = b.groups.map DayGroup.content

instance (a b : Schedule) : Decidable (a.SameContent b) := inferInstanceAs (Decidable (_ = _))

end Schedule

end OpeningHours
