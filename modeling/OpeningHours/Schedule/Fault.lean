import OpeningHours.Schedule

/-! What can be wrong with a schedule. `Schedule.faults` lists every fault in the order of the
groups, and a schedule is sound when there is none. A fault is reported and never mended. -/

namespace OpeningHours

/-- A fault of one group of a schedule, known by its position. -/
inductive Fault where
  /-- The group has no weekday. -/
  | emptyGroup (group : Nat)
  /-- The group has a weekday of an earlier group. -/
  | duplicateWeekday (day : Weekday) (group : Nat)
  /-- The group has breaks but nothing to break. -/
  | breaksWithoutOpening (group : Nat)
  /-- The opening has an impossible time or no length. -/
  | invalidOpening (opening : ClockRange) (group : Nat)
  /-- The break has an impossible time or no length. -/
  | invalidBreak (range : ClockRange) (group : Nat)
  /-- The break leaves the opening or touches its edge. -/
  | breakOutsideOpening (range opening : ClockRange) (group : Nat)
  /-- Two breaks of the group overlap or touch. -/
  | overlappingBreaks (group : Nat)
  deriving DecidableEq, Repr

namespace Fault

/-- The kinds of faults. -/
inductive Kind where
  | duplicateWeekday | emptyGroup | invalidRange | breakOutsideOpening | overlappingBreaks
  deriving DecidableEq, Repr

/-- The kind of a fault. -/
def kind : Fault → Kind
  | emptyGroup _ => .emptyGroup
  | duplicateWeekday _ _ => .duplicateWeekday
  | breaksWithoutOpening _ => .breakOutsideOpening
  | invalidOpening _ _ => .invalidRange
  | invalidBreak _ _ => .invalidRange
  | breakOutsideOpening _ _ _ => .breakOutsideOpening
  | overlappingBreaks _ => .overlappingBreaks

/-- A fault in words. -/
def message : Fault → String
  | emptyGroup group => s!"Group {group} covers no weekday"
  | duplicateWeekday day group =>
    s!"{day.token} is assigned to more than one group (again in group {group})"
  | breaksWithoutOpening group => s!"Group {group} has closed breaks but no opening time"
  | invalidOpening opening group => s!"Group {group} has invalid opening {opening}"
  | invalidBreak range group => s!"Group {group} has invalid break {range}"
  | breakOutsideOpening range opening group =>
    s!"Break {range} is not strictly inside opening {opening} of group {group}"
  | overlappingBreaks group => s!"Group {group} has overlapping closed breaks"

end Fault

/-- Some span of the list touches the one after it. -/
def SomeTouch : List Span → Prop
  | a :: b :: rest => a.Touches b ∨ SomeTouch (b :: rest)
  | _ => False

instance decidableSomeTouch : (spans : List Span) → Decidable (SomeTouch spans)
  | [] => isFalse id
  | [_] => isFalse id
  | a :: b :: rest =>
    have := decidableSomeTouch (b :: rest)
    inferInstanceAs (Decidable (a.Touches b ∨ SomeTouch (b :: rest)))

namespace DayGroup

/-- The faults of one break of an opening, without regard to the other breaks. -/
def breakFaults (group : DayGroup) (opening : ClockRange) (index : Nat) (range : ClockRange) :
    List Fault :=
  if ¬range.IsValid then [.invalidBreak range index]
  else if ¬group.FitsBreak range then [.breakOutsideOpening range opening index]
  else []

/-- The faults of the ranges of a group. A group open around the clock has none, and an invalid
opening hides the faults of its breaks. -/
def rangeFaults (group : DayGroup) (index : Nat) : List Fault :=
  if group.isFullDay then []
  else match group.opening with
    | none => if group.breaks.isEmpty then [] else [.breaksWithoutOpening index]
    | some opening =>
      if ¬opening.IsValid then [.invalidOpening opening index]
      else group.breaks.flatMap (group.breakFaults opening index) ++
        if SomeTouch group.breakSpans then [.overlappingBreaks index] else []

/-- The faults of the weekdays of a group, where `seen` are those of the groups before it. -/
def dayFaults (group : DayGroup) (seen : WeekdaySet) (index : Nat) : List Fault :=
  (if group.days.isEmpty then [.emptyGroup index] else []) ++
    (group.days ∩ seen).toList.map (.duplicateWeekday · index)

end DayGroup

namespace Schedule

/-- The faults of a list of groups, where `index` groups with the weekdays `seen` come before. -/
def faultsFrom (index : Nat) (seen : WeekdaySet) : List DayGroup → List Fault
  | [] => []
  | group :: rest =>
    group.dayFaults seen index ++ group.rangeFaults index ++
      faultsFrom (index + 1) (seen ∪ group.days) rest

/-- All faults of a schedule, group by group. -/
def faults (schedule : Schedule) : List Fault := faultsFrom 0 ∅ schedule.groups

/-- The schedule has no fault. -/
def IsSound (schedule : Schedule) : Prop := schedule.faults = []

instance (schedule : Schedule) : Decidable schedule.IsSound := inferInstanceAs (Decidable (_ = _))

end Schedule

end OpeningHours
