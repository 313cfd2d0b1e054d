import OpeningHours.Schedule.Fault

/-! Edits of a schedule. An edit is a pure step from one schedule to the next. A schedule with a
fault is not edited at all, an edit checks what it adds, and an edit that is refused changes
nothing. -/

namespace OpeningHours

/-- Why an edit is refused. Groups and breaks are known by their positions. -/
inductive EditError where
  | groupOutOfRange (index size : Nat)
  | breakOutOfRange (index size : Nat)
  | dayAlreadyAssigned (day : Weekday) (owner : Nat)
  | dayNotInGroup (day : Weekday) (group : Nat)
  | invalidRange (range : ClockRange)
  | noOpeningTime (group : Nat)
  | fullDay (group : Nat)
  | breakOutsideOpening (range : ClockRange) (group : Nat)
  | breakOverlap (range : ClockRange) (group : Nat)
  | emptyGroup
  /-- The schedule had these faults before the edit. -/
  | invalidSchedule (faults : List Fault)
  deriving DecidableEq, Repr

/-- A refusal in words. -/
def EditError.message : EditError → String
  | groupOutOfRange index size =>
    s!"group index {index} out of range (schedule has {size} groups)"
  | breakOutOfRange index size => s!"break index {index} out of range (group has {size} breaks)"
  | dayAlreadyAssigned day owner => s!"{day.token} already belongs to group {owner}"
  | dayNotInGroup day group => s!"{day.token} is not part of group {group}"
  | invalidRange range => s!"invalid or zero-length time range {range}"
  | noOpeningTime group => s!"group {group} has no opening time"
  | fullDay group => s!"group {group} is open all day"
  | breakOutsideOpening range group =>
    s!"break {range} is not strictly inside the opening of group {group}"
  | breakOverlap range group => s!"break {range} overlaps an existing break of group {group}"
  | emptyGroup => "a group must cover at least one day"
  | invalidSchedule faults => s!"schedule violates {faults.length} invariant(s)"

/-- One step of editing. -/
inductive Edit where
  /-- Gives a group one more day. -/
  | addDay (group : Nat) (day : Weekday)
  /-- Takes a day out of a group. -/
  | removeDay (group : Nat) (day : Weekday)
  /-- Opens a group for a range of times. -/
  | setOpening (group : Nat) (range : ClockRange)
  /-- Opens a group around the clock, or ends that. -/
  | setFullDay (group : Nat) (on : Bool)
  /-- Closes a group for a part of its opening. -/
  | addBreak (group : Nat) (range : ClockRange)
  /-- Takes away the break at a position. -/
  | removeBreak (group : Nat) (index : Nat)
  /-- Appends a group. -/
  | append (value : DayGroup)
  /-- Takes away a group. -/
  | removeGroup (group : Nat)
  deriving DecidableEq, Repr

namespace DayGroup

/-- The group opened for a range of times: it is open around the clock no more, and it keeps those
of its breaks that fit strictly inside the new opening, by rising start. -/
def reopen (group : DayGroup) (range : ClockRange) : DayGroup :=
  let opened := { group with opening := some range, isFullDay := false }
  { opened with
    breaks := sortOn (fun b => (b.spanAfter range.start.minuteOfDay).start)
      (group.breaks.filter fun b => opened.FitsBreak b) }

/-- The group open around the clock, which drops its opening and breaks, or no more so, which
leaves it closed until it gets an opening. -/
def setFullDay (group : DayGroup) (on : Bool) : DayGroup :=
  if on then .fullDay group.days else { group with isFullDay := false }

/-- The group with one more break at its place among the others. The break has to lie strictly
inside the opening and to keep a distance from every other break. -/
def addBreak (group : DayGroup) (index : Nat) (range : ClockRange) : Except EditError DayGroup :=
  if group.isFullDay then .error (.fullDay index)
  else match group.opening with
    | none => .error (.noOpeningTime index)
    | some opening =>
      let place (b : ClockRange) : Span := b.spanAfter opening.start.minuteOfDay
      if ¬range.IsValid then .error (.invalidRange range)
      else if ¬group.FitsBreak range then .error (.breakOutsideOpening range index)
      else if ∃ b ∈ group.breaks, (place b).Touches (place range) then
        .error (.breakOverlap range index)
      else .ok { group with breaks := insertOn (fun b => (place b).start) range group.breaks }

/-- The group built up from its parts by the checks of the single edits. A group open around the
clock keeps its days only. -/
def rebuild (group : DayGroup) (index : Nat) : Except EditError DayGroup :=
  if group.isFullDay then .ok (.fullDay group.days)
  else match group.opening, group.breaks with
    | some opening, breaks =>
      if ¬opening.IsValid then .error (.invalidRange opening)
      else breaks.foldlM (fun group range => group.addBreak index range)
        (.timed group.days opening)
    | none, range :: _ => .error (.breakOutsideOpening range index)
    | none, [] => .ok (.closed group.days)

end DayGroup

namespace Schedule

/-- Edits the group at a position, if the schedule is sound and has the group. -/
def editGroup (schedule : Schedule) (index : Nat)
    (edit : DayGroup → Except EditError Schedule) : Except EditError Schedule :=
  if ¬schedule.IsSound then .error (.invalidSchedule schedule.faults)
  else match schedule.groups[index]? with
    | none => .error (.groupOutOfRange index schedule.groups.length)
    | some group => edit group

/-- The schedule with another group at a position. -/
def replace (schedule : Schedule) (index : Nat) (group : DayGroup) : Schedule :=
  ⟨schedule.groups.set index group⟩

/-- The schedule without the group at a position. -/
def without (schedule : Schedule) (index : Nat) : Schedule := ⟨schedule.groups.eraseIdx index⟩

/-- Gives a group one more day, which no other group may have. A day that the group has already
changes nothing. -/
def addDay (schedule : Schedule) (index : Nat) (day : Weekday) : Except EditError Schedule :=
  schedule.editGroup index fun group =>
    match schedule.ownerIndex? day with
    | none => .ok (schedule.replace index { group with days := group.days.insert day })
    | some owner =>
      if owner = index then .ok schedule else .error (.dayAlreadyAssigned day owner)

/-- Takes a day out of a group, and the group out of the schedule with its last day. -/
def removeDay (schedule : Schedule) (index : Nat) (day : Weekday) : Except EditError Schedule :=
  schedule.editGroup index fun group =>
    if ¬day ∈ group.days then .error (.dayNotInGroup day index)
    else if (group.days.erase day).isEmpty then .ok (schedule.without index)
    else .ok (schedule.replace index { group with days := group.days.erase day })

/-- Opens a group for a range of times; breaks that do not fit inside it are dropped. -/
def setOpening (schedule : Schedule) (index : Nat) (range : ClockRange) :
    Except EditError Schedule :=
  schedule.editGroup index fun group =>
    if ¬range.IsValid then .error (.invalidRange range)
    else .ok (schedule.replace index (group.reopen range))

/-- Opens a group around the clock, or ends that. -/
def setFullDay (schedule : Schedule) (index : Nat) (on : Bool) : Except EditError Schedule :=
  schedule.editGroup index fun group => .ok (schedule.replace index (group.setFullDay on))

/-- Closes a group for a part of its opening. -/
def addBreak (schedule : Schedule) (index : Nat) (range : ClockRange) :
    Except EditError Schedule :=
  schedule.editGroup index fun group =>
    (group.addBreak index range).map (schedule.replace index)

/-- Takes away the break at a position of a group. -/
def removeBreak (schedule : Schedule) (index position : Nat) : Except EditError Schedule :=
  schedule.editGroup index fun group =>
    if position < group.breaks.length then
      .ok (schedule.replace index { group with breaks := group.breaks.eraseIdx position })
    else .error (.breakOutOfRange position group.breaks.length)

/-- Takes away a group, whose days are closed from then on. -/
def removeGroup (schedule : Schedule) (index : Nat) : Except EditError Schedule :=
  schedule.editGroup index fun _ => .ok (schedule.without index)

/-- The first day of a set that has an owner, with the owner's position. -/
def firstOwned? (schedule : Schedule) (days : WeekdaySet) : Option (Weekday × Nat) :=
  days.toList.findSome? fun day => (schedule.ownerIndex? day).map (day, ·)

/-- Appends a group with at least one day and no day of another group. -/
def append (schedule : Schedule) (value : DayGroup) : Except EditError Schedule :=
  if ¬schedule.IsSound then .error (.invalidSchedule schedule.faults)
  else if value.days.isEmpty then .error .emptyGroup
  else match schedule.firstOwned? value.days with
    | some (day, owner) => .error (.dayAlreadyAssigned day owner)
    | none => (value.rebuild schedule.groups.length).map schedule.push

/-- Takes one step of editing. -/
def edit (schedule : Schedule) : Edit → Except EditError Schedule
  | .addDay group day => schedule.addDay group day
  | .removeDay group day => schedule.removeDay group day
  | .setOpening group range => schedule.setOpening group range
  | .setFullDay group on => schedule.setFullDay group on
  | .addBreak group range => schedule.addBreak group range
  | .removeBreak group index => schedule.removeBreak group index
  | .append value => schedule.append value
  | .removeGroup group => schedule.removeGroup group

/-- Takes one step of editing, or stays where it is when the step is refused. -/
def step (schedule : Schedule) (edit : Edit) : Schedule :=
  match schedule.edit edit with
  | .ok next => next
  | .error _ => schedule

/-- Takes steps of editing one after the other. -/
def run (schedule : Schedule) (edits : List Edit) : Schedule := edits.foldl step schedule

end Schedule

end OpeningHours
