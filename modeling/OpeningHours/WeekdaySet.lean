import OpeningHours.Weekday

/-! Sets of weekdays. A set is known by its members: two sets with the same days are equal, and
`toList` gives the days Monday first, whatever the order in which they came in. -/

namespace OpeningHours

/-- A set of weekdays, one mark for each day. -/
structure WeekdaySet where
  monday : Bool
  tuesday : Bool
  wednesday : Bool
  thursday : Bool
  friday : Bool
  saturday : Bool
  sunday : Bool
  deriving DecidableEq, Repr

namespace WeekdaySet

/-- Whether the set has the day. -/
def contains (days : WeekdaySet) : Weekday → Bool
  | .monday => days.monday
  | .tuesday => days.tuesday
  | .wednesday => days.wednesday
  | .thursday => days.thursday
  | .friday => days.friday
  | .saturday => days.saturday
  | .sunday => days.sunday

instance : Membership Weekday WeekdaySet := ⟨fun days day => days.contains day = true⟩

instance (day : Weekday) (days : WeekdaySet) : Decidable (day ∈ days) :=
  inferInstanceAs (Decidable (days.contains day = true))

theorem mem_iff_contains {day : Weekday} {days : WeekdaySet} :
    day ∈ days ↔ days.contains day = true := Iff.rfl

/-- Sets with the same members are equal. -/
@[ext] theorem ext {a b : WeekdaySet} (h : ∀ day, a.contains day = b.contains day) : a = b := by
  cases a
  cases b
  simp only [mk.injEq]
  exact ⟨h .monday, h .tuesday, h .wednesday, h .thursday, h .friday, h .saturday, h .sunday⟩

/-- The days that pass a test. -/
def ofTest (test : Weekday → Bool) : WeekdaySet :=
  ⟨test .monday, test .tuesday, test .wednesday, test .thursday, test .friday, test .saturday,
    test .sunday⟩

@[simp] theorem contains_ofTest (test : Weekday → Bool) (day : Weekday) :
    (ofTest test).contains day = test day := by cases day <;> rfl

/-- No day. -/
def empty : WeekdaySet := ofTest fun _ => false

/-- Every day. -/
def all : WeekdaySet := ofTest fun _ => true

/-- The days of a list. -/
def ofList (days : List Weekday) : WeekdaySet := ofTest fun day => days.contains day

/-- The days of the set, Monday first. -/
def toList (days : WeekdaySet) : List Weekday := Weekday.all.filter days.contains

/-- The number of days. -/
def size (days : WeekdaySet) : Nat := days.toList.length

/-- Whether no day is in the set. -/
def isEmpty (days : WeekdaySet) : Bool := days == empty

/-- Whether all seven days are in the set. -/
def isFull (days : WeekdaySet) : Bool := days == all

/-- The set with a day put in. -/
def insert (days : WeekdaySet) (day : Weekday) : WeekdaySet :=
  ofTest fun other => days.contains other || other == day

/-- The set with a day taken out. -/
def erase (days : WeekdaySet) (day : Weekday) : WeekdaySet :=
  ofTest fun other => days.contains other && other != day

/-- The days of either set. -/
def union (a b : WeekdaySet) : WeekdaySet := ofTest fun day => a.contains day || b.contains day

/-- The days of both sets. -/
def inter (a b : WeekdaySet) : WeekdaySet := ofTest fun day => a.contains day && b.contains day

/-- The days of the first set that are not in the second. -/
def diff (a b : WeekdaySet) : WeekdaySet := ofTest fun day => a.contains day && !b.contains day

/-- The days that are not in the set. -/
def complement (days : WeekdaySet) : WeekdaySet := ofTest fun day => !days.contains day

instance : EmptyCollection WeekdaySet := ⟨empty⟩
instance : Union WeekdaySet := ⟨union⟩
instance : Inter WeekdaySet := ⟨inter⟩
instance : SDiff WeekdaySet := ⟨diff⟩

/-- The days from `first` on to `last`, both included, past Sunday if `last` comes earlier in the
week: a day is among them when it is no further from `first` than `last` is. -/
def range (first last : Weekday) : WeekdaySet :=
  ofTest fun day => (day.index + 7 - first.index) % 7 ≤ (last.index + 7 - first.index) % 7

@[simp] theorem contains_empty (day : Weekday) : (∅ : WeekdaySet).contains day = false :=
  contains_ofTest _ day

@[simp] theorem contains_all (day : Weekday) : all.contains day = true := contains_ofTest _ day

@[simp] theorem contains_ofList (days : List Weekday) (day : Weekday) :
    (ofList days).contains day = days.contains day := contains_ofTest _ day

@[simp] theorem contains_insert (days : WeekdaySet) (day other : Weekday) :
    (days.insert day).contains other = (days.contains other || other == day) :=
  contains_ofTest _ other

@[simp] theorem contains_erase (days : WeekdaySet) (day other : Weekday) :
    (days.erase day).contains other = (days.contains other && other != day) :=
  contains_ofTest _ other

@[simp] theorem contains_union (a b : WeekdaySet) (day : Weekday) :
    (a ∪ b).contains day = (a.contains day || b.contains day) := contains_ofTest _ day

@[simp] theorem contains_inter (a b : WeekdaySet) (day : Weekday) :
    (a ∩ b).contains day = (a.contains day && b.contains day) := contains_ofTest _ day

@[simp] theorem contains_diff (a b : WeekdaySet) (day : Weekday) :
    (a \ b).contains day = (a.contains day && !b.contains day) := contains_ofTest _ day

@[simp] theorem contains_complement (days : WeekdaySet) (day : Weekday) :
    days.complement.contains day = !days.contains day := contains_ofTest _ day

@[simp] theorem mem_toList {day : Weekday} {days : WeekdaySet} :
    day ∈ days.toList ↔ days.contains day = true := by
  simp [toList, Weekday.mem_all]

theorem isEmpty_iff {days : WeekdaySet} :
    days.isEmpty = true ↔ ∀ day, days.contains day = false := by
  rw [isEmpty, beq_iff_eq]
  exact ⟨fun h day => h ▸ contains_empty day, fun h => ext fun day => by
    rw [h day]
    exact (contains_empty day).symm⟩

theorem isFull_iff {days : WeekdaySet} : days.isFull = true ↔ ∀ day, days.contains day = true := by
  rw [isFull, beq_iff_eq]
  exact ⟨fun h day => h ▸ contains_all day, fun h => ext fun day => by rw [h day, contains_all]⟩

/-- A range runs from its first day, and by steps of one day, on to its last day. -/
theorem range_succ {first last : Weekday} (h : first ≠ last) :
    range first last = (range first.succ last).insert first := by
  revert h
  cases first <;> cases last <;> decide

@[simp] theorem range_self (day : Weekday) : range day day = ofList [day] := by
  cases day <;> decide

end WeekdaySet

end OpeningHours
