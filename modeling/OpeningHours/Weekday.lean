/-! The seven days of the week, Monday first, with their two-letter names and their cyclic order. -/

namespace OpeningHours

/-- A day of the week. -/
inductive Weekday where
  | monday | tuesday | wednesday | thursday | friday | saturday | sunday
  deriving DecidableEq, Repr

namespace Weekday

/-- All days, Monday first. -/
def all : List Weekday :=
  [monday, tuesday, wednesday, thursday, friday, saturday, sunday]

theorem mem_all (day : Weekday) : day ∈ all := by cases day <;> decide

instance (p : Weekday → Prop) [DecidablePred p] : Decidable (∀ day, p day) :=
  decidable_of_iff (∀ day ∈ all, p day) ⟨fun h day => h day (mem_all day), fun h day _ => h day⟩

/-- The position of a day in the week, 0 for Monday. -/
def index : Weekday → Nat
  | monday => 0
  | tuesday => 1
  | wednesday => 2
  | thursday => 3
  | friday => 4
  | saturday => 5
  | sunday => 6

theorem index_lt (day : Weekday) : day.index < 7 := by cases day <;> decide

/-- The day at a position counted on through the weeks: position 7 is a Monday again. -/
def ofIndex (n : Nat) : Weekday :=
  match n % 7 with
  | 0 => monday
  | 1 => tuesday
  | 2 => wednesday
  | 3 => thursday
  | 4 => friday
  | 5 => saturday
  | _ => sunday

@[simp] theorem ofIndex_index (day : Weekday) : ofIndex day.index = day := by cases day <;> rfl

theorem ofIndex_congr {a b : Nat} (h : a % 7 = b % 7) : ofIndex a = ofIndex b := by
  rw [ofIndex, ofIndex, h]

theorem index_ofIndex (n : Nat) : (ofIndex n).index = n % 7 := by
  have hweek : ∀ k < 7, (ofIndex k).index = k := by decide
  rw [ofIndex_congr (Nat.mod_mod n 7).symm]
  exact hweek (n % 7) (Nat.mod_lt n (by decide))

/-- The day after. -/
def succ (day : Weekday) : Weekday := ofIndex (day.index + 1)

/-- The day before. -/
def pred (day : Weekday) : Weekday := ofIndex (day.index + 6)

@[simp] theorem pred_succ (day : Weekday) : day.succ.pred = day := by cases day <;> rfl

@[simp] theorem succ_pred (day : Weekday) : day.pred.succ = day := by cases day <;> rfl

/-- The two letters that name a day in a text. -/
def letters : Weekday → List Char
  | monday => ['M', 'o']
  | tuesday => ['T', 'u']
  | wednesday => ['W', 'e']
  | thursday => ['T', 'h']
  | friday => ['F', 'r']
  | saturday => ['S', 'a']
  | sunday => ['S', 'u']

/-- The day that two letters name; case counts. -/
def ofLetters? (letters : List Char) : Option Weekday := all.find? (·.letters == letters)

@[simp] theorem ofLetters?_letters (day : Weekday) : ofLetters? day.letters = some day := by
  cases day <;> rfl

theorem letters_of_ofLetters? {letters : List Char} {day : Weekday}
    (h : ofLetters? letters = some day) : letters = day.letters := by
  have found := List.find?_some h
  simp at found
  exact found.symm

/-- The name of a day as a string. -/
def token (day : Weekday) : String := String.ofList day.letters

end Weekday

end OpeningHours
