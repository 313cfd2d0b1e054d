import OpeningHours.Proofs.WeeklyTexts
import OpeningHours.Reading.Rules
import OpeningHours.Schedule.Rendering

/-! The days of a rule as they are written and as they are read. The runs of a set have its days
and no others, the items that write them are spelled as the grammar has them, and so the days come
back. -/

namespace OpeningHours

open Peg Weekly Reading

/-- A day of a text, or a run of days with its last one. -/
structure DayItem where
  first : Weekday
  last : Option Weekday

theorem WeekdaySet.contains_singleton (day other : Weekday) :
    (ofList [day]).contains other = (other == day) := by
  rw [contains_ofList, List.contains_cons, List.contains_nil, Bool.or_false]

namespace DayItem

/-- The item as it is written. -/
def text (item : DayItem) : List Char :=
  item.first.letters ++ item.last.elim [] fun last => '-' :: last.letters

/-- The item as the grammar has it. -/
def daySpan (item : DayItem) : DaySpan := ⟨item.first.letters, item.last.map Weekday.letters⟩

/-- The days that the item names. -/
def days (item : DayItem) : WeekdaySet :=
  item.last.elim (.ofList [item.first]) (WeekdaySet.range item.first)

/-- The items that write a run: two days in a row stay apart. -/
def ofRun (first last : Weekday) : List DayItem :=
  if first = last then [⟨first, none⟩]
  else if first.index + 1 = last.index then [⟨first, none⟩, ⟨last, none⟩]
  else [⟨first, some last⟩]

theorem ofRun_ne_nil (first last : Weekday) : ofRun first last ≠ [] := by
  rw [ofRun]
  split
  · simp
  · split <;> simp

theorem intercalate_ofRun (first last : Weekday) :
    [','].intercalate ((ofRun first last).map text) = WeekdaySet.renderRun first last := by
  rw [ofRun, WeekdaySet.renderRun]
  split
  · simp [text]
  · split <;> simp [text]

theorem contains_ofRun (first last day : Weekday) :
    ((ofRun first last).any fun item => item.days.contains day) =
      (WeekdaySet.range first last).contains day := by
  rw [ofRun]
  split
  · rename_i heq
    simp [days, heq]
  · split
    · rename_i hne hnext
      have hsucc : first.succ = last := by rw [Weekday.succ, hnext, Weekday.ofIndex_index]
      rw [WeekdaySet.range_succ hne, hsucc]
      simp only [days, List.any_cons, List.any_nil, Option.elim, WeekdaySet.range_self,
        WeekdaySet.contains_insert, WeekdaySet.contains_singleton, Bool.or_false]
      exact Bool.or_comm _ _
    · simp [days]

theorem readDaySpan_daySpan (item : DayItem) : readDaySpan item.daySpan = .ok item.days := by
  have hread : ∀ day : Weekday, readDay day.letters = .ok day := by simp [readDay]
  obtain ⟨first, _ | last⟩ := item
  · simp only [readDaySpan, daySpan, Option.map_none, hread]
    rfl
  · simp only [readDaySpan, daySpan, Option.map_some, hread]
    rfl

end DayItem

namespace WeekdaySet

theorem consRun_ordered {day : Weekday} {runs : List (Weekday × Weekday)}
    (h : ∀ run ∈ runs, run.1.index ≤ run.2.index) :
    ∀ run ∈ consRun day runs, run.1.index ≤ run.2.index := by
  cases runs with
  | nil => simp [consRun]
  | cons run rest =>
    obtain ⟨hrun, hrest⟩ := List.forall_mem_cons.mp h
    rw [consRun]
    split
    · refine List.forall_mem_cons.mpr ⟨?_, hrest⟩
      simp only
      omega
    · exact List.forall_mem_cons.mpr ⟨Nat.le_refl _, h⟩

theorem contains_consRun {day other : Weekday} {runs : List (Weekday × Weekday)}
    (h : ∀ run ∈ runs, run.1.index ≤ run.2.index) :
    ((consRun day runs).any fun run => (range run.1 run.2).contains other) =
      (other == day || runs.any fun run => (range run.1 run.2).contains other) := by
  have hday : (range day day).contains other = (other == day) := by
    rw [range_self, contains_singleton]
  cases runs with
  | nil => rw [consRun, List.any_cons, hday, List.any_nil]
  | cons run rest =>
    obtain ⟨first, last⟩ := run
    have hrun : first.index ≤ last.index := h (first, last) (by simp)
    rw [consRun]
    split
    · rename_i hnext
      have hne : day ≠ last := by
        rintro rfl
        omega
      have hsucc : day.succ = first := by rw [Weekday.succ, hnext, Weekday.ofIndex_index]
      rw [List.any_cons, List.any_cons, range_succ hne, hsucc, contains_insert, ← Bool.or_assoc,
        Bool.or_comm (other == day)]
    · rw [List.any_cons, hday]

theorem foldr_consRun_ordered (days : List Weekday) :
    ∀ run ∈ days.foldr consRun [], run.1.index ≤ run.2.index := by
  induction days with
  | nil => simp
  | cons day rest ih => exact consRun_ordered ih

/-- The runs have the days of the set and no others. -/
theorem contains_runs (days : WeekdaySet) (day : Weekday) :
    (days.runs.any fun run => (range run.1 run.2).contains day) = days.contains day := by
  have hlist : ∀ list : List Weekday,
      ((list.foldr consRun []).any fun run => (range run.1 run.2).contains day) =
        list.contains day := by
    intro list
    induction list with
    | nil => rfl
    | cons other rest ih =>
      rw [List.foldr_cons, contains_consRun (foldr_consRun_ordered rest), ih, List.contains_cons]
  rw [runs, hlist, Bool.eq_iff_iff, List.contains_iff_mem, mem_toList]

/-- The items that write the days. -/
def items (days : WeekdaySet) : List DayItem :=
  days.runs.flatMap fun run => DayItem.ofRun run.1 run.2

theorem contains_items (days : WeekdaySet) (day : Weekday) :
    (days.items.any fun item => item.days.contains day) = days.contains day := by
  simp only [items, List.any_flatMap, DayItem.contains_ofRun, contains_runs]

theorem items_ne_nil {days : WeekdaySet} (h : ∃ day, days.contains day = true) :
    days.items ≠ [] := by
  obtain ⟨day, hday⟩ := h
  intro hnil
  rw [← contains_items, hnil] at hday
  cases hday

theorem render_eq (days : WeekdaySet) :
    days.render = [','].intercalate (days.items.map DayItem.text) := by
  have hruns : ∀ list ∈ days.runs.map fun run => (DayItem.ofRun run.1 run.2).map DayItem.text,
      list ≠ [] := by
    intro list hlist
    obtain ⟨run, -, rfl⟩ := List.mem_map.mp hlist
    exact mt List.map_eq_nil_iff.mp (DayItem.ofRun_ne_nil run.1 run.2)
  rw [items, List.map_flatMap, List.flatMap_def, intercalate_flatten hruns, List.map_map, render]
  congr 1
  exact List.map_congr_left fun run _ => (DayItem.intercalate_ofRun run.1 run.2).symm

theorem contains_foldl_union (sets : List WeekdaySet) (days : WeekdaySet) (day : Weekday) :
    (sets.foldl (· ∪ ·) days).contains day = (days.contains day || sets.any (·.contains day)) := by
  induction sets generalizing days with
  | nil => simp
  | cons set rest ih => rw [List.foldl_cons, ih, contains_union, List.any_cons, Bool.or_assoc]

end WeekdaySet

/-- The days that some items name. -/
def DayItem.union (items : List DayItem) : WeekdaySet :=
  .ofTest fun day => items.any fun item => item.days.contains day

theorem readDays_daySpans (items : List DayItem) :
    readDays (items.map DayItem.daySpan) = .ok (DayItem.union items) := by
  have hread : (items.map DayItem.daySpan).mapM readDaySpan = .ok (items.map DayItem.days) := by
    rw [List.mapM_map]
    exact mapM_ok fun item _ => item.readDaySpan_daySpan
  have hunion : (items.map DayItem.days).foldl (· ∪ ·) ∅ = DayItem.union items := by
    ext day
    rw [WeekdaySet.contains_foldl_union, WeekdaySet.contains_empty, Bool.false_or, List.any_map,
      DayItem.union, WeekdaySet.contains_ofTest]
    rfl
  rw [readDays, hread]
  exact congrArg Except.ok hunion

/-- The items of a set read back to the set. -/
theorem readDays_items (days : WeekdaySet) :
    readDays (days.items.map DayItem.daySpan) = .ok days := by
  have hunion : DayItem.union days.items = days := by
    ext day
    rw [DayItem.union, WeekdaySet.contains_ofTest, WeekdaySet.contains_items]
  rw [readDays_daySpans, hunion]

/-! ### The grammar of the days -/

theorem isName_letters (day : Weekday) : IsName day.letters := by
  cases day <;> exact ⟨_, _, rfl, by decide, by decide⟩

theorem DayItem.spelled (item : DayItem) : item.daySpan.Spelled item.text := by
  obtain ⟨first, _ | last⟩ := item
  · rw [text, Option.elim, List.append_nil]
    exact .one ⟨rfl, isName_letters first⟩
  · exact .pair ⟨rfl, isName_letters first⟩ (.alone '-') ⟨rfl, isName_letters last⟩

/-- The text of some days is that of the items that write them. -/
theorem render_spelled {days : WeekdaySet} (hsome : ∃ day, days.contains day = true) :
    DaysSpelled days.render (days.items.map DayItem.daySpan) := by
  obtain ⟨first, more, hitems⟩ := List.exists_cons_of_ne_nil (WeekdaySet.items_ne_nil hsome)
  rw [WeekdaySet.render_eq, hitems]
  exact listed_intercalate (.alone ',') fun item _ => item.spelled

end OpeningHours
