import OpeningHours.Proofs.RuleTexts
import OpeningHours.Proofs.Soundness
import OpeningHours.Proofs.Stretches

/-! The canonical text of a sound schedule reads back to an equivalent schedule. Rule by rule, the
group that is read has the days and the open spans of the group that was written. The days of the
rules keep clear of each other, so that no rule takes a day away from another. -/

namespace OpeningHours

open Peg Weekly Reading OpeningHours.Span

theorem ofTimes_stop_lt {start stop : Int} (h : start % minutesPerDay ≠ stop % minutesPerDay) :
    (ofTimes start stop).stop < (ofTimes start stop).start + minutesPerDay := by
  simp only [ofTimes, minutesPerDay] at *
  split <;> omega

theorem ClockRange.span_stop_lt {range : ClockRange} (h : range.IsValid) :
    range.span.stop < range.span.start + minutesPerDay := by
  obtain ⟨⟨hhour, hminute⟩, ⟨hhour', hminute'⟩, hlength⟩ := h
  have hne : range.start.minuteOfDay ≠ range.stop.minuteOfDay := hlength
  refine ofTimes_stop_lt ?_
  simp only [ClockTime.minuteOfDay, minutesPerDay] at *
  omega

namespace DayGroup

variable {group : DayGroup}

/-- The group as it is read from its text. -/
def readBack (group : DayGroup) : DayGroup :=
  if group.isFullDay then .fullDay group.days
  else match group.openSpans with
    | [] => .closed group.days
    | first :: more => .ofStretches group.days first.stretch (more.map Span.stretch)

@[simp] theorem readBack_days (group : DayGroup) : group.readBack.days = group.days := by
  rw [readBack]
  split
  · rfl
  · split <;> rfl

/-- The open spans of a sound timed group start within the day and take less than a day together. -/
theorem openSpans_total (hsound : group.HasSoundHours) (hday : group.isFullDay = false)
    {first : Span} {more : List Span} (hspans : group.openSpans = first :: more) :
    first.start < minutesPerDay ∧
      ∀ span ∈ first :: more, span.stop < first.start + minutesPerDay := by
  have hseparated := group.openSpans_separated
  rw [hspans] at hseparated
  obtain ⟨minute, -, hbefore, span, hspan, hminute⟩ :=
    exists_covers_before_midnight hsound (by simp [hspans])
  rw [hspans] at hspan
  have hsorted := hseparated.start_le span hspan
  rw [mem_iff] at hminute
  refine ⟨by omega, ?_⟩
  intro other hother
  rcases group.forms with hfull | ⟨-, hnone⟩ | ⟨-, opening, hsome⟩
  · rw [hfull] at hday
    cases hday
  · rw [openSpans_closed hday hnone] at hspans
    cases hspans
  · have hhours := hsound hday
    rw [hsome] at hhours
    have hlength := opening.span_stop_lt hhours.1
    have hgap : ∀ span ∈ first :: more,
        opening.span.start ≤ span.start ∧ span.stop ≤ opening.span.stop := by
      intro span hspan
      rw [← hspans, openSpans_timed hday hsome] at hspan
      obtain ⟨hfrom, -, hto⟩ := gaps_bounds (Int.le_refl _) hspan
      exact ⟨hfrom, hto⟩
    have hfrom := (hgap first (by simp)).1
    have hto := (hgap other hother).2
    omega

section Timed

variable {days : WeekdaySet} {first : Span} {more : List Span}

theorem map_span_stretch (spans : List Span) :
    (spans.map Span.stretch).map Stretch.span = spans := by
  simp [Function.comp_def]

theorem last_stretch_lt (h : ∀ span ∈ first :: more, span.stop < first.start + minutesPerDay) :
    ((more.map Span.stretch).getLast?.getD first.stretch).stop.minute <
      first.stretch.start.minute + minutesPerDay := by
  have hlast : more.getLast?.getD first ∈ first :: more :=
    List.mem_of_getLast? List.getLast?_cons
  rw [List.getLast?_map, Option.getD_map]
  exact h _ hlast

theorem readSelector_clockSelector (hseparated : Separated (first :: more))
    (hwritable : ∀ span ∈ first :: more, span.IsWritable) (hfirst : first.start < minutesPerDay)
    (htotal : ∀ span ∈ first :: more, span.stop < first.start + minutesPerDay) :
    readSelector days (Span.clockSelector (first :: more)) =
      .ok (.ofStretches days first.stretch (more.map Span.stretch)) := by
  have hread : ((first :: more).map Span.clockSpan).mapM readSpan =
      .ok ((first :: more).map Span.stretch) := by
    rw [List.mapM_map]
    apply mapM_ok
    intro span hspan
    have hstart := hseparated.start_le span hspan
    have hstop := htotal span hspan
    exact readSpan_clockSpan (hwritable span hspan) (by omega)
  have hspans : Separated ((first.stretch :: more.map Span.stretch).map Stretch.span) := by
    rw [← List.map_cons, map_span_stretch]
    exact hseparated
  rw [readSelector, Span.clockSelector, hread]
  exact (groupOfSpans_of_separated hspans).trans
    (groupOfStretches_eq hfirst (last_stretch_lt htotal))

end Timed

theorem readBack_openSpans (hsound : group.HasSoundHours) :
    group.readBack.openSpans = group.openSpans := by
  rcases group.hours_forms with ⟨hday, -⟩ | ⟨hday, hspans, -⟩ | ⟨hday, first, more, hspans, -⟩
  · rw [readBack, if_pos hday, openSpans_fullDay hday]
    rfl
  · simp only [readBack, hday, hspans]
    rfl
  · obtain ⟨hfirst, htotal⟩ := openSpans_total hsound hday hspans
    have hseparated := group.openSpans_separated
    have hstart := (group.openSpans_writable first (by simp [hspans])).start_nonneg
    rw [hspans, ← map_span_stretch (first :: more)] at hseparated
    have hopen : (ofStretches group.days first.stretch (more.map Span.stretch)).openSpans = _ :=
      openSpans_of_separated hseparated ⟨hstart, hfirst⟩ (last_stretch_lt htotal)
    simp only [readBack, hday, hspans]
    exact hopen.trans (map_span_stretch (first :: more))

theorem readRule_rule (hsound : group.HasSoundHours) :
    readRule group.rule = .ok group.readBack := by
  simp only [rule, readRule, readDays_items]
  change readBody group.days group.render group.body = _
  rcases group.hours_forms with
    ⟨hday, -, hbody⟩ | ⟨hday, hspans, -, hbody⟩ | ⟨hday, first, more, hspans, -, hbody⟩
  · rw [hbody, readBack, if_pos hday]
    rfl
  · rw [hbody]
    simp only [readBack, hday, hspans]
    rfl
  · obtain ⟨hfirst, htotal⟩ := openSpans_total hsound hday hspans
    have hseparated := group.openSpans_separated
    have hwritable := group.openSpans_writable
    rw [hspans] at hseparated hwritable
    rw [hbody]
    simp only [readBack, hday, hspans]
    exact readSelector_clockSelector hseparated hwritable hfirst htotal

end DayGroup

namespace Schedule

/-! ### Rules one after the other -/

section Rules

variable {groups : List DayGroup} {rest : List Char}

/-- A rule with days of its own takes no day away from the rules before it. -/
theorem addRule_of_disjoint {group : DayGroup}
    (hsome : ∀ other ∈ groups, ∃ day, other.days.contains day = true)
    (hdisjoint : ∀ other ∈ groups, other.days.Disjoint group.days) :
    addRule ⟨groups⟩ group = ⟨groups ++ [group]⟩ := by
  have hmap : groups.map (fun g => { g with days := g.days \ group.days }) = groups := by
    refine (List.map_congr_left fun other hother => ?_).trans (List.map_id groups)
    rw [(hdisjoint other hother).diff_eq, id]
  have hfilter : groups.filter (fun g => !g.days.isEmpty) = groups := by
    apply List.filter_eq_self.mpr
    intro other hother
    rw [WeekdaySet.isEmpty_eq_false_iff.mpr (hsome other hother)]
    rfl
  simp only [addRule, hmap, hfilter]

theorem foldl_addRule (before : List DayGroup)
    (hsome : ∀ group ∈ before ++ groups, ∃ day, group.days.contains day = true)
    (hdisjoint : (before ++ groups).Pairwise fun a b => a.days.Disjoint b.days) :
    groups.foldl addRule ⟨before⟩ = ⟨before ++ groups⟩ := by
  induction groups generalizing before with
  | nil => rw [List.foldl_nil, List.append_nil]
  | cons group rest ih =>
    have hfirst := (List.pairwise_append.mp hdisjoint).2.2
    rw [List.foldl_cons, addRule_of_disjoint
      (fun other hother => hsome other (List.mem_append_left _ hother))
      (fun other hother => hfirst other hother group (by simp))]
    have hnext : before ++ group :: rest = before ++ [group] ++ rest := List.append_cons ..
    rw [hnext] at hsome hdisjoint ⊢
    exact ih _ hsome hdisjoint

/-- The rules of a sound schedule are read one by one. -/
theorem readRules_rules (h : WellFormed groups) :
    readRules (groups.map DayGroup.rule) = .ok ⟨groups.map DayGroup.readBack⟩ := by
  have hread : (groups.map DayGroup.rule).mapM readRule = .ok (groups.map DayGroup.readBack) := by
    rw [List.mapM_map]
    exact mapM_ok fun group hgroup => DayGroup.readRule_rule (h.hours group hgroup)
  have hfold : (groups.map DayGroup.readBack).foldl addRule ⟨[]⟩ =
      ⟨groups.map DayGroup.readBack⟩ := by
    refine foldl_addRule [] ?_ ?_
    · simpa using h.inhabited
    · simpa [List.pairwise_map] using h.disjoint
  rw [readRules, hread]
  exact congrArg Except.ok hfold

theorem rules_spelled {first : DayGroup} {more : List DayGroup}
    (hsome : ∀ group ∈ first :: more, ∃ day, group.days.contains day = true) :
    RulesSpelled ("; ".toList.intercalate ((first :: more).map DayGroup.render))
      ((first :: more).map DayGroup.rule) := by
  have hglue : IsMark ';' "; ".toList :=
    ⟨[], [' '], nofun, by simp [AllBlank, CharClass.has], rfl⟩
  exact listed_intercalate hglue fun group hgroup => DayGroup.rule_spelled (hsome group hgroup)

end Rules

/-! ### The whole text -/

variable {schedule : Schedule}

/-- The rules of a sound schedule are read group by group. -/
theorem readChars_rules {first : DayGroup} {more : List DayGroup}
    (h : WellFormed (first :: more)) :
    readChars ("; ".toList.intercalate ((first :: more).map DayGroup.render)) =
      .ok ⟨(first :: more).map DayGroup.readBack⟩ := by
  rw [readChars_of_spelled (rules_spelled h.inhabited), readRules_rules h]

theorem read_always : readChars "24/7".toList = .ok ⟨[.fullDay .all]⟩ := rfl

theorem read_never : readChars "off".toList = .ok ⟨[.closed .all]⟩ := rfl

theorem owner?_readBack (groups : List DayGroup) (day : Weekday) :
    (⟨groups.map DayGroup.readBack⟩ : Schedule).owner? day =
      ((⟨groups⟩ : Schedule).owner? day).map DayGroup.readBack := by
  simp only [owner?, List.find?_map, Function.comp_def, DayGroup.readBack_days]

/-- The groups that are read back open as those that were written. -/
theorem equivalent_readBack (h : WellFormed schedule.groups) :
    (⟨schedule.groups.map DayGroup.readBack⟩ : Schedule).Equivalent schedule := by
  intro day
  rw [openSpans, owner?_readBack, openSpans]
  cases howner : schedule.owner? day with
  | none => rfl
  | some group =>
    have hmem : group ∈ schedule.groups := List.mem_of_find?_eq_some howner
    exact DayGroup.readBack_openSpans (h.hours group hmem)

theorem rules_eq (h : WellFormed schedule.groups) :
    schedule.rules = schedule.groups.map DayGroup.render := by
  rw [rules, List.filter_eq_self.mpr fun group hgroup => ?_]
  rw [WeekdaySet.isEmpty_eq_false_iff.mpr (h.inhabited group hgroup)]
  rfl

/-- The canonical text of a sound schedule reads back to an equivalent schedule. -/
theorem read_text_equivalent (hsound : schedule.IsSound) :
    ∃ other, Schedule.read schedule.text = .ok other ∧ other.Equivalent schedule := by
  have hformed := isSound_iff.mp hsound
  rw [Schedule.read, text, String.toList_ofList, render, rules_eq hformed]
  split
  · rename_i halways
    refine ⟨_, read_always, fun day => ?_⟩
    obtain ⟨group, howner, hday⟩ := (Option.any_eq_true _ _).mp (halways day)
    rw [openSpans, openSpans, howner, Option.elim, DayGroup.openSpans_fullDay hday]
    simp [owner?, DayGroup.fullDay, DayGroup.openSpans]
  · cases hgroups : schedule.groups with
    | nil =>
      refine ⟨_, read_never, fun day => ?_⟩
      simp [openSpans, owner?, hgroups, DayGroup.closed, DayGroup.openSpans, DayGroup.openingSpan?]
    | cons first more =>
      rw [hgroups] at hformed
      have hequivalent := equivalent_readBack (isSound_iff.mp hsound)
      rw [hgroups] at hequivalent
      rw [if_neg (by simp)]
      exact ⟨_, readChars_rules hformed, hequivalent⟩

theorem read_text_equivalent_nights :
    nights.IsSound ∧ nights.text = "Fr,Sa 20:00-23:30,24:30-25:00,26:00-32:00; Su open" ∧
      ∃ other, Schedule.read nights.text = .ok other ∧ other.Equivalent nights :=
  ⟨by decide, by decide, read_text_equivalent (by decide)⟩

end Schedule

end OpeningHours
