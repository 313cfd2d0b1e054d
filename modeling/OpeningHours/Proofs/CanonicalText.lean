import OpeningHours.Proofs.Agreement
import OpeningHours.Proofs.RoundTrip

/-! The canonical text of any schedule, sound or not, is well formed. Whatever times a group stores,
its open spans lie in the two days that hours can reach, so that each of its rules is a rule of the
written language, and the text of the schedule is made of such rules. -/

namespace OpeningHours

open Peg Reading Weekly

/-! ### The rule of a group -/

section Rule

variable {minute : Int}

theorem renderMinute_clockText (hlow : 0 ≤ minute) (hhigh : minute ≤ lastMinute) :
    ClockText (Span.renderMinute minute) minute :=
  clockText_iff.mpr ⟨renderMinute_isClock hlow hhigh, true, readClock_renderMinute hlow hhigh⟩

/-- The two times of a span as they are written. -/
def Span.asWritten (span : Span) : Span := ⟨span.start, span.writtenStop⟩

theorem Span.IsWritable.written {span : Span} (h : span.IsWritable) :
    Span.Written span.render span.asWritten := by
  obtain ⟨hlow, hhigh⟩ := h.writtenStop_bounds
  exact .pair (renderMinute_clockText h.start_nonneg h.start_le) (.alone '-')
    (renderMinute_clockText hlow hhigh)

theorem DayItem.written (item : DayItem) : item.Written item.text := by
  obtain ⟨first, _ | last⟩ := item
  · rw [text, Option.elim, List.append_nil]
    exact .one rfl
  · exact .pair (g := ['-']) rfl (.alone '-') rfl

theorem WeekdaySet.render_written {days : WeekdaySet} (hsome : ∃ day, days.contains day = true) :
    Listed ',' DayItem.Written days.render days.items := by
  obtain ⟨first, more, hitems⟩ := List.exists_cons_of_ne_nil (WeekdaySet.items_ne_nil hsome)
  have hlist : Listed ',' DayItem.Written ([','].intercalate ((first :: more).map DayItem.text))
      ((first :: more).map id) := listed_intercalate (.alone ',') fun item _ => item.written
  rw [WeekdaySet.render_eq, hitems]
  rwa [List.map_id] at hlist

theorem DayGroup.hours_written (group : DayGroup) :
    ∃ hours, Hours.Written group.hoursText hours := by
  rcases group.hours_forms with
    ⟨-, htext, -⟩ | ⟨-, -, htext, -⟩ | ⟨-, first, more, hspans, htext, -⟩
  · rw [htext]
    exact ⟨_, .opened⟩
  · rw [htext]
    exact ⟨_, .off⟩
  · have hwritable := group.openSpans_writable
    rw [hspans] at hwritable
    rw [htext]
    exact ⟨_, .spans (listed_intercalate (.alone ',') fun span hspan =>
      (hwritable span hspan).written)⟩

/-- The text of a group with a day is a rule, whatever the hours of the group. -/
theorem DayGroup.render_ruleText {group : DayGroup}
    (hsome : ∃ day, group.days.contains day = true) :
    ∃ items hours, RuleText group.render items hours := by
  obtain ⟨hours, hwritten⟩ := group.hours_written
  have hgap : AllBlank [' '] := by simp [AllBlank, CharClass.has]
  have hword : [' '] = [] → ∃ written, hours = .spans written := by simp
  exact ⟨_, _, .both (WeekdaySet.render_written hsome) hgap hword hwritten⟩

end Rule

/-! ### The whole text -/

/-- Texts of rules with semicolons between them are read in the wider language, which finds nothing
in them that a weekly schedule has no place for. -/
theorem Language.run_outline_of_ruleTexts {text : List Char} {weeklies : List Weekly.Rule}
    (h : RulesSpelled text weeklies)
    (hrules : ∀ weekly ∈ weeklies, ∃ items hours, RuleText weekly.text items hours) :
    ∃ outline, Language.outline.run text = some (outline, []) ∧ outline.IsPlain := by
  have hplain : ∀ weekly ∈ weeklies, ∀ {t rest}, weekly.Spelled t → RuleEnds rest →
      ReadsPlainly t rest := by
    intro weekly hweekly t rest hspelled hends
    obtain ⟨items, hours, hrule⟩ := hrules weekly hweekly
    rw [hspelled.1] at hrule
    exact reads_rule hrule hends
  have hend : AllBlank [] := by simp [AllBlank]
  obtain ⟨outline, houtline, hplain, -⟩ := reads_rules_of_plain h hplain hend
  have hmisses : CharClass.blank.Misses (text ++ []) := (h.begins rule_starts).misses []
  exact ⟨outline, run_document_iff.mpr ⟨rfl, [], text, [], hend, hend, by simp, hmisses,
    houtline⟩, hplain⟩

namespace Schedule

/-- The canonical text is made of rules. -/
theorem render_rulesSpelled (schedule : Schedule) :
    ∃ weeklies, RulesSpelled schedule.render weeklies ∧
      ∀ weekly ∈ weeklies, ∃ items hours, RuleText weekly.text items hours := by
  by_cases halways : schedule.IsAlwaysOpen
  · refine ⟨[⟨"24/7".toList, .alwaysOpen⟩], ?_, ?_⟩
    · rw [render, if_pos halways]
      exact .one ⟨rfl, .always⟩
    · exact List.forall_mem_singleton.mpr ⟨_, _, .always⟩
  · have hsome : ∀ group ∈ schedule.groups.filter fun group => !group.days.isEmpty,
        ∃ day, group.days.contains day = true := by
      intro group hgroup
      have := (List.mem_filter.mp hgroup).2
      exact WeekdaySet.isEmpty_eq_false_iff.mp (by simpa using this)
    rw [render, if_neg halways, rules]
    generalize schedule.groups.filter (fun group => !group.days.isEmpty) = groups at hsome
    cases groups with
    | nil =>
      refine ⟨[⟨"off".toList, .body (.modifier .closed)⟩], ?_, ?_⟩
      · exact .one ⟨rfl, .body (.modifier .off)⟩
      · exact List.forall_mem_singleton.mpr ⟨_, _, .hours .off⟩
    | cons first more =>
      refine ⟨(first :: more).map DayGroup.rule, rules_spelled hsome, ?_⟩
      exact List.forall_mem_map.mpr fun group hgroup => DayGroup.render_ruleText (hsome group hgroup)

/-- The canonical text is well formed, whatever is wrong with the schedule. -/
theorem isWellFormed_text (schedule : Schedule) : isWellFormed schedule.text = true := by
  obtain ⟨weeklies, hspelled, hrules⟩ := schedule.render_rulesSpelled
  obtain ⟨outline, hrun, -⟩ := Language.run_outline_of_ruleTexts hspelled hrules
  have hchars : schedule.text.toList = schedule.render := String.toList_ofList
  rw [isWellFormed, matches?, hchars, hrun]
  rfl

/-- Times past the day, a day with two groups and a group without days are faults that the text does
not show. -/
theorem isWellFormed_text_unsound :
    let early : DayGroup :=
      { days := .ofList [.monday, .wednesday]
        opening := some ⟨⟨25, 99, true⟩, ⟨8, 0, true⟩⟩
        breaks := [⟨⟨7, 0, true⟩, ⟨30, 0, true⟩⟩] }
    let late : DayGroup := .timed (.ofList [.wednesday]) ⟨⟨22, 0, true⟩, ⟨2, 30, true⟩⟩
    let schedule : Schedule := ⟨[early, late, .fullDay ∅]⟩
    ¬schedule.IsSound ∧ schedule.text = "Mo,We 02:39-07:00; We 22:00-02:30" ∧
      isWellFormed schedule.text = true := by
  intro early late schedule
  exact ⟨by decide, by decide, isWellFormed_text schedule⟩

end Schedule

end OpeningHours
