import OpeningHours.Proofs.ClockTexts
import OpeningHours.Proofs.DayTexts
import OpeningHours.Proofs.OpenHours
import OpeningHours.Reading.Rules

/-! The rules of a schedule as they are written and as the grammar has them. Every group with a day
is written as a rule of days with hours, whether or not its hours are sound, and a text that the
grammar matches is read rule by rule. -/

namespace OpeningHours

open Peg Weekly Reading

section Texts

variable {x : Char} {text rest : List Char} {rules : List Weekly.Rule} {result : Schedule}

theorem isBlank_of_begin (h : CharClass.letter.has x = true ∨ CharClass.digit.has x = true) :
    Text.isBlank x = false := by
  simp [CharClass.has, Char.le_def, UInt32.le_iff_toNat_le, Text.isBlank, Text.blankRanges] at *
  omega

theorem not_all_blank (h : schedule.run text = some (rules, rest)) :
    text.all Text.isBlank = false := by
  obtain ⟨-, front, t, back, -, -, rfl, hrules⟩ := run_schedule_iff.mp h
  obtain ⟨x, u, rfl, hx⟩ := hrules.begins fun hrule => clause_begins hrule.2
  simp [isBlank_of_begin hx]

/-- A text that the grammar matches is read rule by rule. -/
theorem readChars_eq_readRules (h : schedule.run text = some (rules, rest)) :
    readChars text = readRules rules := by
  rw [readChars, if_neg (by simp [not_all_blank h]), h]

theorem readChars_of_spelled (h : RulesSpelled text rules) : readChars text = readRules rules := by
  have htext : text = [] ++ (text ++ []) := (List.append_nil text).symm
  exact readChars_eq_readRules
    (run_schedule_iff.mpr ⟨rfl, [], text, [], nofun, nofun, htext, h⟩)

theorem readChars_of_refuses (h : schedule.Refuses text) :
    readChars text = .error .empty ∨ readChars text = .error (explain text) := by
  rw [readChars]
  split
  · exact .inl rfl
  · rw [h]
    exact .inr rfl

theorem readRules_eq_ok_iff : readRules rules = .ok result ↔
    ∃ groups, List.Forall₂ (fun rule group => readRule rule = .ok group) rules groups ∧
      groups.foldl addRule {} = result := by
  simp only [← mapM_eq_ok_iff]
  cases hread : rules.mapM readRule with
  | error e => simp [readRules, hread, bind, Except.bind]
  | ok groups => simp [readRules, hread, bind, Except.bind, pure, Except.pure]

/-- A text is read if it matches the weekly grammar and each of its rules is read. -/
theorem readChars_eq_ok_iff_rules : readChars text = .ok result ↔
    ∃ rules, schedule.run text = some (rules, []) ∧
      ∃ groups, List.Forall₂ (fun rule group => readRule rule = .ok group) rules groups ∧
        groups.foldl addRule {} = result := by
  simp only [← readRules_eq_ok_iff]
  constructor
  · intro hread
    cases hrun : schedule.run text with
    | none =>
      rcases readChars_of_refuses hrun with herror | herror <;> rw [herror] at hread <;> cases hread
    | some found =>
      obtain ⟨rules, rest⟩ := found
      obtain ⟨rfl, -⟩ := run_schedule_iff.mp hrun
      exact ⟨rules, rfl, (readChars_eq_readRules hrun).symm.trans hread⟩
  · rintro ⟨rules, hrun, hread⟩
    exact (readChars_eq_readRules hrun).trans hread

/-- The piece of a text is read as the group. -/
def PieceReads (piece : List Char) (group : DayGroup) : Prop :=
  ∃ rule : Weekly.Rule, rule.Spelled (strip piece) ∧ readRule rule = .ok group

/-- A text is read by its pieces between semicolons. -/
theorem readChars_eq_ok_iff : readChars text = .ok result ↔
    ∃ groups, List.Forall₂ PieceReads (text.splitOn ';') groups ∧
      groups.foldl addRule {} = result := by
  have hpieces : ∀ groups, List.Forall₂ PieceReads (text.splitOn ';') groups ↔
      ∃ rules, schedule.run text = some (rules, []) ∧
        List.Forall₂ (fun rule group => readRule rule = .ok group) rules groups := by
    intro groups
    refine forall₂_exists_iff.trans (exists_congr fun rules => and_congr_left' ?_)
    exact (run_schedule_iff_pieces.trans (and_iff_right rfl)).symm
  rw [readChars_eq_ok_iff_rules]
  constructor
  · rintro ⟨rules, hrun, groups, hgroups, hfold⟩
    exact ⟨groups, (hpieces groups).mpr ⟨rules, hrun, hgroups⟩, hfold⟩
  · rintro ⟨groups, hall, hfold⟩
    obtain ⟨rules, hrun, hgroups⟩ := (hpieces groups).mp hall
    exact ⟨rules, hrun, groups, hgroups, hfold⟩

end Texts

namespace DayGroup

variable {group : DayGroup}

/-- The hours of a group as they are written. -/
def hoursText (group : DayGroup) : List Char :=
  if group.isFullDay then "open".toList
  else if group.openSpans.isEmpty then "off".toList
  else [','].intercalate (group.openSpans.map Span.render)

/-- The hours of a group as the grammar has them. -/
def body (group : DayGroup) : Body :=
  if group.isFullDay then .modifier .opened
  else if group.openSpans.isEmpty then .modifier .closed
  else .clocks (Span.clockSelector group.openSpans)

/-- A group as the grammar has it. -/
def rule (group : DayGroup) : Weekly.Rule :=
  ⟨group.render, .days (group.days.items.map DayItem.daySpan) (some group.body)⟩

theorem openSpans_writable (group : DayGroup) : ∀ span ∈ group.openSpans, span.IsWritable := by
  intro span hspan
  have hbounds := openSpans_bounds hspan
  exact ⟨hbounds.1, group.openSpans_separated.start_lt_stop hspan, hbounds.2⟩

/-- The three ways in which hours are written. -/
theorem hours_forms (group : DayGroup) :
    (group.isFullDay = true ∧ group.hoursText = "open".toList ∧ group.body = .modifier .opened) ∨
    (group.isFullDay = false ∧ group.openSpans = [] ∧ group.hoursText = "off".toList ∧
      group.body = .modifier .closed) ∨
    (group.isFullDay = false ∧ ∃ first more, group.openSpans = first :: more ∧
      group.hoursText = [','].intercalate ((first :: more).map Span.render) ∧
      group.body = .clocks (Span.clockSelector (first :: more))) := by
  cases hday : group.isFullDay with
  | true => simp [hoursText, body, hday]
  | false =>
    cases hspans : group.openSpans with
    | nil => simp [hoursText, body, hday, hspans]
    | cons first more =>
      refine .inr (.inr ⟨rfl, first, more, rfl, ?_, ?_⟩)
      · simp [hoursText, hday, hspans]
      · simp [body, hday, hspans]

theorem hours_spelled (group : DayGroup) : group.body.Spelled group.hoursText := by
  rcases group.hours_forms with
    ⟨-, htext, hbody⟩ | ⟨-, -, htext, hbody⟩ | ⟨-, first, more, hspans, htext, hbody⟩
  · rw [htext, hbody]
    exact .modifier .opened
  · rw [htext, hbody]
    exact .modifier .off
  · have hwritable := group.openSpans_writable
    rw [hspans] at hwritable
    rw [htext, hbody]
    exact clockSelector_spelled hwritable

theorem rule_spelled (hsome : ∃ day, group.days.contains day = true) :
    group.rule.Spelled group.render := by
  have hgap : AllBlank [' '] := by simp [AllBlank, CharClass.has]
  exact ⟨rfl, .both (render_spelled hsome) hgap (fun _ => by simp) group.hours_spelled⟩

end DayGroup

end OpeningHours
