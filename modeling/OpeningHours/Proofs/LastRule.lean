import Mathlib.Data.List.Induction
import OpeningHours.Proofs.Acceptance
import OpeningHours.Proofs.Soundness

/-! Rules one after another. A text with more rules behind it is read as one schedule laid over
another: the later one takes its days away from every group of the earlier one. Rule by rule, each
day has the hours of the last rule that names it. -/

namespace OpeningHours

open Peg Reading Weekly

/-- The last rule that names a day, where `days` are the days of a rule. -/
def lastOn (days : α → WeekdaySet) (rules : List α) (day : Weekday) : Option α :=
  rules.reverse.find? fun rule => (days rule).contains day

theorem lastOn_concat {days : α → WeekdaySet} {rules : List α} {rule : α} {day : Weekday} :
    lastOn days (rules ++ [rule]) day =
      if (days rule).contains day then some rule else lastOn days rules day := by
  rw [lastOn, List.reverse_append, List.reverse_singleton, List.singleton_append, List.find?_cons]
  cases (days rule).contains day <;> rfl

namespace Schedule

/-- The groups less some days. A group that keeps no day is dropped. -/
def lessDays (days : WeekdaySet) (groups : List DayGroup) : List DayGroup :=
  (groups.map fun group => { group with days := group.days \ days }).filter
    fun group => !group.days.isEmpty

/-- The schedule with the groups of a later one behind its own: the days that the later one claims
are taken away from every group, and a group that keeps no day is dropped. -/
def overlay (earlier later : Schedule) : Schedule :=
  ⟨lessDays later.claimed earlier.groups ++ later.groups⟩

/-- The groups that have the day are as the last rule says that names it: there is one, which is
the rule but for its days, or none if no rule names the day. -/
def Follows (groups : List DayGroup) (last : Option DayGroup) (day : Weekday) : Prop :=
  match last with
  | none => groups.filter (·.days.contains day) = []
  | some rule => ∃ days, groups.filter (·.days.contains day) = [{ rule with days }]

/-! ### Schedules one over another -/

section Overlay

variable {days more : WeekdaySet} {groups rules : List DayGroup} {group rule : DayGroup}
  {day : Weekday} {schedule earlier later latest : Schedule} {last : Option DayGroup}

theorem lessDays_cons : lessDays days (group :: groups) =
    if (group.days \ days).isEmpty then lessDays days groups
    else { group with days := group.days \ days } :: lessDays days groups := by
  rw [lessDays, List.map_cons, List.filter_cons]
  cases (group.days \ days).isEmpty <;> rfl

theorem lessDays_append : lessDays days (groups ++ rules) =
    lessDays days groups ++ lessDays days rules := by
  rw [lessDays, List.map_append, List.filter_append]
  rfl

theorem lessDays_lessDays :
    lessDays more (lessDays days groups) = lessDays (days ∪ more) groups := by
  have hdiff : ∀ a : WeekdaySet, (a \ days) \ more = a \ (days ∪ more) := by
    intro a
    ext day
    simp [Bool.and_assoc]
  induction groups with
  | nil => rfl
  | cons group rest ih =>
    rw [lessDays_cons, lessDays_cons, ← hdiff]
    split
    · rename_i hempty
      have hmore : ((group.days \ days) \ more).isEmpty = true := by
        simp [WeekdaySet.isEmpty_iff, WeekdaySet.isEmpty_iff.mp hempty]
      rw [if_pos hmore, ih]
    · rw [lessDays_cons, ih]

/-- The groups that are left on a day are those that had it before. -/
theorem filter_lessDays : (lessDays days groups).filter (·.days.contains day) =
    if days.contains day then []
    else (groups.filter (·.days.contains day)).map
      fun group => { group with days := group.days \ days } := by
  induction groups with
  | nil => cases days.contains day <;> rfl
  | cons group rest ih =>
    rw [lessDays_cons]
    split
    · rename_i hempty
      have hday := WeekdaySet.isEmpty_iff.mp hempty day
      rw [WeekdaySet.contains_diff] at hday
      rw [ih]
      cases hdays : days.contains day <;> simp_all
    · rw [List.filter_cons, WeekdaySet.contains_diff, ih]
      cases hdays : days.contains day <;> cases hgroup : group.days.contains day <;> simp [hgroup]

theorem any_lessDays : (lessDays days groups).any (·.days.contains day) =
    (groups.any (·.days.contains day) && !days.contains day) := by
  induction groups with
  | nil => rfl
  | cons group rest ih =>
    rw [lessDays_cons, List.any_cons, Bool.and_or_distrib_right, ← ih]
    split
    · rename_i hempty
      have hday := WeekdaySet.isEmpty_iff.mp hempty day
      rw [WeekdaySet.contains_diff] at hday
      rw [hday, Bool.false_or]
    · rw [List.any_cons, WeekdaySet.contains_diff]

theorem claimed_overlay : (overlay earlier later).claimed = earlier.claimed ∪ later.claimed := by
  ext day
  simp only [WeekdaySet.contains_union, contains_claimed, overlay, List.any_append, any_lessDays]
  cases later.groups.any (·.days.contains day) <;> simp

theorem overlay_assoc : (earlier.overlay later).overlay latest =
    earlier.overlay (later.overlay latest) := by
  rw [overlay, overlay, overlay, claimed_overlay, ← lessDays_lessDays, lessDays_append,
    List.append_assoc]
  rfl

theorem addRule_eq_overlay : addRule schedule rule = schedule.overlay ⟨[rule]⟩ := by
  have hclaimed : (⟨[rule]⟩ : Schedule).claimed = rule.days := by
    ext day
    simp [contains_claimed]
  rw [overlay, hclaimed]
  rfl

/-- Rules read onto a schedule are the schedule of the rules laid over it. -/
theorem foldl_addRule_cons : (rule :: rules).foldl addRule schedule =
    schedule.overlay ((rule :: rules).foldl addRule {}) := by
  induction rules generalizing schedule rule with
  | nil => exact addRule_eq_overlay
  | cons next rest ih =>
    rw [List.foldl_cons, ih, addRule_eq_overlay, overlay_assoc]
    exact congrArg _ ih.symm

/-- Every day has the hours of the last rule that names it. -/
theorem follows_foldl_addRule (rules : List DayGroup) (day : Weekday) :
    Follows (rules.foldl addRule {}).groups (lastOn DayGroup.days rules day) day := by
  induction rules using List.reverseRecOn with
  | nil => rfl
  | append_singleton rules rule ih =>
    rw [List.foldl_append, List.foldl_cons, List.foldl_nil, lastOn_concat]
    generalize rules.foldl addRule {} = schedule at ih ⊢
    -- The new rule has the day alone, or the groups on the day stay as they are but for their days.
    have hgroups : (addRule schedule rule).groups.filter (·.days.contains day) =
        if rule.days.contains day then [rule]
        else (schedule.groups.filter (·.days.contains day)).map
          fun group => { group with days := group.days \ rule.days } := by
      change (lessDays rule.days schedule.groups ++ [rule]).filter _ = _
      rw [List.filter_append, filter_lessDays]
      cases hday : rule.days.contains day <;> simp [hday]
    split
    · rename_i hday
      exact ⟨rule.days, by rw [hgroups, if_pos hday]⟩
    · rename_i hday
      rw [if_neg hday] at hgroups
      cases hlast : lastOn DayGroup.days rules day with
      | none =>
        rw [hlast] at ih
        rw [Follows, hgroups, show schedule.groups.filter _ = [] from ih, List.map_nil]
      | some other =>
        rw [hlast] at ih
        obtain ⟨days, hfilter⟩ := ih
        exact ⟨days \ rule.days, by rw [hgroups, hfilter]; rfl⟩

theorem Follows.openSpans (h : Follows schedule.groups last day) :
    schedule.openSpans day = last.elim [] DayGroup.openSpans := by
  have howner : schedule.owner? day = (schedule.groups.filter (·.days.contains day)).head? :=
    List.head?_filter.symm
  cases last with
  | none => rw [Schedule.openSpans, howner, show schedule.groups.filter _ = [] from h]; rfl
  | some rule =>
    obtain ⟨days, hfilter⟩ := h
    rw [Schedule.openSpans, howner, hfilter]
    rfl

theorem foldl_addRule_ne_nil (h : rules ≠ []) : (rules.foldl addRule {}).groups ≠ [] := by
  rcases List.eq_nil_or_concat rules with rfl | ⟨rules, rule, rfl⟩
  · exact absurd rfl h
  · rw [List.concat_eq_append, List.foldl_append]
    exact List.append_ne_nil_of_right_ne_nil _ (by simp)

theorem mem_lessDays : group ∈ lessDays days groups ↔
    (∃ earlier ∈ groups, { earlier with days := earlier.days \ days } = group) ∧
      ∃ day, group.days.contains day = true := by
  rw [lessDays, List.mem_filter, List.mem_map, Bool.not_eq_true',
    WeekdaySet.isEmpty_eq_false_iff]

theorem disjoint_addRule (h : schedule.groups.Pairwise fun a b => a.days.Disjoint b.days) :
    (addRule schedule rule).groups.Pairwise fun a b => a.days.Disjoint b.days := by
  refine List.pairwise_append.mpr ⟨?_, List.pairwise_singleton _ _, ?_⟩
  · refine (h.map _ fun a b hab day => ?_).filter _
    have := hab day
    simp only [WeekdaySet.contains_diff]
    grind
  · intro group hgroup other hother
    obtain rfl := List.mem_singleton.mp hother
    obtain ⟨⟨earlier, -, rfl⟩, -⟩ := mem_lessDays.mp hgroup
    intro day
    simp only [WeekdaySet.contains_diff]
    grind

theorem disjoint_foldl_addRule (rules : List DayGroup) :
    (rules.foldl addRule {}).groups.Pairwise fun a b => a.days.Disjoint b.days := by
  induction rules using List.reverseRecOn with
  | nil => exact .nil
  | append_singleton rules rule ih =>
    rw [List.foldl_append]
    exact disjoint_addRule ih

theorem inhabited_foldl_addRule (h : ∀ rule ∈ rules, ∃ day, rule.days.contains day = true) :
    ∀ group ∈ (rules.foldl addRule {}).groups, ∃ day, group.days.contains day = true := by
  rcases List.eq_nil_or_concat rules with rfl | ⟨rules, rule, rfl⟩
  · simp
  · rw [List.concat_eq_append, List.foldl_append]
    intro group hgroup
    rcases List.mem_append.mp hgroup with hless | hlast
    · exact (mem_lessDays.mp hless).2
    · obtain rfl := List.mem_singleton.mp hlast
      exact h group (by simp)

theorem Follows.exists_of_mem (h : Follows groups last day) (hgroup : group ∈ groups)
    (hday : group.days.contains day = true) :
    ∃ rule ∈ last, ∃ days, { rule with days } = group := by
  have hfilter : group ∈ groups.filter (·.days.contains day) := List.mem_filter.mpr ⟨hgroup, hday⟩
  cases last with
  | none =>
    rw [show groups.filter _ = [] from h] at hfilter
    cases hfilter
  | some rule =>
    obtain ⟨days, hgroups⟩ := h
    rw [hgroups] at hfilter
    exact ⟨rule, rfl, days, (List.mem_singleton.mp hfilter).symm⟩

theorem Follows.exists_mem (h : Follows groups (some rule) day) :
    ∃ days, { rule with days } ∈ groups := by
  obtain ⟨days, hgroups⟩ := h
  have hfilter : { rule with days } ∈ groups.filter (·.days.contains day) := by
    rw [hgroups]
    exact List.mem_singleton_self _
  exact ⟨days, (List.mem_filter.mp hfilter).1⟩

end Overlay

/-! ### Texts one after another -/

section Texts

variable {a b piece : List Char} {rule : DayGroup} {earlier later : Schedule}

/-- A piece is a text of its own with one rule. -/
theorem readChars_piece (h : PieceReads piece rule) : readChars piece = .ok ⟨[rule]⟩ := by
  obtain ⟨spelled, hspelled, hread⟩ := h
  obtain ⟨front, back, hfront, hback, hpiece⟩ := exists_eq_strip piece
  have hrun : Weekly.schedule.run piece = some ([spelled], []) :=
    run_schedule_iff.mpr ⟨rfl, front, strip piece, back, hfront, hback, hpiece, .one hspelled⟩
  rw [readChars_eq_readRules hrun]
  exact readRules_eq_ok_iff.mpr ⟨[rule], .cons hread .nil, rfl⟩

theorem pieces_append (a b : List Char) :
    (a ++ ';' :: b).splitOn ';' = a.splitOn ';' ++ b.splitOn ';' :=
  List.splitOn_append_cons_of_beq a b rfl

theorem readChars_append_isOk_iff : (∃ joint, readChars (a ++ ';' :: b) = .ok joint) ↔
    (∃ earlier, readChars a = .ok earlier) ∧ ∃ later, readChars b = .ok later := by
  rw [readChars_isOk_iff, readChars_isOk_iff, readChars_isOk_iff, IsSchedule, pieces_append,
    List.forall_mem_append]
  rfl

/-- Rules behind a text are read onto the schedule of the text. -/
theorem readChars_append (ha : readChars a = .ok earlier) (hb : readChars b = .ok later) :
    readChars (a ++ ';' :: b) = .ok (earlier.overlay later) := by
  obtain ⟨rules, hrules, rfl⟩ := readChars_eq_ok_iff.mp ha
  obtain ⟨more, hmore, rfl⟩ := readChars_eq_ok_iff.mp hb
  refine readChars_eq_ok_iff.mpr ⟨rules ++ more, ?_, ?_⟩
  · rw [pieces_append]
    exact List.rel_append hrules hmore
  · cases more with
    | nil => exact absurd (List.forall₂_nil_right_iff.mp hmore) (List.splitOn_ne_nil _ _)
    | cons next more => rw [List.foldl_append, foldl_addRule_cons]

/-- Texts with a semicolon between them are read if both of them are, and the second schedule lies
over the first. Each day has the hours of the last rule that names it. -/
theorem read_append (a b : String) :
    ((∃ joint, Schedule.read (a ++ ";" ++ b) = .ok joint) ↔
      (∃ earlier, Schedule.read a = .ok earlier) ∧ ∃ later, Schedule.read b = .ok later) ∧
    (∀ earlier later, Schedule.read a = .ok earlier → Schedule.read b = .ok later →
      Schedule.read (a ++ ";" ++ b) = .ok (earlier.overlay later)) ∧
    ∀ text schedule, Schedule.read text = .ok schedule → ∃ rules : List DayGroup,
      List.Forall₂ (fun piece rule => readChars piece = .ok ⟨[rule]⟩)
        (text.toList.splitOn ';') rules ∧
      ∀ day, Follows schedule.groups (lastOn DayGroup.days rules day) day := by
  have hjoint : (a ++ ";" ++ b).toList = a.toList ++ ';' :: b.toList := by simp
  simp only [Schedule.read, hjoint]
  refine ⟨readChars_append_isOk_iff, fun earlier later => readChars_append, ?_⟩
  intro text schedule hread
  obtain ⟨rules, hrules, rfl⟩ := readChars_eq_ok_iff.mp hread
  exact ⟨rules, hrules.imp fun _ _ => readChars_piece, follows_foldl_addRule rules⟩

/-- The weekend leaves the first rule, and the closed Wednesday is opened again. -/
theorem read_append_weekend :
    let text := "Mo-Su 8-20; We off" ++ ";" ++ "Sa,Su 10-16; We open"
    ∃ earlier later joint, Schedule.read "Mo-Su 8-20; We off" = .ok earlier ∧
      Schedule.read "Sa,Su 10-16; We open" = .ok later ∧ Schedule.read text = .ok joint ∧
      joint.groups.map DayGroup.days =
        [.ofList [.monday, .tuesday, .thursday, .friday], .ofList [.saturday, .sunday],
          .ofList [.wednesday]] ∧
      ∃ rules : List DayGroup, List.Forall₂ (fun piece rule => readChars piece = .ok ⟨[rule]⟩)
          (text.toList.splitOn ';') rules ∧
        ∀ day, Follows joint.groups (lastOn DayGroup.days rules day) day := by
  obtain ⟨-, hoverlay, hlast⟩ := read_append "Mo-Su 8-20; We off" "Sa,Su 10-16; We open"
  have hjoint := hoverlay _ _ rfl rfl
  exact ⟨_, _, _, rfl, rfl, hjoint, by decide, hlast _ _ hjoint⟩

end Texts

end Schedule
end OpeningHours
