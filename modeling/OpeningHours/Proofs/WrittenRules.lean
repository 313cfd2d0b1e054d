import OpeningHours.Proofs.LastRule
import OpeningHours.Proofs.Outlook
import OpeningHours.Proofs.RuleHours

/-! A text means what it says. Each piece of a text writes a rule with its days and its minutes, and
the group that is read from a rule has the days and opens for the minutes. On every day the last
rule counts that names it, which tells the state at an instant, and whether there is any. -/

namespace OpeningHours

open OpeningHours.Span Reading Weekly

/-- A rule as a text writes it, with its days and its hours if there are any. -/
structure WrittenRule where
  items : Option (List DayItem)
  hours : Option Hours

namespace WrittenRule

/-- The days that the rule names: the whole week if it names none. -/
def days (rule : WrittenRule) : WeekdaySet := rule.items.elim .all DayItem.union

/-- The minutes that the rule writes, from the midnight that starts a day of the rule on. -/
def spans (rule : WrittenRule) : List Span :=
  match rule.hours with
  | none | some .opened => [⟨0, minutesPerDay⟩]
  | some .closed => []
  | some (.spans written) => written.map lift

/-- The minutes of the rule that count: those of spans that take a whole day are the day itself,
wherever the spans start. -/
def kept (rule : WrittenRule) : List Span := Span.kept rule.spans

end WrittenRule

/-- The pieces of the text between semicolons write the rules, blanks around them aside. -/
def Writes (text : List Char) (rules : List WrittenRule) : Prop :=
  List.Forall₂ (fun piece rule => RuleText (strip piece) rule.items rule.hours)
    (text.splitOn ';') rules

/-- The last rule on some day writes a span without a minute that touches none with a minute. -/
def StrandsSpan (text : List Char) : Prop :=
  ∃ rules, Writes text rules ∧
    ∃ day, ∃ rule ∈ lastOn WrittenRule.days rules day, ¬Anchored rule.spans

/-- The rules open a minute of a date: it is among the minutes of the last rule that names the
weekday, or past midnight among those of the last rule that names the weekday of the day before. -/
def OpensAt (spans : WrittenRule → List Span) (rules : List WrittenRule) (date : Date)
    (minute : Int) : Prop :=
  (∃ rule ∈ lastOn WrittenRule.days rules date.weekday, Covers (spans rule) minute) ∨
    ∃ yesterday ∈ date.shift? (-1), ∃ rule ∈ lastOn WrittenRule.days rules yesterday.weekday,
      Covers (spans rule) (minute + minutesPerDay)

instance (spans : WrittenRule → List Span) (rules : List WrittenRule) (date : Date)
    (minute : Int) : Decidable (OpensAt spans rules date minute) :=
  inferInstanceAs (Decidable (_ ∨ _))

/-- The rule is read as the group. -/
structure ReadAs (rule : WrittenRule) (group : DayGroup) : Prop where
  days : group.days = rule.days
  inhabited : ∃ day, group.days.contains day = true
  opens : group.OpensFor rule.spans

/-! ### Reading a rule -/

section Rules

variable {t text piece : List Char} {body : Body} {hours : Hours} {clause : Clause}
  {items : Option (List DayItem)} {hours? : Option Hours} {days : WeekdaySet} {group : DayGroup}
  {spans : List ClockSpan} {written : List Span} {rules rules' : List WrittenRule}

theorem readSelector_opensFor (h : List.Forall₂ Shows spans written)
    (hread : readSelector days ⟨text, spans⟩ = .ok group) :
    group.days = days ∧ group.OpensFor (written.map lift) := by
  obtain ⟨stretches, hstretches, hgroup⟩ := readSelector_eq_ok_iff.mp hread
  have hpasses := (mapM_readSpan_isOk_iff h).mp ⟨stretches, mapM_eq_ok_iff.mpr hstretches⟩
  have hstart := lifts_nonneg h
  have hlift := map_span_of_mapM h hstretches
  rw [← hlift] at hstart ⊢
  exact DayGroup.opensFor_of_groupOfSpans (hlift ▸ forward_of_passes hpasses) hstart hgroup

theorem readBody_opensFor (h : BodySays body hours) (hread : readBody days text body = .ok group) :
    group.days = days ∧ group.OpensFor (WrittenRule.spans ⟨items, some hours⟩) := by
  cases h with
  | opened =>
    cases hread
    exact ⟨rfl, DayGroup.opensFor_day days⟩
  | closed =>
    cases hread
    exact ⟨rfl, DayGroup.opensFor_nil days⟩
  | spans h => exact readSelector_opensFor h hread

theorem readRule_opensFor (h : ClauseSays clause items hours?)
    (hread : readRule ⟨text, clause⟩ = .ok group) :
    group.days = WrittenRule.days ⟨items, hours?⟩ ∧
      group.OpensFor (WrittenRule.spans ⟨items, hours?⟩) := by
  cases h with
  | always =>
    cases hread
    exact ⟨rfl, DayGroup.opensFor_day _⟩
  | days hdays =>
    subst hdays
    simp only [readRule, readDays_daySpans] at hread
    cases hread
    exact ⟨rfl, DayGroup.opensFor_day _⟩
  | body h => exact readBody_opensFor h hread
  | both hdays h =>
    subst hdays
    simp only [readRule, readDays_daySpans] at hread
    exact readBody_opensFor h hread

theorem DayItem.contains_first (item : DayItem) : item.days.contains item.first = true := by
  obtain ⟨first, _ | last⟩ := item
  · simp [DayItem.days]
  · simp [DayItem.days, WeekdaySet.range]

theorem RuleText.inhabited (h : RuleText t items hours?) :
    ∃ day, (WrittenRule.days ⟨items, hours?⟩).contains day = true := by
  have hlisted : ∀ {t items}, Listed ',' DayItem.Written t items →
      ∃ day, (DayItem.union items).contains day = true := by
    intro t items h
    have hfirst : ∃ item, item ∈ items := by
      cases h with
      | one => exact ⟨_, List.mem_singleton_self _⟩
      | cons => exact ⟨_, List.mem_cons_self⟩
    obtain ⟨item, hitem⟩ := hfirst
    refine ⟨item.first, ?_⟩
    rw [DayItem.union, WeekdaySet.contains_ofTest, List.any_eq_true]
    exact ⟨item, hitem, item.contains_first⟩
  cases h with
  | always => exact ⟨.monday, rfl⟩
  | days h => exact hlisted h
  | hours h => exact ⟨.monday, rfl⟩
  | both h => exact hlisted h

/-- A piece of a text that is read writes a rule, which is read as the group. -/
theorem PieceReads.exists_readAs (h : PieceReads piece group) :
    ∃ rule : WrittenRule, RuleText (strip piece) rule.items rule.hours ∧ ReadAs rule group := by
  obtain ⟨⟨text, clause⟩, ⟨-, hspelled⟩, hread⟩ := h
  obtain ⟨items, hours?, hsays, htext⟩ := clause_written hspelled hread
  obtain ⟨hdays, hopens⟩ := readRule_opensFor hsays hread
  exact ⟨⟨items, hours?⟩, htext, hdays, hdays ▸ htext.inhabited, hopens⟩

theorem Writes.unique (h : Writes text rules) (h' : Writes text rules') : rules = rules' := by
  refine List.right_unique_forall₂' ?_ h h'
  rintro piece ⟨items, hours⟩ ⟨items', hours'⟩ htext htext'
  obtain ⟨rfl, rfl⟩ : items = items' ∧ hours = hours' := htext.unique htext'
  rfl

end Rules

/-! ### Reading the rules of a text -/

section Schedules

variable {text : List Char} {rules : List WrittenRule} {groups : List DayGroup} {group : DayGroup}
  {rule : WrittenRule} {schedule : Schedule} {day : Weekday} {minute : Int}

theorem exists_writes (h : readChars text = .ok schedule) : ∃ rules groups, Writes text rules ∧
    List.Forall₂ ReadAs rules groups ∧ groups.foldl addRule {} = schedule := by
  obtain ⟨groups, hpieces, hfold⟩ := readChars_eq_ok_iff.mp h
  obtain ⟨rules, hwrites, hread⟩ :=
    forall₂_exists_iff.mp (hpieces.imp fun _ _ hpiece => hpiece.exists_readAs)
  exact ⟨rules, groups, hwrites, hread, hfold⟩

theorem lastOn_rel (h : List.Forall₂ ReadAs rules groups) (day : Weekday) :
    Option.Rel ReadAs (lastOn WrittenRule.days rules day) (lastOn DayGroup.days groups day) :=
  find?_rel (List.rel_reverse h) fun rule group hread => by rw [hread.days]

theorem groups_inhabited (h : List.Forall₂ ReadAs rules groups) :
    ∀ group ∈ groups, ∃ day, group.days.contains day = true := by
  intro group hgroup
  obtain ⟨rule, hread⟩ := exists_forall₂_iff.mp ⟨rules, h.flip⟩ group hgroup
  exact ReadAs.inhabited hread

/-- The last rule on a day is read as a group of the schedule, but for its days. -/
theorem exists_group_of_last (h : List.Forall₂ ReadAs rules groups)
    (hrule : rule ∈ lastOn WrittenRule.days rules day) :
    ∃ group, ReadAs rule group ∧
      ∃ days, { group with days } ∈ (groups.foldl addRule {}).groups := by
  have hlast := lastOn_rel h day
  have hfollows := Schedule.follows_foldl_addRule groups day
  rw [Option.mem_def.mp hrule] at hlast
  -- The look-ups agree: where the written rules have a last one, the rules that are read have one.
  generalize lastOn DayGroup.days groups day = last at hlast hfollows
  cases hlast with
  | some hread => exact ⟨_, hread, hfollows.exists_mem⟩

/-- Every group of the schedule is the last rule on some day, but for its days. -/
theorem exists_last_of_group (h : List.Forall₂ ReadAs rules groups)
    (hgroup : group ∈ (groups.foldl addRule {}).groups) :
    ∃ day, ∃ rule ∈ lastOn WrittenRule.days rules day, ∃ whole, ReadAs rule whole ∧
      ∃ days, { whole with days } = group := by
  obtain ⟨day, hday⟩ := Schedule.inhabited_foldl_addRule (groups_inhabited h) group hgroup
  obtain ⟨whole, hwhole, hdays⟩ :=
    (Schedule.follows_foldl_addRule groups day).exists_of_mem hgroup hday
  have hlast := lastOn_rel h day
  rw [Option.mem_def.mp hwhole] at hlast
  refine ⟨day, ?_⟩
  generalize lastOn WrittenRule.days rules day = last at hlast
  cases hlast with
  | some hread => exact ⟨_, rfl, whole, hread, hdays⟩

theorem groups_isTidy (h : List.Forall₂ ReadAs rules groups) :
    ∀ group ∈ (groups.foldl addRule {}).groups, group.IsTidy := by
  intro group hgroup
  obtain ⟨-, rule, -, whole, hread, days, rfl⟩ := exists_last_of_group h hgroup
  exact hread.opens.tidy.withDays days

/-- A schedule that is read is sound if the spans of every rule that counts are anchored. -/
theorem isSound_iff_anchored (h : List.Forall₂ ReadAs rules groups) :
    (groups.foldl addRule {}).IsSound ↔
      ∀ day, ∀ rule ∈ lastOn WrittenRule.days rules day, Anchored rule.spans := by
  rw [Schedule.isSound_iff]
  constructor
  · intro hformed day rule hrule
    obtain ⟨group, hread, days, hgroup⟩ := exists_group_of_last h hrule
    have hsound := hformed.hours _ hgroup
    exact hread.opens.sound_iff.mp hsound
  · intro hanchored
    refine ⟨Schedule.inhabited_foldl_addRule (groups_inhabited h),
      Schedule.disjoint_foldl_addRule groups, fun group hgroup => ?_⟩
    obtain ⟨day, rule, hrule, whole, hread, days, rfl⟩ := exists_last_of_group h hgroup
    exact hread.opens.sound_iff.mpr (hanchored day rule hrule)

theorem covers_openSpans_iff (h : List.Forall₂ ReadAs rules groups)
    (hanchored : ∀ rule ∈ lastOn WrittenRule.days rules day, Anchored rule.spans) :
    Covers ((groups.foldl addRule {}).openSpans day) minute ↔
      ∃ rule ∈ lastOn WrittenRule.days rules day, Covers rule.kept minute := by
  have hlast := lastOn_rel h day
  rw [(Schedule.follows_foldl_addRule groups day).openSpans]
  generalize lastOn DayGroup.days groups day = group? at hlast
  generalize lastOn WrittenRule.days rules day = rule? at hlast hanchored
  cases hlast with
  | none => simp
  | some hread =>
    rw [Option.elim, hread.opens.covers_iff (hanchored _ rfl)]
    simp [WrittenRule.kept]

theorem strandsSpan_iff (h : Writes text rules) : StrandsSpan text ↔
    ¬∀ day, ∀ rule ∈ lastOn WrittenRule.days rules day, Anchored rule.spans := by
  have hstrands : StrandsSpan text ↔
      ∃ day, ∃ rule ∈ lastOn WrittenRule.days rules day, ¬Anchored rule.spans := by
    constructor
    · rintro ⟨other, hother, hstrands⟩
      rwa [hother.unique h] at hstrands
    · exact fun hstrands => ⟨rules, h, hstrands⟩
  rw [hstrands]
  simp

theorem groups_ne_nil (h : List.Forall₂ ReadAs rules groups) (hwrites : Writes text rules) :
    groups ≠ [] := by
  rintro rfl
  rw [List.forall₂_nil_right_iff.mp h, Writes, List.forall₂_nil_right_iff] at hwrites
  exact List.splitOn_ne_nil _ _ hwrites

theorem isSound_iff_not_strandsSpan (h : readChars text = .ok schedule) :
    schedule.IsSound ↔ ¬StrandsSpan text := by
  obtain ⟨rules, groups, hwrites, hgroups, rfl⟩ := exists_writes h
  rw [isSound_iff_anchored hgroups, strandsSpan_iff hwrites, Classical.not_not]

namespace Schedule

/-- A schedule that is read has a group and is tidy, and it is sound unless a rule that counts has
a span without a minute apart from the others. Besides that only an error makes an outlook
unknown. -/
theorem read_isNormal_iff (text : String) :
    (∀ schedule, Schedule.read text = .ok schedule → schedule.groups ≠ [] ∧
      (∀ group ∈ schedule.groups, group.IsTidy) ∧
      (schedule.IsSound ↔ ¬StrandsSpan text.toList)) ∧
    ∀ holidays limits now, (outlookOf text holidays limits now).state = .unknown ↔
      (∃ e, Schedule.read text = .error e) ∨ StrandsSpan text.toList := by
  have hread : ∀ schedule, Schedule.read text = .ok schedule → schedule.groups ≠ [] ∧
      (∀ group ∈ schedule.groups, group.IsTidy) ∧
      (schedule.IsSound ↔ ¬StrandsSpan text.toList) := by
    intro schedule h
    have hsound := isSound_iff_not_strandsSpan h
    obtain ⟨rules, groups, hwrites, hgroups, rfl⟩ := exists_writes h
    exact ⟨foldl_addRule_ne_nil (groups_ne_nil hgroups hwrites), groups_isTidy hgroups, hsound⟩
  refine ⟨hread, fun holidays limits now => ?_⟩
  rw [outlookOf]
  cases h : Schedule.read text with
  | error e => exact iff_of_true rfl (.inl ⟨e, rfl⟩)
  | ok schedule => simp [outlook_unknown_iff, (hread schedule h).2.2]

/-- A later rule takes the day away from the rule with a span apart. -/
theorem read_isNormal_iff_shadowed :
    ¬StrandsSpan "Mo 10-12,24:00-0; Mo 9-17".toList ∧
      ∃ schedule, Schedule.read "Mo 10-12,24:00-0; Mo 9-17" = .ok schedule ∧
        schedule.groups ≠ [] ∧ (∀ group ∈ schedule.groups, group.IsTidy) ∧ schedule.IsSound := by
  obtain ⟨schedule, hread, hsound⟩ :
      ∃ schedule, Schedule.read "Mo 10-12,24:00-0; Mo 9-17" = .ok schedule ∧ schedule.IsSound :=
    ⟨_, rfl, by decide⟩
  obtain ⟨hsome, htidy, hiff⟩ := (read_isNormal_iff _).1 schedule hread
  exact ⟨hiff.mp hsound, schedule, hread, hsome, htidy, hsound⟩

/-- The break before the span without a minute touches the end of the opening. -/
theorem read_stranded_span : ∃ schedule, Schedule.read "10-12,24:00-0" = .ok schedule ∧
    ¬schedule.IsSound ∧ ∀ holidays limits now,
      (outlookOf "10-12,24:00-0" holidays limits now).state = .unknown := by
  obtain ⟨schedule, hread, hfault⟩ : ∃ schedule, Schedule.read "10-12,24:00-0" = .ok schedule ∧
      ¬schedule.IsSound := ⟨_, rfl, by decide⟩
  refine ⟨schedule, hread, hfault, fun holidays limits now => ?_⟩
  rw [outlookOf, hread]
  exact outlook_unknown_iff.mpr hfault

/-! ### The state at an instant -/

theorem openAt_iff_opensAt {date : Date} (h : List.Forall₂ ReadAs rules groups)
    (hanchored : ∀ day, ∀ rule ∈ lastOn WrittenRule.days rules day, Anchored rule.spans) :
    (groups.foldl addRule {}).OpenAt Holidays.none date minute ↔
      OpensAt WrittenRule.kept rules date minute := by
  simp only [OpenAt, OpensAt, Holidays.none, true_and, covers_openSpans_iff h (hanchored _)]

/-- A text that is read writes one list of rules, and the state at an instant is the one that they
write: that of the last rule for today and of the last rule for yesterday. -/
theorem outlook_state_eq_written (text : String)
    (hread : ∃ schedule, Schedule.read text = .ok schedule) (hwhole : ¬StrandsSpan text.toList) :
    ∃ rules, (∀ other, Writes text.toList other ↔ other = rules) ∧
      ∀ limits now, (outlookOf text Holidays.none limits now).state =
        if OpensAt WrittenRule.kept rules now.date now.minute then .opened
        else .closed := by
  obtain ⟨schedule, hread⟩ := hread
  obtain ⟨rules, groups, hwrites, hgroups, rfl⟩ := exists_writes hread
  have hanchored := Classical.not_not.mp (mt (strandsSpan_iff hwrites).mpr hwhole)
  have hsound := (isSound_iff_anchored hgroups).mpr hanchored
  refine ⟨rules, fun other => ?_, fun limits now => ?_⟩
  · exact ⟨fun hother => hother.unique hwrites, fun heq => heq ▸ hwrites⟩
  · rw [outlookOf, hread]
    simp only [outlook_state hsound, covers_spansAhead_now, openAt_iff_opensAt hgroups hanchored]

/-- Early on a Saturday that is closed, the night of Friday goes on. -/
theorem outlook_state_eq_written_night :
    let text := "Mo-Fr 20-28; Sa off"
    let now : Instant := ⟨⟨739044, by decide, by decide⟩, 150, 0, 0, by decide⟩
    (∃ schedule, Schedule.read text = .ok schedule) ∧ ¬StrandsSpan text.toList ∧
      ∃ rules, (∀ other, Writes text.toList other ↔ other = rules) ∧
        OpensAt WrittenRule.kept rules now.date now.minute ∧
        (outlookOf text Holidays.none {} now).state = .opened := by
  intro text now
  obtain ⟨schedule, hread, hsound⟩ : ∃ schedule,
      Schedule.read "Mo-Fr 20-28; Sa off" = .ok schedule ∧ schedule.IsSound := ⟨_, rfl, by decide⟩
  have hwhole : ¬StrandsSpan text.toList := (isSound_iff_not_strandsSpan hread).mp hsound
  have hopened : (outlookOf "Mo-Fr 20-28; Sa off" Holidays.none {} now).state = .opened := by decide
  obtain ⟨rules, hrules, hstate⟩ := outlook_state_eq_written text ⟨schedule, hread⟩ hwhole
  have hopens := (hstate {} now).symm.trans hopened
  exact ⟨⟨schedule, hread⟩, hwhole, rules, hrules, by simpa using hopens, hopened⟩

/-- Twenty-four hours from ten on are the whole day, and not the minutes that are written. -/
theorem outlook_state_whole_day :
    let now : Instant := ⟨⟨739039, by decide, by decide⟩, 300, 0, 0, by decide⟩
    (outlookOf "Mo 10:00-34:00" Holidays.none {} now).state = .opened ∧
      ∃ rules, Writes "Mo 10:00-34:00".toList rules ∧
        ¬OpensAt WrittenRule.spans rules now.date now.minute := by
  have hten : ClockText "10:00".toList 600 :=
    @ClockText.minutes ['1', '0'] '0' '0' ⟨.inr rfl, by simp [AllDigits]; decide⟩
      (by simp [AllDigits]; decide) (by decide) (by decide)
  have hlate : ClockText "34:00".toList 2040 :=
    @ClockText.minutes ['3', '4'] '0' '0' ⟨.inr rfl, by simp [AllDigits]; decide⟩
      (by simp [AllDigits]; decide) (by decide) (by decide)
  have hspan : Span.Written "10:00-34:00".toList ⟨600, 2040⟩ := .pair hten (.alone '-') hlate
  have hday : DayItem.Written "Mo".toList ⟨.monday, none⟩ := .one rfl
  have hrule : RuleText "Mo 10:00-34:00".toList (some [⟨.monday, none⟩])
      (some (.spans [⟨600, 2040⟩])) :=
    @RuleText.both "Mo".toList [' '] _ _ _ (.one hday) (by simp [AllBlank, CharClass.has])
      (by simp) (.spans (.one hspan))
  exact ⟨by decide, [⟨_, _⟩], .cons hrule .nil, by decide⟩

end Schedule

end Schedules

end OpeningHours
