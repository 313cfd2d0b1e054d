import OpeningHours.Proofs.Refusals
import OpeningHours.Proofs.WideTexts

/-! The weekly grammar and that of the wider language agree. A text that is read has the same rules
in the wider language, with semicolons between them and nothing that a weekly schedule has no place
for. A text that is refused for the name of a day is not well formed there either: the match gets no
further than the mark before that name. -/

namespace OpeningHours

open Peg Reading

namespace Reading

open Weekly

variable {name : String} {days : WeekdaySet} {text : List Char} {body : Body}
  {spans : List DaySpan} {body? : Option Body}

/-- Hours are never refused for the name of a day. -/
theorem readBody_ne_invalidDay : readBody days text body ≠ .error (.invalidDay name) := by
  intro h
  rcases refused_body h with hhours | ⟨-, hword⟩
  · rcases hhours with h | h | h | h <;> cases h
  · cases hword

theorem readDays_of_invalidDay
    (h : readRule ⟨text, .days spans body?⟩ = .error (.invalidDay name)) :
    spans.mapM readDaySpan = .error (.invalidDay name) := by
  cases hsets : spans.mapM readDaySpan with
  | error e => simpa [readRule, readDays, hsets, bind, Except.bind] using h
  | ok sets =>
    simp only [readRule, readDays, hsets, bind, Except.bind, pure, Except.pure] at h
    cases body? with
    | none => cases h
    | some body => exact absurd h readBody_ne_invalidDay

theorem ruleObstacle?_ne_invalidDay {rule : Language.Rule} :
    ruleObstacle? rule ≠ some (.invalidDay name) := by simp [ruleObstacle?]

theorem separatorObstacle?_ne_invalidDay {separator : Language.Separator} :
    separatorObstacle? text separator ≠ some (.invalidDay name) := by
  cases separator <;> nofun

/-- A text outside the weekly grammar is refused for something else than the name of a day. -/
theorem explain_ne_invalidDay : explain text ≠ .invalidDay name := by
  intro h
  rw [explain, Option.getD_eq_iff] at h
  rcases h with hsome | ⟨-, hword⟩
  · obtain ⟨⟨outline, rest⟩, -, hobstacle⟩ := Option.bind_eq_some_iff.mp hsome
    rcases Option.or_eq_some_iff.mp hobstacle with hfirst | ⟨-, hmore⟩
    · exact ruleObstacle?_ne_invalidDay hfirst
    · obtain ⟨⟨separator, rule⟩, -, hstep⟩ := List.exists_of_findSome?_eq_some hmore
      rcases Option.or_eq_some_iff.mp hstep with hseparator | ⟨-, hrule⟩
      · exact separatorObstacle?_ne_invalidDay hseparator
      · exact ruleObstacle?_ne_invalidDay hrule
  · cases hword

theorem rules_of_invalidDay (h : readChars text = .error (.invalidDay name)) :
    ∃ rules rest, schedule.run text = some (rules, rest) ∧
      rules.mapM readRule = .error (.invalidDay name) := by
  cases hrun : schedule.run text with
  | none =>
    rcases readChars_of_refuses hrun with herror | herror
    · rw [herror] at h
      cases h
    · exact absurd (Except.error.inj (herror.symm.trans h)) explain_ne_invalidDay
  | some found =>
    obtain ⟨rules, rest⟩ := found
    rw [readChars_eq_readRules hrun] at h
    exact ⟨rules, rest, rfl, refused_rules h⟩

end Reading

namespace Language

variable {s t u g rest : List Char} {mark : Char} {rule : Rule} {outline : Outline}

/-! ### Outlines -/

def Outline.rules (outline : Outline) : List Rule := outline.first :: outline.more.map Prod.snd

/-- Semicolons separate the rules, and no rule has a construct. -/
structure Outline.IsPlain (outline : Outline) : Prop where
  normal : ∀ step ∈ outline.more, step.1 = .normal
  bare : ∀ rule ∈ outline.rules, rule.constructs = []

theorem Outline.IsPlain.cons (h : outline.IsPlain) (hrule : rule.constructs = []) :
    IsPlain ⟨rule, (.normal, outline.first) :: outline.more⟩ :=
  ⟨List.forall_mem_cons.mpr ⟨rfl, h.normal⟩, List.forall_mem_cons.mpr ⟨hrule, h.bare⟩⟩

/-- Nothing is reported about plain rules, and about no others. -/
theorem obstacle?_eq_none_iff {text : List Char} :
    obstacle? text outline = none ↔ outline.IsPlain := by
  have hrule : ∀ rule : Rule, ruleObstacle? rule = none ↔ rule.constructs = [] := by
    simp [ruleObstacle?]
  have hseparator : ∀ value, separatorObstacle? text value = none ↔ value = .normal := by
    intro value
    cases value <;> simp [separatorObstacle?]
  rw [obstacle?, Option.or_eq_none_iff, List.findSome?_eq_none_iff, hrule]
  constructor
  · rintro ⟨hfirst, hmore⟩
    have hstep : ∀ step ∈ outline.more, step.1 = .normal ∧ step.2.constructs = [] := by
      intro step hstep
      have hnone := Option.or_eq_none_iff.mp (hmore step hstep)
      exact ⟨(hseparator _).mp hnone.1, (hrule _).mp hnone.2⟩
    refine ⟨fun step hmem => (hstep step hmem).1, List.forall_mem_cons.mpr ⟨hfirst, ?_⟩⟩
    exact List.forall_mem_map.mpr fun step hmem => (hstep step hmem).2
  · rintro ⟨hnormal, hbare⟩
    obtain ⟨hfirst, hmore⟩ := List.forall_mem_cons.mp hbare
    refine ⟨hfirst, fun step hstep => Option.or_eq_none_iff.mpr ⟨?_, ?_⟩⟩
    · exact (hseparator _).mpr (hnormal step hstep)
    · exact (hrule _).mpr (List.forall_mem_map.mp hmore step hstep)

theorem text_of_reads_rule (h : Language.rule.Reads t rule rest) : rule.text = t := by
  obtain ⟨⟨text, subject, modifier, constructs⟩, rfl, hmatched⟩ := reads_map_iff.mp h
  exact (reads_matched_iff.mp hmatched).1

theorem reads_semicolon (rest : List Char) : separator.Reads [';'] .normal rest := by
  have h : (literal [';']).Reads [';'] () rest := reads_literal _ _
  exact (h.map _).choice_left

theorem reads_comma (rest : List Char) : separator.Reads [','] .additional rest := by
  have h : (literal [',']).Reads [','] () rest := reads_literal _ _
  have hother : (literal [';']).Refuses ([','] ++ rest) := refuses_word (by simp)
  exact Reads.choice_right (hother.map _) (h.map _).choice_left

theorem reads_separator {value : Separator} (h : ∀ s, separator.Reads [mark] value s)
    (hmark : CharClass.blank.has mark = false) (hg : IsMark mark g)
    (hrest : CharClass.blank.Misses rest) : (padded separator).Reads g value rest := by
  obtain ⟨front, back, hfront, hback, rfl⟩ := hg
  exact (h _).padded hfront hback (CharClass.misses_cons.mpr hmark) hrest

theorem reads_rules_one (h : Language.rule.Reads t rule rest)
    (hstop : (seq (padded separator) Language.rule).Refuses rest) :
    rules.Reads t ⟨rule, []⟩ rest := by
  have hseq := h.seq ((reads_star_nil_iff rfl).mpr ⟨rfl, hstop⟩)
  rw [List.append_nil] at hseq
  exact hseq.map _

theorem reads_rules_cons (h : Language.rule.Reads t rule (g ++ u ++ rest)) (hg : IsMark ';' g)
    (hblank : CharClass.blank.Misses (u ++ rest)) (hmore : rules.Reads u outline rest) :
    rules.Reads (t ++ (g ++ u)) ⟨rule, (.normal, outline.first) :: outline.more⟩ rest := by
  obtain ⟨⟨first, more⟩, rfl, hseq⟩ := reads_map_iff.mp hmore
  obtain ⟨v, w, rfl, hfirst, hlater⟩ := reads_seq_iff.mp hseq
  rw [List.append_assoc] at hblank
  have hseparator := reads_separator reads_semicolon (by decide) hg hblank
  have hstar : (star (seq (padded separator) Language.rule)).Reads (g ++ (v ++ w))
      ((.normal, first) :: more) rest :=
    (reads_star_cons_iff rfl).mpr
      ⟨g ++ v, w, (List.append_assoc ..).symm, hseparator.seq hfirst, hlater⟩
  exact (h.seq hstar).map _

theorem rule_starts {weekly : Weekly.Rule} (h : weekly.Spelled t) : Starts t :=
  Weekly.clause_starts h.2

theorem readsPlainly_of_read {weekly : Weekly.Rule} (h : weekly.Spelled t)
    (hread : ∃ group, readRule weekly = .ok group) (hrest : Weekly.RuleEnds rest) :
    ReadsPlainly t rest := by
  obtain ⟨group, hread⟩ := hread
  obtain ⟨items, hours, -, htext⟩ := clause_written h.2 hread
  exact reads_rule htext hrest

/-- Rules of the wider language without constructs are read one by one, with semicolons between
them. -/
theorem reads_rules_of_plain {weeklies : List Weekly.Rule} (h : Weekly.RulesSpelled t weeklies)
    (hplain : ∀ weekly ∈ weeklies, ∀ {t rest}, weekly.Spelled t → Weekly.RuleEnds rest →
      ReadsPlainly t rest) (hrest : AllBlank rest) :
    ∃ outline, rules.Reads t outline rest ∧ outline.IsPlain ∧
      outline.rules.map Rule.text = weeklies.map Weekly.Rule.text := by
  induction h with
  | @one t weekly h =>
    obtain ⟨rule, hbare, hrule⟩ := hplain weekly (by simp) h (.of_allBlank hrest)
    have hstop : (seq (padded separator) Language.rule).Refuses rest :=
      (refuses_spaced (by decide) (@Next.of_allBlank rest (fun _ => False) hrest) nofun).seq
    refine ⟨_, reads_rules_one hrule hstop, ⟨nofun, by simpa [Outline.rules] using hbare⟩, ?_⟩
    simp [Outline.rules, text_of_reads_rule hrule, h.1]
  | @cons t weekly g u weeklies h hg hmore ih =>
    obtain ⟨hfirst, hlater⟩ := List.forall_mem_cons.mp hplain
    obtain ⟨outline, houtline, hplain, htexts⟩ := ih hlater
    have hends : Weekly.RuleEnds (g ++ u ++ rest) := by
      rw [List.append_assoc]
      exact (Next.sign hg (by decide)).mpr rfl
    obtain ⟨rule, hbare, hrule⟩ := hfirst h hends
    have hblank := (hmore.begins rule_starts).misses rest
    refine ⟨_, reads_rules_cons hrule hg hblank houtline, hplain.cons hbare, ?_⟩
    rw [List.map_cons, ← htexts, h.1, ← text_of_reads_rule hrule]
    rfl

/-- Rules that are read are read in the wider language one by one. -/
theorem reads_rules {weeklies : List Weekly.Rule} (h : Weekly.RulesSpelled t weeklies)
    (hread : ∀ weekly ∈ weeklies, ∃ group, readRule weekly = .ok group) (hrest : AllBlank rest) :
    ∃ outline, rules.Reads t outline rest ∧ outline.IsPlain ∧
      outline.rules.map Rule.text = weeklies.map Weekly.Rule.text := by
  refine reads_rules_of_plain h ?_ hrest
  intro weekly hweekly t rest hspelled hends
  exact readsPlainly_of_read hspelled (hread weekly hweekly) hends

/-! ### Names of no day -/

/-- The text begins with a name that is not that of a day. -/
def Misnamed (s : List Char) : Prop :=
  ∃ t u, s = t ++ u ∧ Weekly.IsName t ∧ CharClass.letter.Misses u ∧ ∀ day : Weekday, t ≠ day.letters

/-- A mark, and after it a name that is not that of a day. -/
def Blocked (s : List Char) : Prop :=
  ∃ mark g u, s = g ++ u ∧ IsMark mark g ∧ (mark = ';' ∨ mark = ',' ∨ mark = '-') ∧ Misnamed u

namespace Misnamed

theorem nameFirst (h : Misnamed s) : NameFirst s := by
  obtain ⟨t, u, rfl, hname, hu, -⟩ := h
  exact ⟨t, u, rfl, hname, hu⟩

theorem misses_blank (h : Misnamed s) : CharClass.blank.Misses s :=
  fun x hx => CharClass.blank_of_letter (CharClass.letter_of_upper (h.nameFirst.head_upper x hx))

theorem refuses_weekday (h : Misnamed s) : weekday.Refuses s := by
  obtain ⟨t, u, rfl, ⟨x, y, rfl, -⟩, -, hday⟩ := h
  have hword : ∀ (day : Weekday) {w : String}, w.toList = day.letters →
      (word w).Refuses ([x, y] ++ u) := by
    intro day w hw
    refine refuses_word_of ?_
    rw [hw]
    rintro ⟨more, hmore⟩
    exact hday day (List.append_inj_left hmore (by cases day <;> rfl)).symm
  refine refuses_then ((hword .monday rfl).choice ((hword .tuesday rfl).choice ?_))
  refine (hword .wednesday rfl).choice ((hword .thursday rfl).choice ?_)
  exact (hword .friday rfl).choice ((hword .saturday rfl).choice (hword .sunday rfl))

theorem refuses_entry (h : Misnamed s) : (holiday <|> weekdayRange).Refuses s :=
  h.nameFirst.refuses_holiday.choice (refuses_then h.refuses_weekday)

theorem refuses_rule (h : Misnamed s) : Language.rule.Refuses s := by
  have hdays : weekdaySelector.Refuses s := h.refuses_entry.seq.map _ |>.map _
  have hname := h.nameFirst
  have hsmall : smallSelectors.Refuses s :=
    (hdays.seq.map _).choice ((hname.refuses (by decide) (by decide)).map _)
  have hselectors : selectors.Refuses s := (hname.refuses_wideSelectors.seq.map _).choice hsmall
  have hsubject : subject.Refuses s :=
    ((hname.refuses (by decide) (by decide)).map _).choice (hselectors.map _)
  have hmodifier : Weekly.modifier.Refuses s := hname.refuses (by decide) (by decide)
  have hcomment : comment.Refuses s := hname.refuses (by decide) (by decide)
  have hform : ruleForm.Refuses s :=
    (hsubject.seq.map _).choice ((hmodifier.seq.map _).choice (hcomment.map _))
  exact hform.matched.map _

end Misnamed

namespace Blocked

theorem not_allBlank (h : Blocked s) : ¬AllBlank s := by
  obtain ⟨mark, g, u, rfl, ⟨front, back, -, -, rfl⟩, hmark, -⟩ := h
  intro hblank
  have := hblank mark (by simp)
  rcases hmark with rfl | rfl | rfl <;> cases this

theorem ruleStops (h : Blocked s) : RuleStops s := by
  obtain ⟨mark, g, u, rfl, hg, hmark, -⟩ := h
  have hblank : CharClass.blank.has mark = false := by rcases hmark with rfl | rfl | rfl <;> decide
  exact (Next.sign hg hblank).mpr hmark

theorem refuses_more_days (h : Blocked s) :
    (after (padded (literal [','])) (holiday <|> weekdayRange)).Refuses s := by
  obtain ⟨mark, g, u, rfl, hg, hmark, hu⟩ := h
  have hother : mark ≠ ',' → CharClass.blank.has mark = false →
      (after (padded (literal [','])) (holiday <|> weekdayRange)).Refuses (g ++ u) :=
    fun hne hblank => (Next.refuses_sign ((Next.sign hg hblank).mpr hne)).after
  rcases hmark with rfl | rfl | rfl
  · exact hother (by decide) (by decide)
  · have hcomma := (reads_mark_iff rfl (by decide)).mpr ⟨hg, hu.misses_blank⟩
    exact (Refuses.seq_of_reads hcomma hu.refuses_entry).map _
  · exact hother (by decide) (by decide)

theorem refuses_more_rules (h : Blocked s) :
    (seq (padded separator) Language.rule).Refuses s := by
  obtain ⟨mark, g, u, rfl, hg, hmark, hu⟩ := h
  rcases hmark with rfl | rfl | rfl
  · exact Refuses.seq_of_reads (reads_separator reads_semicolon (by decide) hg hu.misses_blank)
      hu.refuses_rule
  · exact Refuses.seq_of_reads (reads_separator reads_comma (by decide) hg hu.misses_blank)
      hu.refuses_rule
  · have hnext : Next (· = '-') (g ++ u) := (Next.sign hg (by decide)).mpr rfl
    exact (refuses_spaced (by decide) hnext (by rintro x rfl; decide)).seq

end Blocked

/-- The text is misnamed, or what is read of it ends before a mark with a misnamed text after it. -/
def Halts (reads : List Char → List Char → Prop) (s : List Char) : Prop :=
  Misnamed s ∨ ∃ u v, s = u ++ v ∧ reads u v ∧ Blocked v

namespace Halts

variable {reads reads' : List Char → List Char → Prop}

theorem imp (h : Halts reads s)
    (himp : ∀ u v, s = u ++ v → Blocked v → reads u v → reads' u v) : Halts reads' s := by
  refine h.imp_right ?_
  rintro ⟨u, v, hs, hread, hblocked⟩
  exact ⟨u, v, hs, himp u v hs hblocked hread, hblocked⟩

/-- After an item that is read, a list halts where the rest of the list halts. -/
theorem cons (h : Halts reads s) (hg : IsMark mark g) (hmark : mark = ';' ∨ mark = ',' ∨ mark = '-')
    (hone : Blocked (g ++ s) → reads' t (g ++ s))
    (hcons : ∀ u v, s = u ++ v → reads u v → reads' (t ++ (g ++ u)) v) :
    Halts reads' (t ++ (g ++ s)) := by
  right
  rcases h with hmisnamed | ⟨u, v, rfl, hread, hblocked⟩
  · have hblocked : Blocked (g ++ s) := ⟨mark, g, s, rfl, hg, hmark, hmisnamed⟩
    exact ⟨t, g ++ s, rfl, hone hblocked, hblocked⟩
  · exact ⟨t ++ (g ++ u), v, by simp, hcons u v rfl hread, hblocked⟩

end Halts

section Days

variable {name : List Char} {span : Weekly.DaySpan} {spans : List Weekly.DaySpan} {e : ReadError}
  {day : Weekday}

theorem misnamed_of_readDay (h : Weekly.Verbatim Weekly.IsName t name)
    (hread : readDay name = .error e) (hrest : CharClass.letter.Misses rest) :
    Misnamed (t ++ rest) := by
  obtain ⟨rfl, hname⟩ := h
  refine ⟨name, rest, rfl, hname, hrest, ?_⟩
  intro day hday
  rw [readDay_eq_ok_iff.mpr hday] at hread
  cases hread

theorem hyphen_append {front back : List Char} :
    front ++ '-' :: back ++ u = front ++ (['-'] ++ (back ++ u)) := by simp

theorem reads_ws_before_hyphen {front : List Char} (h : AllBlank front) :
    ws.Reads front [] (['-'] ++ s) := reads_ws h (CharClass.misses_cons.mpr (by decide))

theorem refuses_hyphen_then {q : Scan} (hg : IsMark '-' g) (hblank : CharClass.blank.Misses u)
    (hq : q.Refuses u) : (ws >> word "-" >> ws >> q).Refuses (g ++ u) := by
  obtain ⟨front, back, hfront, hback, rfl⟩ := hg
  have hhyphen : (word "-").Reads ['-'] [] (back ++ u) := reads_word "-" (back ++ u)
  rw [hyphen_append]
  exact refuses_then_of_reads (reads_ws_before_hyphen hfront)
    (refuses_then_of_reads hhyphen (refuses_then_of_reads (reads_ws hback hblank) hq))

/-- A hyphen is the sign of a day offset too, but then a number comes after it. -/
theorem refuses_dayOffset (hg : IsMark '-' g) (hblank : CharClass.blank.Misses u)
    (hu : positiveNumber.Refuses u) : (ws >> dayOffset).Refuses (g ++ u) := by
  obtain ⟨front, back, hfront, hback, rfl⟩ := hg
  have hplus : (word "+").Refuses (['-'] ++ (back ++ u)) := refuses_word_of fun hplus => by
    obtain ⟨more, hmore⟩ := hplus
    injection hmore with hsame _
    exact absurd hsame (by decide)
  have hsign : sign.Reads ['-'] [] (back ++ u) := (reads_word "-" (back ++ u)).choice_right hplus
  rw [hyphen_append]
  refine refuses_then_of_reads (reads_ws_before_hyphen hfront) (Refuses.map _ ?_)
  exact refuses_then_of_reads hsign
    (refuses_then_of_reads (reads_ws hback hblank) (refuses_then hu))

/-- No sign goes on with the days where a hyphen stands before the wrong name. -/
theorem reads_weekdayRange_blocked (hg : IsMark '-' g) (hu : Misnamed u) :
    weekdayRange.Reads day.letters [] (g ++ u) := by
  have hletter : CharClass.letter.Misses (g ++ u) := Weekly.letter_misses_mark hg (by decide)
  have hnext : Next (· = '-') (g ++ u) := (Next.sign hg (by decide)).mpr rfl
  have hday : weekday.Reads day.letters [] ([] ++ (g ++ u)) := reads_weekday day hletter
  have htail : (maybe (ws >> word "[" >> ws >> nthSequence >> ws >> word "]")
      >> maybe (ws >> dayOffset)).Reads [] [] (g ++ u) := by
    refine reads_then (reads_maybe_none ?_) (reads_maybe_none ?_)
    · exact refuses_ws_then (by decide) hnext (by rintro x rfl; decide)
    · exact refuses_dayOffset hg hu.misses_blank (hu.nameFirst.refuses (by decide) (by decide))
  have hrange : (ws >> word "-" >> ws >> weekday).Refuses (g ++ u) :=
    refuses_hyphen_then hg hu.misses_blank hu.refuses_weekday
  rw [← List.append_nil day.letters]
  exact reads_then hday (reads_then (t := []) (reads_maybe_none hrange) htail)

theorem halts_span (h : span.Spelled t) (hread : readDaySpan span = .error e)
    (hrest : CharClass.letter.Misses rest) :
    Halts (fun u v => (holiday <|> weekdayRange).Reads u [] v) (t ++ rest) := by
  obtain ⟨first, last⟩ := span
  cases hfirst : readDay first with
  | error e =>
    left
    cases h with
    | one hname => exact misnamed_of_readDay hname hfirst hrest
    | pair hname hg _ =>
      rw [List.append_assoc, List.append_assoc]
      exact misnamed_of_readDay hname hfirst (Weekly.letter_misses_mark hg (by decide))
  | ok day =>
    have hletters := readDay_eq_ok_iff.mp hfirst
    cases h with
    | one hname => simp [readDaySpan, hfirst, bind, Except.bind, pure, Except.pure] at hread
    | @pair t _ g u last hname hg hlast =>
      obtain ⟨rfl, -⟩ := hname
      subst hletters
      have hmisnamed : Misnamed (u ++ rest) := by
        cases hread' : readDay last with
        | error e => exact misnamed_of_readDay hlast hread' hrest
        | ok other =>
          simp [readDaySpan, hfirst, hread', bind, Except.bind, pure, Except.pure] at hread
      have hname : NameFirst (day.letters ++ (g ++ (u ++ rest))) :=
        nameFirst_of_name ⟨rfl, isName_letters day⟩ (Weekly.letter_misses_mark hg (by decide))
      right
      refine ⟨day.letters, g ++ (u ++ rest), by simp, ?_, ?_⟩
      · exact (reads_weekdayRange_blocked hg hmisnamed).choice_right hname.refuses_holiday
      · exact ⟨'-', g, u ++ rest, rfl, hg, by simp, hmisnamed⟩

theorem halts_days_of_span
    (h : Halts (fun u v => (holiday <|> weekdayRange).Reads u [] v) s) :
    Halts (fun u v => weekdaySelector.Reads u [] v) s :=
  h.imp fun _ _ _ hblocked hread => reads_listOf_one rfl hread hblocked.refuses_more_days

theorem halts_days (h : Weekly.DaysSpelled t spans) (hread : spans.mapM readDaySpan = .error e)
    (hrest : CharClass.letter.Misses rest) :
    Halts (fun u v => weekdaySelector.Reads u [] v) (t ++ rest) := by
  induction h with
  | one h =>
    rcases mapM_cons_eq_error_iff.mp hread with hspan | ⟨-, hnil⟩
    · exact halts_days_of_span (halts_span h hspan hrest)
    · cases hnil
  | @cons t span g w spans h hg hmore ih =>
    rw [List.append_assoc, List.append_assoc]
    rcases mapM_cons_eq_error_iff.mp hread with hspan | ⟨⟨days, hspan⟩, hlater⟩
    · exact halts_days_of_span (halts_span h hspan (Weekly.letter_misses_mark hg (by decide)))
    -- The first item is read, so that the list goes on until the wrong name further back.
    obtain ⟨item, rfl, hitem⟩ := daySpan_written h hspan
    have hentry : ∀ {s}, (holiday <|> weekdayRange).Reads t [] (g ++ s) :=
      reads_weekdayEntry hitem (dayEnds_comma hg)
    refine (ih hlater).cons hg (.inr (.inl rfl)) ?_ ?_
    · exact fun hblocked => reads_listOf_one rfl hentry hblocked.refuses_more_days
    · intro u v hs hdays
      have hblank : CharClass.blank.Misses (u ++ v) := by
        rw [← hs]
        exact (Weekly.starts_of_upper (Weekly.days_begin hmore)).misses rest
      refine reads_listOf_cons rfl ?_ hg hblank hdays
      rw [List.append_assoc]
      exact hentry

end Days

/-! ### Rules with such a name -/

section Rules

variable {clause : Weekly.Clause} {weekly : Weekly.Rule} {weeklies : List Weekly.Rule}
  {text : List Char} {name : String}

theorem halts_rule_of_days (h : Halts (fun u v => weekdaySelector.Reads u [] v) s)
    (hname : NameFirst s) : Halts ReadsPlainly s := by
  refine h.imp fun u v hs hblocked hdays => ?_
  rw [hs] at hname
  have hstops := hblocked.ruleStops
  have hsubject := reads_subject_of_days_alone hname hdays (reads_no_times hstops)
  exact readsPlainly_of_subject hsubject hstops

theorem halts_clause (h : clause.Spelled t)
    (hread : readRule ⟨text, clause⟩ = .error (.invalidDay name)) (hrest : Weekly.RuleEnds rest) :
    Halts ReadsPlainly (t ++ rest) := by
  cases h with
  | always => cases hread
  | body => exact absurd hread readBody_ne_invalidDay
  | days h =>
    have hletter := Weekly.letter_misses hrest
    exact halts_rule_of_days (halts_days h (readDays_of_invalidDay hread) hletter)
      (nameFirst_of_days h hletter)
  | both h hg hgap hb =>
    obtain ⟨hletter, -⟩ := Weekly.days_end (s := rest) hg hgap hb
    rw [List.append_assoc]
    exact halts_rule_of_days (halts_days h (readDays_of_invalidDay hread) hletter)
      (nameFirst_of_days h hletter)

theorem halts_rules_of_rule (h : Halts ReadsPlainly s) :
    Halts (fun u v => ∃ outline, rules.Reads u outline v) s := by
  refine h.imp fun u v _ hblocked hread => ?_
  obtain ⟨rule, -, hrule⟩ := hread
  exact ⟨_, reads_rules_one hrule hblocked.refuses_more_rules⟩

theorem halts_rules (h : Weekly.RulesSpelled t weeklies)
    (hread : weeklies.mapM readRule = .error (.invalidDay name)) (hrest : AllBlank rest) :
    Halts (fun u v => ∃ outline, rules.Reads u outline v) (t ++ rest) := by
  induction h with
  | one h =>
    rcases mapM_cons_eq_error_iff.mp hread with hrule | ⟨-, hnil⟩
    · exact halts_rules_of_rule (halts_clause h.2 hrule (.of_allBlank hrest))
    · cases hnil
  | @cons t weekly g w weeklies h hg hmore ih =>
    have hends : ∀ {s}, Weekly.RuleEnds (g ++ s) := (Next.sign hg (by decide)).mpr rfl
    rw [List.append_assoc, List.append_assoc]
    rcases mapM_cons_eq_error_iff.mp hread with hrule | ⟨hok, hlater⟩
    · exact halts_rules_of_rule (halts_clause h.2 hrule hends)
    -- The rule itself is read, so that the wrong name is in one of the rules after it.
    refine (ih hlater).cons hg (.inl rfl) ?_ ?_
    · intro hblocked
      obtain ⟨rule, -, hrule⟩ := readsPlainly_of_read h hok hends
      exact ⟨_, reads_rules_one hrule hblocked.refuses_more_rules⟩
    · rintro u v hs ⟨outline, houtline⟩
      obtain ⟨rule, -, hrule⟩ := readsPlainly_of_read h hok hends
      have hblank : CharClass.blank.Misses (u ++ v) := by
        rw [← hs]
        exact (hmore.begins rule_starts).misses rest
      rw [← List.append_assoc] at hrule
      exact ⟨_, reads_rules_cons hrule hg hblank houtline⟩

theorem not_allBlank_of_halts (h : Halts (fun u v => ∃ outline, rules.Reads u outline v) s) :
    ∀ outline rest, rules.run s = some (outline, rest) → ¬AllBlank rest := by
  intro outline rest hrun
  rcases h with hmisnamed | ⟨u, v, rfl, ⟨_, hread⟩, hblocked⟩
  · have hnone : rules.Refuses s := hmisnamed.refuses_rule.seq.map _
    rw [hnone] at hrun
    cases hrun
  · rw [hread] at hrun
    cases hrun
    exact hblocked.not_allBlank

end Rules

end Language

/-! ### Texts -/

/-- A text that is read is well formed in the wider language. Its rules there are its pieces between
semicolons, no other separator is between them and nothing in them is beyond a weekly schedule, so
that there is no obstacle to report. A text refused for the name of a day is not well formed. -/
theorem Schedule.grammars_agree (text : String) :
    ((∃ schedule, Schedule.read text = .ok schedule) →
      isWellFormed text = true ∧ ∃ outline,
        Language.outline.run text.toList = some (outline, []) ∧ outline.IsPlain ∧
          obstacle? text.toList outline = none ∧
          outline.rules.map Language.Rule.text = (text.toList.splitOn ';').map strip) ∧
    (∀ name, Schedule.read text = .error (.invalidDay name) → isWellFormed text = false) := by
  constructor
  · intro hread
    obtain ⟨weeklies, hrun, hrules⟩ := readChars_isOk_iff_rules.mp hread
    obtain ⟨-, front, t, back, hfront, hback, htext, hspelled⟩ := Weekly.run_schedule_iff.mp hrun
    obtain ⟨outline, houtline, hplain, htexts⟩ := Language.reads_rules hspelled hrules hback
    have hmisses := (hspelled.begins Language.rule_starts).misses back
    have houter : Language.outline.run text.toList = some (outline, []) :=
      run_document_iff.mpr ⟨rfl, front, t, back, hfront, hback, htext, hmisses, houtline⟩
    refine ⟨?_, outline, houter, hplain, Language.obstacle?_eq_none_iff.mpr hplain, ?_⟩
    · rw [isWellFormed, matches?, houter]
      rfl
    · rw [htexts]
      exact Weekly.texts_of_run hrun
  · intro name hread
    have hchars : readChars text.toList = .error (.invalidDay name) := hread
    obtain ⟨weeklies, rest, hrun, hrules⟩ := rules_of_invalidDay hchars
    obtain ⟨-, front, t, back, hfront, hback, htext, hspelled⟩ := Weekly.run_schedule_iff.mp hrun
    have hmisses := (hspelled.begins Language.rule_starts).misses back
    have hhalts := Language.halts_rules hspelled hrules hback
    have hrefuses : Language.outline.Refuses text.toList := by
      rw [htext]
      exact refuses_document hfront hmisses (Language.not_allBlank_of_halts hhalts)
    rw [isWellFormed, matches?, hrefuses]
    rfl

theorem Schedule.grammars_agree_week :
    (∃ schedule, Schedule.read "Mo-Fr 9-17; Sa off" = .ok schedule) ∧
      isWellFormed "Mo-Fr 9-17; Sa off" = true ∧
      Schedule.read "Mo, Xx 9-17" = .error (.invalidDay "Xx") ∧
      isWellFormed "Mo, Xx 9-17" = false := by
  have hread : ∃ schedule, Schedule.read "Mo-Fr 9-17; Sa off" = .ok schedule := ⟨_, rfl⟩
  have hwrong : Schedule.read "Mo, Xx 9-17" = .error (.invalidDay "Xx") := rfl
  refine ⟨hread, ?_, hwrong, ?_⟩
  · exact ((Schedule.grammars_agree "Mo-Fr 9-17; Sa off").1 hread).1
  · exact (Schedule.grammars_agree "Mo, Xx 9-17").2 "Xx" hwrong

end OpeningHours
