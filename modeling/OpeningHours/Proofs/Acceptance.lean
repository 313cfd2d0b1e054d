import OpeningHours.Proofs.RuleTexts
import OpeningHours.Proofs.WrittenHours

/-! Which texts are weekly schedules. The relations here say how days, clock times, hours and rules
are written, and a text is read if each of its pieces between semicolons is a rule whose spans can
be the hours of a day. -/

namespace OpeningHours

open Peg OpeningHours.Span Reading Weekly

/-! ### The written language -/

/-- A clock time with its minute: an hour, perhaps with two digits of minutes, up to 48:00. -/
inductive ClockText : List Char → Int → Prop
  | hour {t} (h : IsHour t) (hmax : 60 * Text.number t ≤ lastMinute) :
      ClockText t (60 * Text.number t)
  | minutes {t a b} (h : IsHour t) (hdigits : AllDigits [a, b]) (hminute : Text.number [a, b] ≤ 59)
      (hmax : 60 * Text.number t + Text.number [a, b] ≤ lastMinute) :
      ClockText (t ++ [':', a, b]) (60 * Text.number t + Text.number [a, b])

def DayItem.Written (t : List Char) (item : DayItem) : Prop :=
  Spanned (fun t (day : Weekday) => t = day.letters) t (item.first, item.last)

def Span.Written (t : List Char) (span : Span) : Prop :=
  Spanned ClockText t (span.start, some span.stop)

/-- The hours of a rule. -/
inductive Hours where
  | opened
  | closed
  | spans (written : List Span)

inductive Hours.Written : List Char → Hours → Prop
  | opened : Written "open".toList .opened
  | closed : Written "closed".toList .closed
  | off : Written "off".toList .closed
  | spans {t written} (h : Listed ',' Span.Written t written) : Written t (.spans written)

/-- A rule with its days and its hours: `24/7`, days, hours, or days and hours. A word has to keep
clear of the days. -/
inductive RuleText : List Char → Option (List DayItem) → Option Hours → Prop
  | always : RuleText "24/7".toList none none
  | days {t items} (h : Listed ',' DayItem.Written t items) : RuleText t (some items) none
  | hours {t hours} (h : Hours.Written t hours) : RuleText t none (some hours)
  | both {t g u items hours} (h : Listed ',' DayItem.Written t items) (hg : AllBlank g)
      (hgap : g = [] → ∃ written, hours = .spans written) (h' : Hours.Written u hours) :
      RuleText (t ++ (g ++ u)) (some items) (some hours)

/-- Hours that are written as spans have spans of a kind. -/
def Hours.Fit (fits : List Span → Prop) (hours : Option Hours) : Prop :=
  ∀ written, hours = some (.spans written) → fits written

/-- The text is a rule, and its spans are of a kind. -/
def IsRule (fits : List Span → Prop) (t : List Char) : Prop :=
  ∃ items hours, RuleText t items hours ∧ Hours.Fit fits hours

/-- The pieces of the text between semicolons are rules, blanks around them aside. -/
def IsSchedule (fits : List Span → Prop) (text : List Char) : Prop :=
  ∀ piece ∈ text.splitOn ';', IsRule fits (strip piece)

/-! ### Days -/

section Days

variable {t name : List Char} {span : DaySpan} {spans : List DaySpan} {days : WeekdaySet}
  {items : List DayItem} {day : Weekday}

theorem readDay_eq_ok_iff : readDay name = .ok day ↔ name = day.letters := by
  constructor
  · intro h
    rw [readDay] at h
    split at h
    · rename_i hday
      cases h
      exact Weekday.letters_of_ofLetters? hday
    · cases h
  · rintro rfl
    simp [readDay]

theorem daySpan_written (h : DaySpan.Spelled t span) (hread : readDaySpan span = .ok days) :
    ∃ item : DayItem, span = item.daySpan ∧ item.Written t := by
  obtain ⟨first, last⟩ := span
  simp only [readDaySpan] at hread
  cases hfirst : readDay first with
  | error e => simp [hfirst, bind, Except.bind] at hread
  | ok day =>
    obtain rfl := readDay_eq_ok_iff.mp hfirst
    cases h with
    | one h => exact ⟨⟨day, none⟩, rfl, .one h.1.symm⟩
    | pair h hg h' =>
      rename_i g u last
      cases hlast : readDay last with
      | error e => simp [hfirst, hlast, bind, Except.bind] at hread
      | ok other =>
        obtain rfl := readDay_eq_ok_iff.mp hlast
        exact ⟨⟨day, some other⟩, rfl, .pair h.1.symm hg h'.1.symm⟩

theorem daySpan_spelled {item : DayItem} (h : item.Written t) : item.daySpan.Spelled t := by
  obtain ⟨first, last⟩ := item
  cases h with
  | one h => exact .one ⟨h.symm, h ▸ isName_letters first⟩
  | pair h hg h' =>
    exact .pair ⟨h.symm, h ▸ isName_letters first⟩ hg ⟨h'.symm, h' ▸ isName_letters _⟩

theorem days_written (h : DaysSpelled t spans) (hread : readDays spans = .ok days) :
    ∃ items : List DayItem, spans = items.map DayItem.daySpan ∧
      Listed ',' DayItem.Written t items := by
  cases hsets : spans.mapM readDaySpan with
  | error e => simp [readDays, hsets, bind, Except.bind] at hread
  | ok sets =>
    have hitem : ∀ {t span}, span ∈ spans → DaySpan.Spelled t span →
        ∃ item : DayItem, span = item.daySpan ∧ item.Written t := by
      intro t span hspan hspelled
      obtain ⟨_, hdays⟩ := mapM_isOk_iff.mp ⟨sets, hsets⟩ span hspan
      exact daySpan_written hspelled hdays
    obtain ⟨items, hspans, hitems⟩ := h.transfer hitem
    refine ⟨items, ?_, hitems⟩
    rwa [← List.forall₂_eq_eq_eq, List.forall₂_map_right_iff]

theorem days_spelled (h : Listed ',' DayItem.Written t items) :
    DaysSpelled t (items.map DayItem.daySpan) := by
  obtain ⟨spans, hspans, hlist⟩ := h.transfer fun {_ item} _ hitem =>
    ⟨item.daySpan, Eq.refl item.daySpan, daySpan_spelled hitem⟩
  have hsame : items.map DayItem.daySpan = spans := by
    rwa [← List.forall₂_eq_eq_eq, List.forall₂_map_left_iff]
  rwa [hsame]

theorem daySpans_injective : Function.Injective (List.map DayItem.daySpan) := by
  have hletters : Function.Injective Weekday.letters := by
    intro a b h
    have hday := congrArg Weekday.ofLetters? h
    rwa [Weekday.ofLetters?_letters, Weekday.ofLetters?_letters, Option.some.injEq] at hday
  refine List.map_injective_iff.mpr ?_
  rintro ⟨first, last⟩ ⟨first', last'⟩ h
  obtain ⟨hfirst, hlast⟩ := DaySpan.mk.inj h
  obtain rfl : first = first' := hletters hfirst
  obtain rfl : last = last' := Option.map_injective hletters hlast
  rfl

end Days

/-! ### Clock times -/

section Clocks

variable {t : List Char} {minute : Int} {c : ClockSpan} {spans : List ClockSpan} {written : Span}
  {stretch : Stretch} {days : WeekdaySet} {group : DayGroup}

theorem clockText_iff :
    ClockText t minute ↔ IsClock t ∧ ∃ explicit, readClock t = .ok ⟨minute, explicit⟩ := by
  constructor
  · intro h
    cases h with
    | hour h hmax =>
      refine ⟨⟨t, [], by simp, h, .inl rfl⟩, false, ?_⟩
      rw [readClock_hour h.2, if_pos hmax]
    | @minutes t a b h hdigits hminute hmax =>
      refine ⟨⟨t, _, rfl, h, .inr ⟨[a, b], by simp, hdigits, rfl⟩⟩, true, ?_⟩
      rw [readClock_minutes h.2, if_pos ⟨rfl, hminute, hmax⟩]
  · rintro ⟨⟨hour, minutes, rfl, hhour, rfl | ⟨digits, -, hdigits, rfl⟩⟩, explicit, hread⟩
    · rw [List.append_nil, readClock_hour hhour.2] at hread
      split at hread
      · rename_i hmax
        cases hread
        rw [List.append_nil]
        exact .hour hhour hmax
      · cases hread
    · rw [readClock_minutes hhour.2] at hread
      split at hread
      · rename_i hfits
        obtain ⟨hlength, hminute, hmax⟩ := hfits
        obtain ⟨a, b, rfl⟩ := List.length_eq_two.mp hlength
        cases hread
        exact .minutes hhour hdigits hminute hmax
      · cases hread

theorem readSpan_eq_ok_iff : readSpan c = .ok stretch ↔
    ∃ start text stop, readClock c.start = .ok start ∧ c.stop = some text ∧
      readClock text = .ok stop ∧ Passes ⟨start.minute, stop.minute⟩ ∧
      stretch = ⟨start, { stop with minute := liftStop start.minute stop.minute }⟩ := by
  obtain ⟨text, first, last⟩ := c
  simp only [readSpan]
  cases hstart : readClock first with
  | error e => simp [bind, Except.bind]
  | ok start =>
    cases last with
    | none => simp [bind, Except.bind, pure, Except.pure]
    | some last =>
      cases hstop : readClock last with
      | error e => simp [hstop, bind, Except.bind]
      | ok stop =>
        simp only [Option.mapM_some, hstop, bind, Except.bind, Functor.map, Except.map]
        constructor
        · intro h
          split at h
          · cases h
          · rename_i hdistinct
            split at h
            · rename_i hfits
              cases h
              obtain ⟨hforward, hday, hlast⟩ := hfits
              exact ⟨start, last, stop, rfl, rfl, hstop, ⟨hdistinct, hforward, hday, hlast⟩, rfl⟩
            · cases h
        · rintro ⟨_, _, _, ⟨⟩, ⟨⟩, hstop', ⟨hdistinct, hforward, hday, hlast⟩, rfl⟩
          obtain rfl := Except.ok.inj (hstop.symm.trans hstop')
          exact (if_neg hdistinct).trans (if_pos ⟨hforward, hday, hlast⟩)

/-- The two clock times of the span, which can be too far apart for hours, or too close. -/
def Shows (c : ClockSpan) (written : Span) : Prop :=
  ∃ start text stop, readClock c.start = .ok start ∧ c.stop = some text ∧
    readClock text = .ok stop ∧ written = ⟨start.minute, stop.minute⟩

theorem Shows.unique {written' : Span} (h : Shows c written) (h' : Shows c written') :
    written = written' := by
  obtain ⟨start, text, stop, hstart, hsome, hstop, rfl⟩ := h
  obtain ⟨start', text', stop', hstart', hsome', hstop', rfl⟩ := h'
  obtain rfl := Except.ok.inj (hstart.symm.trans hstart')
  obtain rfl := Option.some.inj (hsome.symm.trans hsome')
  obtain rfl := Except.ok.inj (hstop.symm.trans hstop')
  rfl

theorem Shows.start_nonneg (h : Shows c written) : 0 ≤ written.start := by
  obtain ⟨start, text, stop, hstart, -, -, rfl⟩ := h
  exact readClock_nonneg hstart

theorem Shows.stop_nonneg (h : Shows c written) : 0 ≤ written.stop := by
  obtain ⟨start, text, stop, -, -, hstop, rfl⟩ := h
  exact readClock_nonneg hstop

theorem exists_shows (h : readSpan c = .ok stretch) : ∃ written, Shows c written := by
  obtain ⟨start, text, stop, hstart, hsome, hstop, -, -⟩ := readSpan_eq_ok_iff.mp h
  exact ⟨_, start, text, stop, hstart, hsome, hstop, rfl⟩

theorem readSpan_isOk_iff (h : Shows c written) :
    (∃ stretch, readSpan c = .ok stretch) ↔ written.Passes := by
  obtain ⟨start, text, stop, hstart, hsome, hstop, rfl⟩ := h
  constructor
  · rintro ⟨stretch, hread⟩
    obtain ⟨start', text', stop', hstart', hsome', hstop', hpasses, -⟩ :=
      readSpan_eq_ok_iff.mp hread
    obtain rfl := Except.ok.inj (hstart.symm.trans hstart')
    obtain rfl := Option.some.inj (hsome.symm.trans hsome')
    obtain rfl := Except.ok.inj (hstop.symm.trans hstop')
    exact hpasses
  · exact fun hpasses =>
      ⟨_, readSpan_eq_ok_iff.mpr ⟨start, text, stop, hstart, hsome, hstop, hpasses, rfl⟩⟩

theorem span_of_readSpan (h : Shows c written) (hread : readSpan c = .ok stretch) :
    stretch.span = written.lift := by
  obtain ⟨start, text, stop, hstart, hsome, hstop, -, rfl⟩ := readSpan_eq_ok_iff.mp hread
  obtain rfl := h.unique ⟨start, text, stop, hstart, hsome, hstop, rfl⟩
  rfl

theorem span_written (h : ClockSpan.Spelled t c) (hread : readSpan c = .ok stretch) :
    ∃ written, Shows c written ∧ written.Written t := by
  obtain ⟨start, text, stop, hstart, hsome, hstop, -, rfl⟩ := readSpan_eq_ok_iff.mp hread
  refine ⟨⟨start.minute, stop.minute⟩, ⟨start, text, stop, hstart, hsome, hstop, rfl⟩, ?_⟩
  obtain ⟨-, hspanned⟩ := h
  rw [hsome] at hspanned
  have hclock : ∀ {t value clock}, Verbatim IsClock t value → readClock value = .ok clock →
      ClockText t clock.minute := by
    rintro t _ clock ⟨rfl, hclock⟩ hread
    exact clockText_iff.mpr ⟨hclock, clock.explicit, hread⟩
  cases hspanned with
  | pair h hg h' => exact .pair (hclock h hstart) hg (hclock h' hstop)

theorem span_spelled (h : written.Written t) : ∃ c, Shows c written ∧ c.Spelled t := by
  obtain ⟨start, stop⟩ := written
  cases h with
  | @pair u _ g v _ h hg h' =>
    obtain ⟨hu, first, hstart⟩ := clockText_iff.mp h
    obtain ⟨hv, last, hstop⟩ := clockText_iff.mp h'
    exact ⟨⟨u ++ (g ++ v), u, some v⟩, ⟨_, _, _, hstart, rfl, hstop, rfl⟩, rfl,
      .pair ⟨rfl, hu⟩ hg ⟨rfl, hv⟩⟩

section Selector

variable {stretches : List Stretch} {writtens : List Span} {text : List Char}

theorem map_span_of_mapM (h : List.Forall₂ Shows spans writtens)
    (hread : List.Forall₂ (fun c stretch => readSpan c = .ok stretch) spans stretches) :
    stretches.map Stretch.span = writtens.map lift := by
  induction hread generalizing writtens with
  | nil => cases h; rfl
  | cons hc _ ih =>
    cases h with
    | cons hspan hmore =>
      rw [List.map_cons, List.map_cons, span_of_readSpan hspan hc, ih hmore]

theorem mapM_readSpan_isOk_iff (h : List.Forall₂ Shows spans writtens) :
    (∃ stretches, spans.mapM readSpan = .ok stretches) ↔ ∀ span ∈ writtens, span.Passes := by
  rw [mapM_isOk_iff]
  induction h with
  | nil => simp
  | cons hspan _ ih =>
    rw [List.forall_mem_cons, List.forall_mem_cons, ih, readSpan_isOk_iff hspan]

theorem lifts_nonneg (h : List.Forall₂ Shows spans writtens) :
    ∀ span ∈ writtens.map lift, 0 ≤ span.start := by
  refine List.forall_mem_map.mpr fun span hspan => ?_
  obtain ⟨c, hshows⟩ := exists_forall₂_iff.mp ⟨spans, h.flip⟩ span hspan
  -- Lifting a span leaves its start.
  show 0 ≤ span.start
  exact Shows.start_nonneg hshows

theorem forward_of_passes (h : ∀ span ∈ writtens, span.Passes) : Forward (writtens.map lift) := by
  intro span hspan
  obtain ⟨raw, hraw, rfl⟩ := List.mem_map.mp hspan
  exact (h raw hraw).forward

theorem readSelector_eq_ok_iff : readSelector days ⟨text, spans⟩ = .ok group ↔
    ∃ stretches, List.Forall₂ (fun c stretch => readSpan c = .ok stretch) spans stretches ∧
      groupOfSpans days text stretches = .ok group := by
  simp only [readSelector, ← mapM_eq_ok_iff]
  cases spans.mapM readSpan <;> simp [bind, Except.bind]

/-- Which written spans a rule can have. -/
theorem readSelector_isOk_iff (h : List.Forall₂ Shows spans writtens) :
    (∃ group, readSelector days ⟨text, spans⟩ = .ok group) ↔ Passable writtens := by
  simp only [readSelector_eq_ok_iff]
  constructor
  · rintro ⟨group, stretches, hread, hgroup⟩
    have hpasses := (mapM_readSpan_isOk_iff h).mp ⟨stretches, mapM_eq_ok_iff.mpr hread⟩
    have hlift := map_span_of_mapM h hread
    have hforward := forward_of_passes hpasses
    rw [← hlift] at hforward
    obtain ⟨hclear, hday⟩ := (groupOfSpans_isOk_iff hforward).mp ⟨group, hgroup⟩
    rw [hlift] at hclear hday
    exact ⟨hpasses, hclear, hday⟩
  · rintro ⟨hpasses, hclear, hday⟩
    obtain ⟨stretches, hstretches⟩ := (mapM_readSpan_isOk_iff h).mpr hpasses
    have hread := mapM_eq_ok_iff.mp hstretches
    have hlift := map_span_of_mapM h hread
    have hforward := forward_of_passes hpasses
    rw [← hlift] at hforward hclear hday
    obtain ⟨group, hgroup⟩ := (groupOfSpans_isOk_iff hforward).mpr ⟨hclear, hday⟩
    exact ⟨group, stretches, hread, hgroup⟩

theorem clocks_written (h : ClocksSpelled t spans)
    (hread : readSelector days ⟨text, spans⟩ = .ok group) :
    ∃ writtens, List.Forall₂ Shows spans writtens ∧ Listed ',' Span.Written t writtens := by
  obtain ⟨stretches, hstretches, -⟩ := readSelector_eq_ok_iff.mp hread
  have hspan : ∀ {t c}, c ∈ spans → ClockSpan.Spelled t c →
      ∃ written, Shows c written ∧ Span.Written t written := by
    intro t c hc hspelled
    obtain ⟨_, hstretch⟩ := exists_forall₂_iff.mp ⟨stretches, hstretches⟩ c hc
    exact span_written hspelled hstretch
  exact h.transfer hspan

theorem clocks_spelled (h : Listed ',' Span.Written t writtens) :
    ∃ spans, List.Forall₂ Shows spans writtens ∧ ClocksSpelled t spans := by
  obtain ⟨spans, hshow, hlist⟩ := h.transfer fun _ hwritten => span_spelled hwritten
  exact ⟨spans, hshow.flip, hlist⟩

theorem shows_unique {writtens' : List Span} (h : List.Forall₂ Shows spans writtens)
    (h' : List.Forall₂ Shows spans writtens') : writtens = writtens' := by
  have hunique : Relator.RightUnique Shows := fun _ _ _ hspan hspan' => hspan.unique hspan'
  exact List.right_unique_forall₂' hunique h h'

end Selector

end Clocks

/-! ### Rules -/

section Rules

variable {t text : List Char} {body : Body} {clause : Clause} {hours : Hours}
  {items : Option (List DayItem)} {hours? : Option Hours} {days : WeekdaySet} {group : DayGroup}

/-- The body of a rule says these hours. -/
inductive BodySays : Body → Hours → Prop
  | opened : BodySays (.modifier .opened) .opened
  | closed : BodySays (.modifier .closed) .closed
  | spans {text : List Char} {spans : List ClockSpan} {written : List Span}
      (h : List.Forall₂ Shows spans written) : BodySays (.clocks ⟨text, spans⟩) (.spans written)

/-- The rule is about these days and has these hours. -/
inductive ClauseSays : Clause → Option (List DayItem) → Option Hours → Prop
  | always : ClauseSays .alwaysOpen none none
  | days {spans : List DaySpan} {items : List DayItem} (hdays : spans = items.map DayItem.daySpan) :
      ClauseSays (.days spans none) (some items) none
  | body {body : Body} {hours : Hours} (h : BodySays body hours) :
      ClauseSays (.body body) none (some hours)
  | both {spans : List DaySpan} {items : List DayItem} {body : Body} {hours : Hours}
      (hdays : spans = items.map DayItem.daySpan) (h : BodySays body hours) :
      ClauseSays (.days spans (some body)) (some items) (some hours)

theorem hours_written (h : body.Spelled t) (hread : readBody days text body = .ok group) :
    ∃ hours, BodySays body hours ∧ Hours.Written t hours := by
  cases h with
  | modifier h =>
    cases h with
    | opened => exact ⟨_, .opened, .opened⟩
    | closed => exact ⟨_, .closed, .closed⟩
    | off => exact ⟨_, .closed, .off⟩
    | unknown => cases hread
  | clocks h =>
    obtain ⟨written, hshow, hlist⟩ := clocks_written h hread
    exact ⟨_, .spans hshow, .spans hlist⟩

theorem hours_spelled (h : Hours.Written t hours) :
    ∃ body, BodySays body hours ∧ Body.Spelled t body := by
  cases h with
  | opened => exact ⟨_, .opened, .modifier .opened⟩
  | closed => exact ⟨_, .closed, .modifier .closed⟩
  | off => exact ⟨_, .closed, .modifier .off⟩
  | spans h =>
    obtain ⟨spans, hshow, hlist⟩ := clocks_spelled h
    exact ⟨_, .spans hshow, .clocks hlist⟩

theorem isWord_iff (h : BodySays body hours) :
    body.IsWord ↔ ¬∃ written, hours = .spans written := by
  cases h <;> simp [Body.IsWord]

theorem readBody_isOk_iff (h : BodySays body hours) :
    (∃ group, readBody days text body = .ok group) ↔ Hours.Fit Passable (some hours) := by
  cases h with
  | opened => exact iff_of_true ⟨.fullDay days, rfl⟩ nofun
  | closed => exact iff_of_true ⟨.closed days, rfl⟩ nofun
  | spans h =>
    refine (readSelector_isOk_iff h).trans ⟨?_, fun hfit => hfit _ rfl⟩
    rintro hpassable _ ⟨⟩
    exact hpassable

theorem readRule_both_eq_ok_iff {spans : List DaySpan} {body : Body} :
    readRule ⟨text, .days spans (some body)⟩ = .ok group ↔
      ∃ days, readDays spans = .ok days ∧ readBody days text body = .ok group := by
  cases hdays : readDays spans <;> simp [readRule, hdays, bind, Except.bind]

/-- A rule is read if its spans are as they have to be. -/
theorem readRule_isOk_iff (h : ClauseSays clause items hours?) :
    (∃ group, readRule ⟨text, clause⟩ = .ok group) ↔ Hours.Fit Passable hours? := by
  cases h with
  | always => exact iff_of_true ⟨_, rfl⟩ nofun
  | @days _ items hspans =>
    subst hspans
    refine iff_of_true ⟨.fullDay (DayItem.union items), ?_⟩ nofun
    simp [readRule, readDays_daySpans, bind, Except.bind, pure, Except.pure]
  | body h => exact readBody_isOk_iff h
  | @both _ items body hours hspans h =>
    subst hspans
    have hbody : (∃ group, readBody (DayItem.union items) text body = .ok group) ↔
        Hours.Fit Passable (some hours) := readBody_isOk_iff h
    rw [← hbody]
    simp [readRule, readDays_daySpans, bind, Except.bind]

theorem clause_written (h : clause.Spelled t) (hread : readRule ⟨text, clause⟩ = .ok group) :
    ∃ items hours?, ClauseSays clause items hours? ∧ RuleText t items hours? := by
  cases h with
  | always => exact ⟨none, none, .always, .always⟩
  | @days t spans h =>
    cases hdays : readDays spans with
    | error e => simp [readRule, hdays, bind, Except.bind] at hread
    | ok days =>
      obtain ⟨items, hspans, hitems⟩ := days_written h hdays
      exact ⟨some items, none, .days hspans, .days hitems⟩
  | body h =>
    obtain ⟨hours, hsays, hhours⟩ := hours_written h hread
    exact ⟨none, some hours, .body hsays, .hours hhours⟩
  | @both u g v spans body h hg hgap hb =>
    obtain ⟨days, hdays, hbody⟩ := readRule_both_eq_ok_iff.mp hread
    obtain ⟨items, hspans, hitems⟩ := days_written h hdays
    obtain ⟨hours, hsays, hhours⟩ := hours_written hb hbody
    refine ⟨some items, some hours, .both hspans hsays, .both hitems hg (fun hnil => ?_) hhours⟩
    exact Classical.not_not.mp fun hno => hgap ((isWord_iff hsays).mpr hno) hnil

theorem clause_spelled (h : RuleText t items hours?) :
    ∃ clause, ClauseSays clause items hours? ∧ clause.Spelled t := by
  cases h with
  | always => exact ⟨_, .always, .always⟩
  | days h => exact ⟨_, .days rfl, .days (days_spelled h)⟩
  | hours h =>
    obtain ⟨body, hsays, hbody⟩ := hours_spelled h
    exact ⟨_, .body hsays, .body hbody⟩
  | both h hg hgap h' =>
    obtain ⟨body, hsays, hbody⟩ := hours_spelled h'
    refine ⟨_, .both rfl hsays, .both (days_spelled h) hg (fun hword hnil => ?_) hbody⟩
    exact (isWord_iff hsays).mp hword (hgap hnil)

theorem BodySays.unique {hours' : Hours} (h : BodySays body hours) (h' : BodySays body hours') :
    hours = hours' := by
  cases h with
  | opened => cases h'; rfl
  | closed => cases h'; rfl
  | spans h =>
    cases h' with
    | spans h' => rw [shows_unique h h']

/-- The text of a rule has one reading. -/
theorem RuleText.unique {items' : Option (List DayItem)} {hours?' : Option Hours}
    (h : RuleText t items hours?) (h' : RuleText t items' hours?') :
    items = items' ∧ hours? = hours?' := by
  obtain ⟨clause, hsays, hspelled⟩ := clause_spelled h
  obtain ⟨clause', hsays', hspelled'⟩ := clause_spelled h'
  obtain rfl := hspelled.unique hspelled'
  cases hsays with
  | always =>
    cases hsays'
    exact ⟨rfl, rfl⟩
  | days hdays =>
    cases hsays' with
    | days hdays' => exact ⟨by rw [daySpans_injective (hdays.symm.trans hdays')], rfl⟩
  | body hbody =>
    cases hsays' with
    | body hbody' => exact ⟨rfl, by rw [hbody.unique hbody']⟩
  | both hdays hbody =>
    cases hsays' with
    | both hdays' hbody' =>
      exact ⟨by rw [daySpans_injective (hdays.symm.trans hdays')], by rw [hbody.unique hbody']⟩

theorem isRule_iff : IsRule Passable t ↔
    ∃ rule : Weekly.Rule, rule.Spelled t ∧ ∃ group, readRule rule = .ok group := by
  constructor
  · rintro ⟨items, hours?, htext, hfit⟩
    obtain ⟨clause, hsays, hspelled⟩ := clause_spelled htext
    exact ⟨⟨t, clause⟩, ⟨rfl, hspelled⟩, (readRule_isOk_iff hsays).mpr hfit⟩
  · rintro ⟨⟨text, clause⟩, ⟨-, hspelled⟩, group, hread⟩
    obtain ⟨items, hours?, hsays, htext⟩ := clause_written hspelled hread
    exact ⟨items, hours?, htext, (readRule_isOk_iff hsays).mp ⟨group, hread⟩⟩

end Rules

/-! ### Schedules -/

section Schedules

variable {text : List Char}

/-- Some rule of the text has a span without a minute. -/
def WritesEmptySpan (text : List Char) : Prop :=
  ∃ piece ∈ text.splitOn ';', ∃ items written, RuleText (strip piece) items (some (.spans written)) ∧
    ∃ span ∈ written, ¬span.start < span.lift.stop

/-- A text is read if it matches the weekly grammar and each of its rules is read. -/
theorem readChars_isOk_iff_rules : (∃ schedule, readChars text = .ok schedule) ↔
    ∃ rules, schedule.run text = some (rules, []) ∧
      ∀ rule ∈ rules, ∃ group, readRule rule = .ok group := by
  simp only [readChars_eq_ok_iff_rules, ← mapM_isOk_iff, mapM_eq_ok_iff]
  constructor
  · rintro ⟨_, rules, hrun, groups, hgroups, -⟩
    exact ⟨rules, hrun, groups, hgroups⟩
  · rintro ⟨rules, hrun, groups, hgroups⟩
    exact ⟨_, rules, hrun, groups, hgroups, rfl⟩

/-- A text is read if its pieces between semicolons are rules that are read. -/
theorem readChars_isOk_iff :
    (∃ schedule, readChars text = .ok schedule) ↔ IsSchedule Passable text := by
  have hpiece : ∀ piece, IsRule Passable (strip piece) ↔ ∃ group, PieceReads piece group := by
    intro piece
    simp only [isRule_iff, PieceReads, ← exists_and_left]
    exact exists_comm
  simp only [IsSchedule, hpiece, ← exists_forall₂_iff, readChars_eq_ok_iff]
  constructor
  · rintro ⟨_, groups, hall, -⟩
    exact ⟨groups, hall⟩
  · rintro ⟨groups, hall⟩
    exact ⟨_, groups, hall, rfl⟩

theorem isSchedule_acceptable_iff :
    IsSchedule Acceptable text ↔ IsSchedule Passable text ∧ ¬WritesEmptySpan text := by
  constructor
  · intro h
    refine ⟨fun piece hpiece => ?_, ?_⟩
    · obtain ⟨items, hours?, htext, hfit⟩ := h piece hpiece
      exact ⟨items, hours?, htext, fun written hw => (acceptable_iff.mp (hfit written hw)).1⟩
    · rintro ⟨piece, hpiece, items, written, htext, span, hspan, hempty⟩
      obtain ⟨items', hours?, htext', hfit⟩ := h piece hpiece
      have hsome := (acceptable_iff.mp (hfit written (htext'.unique htext).2)).2
      exact hempty (hsome span hspan)
  · rintro ⟨h, hsome⟩ piece hpiece
    obtain ⟨items, hours?, htext, hfit⟩ := h piece hpiece
    refine ⟨items, hours?, htext, fun written hw => acceptable_iff.mpr ⟨hfit written hw, ?_⟩⟩
    intro span hspan
    apply Classical.byContradiction
    intro hempty
    rw [hw] at htext
    exact hsome ⟨piece, hpiece, items, written, htext, span, hspan, hempty⟩

/-- What is read is the weekly language, with spans that can lack a minute. Nothing else keeps the
texts that are read from being those whose spans can be the hours of a day. -/
theorem Schedule.read_isOk_iff (text : String) :
    ((∃ schedule, Schedule.read text = .ok schedule) ↔ IsSchedule Passable text.toList) ∧
    (((∃ schedule, Schedule.read text = .ok schedule) ↔ IsSchedule Acceptable text.toList) ↔
      ¬((∃ schedule, Schedule.read text = .ok schedule) ∧ WritesEmptySpan text.toList)) := by
  have hread : (∃ schedule, Schedule.read text = .ok schedule) ↔ IsSchedule Passable text.toList :=
    readChars_isOk_iff
  refine ⟨hread, ?_⟩
  rw [isSchedule_acceptable_iff, ← hread]
  by_cases hok : ∃ schedule, Schedule.read text = .ok schedule
  · simp [hok]
  · simp [hok]

/-- The last minute of the day is the first of the next: the second span starts and stops there. -/
theorem Schedule.read_empty_span :
    (∃ schedule, Schedule.read "10-12,24:00-0" = .ok schedule) ∧
      ¬IsSchedule Acceptable "10-12,24:00-0".toList := by
  have hhour : ∀ {t : List Char}, t.length = 1 ∨ t.length = 2 → AllDigits t →
      60 * Text.number t ≤ lastMinute → ClockText t (60 * Text.number t) :=
    fun hlength hdigits hmax => .hour ⟨hlength, hdigits⟩ hmax
  have hten : ClockText ['1', '0'] 600 :=
    hhour (.inr rfl) (by simp [AllDigits]; decide) (by decide)
  have htwelve : ClockText ['1', '2'] 720 :=
    hhour (.inr rfl) (by simp [AllDigits]; decide) (by decide)
  have hzero : ClockText ['0'] 0 := hhour (.inl rfl) (by simp [AllDigits]; decide) (by decide)
  have hlate : ClockText ['2', '4', ':', '0', '0'] 1440 :=
    @ClockText.minutes ['2', '4'] '0' '0' ⟨.inr rfl, by simp [AllDigits]; decide⟩
      (by simp [AllDigits]; decide) (by decide) (by decide)
  have hfirst : Span.Written "10-12".toList ⟨600, 720⟩ := Spanned.pair hten (.alone '-') htwelve
  have hlast : Span.Written "24:00-0".toList ⟨1440, 0⟩ := Spanned.pair hlate (.alone '-') hzero
  have hspans : Listed ',' Span.Written "10-12,24:00-0".toList [⟨600, 720⟩, ⟨1440, 0⟩] :=
    .cons hfirst (.alone ',') (.one hlast)
  refine ⟨⟨_, rfl⟩, fun h => (isSchedule_acceptable_iff.mp h).2 ?_⟩
  exact ⟨_, List.mem_singleton_self _, none, _, .hours (.spans hspans), ⟨1440, 0⟩, by simp,
    by decide⟩

end Schedules

end OpeningHours
