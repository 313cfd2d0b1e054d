import OpeningHours.Proofs.CommaLists

/-! Well-formed texts joined by a comma. All rules but the last one of the first text are read as
before. The last rule is too, unless a list stands at its end that can take the comma and read on in
the second text. Years, dates and weekdays read there what a rule of the second text begins with, so
that nothing is lost. Times do so as well, but they also take the hour of `24/7`, and weeks take
numbers that are hours in the second text. -/

namespace OpeningHours

open Peg

namespace Language

variable {p : Scan} {s t r rest more c last : List Char} {as bs ps : List Scan}

/-- A part that may be missing is read as before, unless it goes on behind the comma. -/
theorem Joins.goesOn_past (hp : Joins more c p) (h : GoesOn (',' :: more) s t)
    (hnext : Next (· ≠ '[') (past p s)) (hstop : UsedUp (past p s) → p.Refuses c) :
    GoesOn (',' :: more) (past p s) (past p t) := by
  have hstart := h.dropWhile (by decide)
  rcases refuses_or_leaves p (s.dropWhile CharClass.blank.has) with hnone | ⟨rest, hsome⟩
  · rwa [past_of_refuses hnone, past_of_refuses ((hp.refuses hstart).mp hnone)]
  · rw [past_of_leaves hsome] at *
    rcases hp.leaves hstart hsome hnext with ⟨ht, hrest, -⟩ | ⟨-, hused, hlast⟩
    · rwa [past_of_leaves ht]
    · exact absurd (hstop hused) hlast.not_refuses

theorem pastAll_before (hps : ps ⊆ frontParts) (h : GoesOn (',' :: more) s t)
    (hnext : Next (· ≠ '[') (pastAll ps s)) (hleft : ¬UsedUp (pastAll ps s)) :
    GoesOn (',' :: more) (pastAll ps s) (pastAll ps t) := by
  induction ps generalizing s t with
  | nil => exact h
  | cons p ps ih =>
    obtain ⟨hp, hps⟩ := List.cons_subset.mp hps
    have hempty : ∀ p ∈ ps, p.mayBeEmpty = false := fun p hp => mayBeEmpty_of_mem p (hps hp)
    rw [pastAll_cons] at hnext hleft
    obtain ⟨c, hjoins⟩ := exists_joins hp more
    refine ih hps (hjoins.goesOn_past h ?_ fun hused => ?_) hnext hleft
    · exact next_of_pastAll hempty (fun p hp => mayStart_of_mem p (hps hp)) hnext
    · rw [pastAll_of_usedUp hempty hused] at hleft
      exact absurd hused hleft

/-- With the first text used up, its parts find nothing in the second either. -/
theorem pastAll_of_goesOn (hps : ps ⊆ frontParts) (h : GoesOn (',' :: more) s t) (hs : UsedUp s) :
    pastAll ps t = t := by
  induction ps with
  | nil => rfl
  | cons p ps ih =>
    obtain ⟨hp, hps⟩ := List.cons_subset.mp hps
    obtain ⟨c, hjoins⟩ := exists_joins hp more
    have hrefuses : p.Refuses (t.dropWhile CharClass.blank.has) := by
      rw [← hjoins.refuses (h.dropWhile (by decide))]
      exact hs.refuses (mayBeEmpty_of_mem p hp)
    rw [pastAll_cons, past_of_refuses hrefuses]
    exact ih hps

/-- The part that reads the text to its end goes on behind the comma with what it can read there,
and the parts after it do so from there on. -/
theorem ReadsOut.join (hp : Joins more c p) (hsplit : frontParts = as ++ p :: bs) (h : ReadsOut as p s)
    (hgoes : GoesOn (',' :: more) s t) :
    GoesOn (',' :: more) (pastAll frontParts s) (pastAll frontParts t) ∧ p.Refuses c ∨
      ∃ last, p.Leaves c last ∧ pastAll frontParts t = pastAll bs last := by
  have hmem : p ∈ frontParts := by simp [hsplit]
  have has : as ⊆ frontParts := by simp [hsplit]
  have hbs : bs ⊆ frontParts := by
    rw [hsplit]
    exact List.subset_append_of_subset_right _ (List.subset_cons_self _ _)
  have hfront := h.not_usedUp (mayBeEmpty_of_mem p hmem)
  obtain ⟨rest, hread, hused⟩ := h
  have hbracket : Next (· ≠ '[') (pastAll as s) := by
    refine next_of_past (mayBeEmpty_of_mem p hmem) (mayStart_of_mem p hmem) ?_
    rw [past_of_leaves hread]
    exact hused.next
  have hjoined := (pastAll_before has hgoes hbracket hfront).dropWhile (by decide)
  rw [hsplit, pastAll_append, pastAll_append, pastAll_cons, pastAll_cons, past_of_leaves hread]
  rcases hp.leaves hjoined hread hused.next with ⟨ht, hrest, hstop⟩ | ⟨ht, -, hlast⟩
  · rw [past_of_leaves ht, pastAll_of_goesOn hbs hrest hused,
      pastAll_of_usedUp (fun p hp => mayBeEmpty_of_mem p (hbs hp)) hused]
    exact .inl ⟨hrest, hstop hused⟩
  · rw [past_of_leaves ht]
    exact .inr ⟨_, hlast, rfl⟩

/-! ### Rules -/

theorem goesOn_past_comment (h : GoesOn (',' :: more) s t)
    (hnext : Next (· ≠ '"') (past comment s)) :
    GoesOn (',' :: more) (past comment s) (past comment t) := by
  obtain ⟨rest', ht, hrest⟩ := carries_maybe_comment (by decide) (by decide) s t _ h
    (leaves_maybe_iff_past.mpr rfl) hnext
  rwa [leaves_maybe_iff_past.mp ht]

/-- Where the text goes on, the rule has its parts there too. -/
theorem leaves_rule_join (h : GoesOn (',' :: more) s t) (hrule : Language.rule.Leaves s r)
    (halways : ¬"24/7".toList <+: s) :
    Language.rule.Leaves t (past comment (pastAll frontParts t)) := by
  obtain ⟨-, p, hp, hfound⟩ := parts_of_leaves_rule hrule halways
  obtain ⟨hblank, hcolon⟩ := starts_of_rule hrule.not_refuses
  have hword : (literal "24/7".toList).Respects (GoesOn (',' :: more)) := respects_comma rfl
  obtain ⟨x, s', rfl, -⟩ := begins_of_not_refuses (by decide) hrule.not_refuses
  obtain ⟨t', rfl, -⟩ := h.exists_cons
  refine leaves_rule_of_parts hblank hcolon ?_ ⟨p, hp, ?_⟩
  · rw [← refuses_literal_iff]
    exact hword.refuses h (refuses_literal_iff.mpr halways)
  · rcases List.mem_append.mp hp with hfront | hlast
    · obtain ⟨c, hjoins⟩ := exists_joins hfront more
      rwa [← hjoins.refuses h]
    · obtain rfl := List.mem_singleton.mp hlast
      obtain ⟨rest, hread⟩ := (refuses_or_leaves comment (x :: s')).resolve_left hfound
      obtain ⟨u, htext, -⟩ := h
      rw [htext]
      exact (leaves_comment_append hread u).not_refuses

/-- A rule is read as before where its parts are. -/
theorem leaves_rule_before (h : GoesOn (',' :: more) s t) (hrule : Language.rule.Leaves s r)
    (hnext : Next (· ≠ '"') r) (halways : ¬"24/7".toList <+: s)
    (hfront : GoesOn (',' :: more) (pastAll frontParts s) (pastAll frontParts t)) :
    ∃ r', Language.rule.Leaves t r' ∧ GoesOn (',' :: more) r r' := by
  obtain ⟨rfl, -⟩ := parts_of_leaves_rule hrule halways
  exact ⟨_, leaves_rule_join h hrule halways, goesOn_past_comment hfront hnext⟩

/-- A rule around the clock has a modifier and a comment at most. -/
theorem leaves_rule_always (h : GoesOn (',' :: more) s t) (hrule : Language.rule.Leaves s r)
    (hbracket : Next (· ≠ '[') r) (hquote : Next (· ≠ '"') r) (halways : "24/7".toList <+: s) :
    ∃ r', Language.rule.Leaves t r' ∧ GoesOn (',' :: more) r r' := by
  obtain ⟨back, rfl⟩ := halways
  obtain ⟨u, rfl, hu⟩ := h
  have hfront : past comment (past modifierPart back) = r := by
    rw [leaves_iff_rest?, rest?_rule_always] at hrule
    exact Option.some.inj hrule
  subst hfront
  have hgoes : GoesOn (',' :: more) back (back ++ u) := ⟨u, rfl, hu⟩
  have hmodifier := joins_modifierPart.goesOn_past hgoes
    (next_of_past (by decide) (by decide) hbracket) fun _ => rfl
  refine ⟨_, ?_, goesOn_past_comment hmodifier hquote⟩
  rw [leaves_iff_rest?, List.append_assoc, rest?_rule_always]
  rfl

/-- A rule that goes on behind the comma leaves what a rule at `c` leaves. -/
theorem leaves_rule_beyond (hsplit : frontParts = as ++ p :: bs) (hlast : p.Leaves c last)
    (has : ∀ q ∈ as, q.Refuses c) (hstart : CharClass.blank.Misses c ∧ c.head? ≠ some ':')
    (halways : ¬"24/7".toList <+: c) :
    Language.rule.Leaves c (past comment (pastAll bs last)) := by
  have hmem : p ∈ frontParts := by simp [hsplit]
  have hparts : pastAll frontParts c = pastAll bs last := by
    rw [hsplit, pastAll_append, pastAll_of_refuses hstart.1 has, pastAll_cons, past_of_leaves]
    rwa [CharClass.dropWhile_of_misses hstart.1]
  rw [← hparts]
  exact leaves_rule_of_parts hstart.1 hstart.2 halways
    ⟨p, List.mem_append_left [comment] hmem, hlast.not_refuses⟩

/-! ### The last rule of the first text -/

/-- The text is rules with separators between them, and blanks at its end. -/
def ReadsRules (s : List Char) : Prop := ∃ back, rules.Leaves s back ∧ UsedUp back

theorem not_leaves_separator (h : UsedUp s) :
    ¬separator.Leaves (s.dropWhile CharClass.blank.has) rest := by
  rw [h, leaves_separator_iff]
  simp

theorem readsRules_iff : ReadsRules s ↔ ∃ r, Language.rule.Leaves s r ∧ (UsedUp r ∨
    ∃ first, separator.Leaves (r.dropWhile CharClass.blank.has) first ∧
      ReadsRules (first.dropWhile CharClass.blank.has)) := by
  simp only [ReadsRules, leaves_rules_iff]
  constructor
  · rintro ⟨back, ⟨r, hrule, hmore⟩, hused⟩
    refine ⟨r, hrule, ?_⟩
    rcases leaves_moreRules_iff.mp hmore with ⟨-, rfl⟩ | ⟨first, middle, hfirst, hnext, hlater⟩
    · exact .inl hused
    · exact .inr ⟨first, hfirst, back, ⟨middle, hnext, hlater⟩, hused⟩
  · rintro ⟨r, hrule, hused | ⟨first, hfirst, back, ⟨middle, hnext, hlater⟩, hused⟩⟩
    · refine ⟨r, ⟨r, hrule, leaves_moreRules_iff.mpr (.inl ⟨Refuses.seq ?_, rfl⟩)⟩, hused⟩
      rcases refuses_or_leaves (padded separator) r with hnone | ⟨_, hsome⟩
      · exact hnone
      · obtain ⟨_, hseparator, -⟩ := leaves_padded_iff.mp hsome
        exact absurd hseparator (not_leaves_separator hused)
    · have hmore := leaves_moreRules_iff.mpr (.inr ⟨first, middle, hfirst, hnext, hlater⟩)
      exact ⟨back, ⟨r, hrule, hmore⟩, hused⟩

theorem readsRules_congr (hs : Language.rule.Leaves s r) (ht : Language.rule.Leaves t r) :
    ReadsRules s ↔ ReadsRules t := by
  rw [readsRules_iff, readsRules_iff]
  refine exists_congr fun r' => and_congr_left fun _ => ?_
  rw [leaves_iff_rest?, leaves_iff_rest?, leaves_iff_rest?.mp hs, leaves_iff_rest?.mp ht]

theorem starts_of_readsRules (h : ReadsRules s) :
    CharClass.blank.Misses s ∧ s.head? ≠ some ':' := by
  obtain ⟨r, hrule, -⟩ := readsRules_iff.mp h
  exact starts_of_rule hrule.not_refuses

/-- Years, dates and weeks take a text to its end, the weeks last. -/
abbrev WeeksOut : List Char → Prop := ReadsOut [yearSelector, monthdaySelector] weekSelector

/-- The selectors of a rule take a text to its end, the times last. -/
abbrev TimesOut : List Char → Prop :=
  ReadsOut [yearSelector, monthdaySelector, weekSelector, word ":", weekdaySelector] timeSelector

theorem not_timesOut_of_weeksOut (h : WeeksOut s) : ¬TimesOut s := by
  have hempty : ∀ p ∈ [word ":", weekdaySelector], p.mayBeEmpty = false := by decide
  have hused := h.usedUp hempty
  rw [List.cons_append, List.cons_append, List.nil_append] at hused
  exact fun htimes => htimes.not_usedUp (by decide) hused

theorem not_timesOut_always : ¬TimesOut ("24/7".toList ++ s) := by
  rintro ⟨rest, hread, hused⟩
  rw [pastAll_of_refuses (misses_always s) (refuses_always s),
    CharClass.dropWhile_of_misses (misses_always s)] at hread
  rw [← (leaves_time_always s).unique hread] at hused
  cases hused

theorem not_weeksOut_always : ¬WeeksOut ("24/7".toList ++ s) := by
  rintro ⟨rest, hread, -⟩
  rw [pastAll_of_refuses (misses_always s) fun p hp =>
      refuses_always s p (List.mem_append_left [weekSelector, word ":", weekdaySelector] hp),
    CharClass.dropWhile_of_misses (misses_always s)] at hread
  exact hread.not_refuses (refuses_always s _ (by simp))

/-- No rule can follow where a rule has left a slash. -/
theorem not_readsRules_of_slash
    (h : Language.rule.Leaves t (past comment (pastAll [modifierPart] ("/7".toList ++ s)))) :
    ¬ReadsRules t := by
  intro ht
  obtain ⟨r, hr, hmore⟩ := readsRules_iff.mp ht
  have hblank : CharClass.blank.Misses ("/7".toList ++ s) := CharClass.misses_cons.mpr (by decide)
  have hnone : ∀ p ∈ [modifierPart, comment], p.Refuses ("/7".toList ++ s) := by
    intro p hp
    simp only [List.mem_cons, List.not_mem_nil, or_false] at hp
    rcases hp with rfl | rfl <;> rfl
  have hback : pastAll [modifierPart, comment] ("/7".toList ++ s) = "/7".toList ++ s :=
    pastAll_of_refuses hblank hnone
  rw [pastAll_cons, pastAll_cons, pastAll_nil] at hback
  rw [pastAll_cons, pastAll_nil, hback] at h
  obtain rfl := h.unique hr
  rcases hmore with hused | ⟨first, hfirst, -⟩
  · cases hused
  · rw [CharClass.dropWhile_of_misses hblank, leaves_separator_iff] at hfirst
    rcases hfirst with hfirst | hfirst | hfirst <;> cases hfirst

theorem split_frontParts (h : frontParts = as ++ p :: bs) :
    as = [] ∧ p = yearSelector ∨ as = [yearSelector] ∧ p = monthdaySelector ∨
    as = [yearSelector, monthdaySelector] ∧ p = weekSelector ∨
    as = [yearSelector, monthdaySelector, weekSelector] ∧ p = word ":" ∨
    as = [yearSelector, monthdaySelector, weekSelector, word ":"] ∧ p = weekdaySelector ∨
    as = [yearSelector, monthdaySelector, weekSelector, word ":", weekdaySelector] ∧
      p = timeSelector ∨
    as = selectorParts ∧ p = modifierPart := by
  simp only [frontParts, selectorParts, List.cons_append, List.nil_append,
    List.cons_eq_append_iff, List.cons.injEq, List.nil_eq, List.append_eq_nil_iff] at h ⊢
  rcases h with ⟨rfl, h, -⟩ | ⟨_, rfl, ⟨rfl, h, -⟩ | ⟨_, rfl, ⟨rfl, h, -⟩ | ⟨_, rfl, ⟨rfl, h, -⟩ |
    ⟨_, rfl, ⟨rfl, h, -⟩ | ⟨_, rfl, ⟨rfl, h, -⟩ | ⟨_, rfl, ⟨rfl, h, -⟩ | ⟨_, rfl, h⟩⟩⟩⟩⟩⟩⟩
  · exact .inl ⟨rfl, h⟩
  · exact .inr (.inl ⟨rfl, h⟩)
  · exact .inr (.inr (.inl ⟨rfl, h⟩))
  · exact .inr (.inr (.inr (.inl ⟨rfl, h⟩)))
  · exact .inr (.inr (.inr (.inr (.inl ⟨rfl, h⟩))))
  · exact .inr (.inr (.inr (.inr (.inr (.inl ⟨rfl, h⟩)))))
  · exact .inr (.inr (.inr (.inr (.inr (.inr ⟨rfl, h⟩)))))
  · cases h.2

section LastRule

variable {r' : List Char} (hused : UsedUp r) (h : GoesOn (',' :: more) s t)
  (hn : ReadsRules (more.dropWhile CharClass.blank.has))

include hused hn in
/-- A last rule that is read as before has the comma behind it, and then the rules of the second
text. -/
theorem readsRules_of_before (hr : GoesOn (',' :: more) r r') (ht : Language.rule.Leaves t r') :
    ReadsRules t := by
  refine readsRules_iff.mpr ⟨r', ht, .inr ⟨more, ?_, hn⟩⟩
  rw [hr.of_blank hused]
  exact ⟨.additional, rfl⟩

variable (hrule : Language.rule.Leaves s r)

include hrule hused h hn

theorem readsRules_always (halways : "24/7".toList <+: s) : ReadsRules t := by
  obtain ⟨r', ht, hr⟩ := leaves_rule_always h hrule hused.next hused.next halways
  exact readsRules_of_before hused hn hr ht

/-- The part that reads the text to its end leaves the comma to the rules, or takes it. -/
theorem readsRules_of_readsOut (halways : ¬"24/7".toList <+: s)
    (hsplit : frontParts = as ++ p :: bs) (hp : Joins more c p) (hout : ReadsOut as p s) :
    ReadsRules t ∧ p.Refuses c ∨
      ∃ last, p.Leaves c last ∧ Language.rule.Leaves t (past comment (pastAll bs last)) := by
  rcases hout.join hp hsplit h with ⟨hfront, hnone⟩ | ⟨last, hlast, hfront⟩
  · obtain ⟨r', ht, hr⟩ := leaves_rule_before h hrule hused.next halways hfront
    exact .inl ⟨readsRules_of_before hused hn hr ht, hnone⟩
  · refine .inr ⟨last, hlast, ?_⟩
    rw [← hfront]
    exact leaves_rule_join h hrule halways

/-- Where no earlier part can be read there, the part that takes the comma reads the second text as
a rule of its own. -/
theorem readsRules_of_beyond (halways : ¬"24/7".toList <+: s)
    (hsplit : frontParts = as ++ p :: bs) (hp : Joins more c p) (hout : ReadsOut as p s)
    (hstart : CharClass.blank.Misses c ∧ c.head? ≠ some ':')
    (hfirst : ¬p.Refuses c → (∀ q ∈ as, q.Refuses c) ∧ ¬"24/7".toList <+: c) :
    ReadsRules t ↔ (¬p.Refuses c → ReadsRules c) := by
  rcases readsRules_of_readsOut hused h hn hrule halways hsplit hp hout with
    ⟨ht, hnone⟩ | ⟨last, hlast, ht⟩
  · exact iff_of_true ht fun hsome => absurd hnone hsome
  · obtain ⟨has, halways'⟩ := hfirst hlast.not_refuses
    have hc := leaves_rule_beyond hsplit hlast has hstart halways'
    rw [readsRules_congr ht hc]
    exact ⟨fun h _ => h, fun h => h hlast.not_refuses⟩

/-- Nothing is lost where the part that takes the comma reads the second text as the rules do. -/
theorem readsRules_of_list (halways : ¬"24/7".toList <+: s) (hsplit : frontParts = as ++ p :: bs)
    (hp : Joins more (more.dropWhile CharClass.blank.has) p) (hout : ReadsOut as p s)
    (hbefore : ¬p.Refuses (more.dropWhile CharClass.blank.has) →
      ∀ q ∈ as, q.Refuses (more.dropWhile CharClass.blank.has))
    (halways' : ¬p.Refuses (more.dropWhile CharClass.blank.has) →
      ¬"24/7".toList <+: more.dropWhile CharClass.blank.has) : ReadsRules t :=
  (readsRules_of_beyond hused h hn hrule halways hsplit hp hout (starts_of_readsRules hn)
    fun hsome => ⟨hbefore hsome, halways' hsome⟩).mpr fun _ => hn

/-- Weeks at the end take the comma if a number follows it, and then the second text has to be good
behind a week. -/
theorem readsRules_weeks (halways : ¬"24/7".toList <+: s) (hweeks : WeeksOut s) :
    ReadsRules t ↔ (¬weekNumber.Refuses (more.dropWhile CharClass.blank.has) →
      ReadsRules ("week".toList ++ more)) := by
  have hsplit : frontParts = [yearSelector, monthdaySelector] ++ weekSelector ::
      [word ":", weekdaySelector, timeSelector, modifierPart] := rfl
  rw [← refuses_weekSelector_iff]
  refine readsRules_of_beyond hused h hn hrule halways hsplit joins_weekSelector hweeks
    ⟨CharClass.misses_cons.mpr (by decide), by simp⟩ fun _ => ⟨?_, ?_⟩
  · intro p hp
    simp only [List.mem_cons, List.not_mem_nil, or_false] at hp
    rcases hp with rfl | rfl <;> rfl
  · rintro ⟨rest, hrest⟩
    cases hrest

/-- Times at the end take the hour of `24/7`, and no rule begins with what is left of it. -/
theorem readsRules_times (halways : ¬"24/7".toList <+: s) (htimes : TimesOut s) :
    ReadsRules t ↔ ¬"24/7".toList <+: more.dropWhile CharClass.blank.has := by
  have hsplit : frontParts = [yearSelector, monthdaySelector, weekSelector, word ":",
      weekdaySelector] ++ timeSelector :: [modifierPart] := rfl
  by_cases halways' : "24/7".toList <+: more.dropWhile CharClass.blank.has
  · obtain ⟨rest, hrest⟩ := halways'
    refine iff_of_false (fun ht => ?_) (not_not_intro ⟨rest, hrest⟩)
    have htime := leaves_time_always rest
    rcases readsRules_of_readsOut hused h hn hrule halways hsplit joins_timeSelector htimes with
      ⟨-, hnone⟩ | ⟨last, hlast, hleft⟩
    · rw [← hrest] at hnone
      exact htime.not_refuses hnone
    · rw [← hrest] at hlast
      obtain rfl := htime.unique hlast
      exact not_readsRules_of_slash hleft ht
  · refine iff_of_true (readsRules_of_list hused h hn hrule halways hsplit joins_timeSelector
      htimes (fun hsome => ?_) fun _ => halways') halways'
    exact List.forall_mem_cons.mpr ⟨refuses_year_of_time hsome, refuses_of_time hsome⟩

/-- Nothing is lost where anything else stands at the end. -/
theorem readsRules_others (halways : ¬"24/7".toList <+: s) (htimes : ¬TimesOut s)
    (hweeks : ¬WeeksOut s) : ReadsRules t := by
  obtain ⟨hfront, -⟩ := parts_of_leaves_rule hrule halways
  by_cases hleft : UsedUp (pastAll frontParts s)
  · have hblank : ¬UsedUp s := by
      intro hblank
      rw [← CharClass.dropWhile_of_misses (starts_of_rule hrule.not_refuses).1, hblank] at hrule
      exact hrule.not_refuses (refuses_of_head (by decide) (by simp))
    obtain ⟨as, p, bs, hsplit, hout⟩ := exists_readsOut hblank hleft
    have hlist := readsRules_of_list hused h hn hrule halways hsplit
    have hplain : Joins more [] p → ReadsRules t := by
      intro hp
      rcases readsRules_of_readsOut hused h hn hrule halways hsplit hp hout with
        ⟨ht, -⟩ | ⟨last, hlast, -⟩
      · exact ht
      · have hempty := mayBeEmpty_of_mem p (by simp [hsplit])
        exact absurd (refuses_of_head hempty (by simp)) hlast.not_refuses
    rcases split_frontParts hsplit with ⟨rfl, rfl⟩ | ⟨rfl, rfl⟩ | ⟨rfl, rfl⟩ | ⟨-, rfl⟩ |
      ⟨rfl, rfl⟩ | ⟨rfl, rfl⟩ | ⟨-, rfl⟩
    · exact hlist joins_yearSelector hout (fun _ => nofun) (not_always_of_mem (by simp))
    · refine hlist joins_monthdaySelector hout (fun hsome => ?_) (not_always_of_mem (by simp))
      exact List.forall_mem_singleton.mpr (refuses_year_of_month hsome)
    · exact absurd hout hweeks
    · exact hplain joins_colon
    · exact hlist joins_weekdaySelector hout refuses_of_weekday (not_always_of_mem (by simp))
    · exact absurd hout htimes
    · exact hplain joins_modifierPart
  · have hbracket : Next (· ≠ '[') (pastAll frontParts s) := by
      refine next_of_past (p := comment) (by decide) (by decide) ?_
      rw [hfront]
      exact hused.next
    have hparts := pastAll_before (List.Subset.refl _) h hbracket hleft
    obtain ⟨r', ht, hr⟩ := leaves_rule_before h hrule hused.next halways hparts
    exact readsRules_of_before hused hn hr ht

theorem readsRules_last_iff : ReadsRules t ↔
    ¬(TimesOut s ∧ "24/7".toList <+: more.dropWhile CharClass.blank.has) ∧
      (WeeksOut s → ¬weekNumber.Refuses (more.dropWhile CharClass.blank.has) →
        ReadsRules ("week".toList ++ more)) := by
  by_cases halways : "24/7".toList <+: s
  · refine iff_of_true (readsRules_always hused h hn hrule halways) ?_
    obtain ⟨rest, rfl⟩ := halways
    exact ⟨fun htimes => not_timesOut_always htimes.1, fun hweeks =>
      absurd hweeks not_weeksOut_always⟩
  by_cases hweeks : WeeksOut s
  · rw [readsRules_weeks hused h hn hrule halways hweeks]
    simp only [not_timesOut_of_weeksOut hweeks, hweeks, false_and, not_false_iff, true_and,
      forall_const]
  by_cases htimes : TimesOut s
  · rw [readsRules_times hused h hn hrule halways htimes]
    simp only [htimes, hweeks, true_and, false_implies, and_true]
  · refine iff_of_true (readsRules_others hused h hn hrule halways htimes hweeks) ?_
    exact ⟨fun htimes' => htimes htimes'.1, fun hweeks' => absurd hweeks' hweeks⟩

end LastRule

/-! ### All rules of the first text -/

/-- The selectors of a rule up to its times. -/
def upToTimes : Scan :=
  maybe (ws >> yearSelector) >> maybe (ws >> monthdaySelector) >> maybe (ws >> weekSelector) >>
    maybe (ws >> word ":") >> maybe (ws >> weekdaySelector) >> ws >> timeSelector

/-- The selectors of a rule up to its weeks. -/
def upToWeeks : Scan :=
  maybe (ws >> yearSelector) >> maybe (ws >> monthdaySelector) >> ws >> weekSelector

/-- The text is rules with separators behind them, if any, and then what the expression matches. -/
def endingIn (p : Scan) : Peg (List (Rule × Separator) × List Construct) :=
  seq (star (seq Language.rule (padded separator))) p

theorem leaves_upToTimes_iff : (∃ back, upToTimes.Leaves s back ∧ UsedUp back) ↔ TimesOut s := by
  simp only [upToTimes, leaves_iff_rest?, rest?_then, rest?_maybe_spaced, rest?_ws,
    Option.bind_some, ReadsOut, pastAll_cons, pastAll_nil]

theorem leaves_upToWeeks_iff : (∃ back, upToWeeks.Leaves s back ∧ UsedUp back) ↔ WeeksOut s := by
  simp only [upToWeeks, leaves_iff_rest?, rest?_then, rest?_maybe_spaced, rest?_ws,
    Option.bind_some, ReadsOut, pastAll_cons, pastAll_nil]

/-- The text ends in what the expression matches, and rules stand in front of it. -/
def EndsIn (p : Scan) (s : List Char) : Prop := ∃ back, (endingIn p).Leaves s back ∧ UsedUp back

theorem leaves_rule_separator_iff :
    (seq Language.rule (padded separator)).Leaves s rest ↔ ∃ r first, Language.rule.Leaves s r ∧
      separator.Leaves (r.dropWhile CharClass.blank.has) first ∧
        first.dropWhile CharClass.blank.has = rest := by
  simp only [leaves_seq_iff, leaves_padded_iff, exists_and_left]

theorem endsIn_last_iff (hrule : Language.rule.Leaves s r) (hused : UsedUp r) :
    EndsIn p s ↔ ∃ back, p.Leaves s back ∧ UsedUp back := by
  have hnone : (seq Language.rule (padded separator)).Refuses s := by
    refine (refuses_or_leaves _ _).resolve_right ?_
    rintro ⟨rest, hsome⟩
    obtain ⟨r', first, hrule', hfirst, -⟩ := leaves_rule_separator_iff.mp hsome
    rw [← hrule.unique hrule'] at hfirst
    exact not_leaves_separator hused hfirst
  have hstar : (star (seq Language.rule (padded separator))).Leaves s s :=
    (leaves_star_iff (by decide)).mpr (.inl ⟨hnone, rfl⟩)
  refine exists_congr fun back => and_congr_left fun _ => ?_
  rw [endingIn, leaves_seq_iff]
  refine ⟨?_, fun h => ⟨s, hstar, h⟩⟩
  rintro ⟨m, hm, hp⟩
  rwa [hstar.unique hm]

section NextRule

variable {first : List Char} (hrule : Language.rule.Leaves s r)
  (hfirst : separator.Leaves (r.dropWhile CharClass.blank.has) first)

include hrule hfirst

theorem endsIn_next_iff : EndsIn p s ↔ EndsIn p (first.dropWhile CharClass.blank.has) := by
  have hstep := leaves_rule_separator_iff.mpr ⟨r, first, hrule, hfirst, rfl⟩
  have hstar : ∀ m, (star (seq Language.rule (padded separator))).Leaves s m ↔
      (star (seq Language.rule (padded separator))).Leaves
        (first.dropWhile CharClass.blank.has) m := by
    intro m
    rw [leaves_star_iff (by decide)]
    constructor
    · rintro (⟨hnone, -⟩ | ⟨m', hm', hmore⟩)
      · exact absurd hnone hstep.not_refuses
      · rwa [hstep.unique hm']
    · exact fun hmore => .inr ⟨_, hstep, hmore⟩
  refine exists_congr fun back => and_congr_left fun _ => ?_
  simp only [endingIn, leaves_seq_iff, hstar]

theorem readsRules_next_iff :
    ReadsRules s ↔ ReadsRules (first.dropWhile CharClass.blank.has) := by
  rw [readsRules_iff]
  constructor
  · rintro ⟨r', hr', hused | ⟨first', hfirst', hmore⟩⟩
    · rw [hrule.unique hr'] at hfirst
      exact absurd hfirst (not_leaves_separator hused)
    · rw [← hrule.unique hr'] at hfirst'
      rwa [hfirst.unique hfirst']
  · exact fun hmore => ⟨r, hrule, .inr ⟨first, hfirst, hmore⟩⟩

end NextRule

/-- A rule with another one behind it is read as before. -/
theorem leaves_rule_next {first : List Char} (h : GoesOn (',' :: more) s t)
    (hrule : Language.rule.Leaves s r)
    (hfirst : separator.Leaves (r.dropWhile CharClass.blank.has) first) :
    ∃ r', Language.rule.Leaves t r' ∧ GoesOn (',' :: more) r r' := by
  obtain ⟨hbracket, hquote⟩ : Next (· ≠ '[') r ∧ Next (· ≠ '"') r := by
    rcases leaves_separator_iff.mp hfirst with hr | hr | hr <;>
      exact ⟨next_of_cons hr (by decide), next_of_cons hr (by decide)⟩
  by_cases halways : "24/7".toList <+: s
  · exact leaves_rule_always h hrule hbracket hquote halways
  obtain ⟨hr, -⟩ := parts_of_leaves_rule hrule halways
  refine leaves_rule_before h hrule hquote halways (pastAll_before (List.Subset.refl _) h ?_ ?_)
  · refine next_of_past (p := comment) (by decide) (by decide) ?_
    rwa [hr]
  · intro hused
    rw [past_of_usedUp (by decide) hused] at hr
    rw [← hr] at hfirst
    exact not_leaves_separator hused hfirst

/-- The rules of a text in front of a comma and of the rules of another text. The induction is on
the length of the first text: what stands in front of its last rule is read as before. -/
theorem readsRules_join (hs : ReadsRules s) (h : GoesOn (',' :: more) s t)
    (hn : ReadsRules (more.dropWhile CharClass.blank.has)) : ReadsRules t ↔
      ¬(EndsIn upToTimes s ∧ "24/7".toList <+: more.dropWhile CharClass.blank.has) ∧
        (EndsIn upToWeeks s → ¬weekNumber.Refuses (more.dropWhile CharClass.blank.has) →
          ReadsRules ("week".toList ++ more)) := by
  induction hlength : s.length using Nat.strongRecOn generalizing s t with
  | ind n ih =>
    obtain ⟨r, hrule, hused | ⟨first, hfirst, hmore⟩⟩ := readsRules_iff.mp hs
    · rw [endsIn_last_iff hrule hused, endsIn_last_iff hrule hused, leaves_upToTimes_iff,
        leaves_upToWeeks_iff]
      exact readsRules_last_iff hused h hn hrule
    · obtain ⟨r', hrule', hr⟩ := leaves_rule_next h hrule hfirst
      obtain ⟨u, hback, hu⟩ := hr.dropWhile (by decide)
      have hfirst' : separator.Leaves (r'.dropWhile CharClass.blank.has) (first ++ u) := by
        rw [hback, leaves_separator_iff]
        rcases leaves_separator_iff.mp hfirst with hr | hr | hr <;> simp [hr]
      have hgoes : GoesOn (',' :: more) first (first ++ u) := ⟨u, rfl, hu⟩
      have hshort : (first.dropWhile CharClass.blank.has).length < s.length :=
        leaves_length (by decide) (leaves_rule_separator_iff.mpr ⟨r, first, hrule, hfirst, rfl⟩)
      rw [readsRules_next_iff hrule' hfirst', endsIn_next_iff hrule hfirst,
        endsIn_next_iff hrule hfirst]
      exact ih _ (hlength ▸ hshort) hmore (hgoes.dropWhile (by decide)) rfl

end Language

/-- Whether a text is rules with separators behind them, if any, and then what the expression
matches, up to its end. -/
def endsIn (p : Language.Scan) (text : String) : Bool :=
  (document (Language.endingIn p)).matches? text.toList

/-- Whether the expression matches the beginning of a text, blanks aside. -/
def opensWith (p : Peg α) (text : String) : Bool := (spaced p).matches? text.toList

theorem endsIn_iff {p : Language.Scan} {text : String} : endsIn p text = true ↔
    Language.EndsIn p (text.toList.dropWhile CharClass.blank.has) := matches?_document_iff

theorem opensWith_iff {p : Peg α} {text : String} : opensWith p text = true ↔
    ¬p.Refuses (text.toList.dropWhile CharClass.blank.has) := by
  rw [opensWith, matches?, refuses_iff_rest?, ← rest?_spaced, ← refuses_iff_rest?, Refuses,
    Option.isSome_iff_ne_none]

/-- Two well-formed texts are well formed with a comma between them, unless the first ends in a list
that takes the comma, and the second does not go on with the list: times cannot go on with `24/7`,
and weeks go on with a number, so that what stands behind it has to be good behind a week. -/
theorem isWellFormed_comma_iff {a b : String} (ha : isWellFormed a = true)
    (hb : isWellFormed b = true) : isWellFormed (a ++ ", " ++ b) = true ↔
      ¬(endsIn Language.upToTimes a = true ∧ opensWith (literal "24/7".toList) b = true) ∧
        (endsIn Language.upToWeeks a = true → opensWith Language.weekNumber b = true →
          isWellFormed ("week " ++ b) = true) := by
  have htext : (a ++ ", " ++ b).toList = a.toList ++ (',' :: ' ' :: b.toList) := by simp
  have hgoes : GoesOn (',' :: ' ' :: b.toList) a.toList (a ++ ", " ++ b).toList := ⟨_, htext, rfl⟩
  have hweek : ("week " ++ b).toList.dropWhile CharClass.blank.has =
      "week".toList ++ (' ' :: b.toList) := by simp [CharClass.has]
  have hjoin := Language.readsRules_join (isWellFormed_iff.mp ha) (hgoes.dropWhile (by decide))
    (isWellFormed_iff.mp hb)
  rw [isWellFormed_iff, isWellFormed_iff, endsIn_iff, endsIn_iff, opensWith_iff, opensWith_iff,
    hweek, refuses_literal_iff, not_not]
  exact hjoin

theorem isWellFormed_comma_weeks : isWellFormed "2020 week 5" = true ∧
    isWellFormed "10:30-12:00; PH off" = true ∧
      isWellFormed ("2020 week 5" ++ ", " ++ "10:30-12:00; PH off") = true := by
  have hweeks : isWellFormed "2020 week 5" = true := by decide
  have htimes : isWellFormed "10:30-12:00; PH off" = true := by decide
  exact ⟨hweeks, htimes, (isWellFormed_comma_iff hweeks htimes).mpr ⟨by decide, by decide⟩⟩

/-- The times take the comma and the hour behind it. -/
theorem isWellFormed_comma_always : isWellFormed "13" = true ∧ isWellFormed "24/7" = true ∧
    isWellFormed ("13" ++ ", " ++ "24/7") = false := by decide

end OpeningHours
