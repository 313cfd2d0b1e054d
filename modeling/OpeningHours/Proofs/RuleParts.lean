import OpeningHours.Proofs.JoinedTexts

/-! The parts of a rule. A rule of the wider language is its parts one after another, from years to
a comment, each with blanks in front and each of them possibly missing. What the rule leaves of a
text can be told part by part. -/

namespace OpeningHours

namespace Peg

variable {p : Peg α} {q : Peg β} {s rest : List Char}

/-- What an expression leaves of a text, if it matches. -/
def rest? (p : Peg α) (s : List Char) : Option (List Char) := (p.run s).map Prod.snd

theorem leaves_iff_rest? : p.Leaves s rest ↔ p.rest? s = some rest := by
  simp [Leaves, rest?]

theorem refuses_iff_rest? : p.Refuses s ↔ p.rest? s = none := by simp [Refuses, rest?]

theorem Leaves.unique {rest' : List Char} (h : p.Leaves s rest) (h' : p.Leaves s rest') :
    rest = rest' := by
  rw [leaves_iff_rest?] at h h'
  exact Option.some.inj (h.symm.trans h')

theorem rest?_seq : (seq p q).rest? s = (p.rest? s).bind fun m => q.rest? m := by
  unfold rest?
  rw [run]
  cases hp : p.run s with
  | none => rfl
  | some first =>
    simp only [Option.map_some, Option.bind_some]
    cases q.run first.2 <;> rfl

theorem rest?_choice {q : Peg α} : (choice p q).rest? s = (p.rest? s).or (q.rest? s) := by
  unfold rest?
  rw [run]
  cases p.run s <;> rfl

theorem rest?_option : (option p).rest? s = some ((p.rest? s).getD s) := by
  unfold rest?
  rw [run]
  cases p.run s <;> rfl

theorem rest?_map {f : α → β} : (map f p).rest? s = p.rest? s := by
  unfold rest?
  rw [run]
  cases p.run s <;> rfl

theorem rest?_matched : (matched p).rest? s = p.rest? s := by
  unfold rest?
  rw [run]
  cases p.run s <;> rfl

theorem rest?_blanks : blanks.rest? s = some (s.dropWhile CharClass.blank.has) := rfl

theorem rest?_spaced : (spaced p).rest? s = p.rest? (s.dropWhile CharClass.blank.has) := by
  rw [spaced, after, rest?_map, rest?_seq, rest?_blanks, Option.bind_some]

/-- A text that is not refused begins with one of the first characters. -/
theorem begins_of_not_refuses (hempty : p.mayBeEmpty = false) (h : ¬p.Refuses s) :
    Begins (p.mayStart · = true) s := by
  cases s with
  | nil => exact absurd (refuses_of_head hempty (by simp)) h
  | cons x s =>
    refine ⟨x, s, rfl, ?_⟩
    by_contra hstart
    refine h (refuses_of_head hempty fun y hy => ?_)
    obtain rfl := Option.some.inj hy
    exact Bool.eq_false_iff.mpr hstart

end Peg

open Peg

/-- The text is used up, blanks aside. -/
abbrev UsedUp (s : List Char) : Prop := s.dropWhile CharClass.blank.has = []

theorem next_of_cons {s u : List Char} {x : Char} {allowed : Char → Prop}
    (h : s.dropWhile CharClass.blank.has = x :: u) (hx : allowed x) : Next allowed s := by
  intro y hy
  rw [h] at hy
  cases hy
  exact hx

namespace UsedUp

variable {s : List Char} {allowed : Char → Prop}

theorem next (h : UsedUp s) : Next allowed s := by
  intro x hx
  rw [h] at hx
  cases hx

theorem refuses {p : Peg α} (h : UsedUp s) (hempty : p.mayBeEmpty = false) :
    p.Refuses (s.dropWhile CharClass.blank.has) := by
  rw [h]
  exact refuses_of_head hempty (by simp)

end UsedUp

namespace Language

variable {p q : Scan} {s m rest : List Char} {ps : List Scan}

theorem rest?_then : (p >> q).rest? s = (p.rest? s).bind fun m => q.rest? m :=
  rest?_map.trans rest?_seq

theorem rest?_orElse {p q : Peg α} : (p <|> q).rest? s = (p.rest? s).or (q.rest? s) := rest?_choice

/-- What is left behind an expression that may be missing, with blanks in front of it. -/
def past (p : Scan) (s : List Char) : List Char :=
  (p.rest? (s.dropWhile CharClass.blank.has)).getD s

/-- What is left behind expressions one after another, each of which may be missing. -/
def pastAll (ps : List Scan) (s : List Char) : List Char := ps.foldl (fun s p => past p s) s

@[simp] theorem pastAll_nil : pastAll [] s = s := rfl

@[simp] theorem pastAll_cons : pastAll (p :: ps) s = pastAll ps (past p s) := rfl

theorem pastAll_append {qs : List Scan} : pastAll (ps ++ qs) s = pastAll qs (pastAll ps s) :=
  List.foldl_append

theorem past_of_leaves (h : p.Leaves (s.dropWhile CharClass.blank.has) rest) : past p s = rest := by
  rw [past, leaves_iff_rest?.mp h, Option.getD_some]

theorem past_of_refuses (h : p.Refuses (s.dropWhile CharClass.blank.has)) : past p s = s := by
  rw [past, refuses_iff_rest?.mp h, Option.getD_none]

theorem past_of_usedUp (hempty : p.mayBeEmpty = false) (h : UsedUp s) : past p s = s :=
  past_of_refuses (h.refuses hempty)

/-- What starts with no such character does not take one away. -/
theorem next_of_past {x : Char} (hempty : p.mayBeEmpty = false) (hstart : p.mayStart x = false)
    (h : Next (· ≠ x) (past p s)) : Next (· ≠ x) s := by
  rintro y hy rfl
  have hrefuses : p.Refuses (s.dropWhile CharClass.blank.has) := by
    refine refuses_of_head hempty fun z hz => ?_
    cases hy.symm.trans hz
    exact hstart
  rw [past_of_refuses hrefuses] at h
  exact h y hy rfl

theorem pastAll_of_refuses (hs : CharClass.blank.Misses s) (h : ∀ p ∈ ps, p.Refuses s) :
    pastAll ps s = s := by
  induction ps with
  | nil => rfl
  | cons p ps ih =>
    rw [pastAll_cons, past_of_refuses]
    · exact ih fun p hp => h p (by simp [hp])
    · rw [CharClass.dropWhile_of_misses hs]
      exact h p (by simp)

theorem pastAll_of_usedUp (hempty : ∀ p ∈ ps, p.mayBeEmpty = false) (h : UsedUp s) :
    pastAll ps s = s := by
  induction ps with
  | nil => rfl
  | cons p ps ih =>
    rw [pastAll_cons, past_of_usedUp (hempty p (by simp)) h]
    exact ih fun p hp => hempty p (by simp [hp])

theorem next_of_pastAll {x : Char} (hempty : ∀ p ∈ ps, p.mayBeEmpty = false)
    (hstart : ∀ p ∈ ps, p.mayStart x = false) (h : Next (· ≠ x) (pastAll ps s)) :
    Next (· ≠ x) s := by
  induction ps generalizing s with
  | nil => exact h
  | cons p ps ih =>
    rw [pastAll_cons] at h
    exact next_of_past (hempty p (by simp)) (hstart p (by simp))
      (ih (fun p hp => hempty p (by simp [hp])) (fun p hp => hstart p (by simp [hp])) h)

theorem rest?_ws : ws.rest? s = some (s.dropWhile CharClass.blank.has) := rest?_map

theorem rest?_maybe_spaced : (maybe (ws >> p)).rest? s = some (past p s) := by
  rw [maybe, rest?_map, rest?_option, rest?_then, rest?_ws, Option.bind_some, past]

theorem leaves_maybe_iff_past : (maybe (ws >> p)).Leaves s rest ↔ past p s = rest := by
  rw [leaves_iff_rest?, rest?_maybe_spaced, Option.some.injEq]

theorem rest?_option_spaced {p : Peg α} :
    (option (spaced p)).rest? s = some (past (plain p) s) := by
  rw [rest?_option, rest?_spaced, past, plain, rest?_map]

/-! ### Rules -/

/-- The parts of the selectors of a rule, in their order. -/
def selectorParts : List Scan :=
  [yearSelector, monthdaySelector, weekSelector, word ":", weekdaySelector, timeSelector]

def modifierPart : Scan := plain Weekly.modifier

theorem rest?_smallSelectors : smallSelectors.rest? s =
    ((weekdaySelector.rest? s).map (past timeSelector)).or (timeSelector.rest? s) := by
  have htimes : ∀ m, past (plain timeSelector) m = past timeSelector m := by
    intro m
    rw [past, past, plain, rest?_map]
  simp only [smallSelectors, rest?_orElse, rest?_map, rest?_seq, rest?_option_spaced, htimes]
  cases weekdaySelector.rest? s <;> rfl

theorem past_smallSelectors : past (plain smallSelectors) s =
    pastAll [weekdaySelector, timeSelector] s := by
  simp only [pastAll_cons, pastAll_nil]
  rw [past, plain, rest?_map, rest?_smallSelectors]
  cases hdays : weekdaySelector.rest? (s.dropWhile CharClass.blank.has) with
  | none =>
    rw [past_of_refuses (refuses_iff_rest?.mpr hdays)]
    rfl
  | some m =>
    rw [past_of_leaves (leaves_iff_rest?.mpr hdays)]
    rfl

theorem rest?_wideSelectors : wideSelectors.rest? s =
    ((yearSelector.rest? s).map (pastAll [monthdaySelector, weekSelector, word ":"])).or
      (((monthdaySelector.rest? s).map (pastAll [weekSelector, word ":"])).or
        ((weekSelector.rest? s).map (pastAll [word ":"]))) := by
  simp only [wideSelectors, rest?_then, rest?_orElse, rest?_maybe_spaced]
  cases yearSelector.rest? s with
  | some m => rfl
  | none =>
    cases monthdaySelector.rest? s with
    | some m => rfl
    | none => cases weekSelector.rest? s <;> rfl

theorem rest?_selectors : selectors.rest? s =
    ((wideSelectors.rest? s).map (pastAll [weekdaySelector, timeSelector])).or
      (smallSelectors.rest? s) := by
  simp only [selectors, rest?_orElse, rest?_map, rest?_seq, rest?_option_spaced,
    past_smallSelectors]
  cases wideSelectors.rest? s <;> rfl

theorem rest?_rule_eq : Language.rule.rest? s =
    ((subject.rest? s).map (pastAll [modifierPart, comment])).or
      (((modifierPart.rest? s).map (past comment)).or (comment.rest? s)) := by
  simp only [Language.rule, rest?_map, rest?_matched, ruleForm, rest?_orElse, rest?_seq,
    rest?_option_spaced, rest?_maybe_spaced, modifierPart, plain]
  cases subject.rest? s <;> cases Weekly.modifier.rest? s <;> rfl

/-- The parts of a rule but its comment. -/
def frontParts : List Scan := selectorParts ++ [modifierPart]

/-- All parts of a rule, in their order. -/
def ruleParts : List Scan := frontParts ++ [comment]

theorem mayBeEmpty_of_mem : ∀ p ∈ frontParts, p.mayBeEmpty = false := by decide

theorem pastAll_ruleParts : pastAll ruleParts s = past comment (pastAll frontParts s) := by
  rw [ruleParts, pastAll_append, pastAll_cons, pastAll_nil]

theorem rest?_rule_always (s : List Char) : Language.rule.rest? ("24/7".toList ++ s) =
    some (pastAll [modifierPart, comment] s) := by
  have hword : subject.rest? ("24/7".toList ++ s) = some s := by
    rw [subject, rest?_orElse, rest?_map, leaves_iff_rest?.mp (leaves_literal_iff.mpr rfl)]
    rfl
  rw [rest?_rule_eq, hword]
  rfl

/-- A rule leaves what is left behind its parts, if there is one of them. A colon is none: it has to
stand behind years, dates or weeks. -/
theorem rest?_rule (hs : CharClass.blank.Misses s) (hcolon : s.head? ≠ some ':')
    (halways : ¬"24/7".toList <+: s) : Language.rule.rest? s =
      if ∀ p ∈ ruleParts, p.rest? s = none then none else some (pastAll ruleParts s) := by
  have hpast : ∀ p, past p s = (p.rest? s).getD s := by
    intro p
    rw [past, CharClass.dropWhile_of_misses hs]
  have hword : subject.rest? s = selectors.rest? s := by
    rw [subject, rest?_orElse, rest?_map, refuses_iff_rest?.mp (refuses_literal halways), rest?_map]
    rfl
  have hsign : (word ":").rest? s = none :=
    refuses_iff_rest?.mp ((refuses_word hcolon).map _)
  rw [rest?_rule_eq, hword, rest?_selectors, rest?_wideSelectors, rest?_smallSelectors]
  simp only [ruleParts, frontParts, selectorParts, List.cons_append, List.nil_append,
    List.forall_mem_cons, pastAll_cons, pastAll_nil, hsign, hpast yearSelector]
  cases hyears : yearSelector.rest? s with
  | some m => simp
  | none =>
    simp only [Option.getD_none, hpast monthdaySelector]
    cases hdates : monthdaySelector.rest? s with
    | some m => simp
    | none =>
      simp only [Option.getD_none, hpast weekSelector]
      cases hweeks : weekSelector.rest? s with
      | some m => simp
      | none =>
        simp only [Option.getD_none, hpast (word ":"), hsign, hpast weekdaySelector]
        cases hdays : weekdaySelector.rest? s with
        | some m => simp
        | none =>
          simp only [Option.getD_none, hpast timeSelector]
          cases htimes : timeSelector.rest? s with
          | some m => simp
          | none =>
            simp only [Option.getD_none, hpast modifierPart]
            cases hmodifier : modifierPart.rest? s with
            | some m => simp
            | none =>
              simp only [Option.getD_none, hpast comment]
              cases comment.rest? s <;> simp

/-- What the first character of a rule is not. -/
theorem starts_of_rule (h : ¬Language.rule.Refuses s) :
    CharClass.blank.Misses s ∧ s.head? ≠ some ':' := by
  obtain ⟨x, u, rfl, hstart⟩ := begins_of_not_refuses (by decide) h
  refine ⟨CharClass.misses_cons.mpr (Bool.eq_false_iff.mpr fun hblank => ?_), fun hcolon => ?_⟩
  · rcases CharClass.eq_of_blank hblank with rfl | rfl | rfl | rfl <;>
      exact absurd hstart (by decide)
  · obtain rfl := Option.some.inj hcolon
    exact absurd hstart (by decide)

/-- A rule that is not around the clock has one of its parts at least. -/
theorem parts_of_leaves_rule (h : Language.rule.Leaves s rest) (halways : ¬"24/7".toList <+: s) :
    past comment (pastAll frontParts s) = rest ∧ ∃ p ∈ ruleParts, ¬p.Refuses s := by
  obtain ⟨hblank, hcolon⟩ := starts_of_rule h.not_refuses
  rw [leaves_iff_rest?, rest?_rule hblank hcolon halways, pastAll_ruleParts] at h
  split at h
  · cases h
  · rename_i hsome
    simp only [not_forall] at hsome
    obtain ⟨p, hp, hfound⟩ := hsome
    exact ⟨Option.some.inj h, p, hp, fun hrefuses => hfound (refuses_iff_rest?.mp hrefuses)⟩

theorem leaves_rule_of_parts (hblank : CharClass.blank.Misses s) (hcolon : s.head? ≠ some ':')
    (halways : ¬"24/7".toList <+: s) (hsome : ∃ p ∈ ruleParts, ¬p.Refuses s) :
    Language.rule.Leaves s (past comment (pastAll frontParts s)) := by
  obtain ⟨p, hp, hfound⟩ := hsome
  rw [leaves_iff_rest?, rest?_rule hblank hcolon halways, pastAll_ruleParts, if_neg]
  exact fun hnone => hfound (refuses_iff_rest?.mpr (hnone p hp))

/-! ### The last part of a text -/

/-- The part reads what the parts in front of it leave, to the end of the text. -/
def ReadsOut (as : List Scan) (p : Scan) (s : List Char) : Prop :=
  ∃ rest, p.Leaves ((pastAll as s).dropWhile CharClass.blank.has) rest ∧ UsedUp rest

variable {as bs : List Scan}

theorem exists_readsOut (hs : ¬UsedUp s) (h : UsedUp (pastAll ps s)) :
    ∃ as p bs, ps = as ++ p :: bs ∧ ReadsOut as p s := by
  induction ps generalizing s with
  | nil => exact absurd h hs
  | cons p ps ih =>
    by_cases hused : UsedUp (past p s)
    · refine ⟨[], p, ps, rfl, ?_⟩
      rcases refuses_or_leaves p (s.dropWhile CharClass.blank.has) with hnone | ⟨rest, hsome⟩
      · rw [past_of_refuses hnone] at hused
        exact absurd hused hs
      · rw [past_of_leaves hsome] at hused
        exact ⟨rest, hsome, hused⟩
    · obtain ⟨as, q, bs, rfl, hout⟩ := ih hused h
      exact ⟨p :: as, q, bs, rfl, hout⟩

namespace ReadsOut

theorem usedUp (hempty : ∀ p ∈ bs, p.mayBeEmpty = false) (h : ReadsOut as p s) :
    UsedUp (pastAll (as ++ p :: bs) s) := by
  obtain ⟨rest, hread, hused⟩ := h
  rwa [pastAll_append, pastAll_cons, past_of_leaves hread, pastAll_of_usedUp hempty hused]

theorem not_usedUp (hempty : p.mayBeEmpty = false) (h : ReadsOut as p s) :
    ¬UsedUp (pastAll as s) := by
  intro hused
  obtain ⟨rest, hread, -⟩ := h
  exact hread.not_refuses (hused.refuses hempty)

end ReadsOut

end Language

end OpeningHours
