import OpeningHours.Proofs.Remainders
import OpeningHours.Proofs.WideTexts

/-! Well-formed texts joined by a mark between rules. What a rule reads does not depend on whether
the text ends after it or goes on with the mark: neither the mark nor the blanks before it can start
or prolong any part of a rule, a quoted comment aside, and a comment ends with its own quote. So the
rules of the first text are read as before, and after the mark those of the second. -/

namespace OpeningHours

open Peg

/-- The second text begins with the first one and goes on with blanks, if any, and `tail`. -/
def GoesOn (tail s t : List Char) : Prop := ∃ u, t = s ++ u ∧ u.dropWhile CharClass.blank.has = tail

variable {s t u rest more tail : List Char} {z : Char} {c : CharClass} {allowed : Char → Prop}

/-- The class has neither the mark nor a blank in it. -/
def CharClass.avoids (z : Char) (c : CharClass) : Bool :=
  !(c.has z || c.has ' ' || c.has '\t' || c.has '\r' || c.has '\n')

/-- Neither the mark nor a blank is in the word. -/
def wordAvoids (z : Char) (word : List Char) : Bool :=
  word.all fun x => x != z && !CharClass.blank.has x

/-- Whether the mark is in none of the words and classes of an expression, and a blank only where
all blanks are taken. -/
def Peg.keepsOut (z : Char) (p : Peg α) : Bool :=
  p.testsLeaves (wordAvoids z) (·.avoids z) (fun c => c == .blank || c.avoids z)

theorem CharClass.misses_of_avoids (hc : c.avoids z = true) (h : Next (· = z) u) : c.Misses u := by
  simp only [avoids, Bool.not_eq_true', Bool.or_eq_false_iff] at hc
  obtain ⟨⟨⟨⟨hz, hspace⟩, htab⟩, hreturn⟩, hnewline⟩ := hc
  refine h.misses (fun x hx => ?_) (fun x hx => hx ▸ hz)
  rcases eq_of_blank hx with rfl | rfl | rfl | rfl <;> assumption

namespace GoesOn

theorem next_of_tail (hu : u.dropWhile CharClass.blank.has = z :: more) : Next (· = z) u := by
  intro x hx
  rw [hu] at hx
  exact (Option.some.inj hx).symm

/-- A word without blanks or the mark does not reach beyond the end of the first text. -/
theorem prefix_of_append {word : List Char} (hword : wordAvoids z word = true) (hu : Next (· = z) u)
    (h : word <+: s ++ u) : word <+: s := by
  rcases List.prefix_or_prefix_of_prefix h (List.prefix_append s u) with hshort | ⟨beyond, hbeyond⟩
  · exact hshort
  subst hbeyond
  cases beyond with
  | nil => simp
  | cons x beyond =>
    obtain ⟨after, rfl⟩ := (List.prefix_append_right_inj s).mp h
    have hx := List.all_eq_true.mp hword x (by simp)
    simp only [Bool.and_eq_true, bne_iff_ne, Bool.not_eq_true'] at hx
    exact absurd ((Next.cons hx.2).mp hu) hx.1

theorem respects_literal {word : List Char} (hword : wordAvoids z word = true) :
    (literal word).Respects (GoesOn (z :: more)) := by
  apply Respects.intro
  · intro s t ⟨u, ht, hu⟩ hs
    subst ht
    rw [refuses_literal_iff] at *
    exact fun hprefix => hs (prefix_of_append hword (next_of_tail hu) hprefix)
  · intro s t rest ⟨u, ht, hu⟩ hs
    obtain rfl := leaves_literal_iff.mp hs
    exact ⟨rest ++ u, leaves_literal_iff.mpr (by rw [ht, List.append_assoc]), u, rfl, hu⟩

theorem respects_char (hc : c.avoids z = true) : (char c).Respects (GoesOn (z :: more)) := by
  apply Respects.intro
  · intro s t ⟨u, ht, hu⟩ hs
    subst ht
    rw [refuses_char_iff] at *
    cases s with
    | nil => exact CharClass.misses_of_avoids hc (next_of_tail hu)
    | cons x s => exact CharClass.misses_cons.mpr (CharClass.misses_cons.mp hs)
  · intro s t rest ⟨u, ht, hu⟩ hs
    obtain ⟨x, rfl, hx⟩ := leaves_char_iff.mp hs
    exact ⟨rest ++ u, leaves_char_iff.mpr ⟨x, ht, hx⟩, u, rfl, hu⟩

/-- Blanks at the end of the first text are taken together with those after it. -/
theorem respects_chars (hz : CharClass.blank.has z = false)
    (hc : (c == .blank || c.avoids z) = true) : (chars c).Respects (GoesOn (z :: more)) := by
  apply Respects.intro
  · intro s t _ hs
    exact absurd hs not_refuses_chars
  · intro s t rest ⟨u, ht, hu⟩ hs
    refine ⟨_, leaves_chars_iff.mpr rfl, ?_⟩
    rw [leaves_chars_iff] at hs
    rw [ht, List.dropWhile_append, hs]
    cases rest with
    | cons x rest => exact ⟨u, rfl, hu⟩
    | nil =>
      refine ⟨_, rfl, ?_⟩
      rcases Bool.or_eq_true_iff.mp hc with hblank | hc
      · obtain rfl := eq_of_beq hblank
        rw [hu, List.dropWhile_cons_of_neg (by simp [hz])]
      · have hmisses := CharClass.misses_of_avoids hc (next_of_tail hu)
        rw [CharClass.dropWhile_of_misses hmisses, hu]

/-- An expression respects how the text goes on if the mark can stand nowhere in what it matches. -/
theorem respects {p : Peg α} (hz : CharClass.blank.has z = false) (h : p.keepsOut z = true) :
    p.Respects (GoesOn (z :: more)) :=
  respects_of_leaves (fun _ => respects_literal) (fun _ => respects_char)
    (fun _ => respects_chars hz) h

theorem dropWhile (hz : CharClass.blank.has z = false) (h : GoesOn (z :: more) s t) :
    GoesOn (z :: more) (s.dropWhile CharClass.blank.has) (t.dropWhile CharClass.blank.has) := by
  obtain ⟨_, ht, hrest⟩ :=
    (respects_chars (c := .blank) hz rfl).leaves h (leaves_chars_iff.mpr rfl)
  rwa [← leaves_chars_iff.mp ht] at hrest

theorem next (h : GoesOn (z :: more) s t) (hs : Next allowed s) (hz : allowed z) :
    Next allowed t := by
  obtain ⟨u, rfl, hu⟩ := h
  unfold Next at *
  rw [List.dropWhile_append]
  split
  · rw [hu]
    intro x hx
    obtain rfl := Option.some.inj hx
    exact hz
  · rename_i hsome
    rwa [List.head?_append_of_ne_nil _ (by simpa using hsome)]

/-- The first text used up, blanks aside, the second one has only the tail to go. -/
theorem of_blank (h : GoesOn tail s t) (hs : s.dropWhile CharClass.blank.has = []) :
    t.dropWhile CharClass.blank.has = tail := by
  obtain ⟨u, rfl, hu⟩ := h
  rw [List.dropWhile_append, hs, List.isEmpty_nil, if_pos rfl, hu]

end GoesOn

namespace Language

variable {p q : Scan}

theorem leaves_then_iff :
    (p >> q).Leaves s rest ↔ ∃ middle, p.Leaves s middle ∧ q.Leaves middle rest :=
  leaves_map_iff.trans leaves_seq_iff

theorem leaves_maybe_iff : (maybe p).Leaves s rest ↔ p.Leaves s rest ∨ p.Refuses s ∧ s = rest :=
  leaves_map_iff.trans leaves_option_iff

theorem leaves_word_iff {w : String} : (word w).Leaves s rest ↔ s = w.toList ++ rest :=
  leaves_map_iff.trans leaves_literal_iff

theorem leaves_separator_iff : separator.Leaves s rest ↔
    s = ';' :: rest ∨ s = ',' :: rest ∨ s = '|' :: '|' :: rest := by
  constructor
  · intro h
    rcases leaves_choice_iff.mp h with h | ⟨-, h⟩
    · exact .inl (leaves_literal_iff.mp (leaves_map_iff.mp h))
    rcases leaves_choice_iff.mp h with h | ⟨-, h⟩
    · exact .inr (.inl (leaves_literal_iff.mp (leaves_map_iff.mp h)))
    · exact .inr (.inr (leaves_literal_iff.mp (leaves_map_iff.mp h)))
  · intro h
    rcases h with rfl | rfl | rfl
    · exact ⟨.normal, rfl⟩
    · exact ⟨.additional, rfl⟩
    · exact ⟨.fallback, rfl⟩

theorem not_refuses_maybe : ¬(maybe p).Refuses s :=
  fun h => not_refuses_option (refuses_map_iff.mp h)

/-! ### Rules in the joined text -/

/-- A comment ends with its own quote, wherever the text ends. -/
theorem leaves_comment_append (h : comment.Leaves s rest) (u : List Char) :
    comment.Leaves (s ++ u) (rest ++ u) := by
  simp only [comment, mark, leaves_map_iff, leaves_then_iff, plain, leaves_word_iff,
    leaves_chars_iff, exists_eq_left'] at *
  obtain ⟨inner, rfl, hinner⟩ := h
  refine ⟨inner ++ u, rfl, ?_⟩
  rw [List.dropWhile_append, hinner]
  rfl

/-- What an expression leaves of the first text, with no comment next, goes on in the second. -/
def Carries (tail : List Char) (p : Peg α) : Prop := ∀ s t rest, GoesOn tail s t →
  p.Leaves s rest → Next (· ≠ '"') rest → ∃ rest', p.Leaves t rest' ∧ GoesOn tail rest rest'

namespace Carries

variable {p : Peg α} {q : Peg β}

theorem seq (hp : p.Respects (GoesOn tail)) (hq : Carries tail q) : Carries tail (seq p q) := by
  intro s t rest h hs hnext
  obtain ⟨middle, hfirst, hsecond⟩ := leaves_seq_iff.mp hs
  obtain ⟨middle', hfirst', hmiddle⟩ := hp.leaves h hfirst
  obtain ⟨rest', hsecond', hrest⟩ := hq middle middle' rest hmiddle hsecond hnext
  exact ⟨rest', leaves_seq_iff.mpr ⟨middle', hfirst', hsecond'⟩, hrest⟩

theorem choice {q : Peg α} (hp : Carries tail p) (hq : Carries tail q)
    (hrefuses : ∀ s t, GoesOn tail s t → p.Refuses s → p.Refuses t) :
    Carries tail (choice p q) := by
  intro s t rest h hs hnext
  rcases leaves_choice_iff.mp hs with hfirst | ⟨hfirst, hsecond⟩
  · obtain ⟨rest', ht, hrest⟩ := hp s t rest h hfirst hnext
    exact ⟨rest', leaves_choice_iff.mpr (.inl ht), hrest⟩
  · obtain ⟨rest', ht, hrest⟩ := hq s t rest h hsecond hnext
    exact ⟨rest', leaves_choice_iff.mpr (.inr ⟨hrefuses s t h hfirst, ht⟩), hrest⟩

theorem map {f : α → β} (hp : Carries tail p) : Carries tail (map f p) := by
  intro s t rest
  simp only [leaves_map_iff]
  exact hp s t rest

theorem matched (hp : Carries tail p) : Carries tail (matched p) := by
  intro s t rest
  simp only [leaves_matched_iff]
  exact hp s t rest

end Carries

/-- Where the second expression always matches, a refusal is that of the first. -/
theorem refuses_seq_of_respects {p : Peg α} {q : Peg β} (hp : p.Respects (GoesOn tail))
    (hq : ∀ s, ¬q.Refuses s) (h : GoesOn tail s t) (hs : (seq p q).Refuses s) :
    (seq p q).Refuses t := by
  rcases refuses_seq_iff.mp hs with hfirst | ⟨middle, -, hsecond⟩
  · exact (hp.refuses h hfirst).seq
  · exact absurd hsecond (hq middle)

theorem carries_comment : Carries tail comment := by
  intro s t rest ⟨u, ht, hu⟩ hs _
  subst ht
  exact ⟨rest ++ u, leaves_comment_append hs u, u, rfl, hu⟩

/-- A mark that is no quote keeps a comment that may be missing as it is. -/
theorem carries_maybe_comment (hz : CharClass.blank.has z = false) (hquote : z ≠ '"') :
    Carries (z :: more) (maybe (ws >> comment)) := by
  intro s t rest h hs hnext
  have hws : ws.Respects (GoesOn (z :: more)) := GoesOn.respects hz rfl
  rcases leaves_maybe_iff.mp hs with hsome | ⟨-, rfl⟩
  · have hthen : Carries (z :: more) (ws >> comment) := .map (.seq hws carries_comment)
    obtain ⟨rest', ht, hrest⟩ := hthen s t rest h hsome hnext
    exact ⟨rest', leaves_maybe_iff.mpr (.inl ht), hrest⟩
  · have hrefuses : (ws >> comment).Refuses t :=
      refuses_ws_then (by decide) (h.next hnext hquote) fun x hx => by
        simpa [comment, mark, mayStart] using hx.symm
    exact ⟨t, leaves_maybe_iff.mpr (.inr ⟨hrefuses, rfl⟩), h⟩

section Joined

variable (hz : z = ';' ∨ z = '|')

include hz

theorem blank_mark : CharClass.blank.has z = false := by
  rcases hz with rfl | rfl <;> decide

/-- The marks that texts are joined with stand in no part of a rule but its comment. -/
theorem respects_part {p : Peg α} (hsemicolon : p.keepsOut ';' = true)
    (hbar : p.keepsOut '|' = true) : p.Respects (GoesOn (z :: more)) := by
  apply GoesOn.respects (blank_mark hz)
  rcases hz with rfl | rfl
  · exact hsemicolon
  · exact hbar

/-- A rule is read in the joined text as before, in each of its three forms. -/
theorem carries_rule : Carries (z :: more) Language.rule := by
  have hsubject : subject.Respects (GoesOn (z :: more)) :=
    respects_part hz (by decide) (by decide)
  have hmodifier : Weekly.modifier.Respects (GoesOn (z :: more)) :=
    respects_part hz (by decide) (by decide)
  have hoption : (option (spaced Weekly.modifier)).Respects (GoesOn (z :: more)) :=
    respects_part hz (by decide) (by decide)
  have hquote : z ≠ '"' := by rcases hz with rfl | rfl <;> decide
  have hcomment : Carries (z :: more) (maybe (ws >> comment)) :=
    carries_maybe_comment (blank_mark hz) hquote
  have hwords : Carries (z :: more)
      (seq (option (spaced Weekly.modifier)) (maybe (ws >> comment))) := .seq hoption hcomment
  have hnever : ∀ s, ¬(seq (option (spaced Weekly.modifier)) (maybe (ws >> comment))).Refuses s := by
    intro s hs
    rcases refuses_seq_iff.mp hs with hnone | ⟨middle, -, hnone⟩
    · exact not_refuses_option hnone
    · exact not_refuses_maybe hnone
  refine Carries.map (Carries.matched (Carries.choice (.map (.seq hsubject hwords))
    (Carries.choice (.map (.seq hmodifier hcomment)) (.map carries_comment) ?_) ?_))
  · intro s t h hs
    rw [refuses_map_iff] at *
    exact refuses_seq_of_respects hmodifier (fun _ => not_refuses_maybe) h hs
  · intro s t h hs
    rw [refuses_map_iff] at *
    exact refuses_seq_of_respects hsubject hnever h hs

end Joined

/-! ### The rules of both texts -/

/-- The rules after the first, each with the separator in front of it. -/
def moreRules : Peg (List (Separator × Rule)) := star (seq (padded separator) Language.rule)

theorem leaves_moreRules_iff : moreRules.Leaves s rest ↔
    (seq (padded separator) Language.rule).Refuses s ∧ s = rest ∨ ∃ first middle,
      separator.Leaves (s.dropWhile CharClass.blank.has) first ∧
        Language.rule.Leaves (first.dropWhile CharClass.blank.has) middle ∧
          moreRules.Leaves middle rest := by
  rw [moreRules, leaves_star_iff rfl]
  simp only [leaves_seq_iff, leaves_padded_iff]
  refine or_congr_right ⟨?_, ?_⟩
  · intro ⟨middle, ⟨_, ⟨first, hfirst, hblank⟩, hrule⟩, hmore⟩
    subst hblank
    exact ⟨first, middle, hfirst, hrule, hmore⟩
  · intro ⟨first, middle, hfirst, hrule, hmore⟩
    exact ⟨middle, ⟨_, ⟨first, hfirst, rfl⟩, hrule⟩, hmore⟩

theorem leaves_rules_iff : rules.Leaves s rest ↔
    ∃ middle, Language.rule.Leaves s middle ∧ moreRules.Leaves middle rest :=
  leaves_map_iff.trans leaves_seq_iff

/-- No comment stands where further rules, or the end of the text, are read. -/
theorem next_of_moreRules (h : moreRules.Leaves s rest)
    (hrest : rest.dropWhile CharClass.blank.has = []) : Next (· ≠ '"') s := by
  intro x hx
  rcases leaves_moreRules_iff.mp h with ⟨-, rfl⟩ | ⟨first, _, hfirst, -⟩
  · rw [hrest] at hx
    cases hx
  · rcases leaves_separator_iff.mp hfirst with hs | hs | hs <;>
      · rw [hs] at hx
        obtain rfl := Option.some.inj hx
        decide

section Joined

variable {last : List Char} (hz : z = ';' ∨ z = '|')

include hz

/-- The induction is on the length of the first text. At its end the tail takes over, whatever
blanks are left in front of it. -/
theorem leaves_moreRules_join (htail : ∀ t, t.dropWhile CharClass.blank.has = z :: more →
      moreRules.Leaves t last) (hs : moreRules.Leaves s rest)
    (hrest : rest.dropWhile CharClass.blank.has = []) (h : GoesOn (z :: more) s t) :
    moreRules.Leaves t last := by
  induction hlength : s.length using Nat.strongRecOn generalizing s t with
  | ind n ih =>
    rcases leaves_moreRules_iff.mp hs with ⟨-, rfl⟩ | ⟨first, middle, hfirst, hrule, hmore⟩
    · exact htail t (h.of_blank hrest)
    have hblank := blank_mark hz
    obtain ⟨u, htext, hu⟩ := h.dropWhile hblank
    have hfirst' : separator.Leaves (t.dropWhile CharClass.blank.has) (first ++ u) := by
      rw [htext, leaves_separator_iff]
      rcases leaves_separator_iff.mp hfirst with hs | hs | hs <;> simp [hs]
    have hjoined : GoesOn (z :: more) first (first ++ u) := ⟨u, rfl, hu⟩
    obtain ⟨middle', hrule', hmiddle⟩ :=
      carries_rule hz _ _ _ (hjoined.dropWhile hblank) hrule (next_of_moreRules hmore hrest)
    have hstep : (seq (padded separator) Language.rule).Leaves s middle :=
      leaves_seq_iff.mpr ⟨_, leaves_padded_iff.mpr ⟨first, hfirst, rfl⟩, hrule⟩
    have hless := leaves_length rfl hstep
    have hmore' := ih middle.length (by omega) hmore hmiddle rfl
    exact leaves_moreRules_iff.mpr (.inr ⟨_, middle', hfirst', hrule', hmore'⟩)

/-- The rules of the first text and, after a separator, those of the second. -/
theorem leaves_rules_join {next : List Char} (hseparator : separator.Leaves (z :: more) next)
    (hnext : rules.Leaves (next.dropWhile CharClass.blank.has) last) (hs : rules.Leaves s rest)
    (hrest : rest.dropWhile CharClass.blank.has = []) (h : GoesOn (z :: more) s t) :
    rules.Leaves t last := by
  obtain ⟨middle, hrule, hmore⟩ := leaves_rules_iff.mp hs
  obtain ⟨middle', hrule', hmiddle⟩ :=
    carries_rule hz s t middle h hrule (next_of_moreRules hmore hrest)
  refine leaves_rules_iff.mpr ⟨middle', hrule', ?_⟩
  refine leaves_moreRules_join hz (fun t ht => ?_) hmore hrest hmiddle
  obtain ⟨after, hfirst, hlater⟩ := leaves_rules_iff.mp hnext
  rw [← ht] at hseparator
  exact leaves_moreRules_iff.mpr (.inr ⟨next, after, hseparator, hfirst, hlater⟩)

end Joined

end Language

theorem isWellFormed_iff {text : String} : isWellFormed text = true ↔ ∃ back,
    Language.rules.Leaves (text.toList.dropWhile CharClass.blank.has) back ∧
      back.dropWhile CharClass.blank.has = [] := matches?_document_iff

/-- A text goes on with a separator, blanks around it, and another text. -/
theorem isWellFormed_of_separator {a b joined : String} {next : List Char}
    (hz : z = ';' ∨ z = '|') (htext : joined.toList = a.toList ++ u)
    (hu : u.dropWhile CharClass.blank.has = z :: more)
    (hseparator : Language.separator.Leaves (z :: more) next)
    (hnext : next.dropWhile CharClass.blank.has = b.toList.dropWhile CharClass.blank.has)
    (ha : isWellFormed a = true) (hb : isWellFormed b = true) : isWellFormed joined = true := by
  obtain ⟨rest, hrules, hrest⟩ := isWellFormed_iff.mp ha
  obtain ⟨last, hmore, hlast⟩ := isWellFormed_iff.mp hb
  rw [← hnext] at hmore
  have hjoined : GoesOn (z :: more) a.toList joined.toList := ⟨u, htext, hu⟩
  have hstart := hjoined.dropWhile (Language.blank_mark hz)
  exact isWellFormed_iff.mpr
    ⟨last, Language.leaves_rules_join hz hseparator hmore hrules hrest hstart, hlast⟩

/-- Two well-formed texts are well formed with a semicolon between them, and with two bars. -/
theorem isWellFormed_join {a b : String} (ha : isWellFormed a = true) (hb : isWellFormed b = true) :
    isWellFormed (a ++ "; " ++ b) = true ∧ isWellFormed (a ++ " || " ++ b) = true := by
  constructor
  · have htext : (a ++ "; " ++ b).toList = a.toList ++ (';' :: ' ' :: b.toList) := by simp
    exact isWellFormed_of_separator (.inl rfl) htext rfl ⟨.normal, rfl⟩ rfl ha hb
  · have htext : (a ++ " || " ++ b).toList = a.toList ++ (' ' :: '|' :: '|' :: ' ' :: b.toList) := by
      simp
    exact isWellFormed_of_separator (.inr rfl) htext rfl ⟨.fallback, rfl⟩ rfl ha hb

def easterHours : String :=
  "2020-2030/2 easter: Mo[-1] +2 days (sunrise+01:30)-18:00+ \"book; or call\""

def weekHours : String := "week 1-53/2 We,PH off || unknown \"closed | maybe\""

theorem isWellFormed_join_easter :
    isWellFormed easterHours = true ∧ isWellFormed weekHours = true ∧
      isWellFormed (easterHours ++ "; " ++ weekHours) = true ∧
      isWellFormed (easterHours ++ " || " ++ weekHours) = true := by
  have heaster : isWellFormed easterHours = true := by decide
  have hweek : isWellFormed weekHours = true := by decide
  exact ⟨heaster, hweek, isWellFormed_join heaster hweek⟩

end OpeningHours
