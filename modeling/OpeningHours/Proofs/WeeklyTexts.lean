import OpeningHours.Grammar.Weekly
import OpeningHours.Proofs.Pieces

/-! The texts that the weekly grammar matches. A relation for each kind of part says which texts
spell which values, and the expression for the part reads these texts and no others, as long as what
follows cannot be taken for more of the same part. -/

namespace OpeningHours

open Peg

namespace Weekly

variable {t u g s rest : List Char} {x : Char}

/-- The value is the text itself, and the text is as it has to be. -/
def Verbatim (is : List Char → Prop) (t value : List Char) : Prop := value = t ∧ is t

def AllDigits (s : List Char) : Prop := ∀ x ∈ s, CharClass.digit.has x = true

/-! ### Days -/

/-- A capital and a small letter. -/
def IsName (t : List Char) : Prop :=
  ∃ x y, t = [x, y] ∧ CharClass.upper.has x = true ∧ CharClass.lower.has y = true

def DaySpan.Spelled (t : List Char) (span : DaySpan) : Prop :=
  Spanned (Verbatim IsName) t (span.first, span.last)

/-- The days of a rule as a text. -/
abbrev DaysSpelled : List Char → List DaySpan → Prop := Listed ',' DaySpan.Spelled

section Days

variable {name : List Char} {span : DaySpan} {spans : List DaySpan}

theorem name_begins (h : Verbatim IsName t name) : Begins (CharClass.upper.has · = true) t := by
  obtain ⟨-, x, y, rfl, hx, -⟩ := h
  exact ⟨x, [y], rfl, hx⟩

theorem daySpan_begins (h : DaySpan.Spelled t span) : Begins (CharClass.upper.has · = true) t :=
  Spanned.begins h name_begins

theorem days_begin (h : DaysSpelled t spans) : Begins (CharClass.upper.has · = true) t :=
  h.begins daySpan_begins

theorem starts_of_upper (h : Begins (CharClass.upper.has · = true) t) : Starts t :=
  h.imp fun _ hx => CharClass.blank_of_letter (CharClass.letter_of_upper hx)

theorem reads_dayName_iff :
    dayName.Reads t name rest ↔ Verbatim IsName t name ∧ CharClass.letter.Misses rest := by
  constructor
  · intro h
    obtain ⟨rfl, ⟨x, y, ⟨⟩⟩, hname⟩ := reads_text_iff.mp (reads_token_iff.mp h)
    obtain ⟨u, v, rfl, hupper, hmore⟩ := reads_seq_iff.mp hname
    obtain ⟨v, w, rfl, hlower, hend⟩ := reads_seq_iff.mp hmore
    obtain ⟨rfl, hx⟩ := reads_char_iff.mp hupper
    obtain ⟨rfl, hy⟩ := reads_char_iff.mp hlower
    obtain ⟨rfl, hrest⟩ := reads_absent_iff.mp hend
    exact ⟨⟨rfl, x, y, rfl, hx, hy⟩, refuses_char_iff.mp hrest⟩
  · rintro ⟨⟨rfl, x, y, rfl, hx, hy⟩, hrest⟩
    have hend := reads_absent (refuses_char hrest)
    exact ((reads_char hx).seq ((reads_char hy).seq hend)).text.token

theorem letter_misses_mark {mark : Char} (hg : IsMark mark g)
    (hmark : CharClass.letter.has mark = false) : CharClass.letter.Misses (g ++ s) :=
  hg.misses hmark fun _ => CharClass.letter_of_blank

theorem spelled_of_reads_daySpan (h : daySpan.Reads t span rest) :
    span.Spelled t ∧ CharClass.letter.Misses rest := by
  obtain ⟨⟨first, last⟩, rfl, hspan⟩ := reads_map_iff.mp (reads_named_iff.mp h)
  exact spanned_of_reads reads_dayName_iff.mp hspan

theorem reads_daySpan_of_spelled (h : span.Spelled t)
    (hrest : CharClass.letter.Misses rest ∧ Next (· ≠ '-') rest) : daySpan.Reads t span rest := by
  refine (Reads.map _ (reads_of_spanned ?_ ?_ ?_ h hrest.1 hrest.2)).named
  · exact fun hname hend => reads_dayName_iff.mpr ⟨hname, hend⟩
  · exact fun hname => starts_of_upper (name_begins hname)
  · exact fun hg => letter_misses_mark hg (by decide)

theorem spelled_of_reads_daySelector (h : daySelector.Reads t spans rest) :
    DaysSpelled t spans ∧ CharClass.letter.Misses rest :=
  listed_of_reads rfl (by decide) rfl spelled_of_reads_daySpan (reads_named_iff.mp h)

theorem reads_daySelector_of_spelled (h : DaysSpelled t spans)
    (hrest : CharClass.letter.Misses rest) (hnext : Next (fun x => x ≠ '-' ∧ x ≠ ',') rest) :
    daySelector.Reads t spans rest := by
  refine Reads.named (reads_of_listed rfl (by decide) rfl reads_daySpan_of_spelled
    (fun hspan => starts_of_upper (daySpan_begins hspan)) ?_ h
    ⟨hrest, hnext.imp fun _ => And.left⟩ (hnext.imp fun _ => And.right))
  exact fun hg => ⟨letter_misses_mark hg (by decide), (Next.sign hg (by decide)).mpr (by decide)⟩

end Days

/-! ### Clock times -/

/-- One or two digits. -/
def IsHour (t : List Char) : Prop := (t.length = 1 ∨ t.length = 2) ∧ AllDigits t

/-- An hour, perhaps with a colon and more digits. -/
def IsClock (t : List Char) : Prop :=
  ∃ hour minutes, t = hour ++ minutes ∧ IsHour hour ∧
    (minutes = [] ∨ ∃ digits, digits ≠ [] ∧ AllDigits digits ∧ minutes = ':' :: digits)

def ClockSpan.Spelled (t : List Char) (span : ClockSpan) : Prop :=
  span.text = t ∧ Spanned (Verbatim IsClock) t (span.start, span.stop)

/-- The clock times of a rule as a text. -/
abbrev ClocksSpelled : List Char → List ClockSpan → Prop := Listed ',' ClockSpan.Spelled

section Clocks

variable {value : List Char} {span : ClockSpan} {spans : List ClockSpan}

theorem hour_begins (h : IsHour t) : Begins (CharClass.digit.has · = true) t := by
  obtain ⟨hlength, hdigits⟩ := h
  cases t with
  | nil => simp at hlength
  | cons x v => exact ⟨x, v, rfl, hdigits x (by simp)⟩

theorem clock_begins (h : Verbatim IsClock t value) : Begins (CharClass.digit.has · = true) t := by
  obtain ⟨-, hour, minutes, rfl, hhour, -⟩ := h
  exact (hour_begins hhour).append minutes

theorem clock_chars (h : Verbatim IsClock t value) :
    ∀ x ∈ t, CharClass.digit.has x = true ∨ x = ':' := by
  obtain ⟨-, hour, minutes, rfl, ⟨-, hhour⟩, hminutes⟩ := h
  intro x hx
  rcases List.mem_append.mp hx with hx | hx
  · exact .inl (hhour x hx)
  rcases hminutes with rfl | ⟨digits, -, hdigits, rfl⟩
  · cases hx
  rcases List.mem_cons.mp hx with rfl | hx
  · exact .inr rfl
  · exact .inl (hdigits x hx)

theorem clockSpan_begins (h : ClockSpan.Spelled t span) :
    Begins (CharClass.digit.has · = true) t := h.2.begins clock_begins

theorem clocks_begin (h : ClocksSpelled t spans) : Begins (CharClass.digit.has · = true) t :=
  h.begins clockSpan_begins

theorem starts_of_digit (h : Begins (CharClass.digit.has · = true) t) : Starts t :=
  h.imp fun _ => CharClass.blank_of_digit

/-- What follows a clock time: neither a digit nor a colon. -/
def ClockEnds (s : List Char) : Prop := CharClass.digit.Misses s ∧ s.head? ≠ some ':'

theorem clockEnds_mark {mark : Char} (hg : IsMark mark g)
    (hdigit : CharClass.digit.has mark = false) (hcolon : mark ≠ ':') : ClockEnds (g ++ s) := by
  refine ⟨hg.misses hdigit fun _ => CharClass.digit_of_blank, ?_⟩
  obtain ⟨front, back, hfront, -, rfl⟩ := hg
  cases front with
  | nil => exact fun h => hcolon (Option.some.inj h)
  | cons x front =>
    intro h
    have hblank := hfront x (by simp)
    rw [Option.some.inj h] at hblank
    exact absurd hblank (by decide)

theorem isHour_of_reads {digits : Char × Option Char}
    (h : (seq (char .digit) (option (char .digit))).Reads t digits rest) : IsHour t := by
  obtain ⟨x, y⟩ := digits
  obtain ⟨u, v, rfl, hfirst, hsecond⟩ := reads_seq_iff.mp h
  obtain ⟨rfl, hx⟩ := reads_char_iff.mp hfirst
  cases y with
  | none =>
    obtain ⟨rfl, -⟩ := reads_option_none_iff.mp hsecond
    exact ⟨.inl rfl, by simpa [AllDigits] using hx⟩
  | some y =>
    obtain ⟨rfl, hy⟩ := reads_char_iff.mp (reads_option_some_iff.mp hsecond)
    exact ⟨.inr rfl, by simpa [AllDigits] using And.intro hx hy⟩

theorem reads_hour (h : IsHour t) (hrest : CharClass.digit.Misses rest) :
    ∃ digits, (seq (char .digit) (option (char .digit))).Reads t digits rest := by
  obtain ⟨hlength | hlength, hdigits⟩ := h
  · obtain ⟨x, rfl⟩ := List.length_eq_one_iff.mp hlength
    have hx : (char .digit).Reads [x] x ([] ++ rest) := reads_char (hdigits x (by simp))
    exact ⟨_, hx.seq (reads_option_none (refuses_char hrest))⟩
  · obtain ⟨x, y, rfl⟩ := List.length_eq_two.mp hlength
    have hx : (char .digit).Reads [x] x ([y] ++ rest) := reads_char (hdigits x (by simp))
    have hy : (char .digit).Reads [y] y rest := reads_char (hdigits y (by simp))
    exact ⟨_, hx.seq hy.option⟩

theorem isClock_of_reads (h : clock.Reads t value rest) : Verbatim IsClock t value := by
  obtain ⟨rfl, ⟨digits, ⟨⟩, minutes⟩, hclock⟩ := reads_text_iff.mp (reads_token_iff.mp h)
  obtain ⟨hour, v, rfl, hhour, hmore⟩ := reads_seq_iff.mp hclock
  obtain ⟨_, w, rfl, hend, hminutes⟩ := reads_seq_iff.mp hmore
  obtain ⟨rfl, -⟩ := reads_absent_iff.mp hend
  refine ⟨rfl, hour, w, rfl, isHour_of_reads hhour, ?_⟩
  cases minutes with
  | none => exact .inl (reads_option_none_iff.mp hminutes).1
  | some minutes =>
    obtain ⟨⟨⟩, x, more⟩ := minutes
    obtain ⟨_, v, rfl, hcolon, hdigits⟩ := reads_seq_iff.mp (reads_option_some_iff.mp hminutes)
    obtain ⟨_, w, rfl, hfirst, hothers⟩ := reads_seq_iff.mp hdigits
    obtain ⟨rfl, hx⟩ := reads_char_iff.mp hfirst
    obtain ⟨rfl, hw, -⟩ := reads_chars_iff.mp hothers
    rw [reads_literal_iff.mp hcolon]
    exact .inr ⟨x :: more, by simp, List.forall_mem_cons.mpr ⟨hx, hw⟩, rfl⟩

theorem reads_clock_of_isClock (h : Verbatim IsClock t value) (hrest : ClockEnds rest) :
    clock.Reads t value rest := by
  obtain ⟨rfl, hour, minutes, rfl, hhour, hminutes⟩ := h
  have hmore : CharClass.digit.Misses (minutes ++ rest) ∧
      ∃ value, (option (seq (literal [':']) (seq (char .digit) (chars .digit)))).Reads minutes
        value rest := by
    rcases hminutes with rfl | ⟨digits, hsome, hdigits, rfl⟩
    · exact ⟨hrest.1, none, reads_option_none (refuses_word hrest.2).seq⟩
    · obtain ⟨x, more, rfl⟩ := List.exists_cons_of_ne_nil hsome
      obtain ⟨hx, hall⟩ := List.forall_mem_cons.mp hdigits
      have hx : (char .digit).Reads [x] x (more ++ rest) := reads_char hx
      have hcolon := reads_literal [':'] ([x] ++ more ++ rest)
      exact ⟨CharClass.misses_cons.mpr (by decide), _,
        (hcolon.seq (hx.seq (reads_chars hall hrest.1))).option⟩
  obtain ⟨hend, _, hminutes⟩ := hmore
  obtain ⟨_, hhour⟩ := reads_hour hhour hend
  exact (hhour.seq ((reads_absent (refuses_char hend)).seq hminutes)).text.token

theorem spelled_of_reads_clockSpan (h : clockSpan.Reads t span rest) : span.Spelled t := by
  obtain ⟨⟨_, start, stop⟩, rfl, hmatched⟩ := reads_map_iff.mp (reads_named_iff.mp h)
  obtain ⟨rfl, hspan⟩ := reads_matched_iff.mp hmatched
  have hclock : ∀ {t value rest}, clock.Reads t value rest →
      Verbatim IsClock t value ∧ True := fun h => ⟨isClock_of_reads h, trivial⟩
  exact ⟨rfl, (spanned_of_reads hclock hspan).1⟩

theorem reads_clockSpan_of_spelled (h : span.Spelled t)
    (hrest : ClockEnds rest ∧ Next (· ≠ '-') rest) : clockSpan.Reads t span rest := by
  obtain ⟨text, start, stop⟩ := span
  obtain ⟨rfl, h⟩ := h
  refine (Reads.map _ (reads_of_spanned reads_clock_of_isClock
    (fun hclock => starts_of_digit (clock_begins hclock)) ?_ h hrest.1 hrest.2).matched).named
  exact fun hg => clockEnds_mark hg (by decide) (by decide)

theorem spelled_of_reads_clocks (h : (commaList clockSpan).Reads t spans rest) :
    ClocksSpelled t spans := by
  have hspan : ∀ {t span rest}, clockSpan.Reads t span rest →
      span.Spelled t ∧ True := fun h => ⟨spelled_of_reads_clockSpan h, trivial⟩
  exact (listed_of_reads rfl (by decide) rfl hspan h).1

theorem reads_clocks_of_spelled (h : ClocksSpelled t spans) (hrest : ClockEnds rest)
    (hnext : Next (fun x => x ≠ '-' ∧ x ≠ ',') rest) :
    (commaList clockSpan).Reads t spans rest := by
  refine reads_of_listed rfl (by decide) rfl reads_clockSpan_of_spelled
    (fun hspan => starts_of_digit (clockSpan_begins hspan)) ?_ h
    ⟨hrest, hnext.imp fun _ => And.left⟩ (hnext.imp fun _ => And.right)
  exact fun hg => ⟨clockEnds_mark hg (by decide) (by decide),
    (Next.sign hg (by decide)).mpr (by decide)⟩

end Clocks

/-! ### Hours -/

inductive WordSpelled : List Char → Modifier → Prop
  | opened : WordSpelled "open".toList .opened
  | closed : WordSpelled "closed".toList .closed
  | off : WordSpelled "off".toList .closed
  | unknown : WordSpelled "unknown".toList .unknown

inductive Body.Spelled : List Char → Body → Prop
  | modifier {t m} (h : WordSpelled t m) : Spelled t (.modifier m)
  | clocks {t spans} (h : ClocksSpelled t spans) : Spelled t (.clocks ⟨t, spans⟩)

section Bodies

variable {word : String} {value value' : α} {m : Modifier} {body : Body} {spans : List ClockSpan}

theorem reads_keyword_iff :
    (keyword word value).Reads t value' rest ↔ t = word.toList ∧ value' = value := by
  constructor
  · intro h
    obtain ⟨⟨⟩, rfl, hword⟩ := reads_map_iff.mp (reads_named_iff.mp h)
    exact ⟨reads_literal_iff.mp hword, rfl⟩
  · rintro ⟨rfl, rfl⟩
    exact ((reads_literal word.toList rest).map _).named

theorem refuses_keyword (h : ¬word.toList <+: s) : (keyword word value).Refuses s :=
  ((refuses_literal h).map _).named

theorem modifier_begins (h : WordSpelled t m) : Begins (CharClass.lower.has · = true) t := by
  cases h <;> exact ⟨_, _, rfl, by decide⟩

theorem reads_modifier_iff :
    modifier.Reads t m rest ↔ WordSpelled t m ∧ CharClass.letter.Misses rest := by
  constructor
  · intro h
    obtain ⟨u, v, ⟨⟩, rfl, hword, hend⟩ := reads_before_iff.mp (reads_named_iff.mp h)
    obtain ⟨rfl, hrest⟩ := reads_absent_iff.mp hend
    rw [List.append_nil]
    refine ⟨?_, refuses_char_iff.mp hrest⟩
    rcases reads_choice_iff.mp hword with hopen | ⟨-, hother⟩
    · obtain ⟨rfl, rfl⟩ := reads_keyword_iff.mp hopen
      exact .opened
    rcases reads_choice_iff.mp hother with hclosed | ⟨-, hunknown⟩
    · rcases reads_choice_iff.mp (reads_named_iff.mp hclosed) with hclosed | ⟨-, hoff⟩
      · obtain ⟨rfl, rfl⟩ := reads_keyword_iff.mp hclosed
        exact .closed
      · obtain ⟨rfl, rfl⟩ := reads_keyword_iff.mp hoff
        exact .off
    · obtain ⟨rfl, rfl⟩ := reads_keyword_iff.mp hunknown
      exact .unknown
  · rintro ⟨h, hrest⟩
    have hend := reads_absent (refuses_char hrest)
    refine Reads.named ?_
    rw [← List.append_nil t]
    refine Reads.before ?_ hend
    have hread : ∀ {word : String} {value : Modifier},
        (keyword word value).Reads word.toList value ([] ++ rest) :=
      reads_keyword_iff.mpr ⟨rfl, rfl⟩
    cases h with
    | opened => exact hread.choice_left
    | closed =>
      exact (hread.choice_left.named.choice_left).choice_right (refuses_keyword (by simp))
    | off =>
      refine Reads.choice_right (refuses_keyword (by simp)) (Reads.choice_left (Reads.named ?_))
      exact hread.choice_right (refuses_keyword (by simp))
    | unknown =>
      refine Reads.choice_right (refuses_keyword (by simp)) (hread.choice_right (Refuses.named ?_))
      exact (refuses_keyword (by simp)).choice (refuses_keyword (by simp))

theorem mayStart_modifier (h : CharClass.lower.has x = false) : modifier.mayStart x = false := by
  have hne : ∀ c, CharClass.lower.has c = true → ¬c = x := by
    rintro c hc rfl
    rw [h] at hc
    cases hc
  simp [modifier, before, keyword, mayStart, mayBeEmpty, hne 'o' (by decide), hne 'c' (by decide),
    hne 'u' (by decide)]

theorem refuses_modifier_of_digit (h : Begins (CharClass.digit.has · = true) t) :
    modifier.Refuses (t ++ s) := by
  obtain ⟨x, v, rfl, hx⟩ := h
  refine refuses_of_head (by decide) fun y hy => ?_
  cases hy
  exact mayStart_modifier (CharClass.lower_of_digit hx)

/-- What follows a rule: the end of the text or a semicolon, blanks aside. -/
abbrev RuleEnds : List Char → Prop := Next (· = ';')

theorem letter_misses (h : RuleEnds rest) : CharClass.letter.Misses rest :=
  h.misses (fun _ => CharClass.letter_of_blank) (by rintro x rfl; decide)

theorem clockEnds (h : RuleEnds rest) : ClockEnds rest := by
  refine ⟨h.misses (fun _ => CharClass.digit_of_blank) (by rintro x rfl; decide), ?_⟩
  intro hcolon
  rcases h.head ':' hcolon with hblank | hsame
  · exact absurd hblank (by decide)
  · exact absurd hsame (by decide)

theorem no_sign (h : RuleEnds rest) : Next (fun x => x ≠ '-' ∧ x ≠ ',') rest :=
  h.imp (by rintro x rfl; decide)

theorem spelled_of_reads_body (h : Weekly.body.Reads t body rest) : body.Spelled t := by
  rcases reads_choice_iff.mp h with hword | ⟨-, hclocks⟩
  · obtain ⟨m, rfl, hmodifier⟩ := reads_map_iff.mp hword
    exact .modifier (reads_modifier_iff.mp hmodifier).1
  · obtain ⟨selector, rfl, hselector⟩ := reads_map_iff.mp hclocks
    obtain ⟨⟨_, spans⟩, rfl, hmatched⟩ := reads_map_iff.mp (reads_named_iff.mp hselector)
    obtain ⟨rfl, hlist⟩ := reads_matched_iff.mp hmatched
    exact .clocks (spelled_of_reads_clocks hlist)

theorem reads_body_of_spelled (h : body.Spelled t) (hrest : RuleEnds rest) :
    Weekly.body.Reads t body rest := by
  cases h with
  | modifier h =>
    exact (Reads.map _ (reads_modifier_iff.mpr ⟨h, letter_misses hrest⟩)).choice_left
  | clocks h =>
    have hlist := reads_clocks_of_spelled h (clockEnds hrest) (no_sign hrest)
    exact ((hlist.matched.map _).named.map _).choice_right
      ((refuses_modifier_of_digit (clocks_begin h)).map _)

end Bodies

/-! ### Rules -/

def Body.IsWord : Body → Prop
  | .modifier _ => True
  | .clocks _ => False

/-- Days and hours follow each other without a sign. A word has to keep clear of the days. -/
inductive Clause.Spelled : List Char → Clause → Prop
  | always : Spelled "24/7".toList .alwaysOpen
  | days {t spans} (h : DaysSpelled t spans) : Spelled t (.days spans none)
  | body {t b} (h : Body.Spelled t b) : Spelled t (.body b)
  | both {t g u spans b} (h : DaysSpelled t spans) (hg : AllBlank g) (hgap : b.IsWord → g ≠ [])
      (hb : Body.Spelled u b) : Spelled (t ++ (g ++ u)) (.days spans (some b))

def Rule.Spelled (t : List Char) (rule : Rule) : Prop := rule.text = t ∧ rule.clause.Spelled t

abbrev RulesSpelled : List Char → List Rule → Prop := Listed ';' Rule.Spelled

section Rules

variable {body : Body} {clause : Clause} {rule : Rule} {rules : List Rule} {spans : List ClockSpan}

theorem body_begins (h : body.Spelled t) :
    Begins (fun x => CharClass.lower.has x = true ∨ CharClass.digit.has x = true) t := by
  cases h with
  | modifier h => exact (modifier_begins h).imp fun _ => .inl
  | clocks h => exact (clocks_begin h).imp fun _ => .inr

theorem blank_of_body_begin
    (h : CharClass.lower.has x = true ∨ CharClass.digit.has x = true) :
    CharClass.blank.has x = false := by
  rcases h with hlower | hdigit
  · exact CharClass.blank_of_letter (CharClass.letter_of_lower hlower)
  · exact CharClass.blank_of_digit hdigit

theorem starts_of_body (h : body.Spelled t) : Starts t :=
  (body_begins h).imp fun _ => blank_of_body_begin

/-- Hours after days are no part of the days. -/
theorem days_end (hg : AllBlank g) (hgap : body.IsWord → g ≠ []) (h : body.Spelled u) :
    CharClass.letter.Misses (g ++ u ++ s) ∧
      Next (fun x => CharClass.lower.has x = true ∨ CharClass.digit.has x = true)
        (g ++ u ++ s) := by
  rw [List.append_assoc]
  constructor
  · cases g with
    | cons x g => exact CharClass.misses_cons.mpr (CharClass.letter_of_blank (hg x (by simp)))
    | nil =>
      cases h with
      | modifier => exact absurd rfl (hgap trivial)
      | clocks hclocks =>
        exact ((clocks_begin hclocks).imp fun _ => CharClass.letter_of_digit).misses s
  · exact (Next.append hg).mpr (Next.of_begins (body_begins h) fun _ => blank_of_body_begin)

theorem clause_begins (h : clause.Spelled t) :
    Begins (fun x => CharClass.letter.has x = true ∨ CharClass.digit.has x = true) t := by
  have hdays : ∀ {t spans}, DaysSpelled t spans →
      Begins (fun x => CharClass.letter.has x = true ∨ CharClass.digit.has x = true) t :=
    fun h => (days_begin h).imp fun _ hx => .inl (CharClass.letter_of_upper hx)
  cases h with
  | always => exact ⟨_, _, rfl, .inr (by decide)⟩
  | days h => exact hdays h
  | body h => exact (body_begins h).imp fun _ hx => hx.imp_left CharClass.letter_of_lower
  | both h => exact (hdays h).append _

theorem clause_starts (h : clause.Spelled t) : Starts t :=
  (clause_begins h).imp fun _ hx => hx.elim CharClass.blank_of_letter CharClass.blank_of_digit

/-- A list of clock times does not begin as `24/7`, since a clock time does not stop at a slash. -/
theorem refuses_always_of_clocks (h : ClocksSpelled t spans) (hrest : RuleEnds rest) :
    (literal "24/7".toList).Refuses (t ++ rest) := by
  refine refuses_literal ?_
  rintro ⟨more, hmore⟩
  have hclock : IsClock ['2', '4'] :=
    ⟨['2', '4'], [], rfl, ⟨.inr rfl, by simp [AllDigits]; decide⟩, .inl rfl⟩
  have hother : ClocksSpelled ['2', '4'] [⟨['2', '4'], ['2', '4'], none⟩] :=
    .one ⟨rfl, .one ⟨rfl, hclock⟩⟩
  -- Both lists are read off the front of one text, so that they end at the same place.
  have hread := reads_clocks_of_spelled h (clockEnds hrest) (no_sign hrest)
  have hslash : ClockEnds ('/' :: '7' :: more) :=
    ⟨CharClass.misses_cons.mpr (by decide), by simp⟩
  have hread' := reads_clocks_of_spelled hother hslash ((Next.cons (by decide)).mpr (by decide))
  have htext : t ++ rest = ['2', '4'] ++ '/' :: '7' :: more := hmore.symm
  unfold Reads at hread hread'
  rw [htext, hread', Option.some.injEq, Prod.mk.injEq] at hread
  rw [← hread.2] at hrest
  exact absurd ((Next.cons (by decide)).mp hrest) (by decide)

theorem refuses_always_of_begins {c : CharClass} (h : Begins (c.has · = true) t)
    (hc : c.has '2' = false) : (literal "24/7".toList).Refuses (t ++ s) := by
  obtain ⟨x, v, rfl, hx⟩ := h
  show (literal ['2', '4', '/', '7']).Refuses _
  refine refuses_word fun hsame => ?_
  rw [Option.some.inj hsame, hc] at hx
  cases hx

theorem refuses_always_of_body (h : body.Spelled t) (hrest : RuleEnds rest) :
    (literal "24/7".toList).Refuses (t ++ rest) := by
  cases h with
  | modifier h => exact refuses_always_of_begins (modifier_begins h) (by decide)
  | clocks h => exact refuses_always_of_clocks h hrest

theorem mayStart_daySelector : daySelector.mayStart x = CharClass.upper.has x := by
  simp [daySelector, commaList, daySpan, dayName, text, mayStart, mayBeEmpty]

theorem refuses_days_of_body (h : body.Spelled t) : daySelector.Refuses (t ++ s) := by
  obtain ⟨x, v, rfl, hx⟩ := body_begins h
  refine refuses_of_head (by decide) fun y hy => ?_
  cases hy
  rw [mayStart_daySelector]
  rcases hx with hlower | hdigit
  · exact CharClass.upper_of_lower hlower
  · exact CharClass.upper_of_digit hdigit

theorem spelled_of_reads_clause (h : Weekly.clause.Reads t clause rest) : clause.Spelled t := by
  rcases reads_choice_iff.mp h with halways | ⟨-, hother⟩
  · obtain ⟨rfl, rfl⟩ := reads_keyword_iff.mp halways
    exact .always
  rcases reads_choice_iff.mp hother with hdays | ⟨-, hbody⟩
  · obtain ⟨⟨spans, body⟩, rfl, hseq⟩ := reads_map_iff.mp hdays
    obtain ⟨u, v, rfl, hselector, hoption⟩ := reads_seq_iff.mp hseq
    obtain ⟨hspans, hend⟩ := spelled_of_reads_daySelector hselector
    cases body with
    | none =>
      obtain ⟨rfl, -⟩ := reads_option_none_iff.mp hoption
      rw [List.append_nil]
      exact .days hspans
    | some body =>
      obtain ⟨g, w, _, rfl, hblanks, hhours⟩ :=
        reads_after_iff.mp (reads_option_some_iff.mp hoption)
      have hbody := spelled_of_reads_body hhours
      refine .both hspans (reads_chars_iff.mp hblanks).2.1 ?_ hbody
      rintro hword rfl
      cases hbody with
      | clocks _ => exact hword
      | modifier hmodifier =>
        obtain ⟨x, v, rfl, hx⟩ := modifier_begins hmodifier
        have hletter := CharClass.misses_cons.mp hend
        rw [CharClass.letter_of_lower hx] at hletter
        cases hletter
  · obtain ⟨body, rfl, hhours⟩ := reads_map_iff.mp hbody
    exact .body (spelled_of_reads_body hhours)

theorem reads_clause_of_spelled (h : clause.Spelled t) (hrest : RuleEnds rest) :
    Weekly.clause.Reads t clause rest := by
  have halways : ∀ {s}, (literal "24/7".toList).Refuses s →
      (keyword "24/7" Clause.alwaysOpen).Refuses s := fun h => (h.map _).named
  cases h with
  | always => exact Reads.choice_left (reads_keyword_iff.mpr ⟨rfl, rfl⟩)
  | days h =>
    have hspans := reads_daySelector_of_spelled h (letter_misses hrest) (no_sign hrest)
    have hnone : (option (spaced Weekly.body)).Reads [] none rest :=
      reads_option_none (refuses_spaced (by decide) hrest (by rintro x rfl; decide))
    rw [← List.append_nil t]
    refine Reads.choice_right (halways ?_) (((hspans.seq hnone).map _).choice_left)
    rw [List.append_nil]
    exact refuses_always_of_begins (days_begin h) (by decide)
  | body h =>
    refine Reads.choice_right (halways (refuses_always_of_body h hrest)) (Reads.choice_right ?_ ?_)
    · exact (refuses_days_of_body h).seq.map _
    · exact (reads_body_of_spelled h hrest).map _
  | @both t g u spans b h hg hgap hb =>
    obtain ⟨hletter, hnext⟩ := days_end (s := rest) hg hgap hb
    have hspans := reads_daySelector_of_spelled h hletter (hnext.imp fun x hx => by
      constructor <;> rintro rfl <;> revert hx <;> decide)
    have hbody := (reads_body_of_spelled hb hrest).spaced hg ((starts_of_body hb).misses rest)
    refine Reads.choice_right (halways ?_) (((hspans.seq hbody.option).map _).choice_left)
    rw [List.append_assoc]
    exact refuses_always_of_begins (days_begin h) (by decide)

theorem spelled_of_reads_rule (h : Weekly.rule.Reads t rule rest) : rule.Spelled t := by
  obtain ⟨⟨_, clause⟩, rfl, hmatched⟩ := reads_map_iff.mp (reads_named_iff.mp h)
  obtain ⟨rfl, hclause⟩ := reads_matched_iff.mp hmatched
  exact ⟨rfl, spelled_of_reads_clause hclause⟩

theorem reads_rule_of_spelled (h : rule.Spelled t) (hrest : RuleEnds rest) :
    Weekly.rule.Reads t rule rest := by
  obtain ⟨text, clause⟩ := rule
  obtain ⟨rfl, hclause⟩ := h
  exact ((reads_clause_of_spelled hclause hrest).matched.map _).named

theorem rules_start (h : RulesSpelled t rules) : Starts t := h.begins fun h => clause_starts h.2

theorem run_semicolon : (named (literal [';'])).run = (literal [';']).run := rfl

theorem spelled_of_reads_rules (h : Weekly.rules.Reads t rules rest) : RulesSpelled t rules := by
  have hrule : ∀ {t rule rest}, Weekly.rule.Reads t rule rest → rule.Spelled t ∧ True :=
    fun h => ⟨spelled_of_reads_rule h, trivial⟩
  exact (listed_of_reads run_semicolon (by decide) rfl hrule (reads_named_iff.mp h)).1

theorem reads_rules_of_spelled (h : RulesSpelled t rules) (hrest : AllBlank rest) :
    Weekly.rules.Reads t rules rest := by
  refine Reads.named (reads_of_listed run_semicolon (by decide) rfl reads_rule_of_spelled
    (fun h => clause_starts h.2) ?_ h (.of_allBlank hrest) (.of_allBlank hrest))
  exact fun hg => (Next.sign hg (by decide)).mpr rfl

/-- The grammar matches the rules with semicolons between them and blanks around, and no others. -/
theorem run_schedule_iff {text : List Char} : schedule.run text = some (rules, rest) ↔
    rest = [] ∧ ∃ front t back, AllBlank front ∧ AllBlank back ∧ text = front ++ (t ++ back) ∧
      RulesSpelled t rules := by
  rw [schedule, run_document_iff]
  refine and_congr_right fun _ => exists_congr fun front => exists_congr fun t =>
    exists_congr fun back => ?_
  constructor
  · rintro ⟨hfront, hback, rfl, -, hrules⟩
    exact ⟨hfront, hback, rfl, spelled_of_reads_rules hrules⟩
  · rintro ⟨hfront, hback, rfl, hrules⟩
    exact ⟨hfront, hback, rfl, (rules_start hrules).misses back,
      reads_rules_of_spelled hrules hback⟩

/-! ### Pieces -/

theorem solid_of_letters (hsome : t ≠ []) (h : ∀ x ∈ t, CharClass.letter.has x = true) :
    Solid ';' t := by
  refine .of_forall hsome fun x hx => ⟨CharClass.blank_of_letter (h x hx), ?_⟩
  rintro rfl
  exact absurd (h ';' hx) (by decide)

theorem name_solid {name : List Char} (h : Verbatim IsName t name) : Solid ';' t := by
  obtain ⟨-, x, y, rfl, hx, hy⟩ := h
  refine solid_of_letters (by simp) ?_
  simp [CharClass.letter_of_upper hx, CharClass.letter_of_lower hy]

theorem clock_solid {value : List Char} (h : Verbatim IsClock t value) : Solid ';' t := by
  refine .of_forall ?_ fun x hx => ?_
  · obtain ⟨x, u, hcons, -⟩ := clock_begins h
    rw [hcons]
    simp
  · rcases clock_chars h x hx with hdigit | rfl
    · refine ⟨CharClass.blank_of_digit hdigit, ?_⟩
      rintro rfl
      exact absurd hdigit (by decide)
    · exact ⟨by decide, by decide⟩

theorem days_solid {spans : List DaySpan} (h : DaysSpelled t spans) : Solid ';' t :=
  h.solid (by decide) (by decide) fun hspan => hspan.solid (by decide) (by decide) name_solid

theorem body_solid (h : body.Spelled t) : Solid ';' t := by
  cases h with
  | modifier h => cases h <;> exact solid_of_letters (by simp) (by simp; decide)
  | clocks h =>
    exact h.solid (by decide) (by decide) fun hspan =>
      hspan.2.solid (by decide) (by decide) clock_solid

theorem clause_solid (h : clause.Spelled t) : Solid ';' t := by
  cases h with
  | always => exact .of_forall (by simp) (by simp; decide)
  | days h => exact days_solid h
  | body h => exact body_solid h
  | both h hg _ hb => exact (days_solid h).join (hg.unmarked (by decide)) (body_solid hb)

/-- A text is a schedule if each piece between its semicolons is a rule. -/
theorem run_schedule_iff_pieces {text : List Char} : schedule.run text = some (rules, rest) ↔
    rest = [] ∧ List.Forall₂ (fun piece rule => rule.Spelled (strip piece))
      (text.splitOn ';') rules := by
  rw [run_schedule_iff]
  exact and_congr_right fun _ => listed_iff_pieces (by decide) fun h => clause_solid h.2

/-- The rules are the pieces, without the blanks around them. -/
theorem texts_of_run {text : List Char} (h : schedule.run text = some (rules, rest)) :
    rules.map Rule.text = (text.splitOn ';').map strip := by
  obtain ⟨-, hpieces⟩ := run_schedule_iff_pieces.mp h
  rw [eq_comm, ← List.forall₂_eq_eq_eq, List.forall₂_map_left_iff, List.forall₂_map_right_iff]
  exact hpieces.imp fun _ _ hrule => hrule.1.symm

/-- A text spells one clause at most. -/
theorem Clause.Spelled.unique {clause' : Clause} (h : clause.Spelled t) (h' : clause'.Spelled t) :
    clause = clause' := by
  have hread : Weekly.clause.Reads t clause [] := reads_clause_of_spelled h Next.nil
  have hread' : Weekly.clause.Reads t clause' [] := reads_clause_of_spelled h' Next.nil
  unfold Reads at hread hread'
  rw [hread, Option.some.injEq, Prod.mk.injEq] at hread'
  exact hread'.1

end Rules

end Weekly
end OpeningHours
