import OpeningHours.Grammar.Language
import OpeningHours.Proofs.Acceptance

/-! Weekly texts in the wider language. Days, hours and rules of the weekly language are read by the
expressions of the wider one too, whole and with no construct in them: the alternatives that come
first there, years, months, weeks and holidays, are refused on them. -/

namespace OpeningHours

open Peg

namespace CharClass

variable {x : Char} {f : Char → Bool}

/-- What holds of the characters between two others one by one holds of all of them. -/
theorem forall_between {first last : Char}
    (h : ∀ n, n < last.toNat + 1 - first.toNat → f (Char.ofNat (first.toNat + n)) = false)
    (hx : (decide (first ≤ x) && decide (x ≤ last)) = true) : f x = false := by
  simp only [Bool.and_eq_true, decide_eq_true_eq, Char.le_def, UInt32.le_iff_toNat_le] at hx
  have hbounds : first.toNat ≤ x.toNat ∧ x.toNat ≤ last.toNat := hx
  have heq : x = Char.ofNat (first.toNat + (x.toNat - first.toNat)) := by
    rw [Nat.add_sub_cancel' hbounds.1, Char.ofNat_toNat]
  rw [heq]
  exact h _ (by omega)

theorem forall_upper (h : ∀ n, n < 26 → f (Char.ofNat (65 + n)) = false)
    (hx : upper.has x = true) : f x = false := @forall_between x f 'A' 'Z' h hx

theorem forall_digit (h : ∀ n, n < 10 → f (Char.ofNat (48 + n)) = false)
    (hx : digit.has x = true) : f x = false := @forall_between x f '0' '9' h hx

end CharClass

namespace Language

variable {p q : Scan} {s t u g rest : List Char} {x : Char} {allowed : Char → Prop}

/-! ### Expressions without constructs -/

theorem reads_then (hp : p.Reads s [] (t ++ rest)) (hq : q.Reads t [] rest) :
    (p >> q).Reads (s ++ t) [] rest := (hp.seq hq).map _

@[simp] theorem mayStart_then : (p >> q).mayStart x =
    (p.mayStart x || p.mayBeEmpty && q.mayStart x) := rfl

@[simp] theorem mayStart_orElse {p q : Peg α} :
    (p <|> q).mayStart x = (p.mayStart x || q.mayStart x) := rfl

@[simp] theorem mayStart_word (w : String) :
    (word w).mayStart x = (w.toList.head? == some x) := rfl

@[simp] theorem mayBeEmpty_orElse {p q : Peg α} :
    (p <|> q).mayBeEmpty = (p.mayBeEmpty || q.mayBeEmpty) := rfl

@[simp] theorem mayBeEmpty_word (w : String) : (word w).mayBeEmpty = w.toList.isEmpty := rfl

theorem refuses_then (h : p.Refuses s) : (p >> q).Refuses s := h.seq.map _

theorem refuses_then_of_reads (hp : p.Reads s [] rest) (hq : q.Refuses rest) :
    (p >> q).Refuses (s ++ rest) := (Refuses.seq_of_reads hp hq).map _

theorem reads_maybe (h : p.Reads s [] rest) : (maybe p).Reads s [] rest := h.option.map _

theorem reads_maybe_none (h : p.Refuses rest) : (maybe p).Reads [] [] rest :=
  (reads_option_none h).map _

theorem reads_no {p : Peg α} (h : p.Refuses rest) : (no p).Reads [] [] rest :=
  (reads_absent h).map _

theorem reads_word (w : String) (rest : List Char) : (word w).Reads w.toList [] rest :=
  (reads_literal w.toList rest).map _

theorem refuses_word_of {w : String} (h : ¬w.toList <+: s) : (word w).Refuses s :=
  (refuses_literal h).map _

theorem reads_digit (h : CharClass.digit.has x = true) : digit.Reads [x] [] rest :=
  (reads_char h).map _

theorem refuses_digit (h : CharClass.digit.Misses s) : digit.Refuses s := (refuses_char h).map _

theorem reads_oneOf {first last : Char} (h : first ≤ x ∧ x ≤ last) :
    (oneOf first last).Reads [x] [] rest :=
  (reads_char (by simpa [CharClass.has] using h)).map _

theorem reads_ws (hs : AllBlank s) (hrest : CharClass.blank.Misses rest) : ws.Reads s [] rest :=
  (reads_chars hs hrest).map _

theorem refuses_ws_then (hempty : q.mayBeEmpty = false) (h : Next allowed s)
    (hstart : ∀ x, allowed x → q.mayStart x = false) : (ws >> q).Refuses s := by
  have hblanks : ws.Reads (s.takeWhile CharClass.blank.has) []
      (s.dropWhile CharClass.blank.has) := (reads_blanks s).map _
  have hrefuses := refuses_then_of_reads hblanks
    (refuses_of_head hempty fun x hx => hstart x (h x hx))
  rwa [List.takeWhile_append_dropWhile] at hrefuses

/-- An expression that starts with no blank and with nothing of what may come next is refused. -/
theorem refuses_of_next {p : Peg α} (hempty : p.mayBeEmpty = false)
    (hblank : (p.mayStart ' ' || p.mayStart '\t' || p.mayStart '\r' || p.mayStart '\n') = false)
    (h : Next allowed s) (hstart : ∀ x, allowed x → p.mayStart x = false) : p.Refuses s := by
  simp only [Bool.or_eq_false_iff] at hblank
  obtain ⟨⟨⟨hspace, htab⟩, hreturn⟩, hnewline⟩ := hblank
  refine refuses_of_head hempty fun x hx => ?_
  rcases h.head x hx with hx | hx
  · rcases CharClass.eq_of_blank hx with rfl | rfl | rfl | rfl <;> assumption
  · exact hstart x hx

theorem reads_hyphen_then (hg : IsMark '-' g) (hstarts : Starts t) (h : p.Reads t [] rest) :
    (ws >> word "-" >> ws >> p).Reads (g ++ t) [] rest := by
  obtain ⟨front, back, hfront, hback, rfl⟩ := hg
  have hlast : (ws >> p).Reads (back ++ t) [] rest :=
    reads_then (reads_ws hback (hstarts.misses rest)) h
  have hsign : (word "-" >> ws >> p).Reads (['-'] ++ (back ++ t)) [] rest :=
    reads_then (reads_word "-" _) hlast
  have hall := reads_then (reads_ws hfront (CharClass.misses_cons.mpr (by decide))) hsign
  rw [List.append_assoc]
  exact hall

section Lists

variable {item : List Char → α → Prop} {as : List α} {ends : List Char → Prop}

theorem reads_listOf_one (hempty : p.mayBeEmpty = false) (h : p.Reads t [] rest)
    (hstop : (after (padded (literal [','])) p).Refuses rest) : (listOf p).Reads t [] rest :=
  (reads_list_one hempty h hstop).map List.flatten

theorem reads_listOf_cons (hempty : p.mayBeEmpty = false) (h : p.Reads t [] (g ++ u ++ rest))
    (hg : IsMark ',' g) (hblank : CharClass.blank.Misses (u ++ rest))
    (hmore : (listOf p).Reads u [] rest) : (listOf p).Reads (t ++ (g ++ u)) [] rest := by
  obtain ⟨founds, hnone, hlist⟩ := reads_map_iff.mp hmore
  have hread := (reads_list_cons rfl (by decide) hempty h hg hblank hlist).map List.flatten
  rwa [List.flatten_cons, hnone, List.append_nil] at hread

/-- A list of items without constructs has none either. -/
theorem reads_listOf (hempty : p.mayBeEmpty = false)
    (hp : ∀ {t a rest}, item t a → ends rest → p.Reads t [] rest)
    (hstarts : ∀ {t a}, item t a → Starts t) (hends : ∀ {g s}, IsMark ',' g → ends (g ++ s))
    (h : Listed ',' item t as) (hrest : ends rest) (hnext : Next (· ≠ ',') rest) :
    (listOf p).Reads t [] rest := by
  induction h with
  | one h => exact reads_listOf_one hempty (hp h hrest) hnext.refuses_sign.after
  | @cons t a g u as h hg hmore ih =>
    refine reads_listOf_cons hempty (hp h ?_) hg ((hmore.begins hstarts).misses rest) ih
    rw [List.append_assoc]
    exact hends hg

end Lists

/-! ### Days -/

/-- The text begins with a capital and a small letter and no third letter. -/
def NameFirst (s : List Char) : Prop :=
  ∃ t u, s = t ++ u ∧ Weekly.IsName t ∧ CharClass.letter.Misses u

namespace NameFirst

theorem head_upper (h : NameFirst s) : ∀ x ∈ s.head?, CharClass.upper.has x = true := by
  obtain ⟨_, u, rfl, ⟨x, y, rfl, hx, -⟩, -⟩ := h
  rintro _ ⟨⟩
  exact hx

theorem refuses {p : Peg α} (h : NameFirst s) (hempty : p.mayBeEmpty = false)
    (hstart : ∀ n, n < 26 → p.mayStart (Char.ofNat (65 + n)) = false) : p.Refuses s :=
  refuses_of_head hempty fun x hx => CharClass.forall_upper hstart (h.head_upper x hx)

/-- Words of three letters are not there, nor are words whose second letter is no small one. -/
theorem refuses_long (h : NameFirst s) {a b c : Char} (hc : CharClass.letter.has c = true)
    {w : String} (hw : w.toList = [a, b, c]) : (word w).Refuses s := by
  obtain ⟨_, u, rfl, ⟨x, y, rfl, -, -⟩, hu⟩ := h
  refine refuses_word_of ?_
  rw [hw]
  rintro ⟨more, hmore⟩
  injection hmore with _ hmore
  injection hmore with _ hmore
  have hsame : c :: more = u := hmore
  subst hsame
  rw [CharClass.misses_cons.mp hu] at hc
  cases hc

theorem refuses_capitals (h : NameFirst s) {a b : Char} (hb : CharClass.lower.has b = false)
    {w : String} (hw : w.toList = [a, b]) : (word w).Refuses s := by
  obtain ⟨_, u, rfl, ⟨x, y, rfl, -, hy⟩, -⟩ := h
  refine refuses_word_of ?_
  rw [hw]
  rintro ⟨more, hmore⟩
  injection hmore with _ hmore
  injection hmore with hsame _
  rw [hsame, hy] at hb
  cases hb

theorem refuses_month (h : NameFirst s) : month.Refuses s := by
  have hword : ∀ {a b c : Char} {w : String}, w.toList = [a, b, c] →
      CharClass.letter.has c = true → (word w).Refuses s := fun hw hc => h.refuses_long hc hw
  refine refuses_then ?_
  refine (hword rfl (by decide)).choice ((hword rfl (by decide)).choice ?_)
  refine (hword rfl (by decide)).choice ((hword rfl (by decide)).choice ?_)
  refine (hword rfl (by decide)).choice ((hword rfl (by decide)).choice ?_)
  refine (hword rfl (by decide)).choice ((hword rfl (by decide)).choice ?_)
  refine (hword rfl (by decide)).choice ((hword rfl (by decide)).choice ?_)
  exact (hword rfl (by decide)).choice (hword rfl (by decide))

theorem refuses_wideSelectors (h : NameFirst s) : wideSelectors.Refuses s := by
  have hdate : date.Refuses s :=
    (refuses_then h.refuses_month).choice (h.refuses (by decide) (by decide))
  have hlist : (listOf dateRange).Refuses s := (((refuses_then hdate).seq).map _).map _
  refine refuses_then (Refuses.choice ?_ (Refuses.choice ?_ ?_))
  · exact refuses_then (h.refuses (by decide) (by decide))
  · exact refuses_then (hlist.map _)
  · exact h.refuses (by decide) (by decide)

theorem refuses_holiday (h : NameFirst s) : holiday.Refuses s := by
  have hword : ∀ {a b : Char} {w : String}, w.toList = [a, b] →
      CharClass.lower.has b = false → (word w >> wordEnd).Refuses s :=
    fun hw hb => refuses_then (h.refuses_capitals hb hw)
  exact (refuses_then ((hword rfl (by decide)).choice (hword rfl (by decide)))).map _

end NameFirst

section Days

variable {day : Weekday} {item : DayItem} {items : List DayItem}

/-- What follows a day: no letter, and no sign that goes on with the same days. -/
def DayEnds (s : List Char) : Prop :=
  CharClass.letter.Misses s ∧ Next (fun x => x ≠ '-' ∧ x ≠ '[' ∧ x ≠ '+') s

theorem reads_weekday (day : Weekday) (h : CharClass.letter.Misses rest) :
    weekday.Reads day.letters [] rest := by
  have hend : wordEnd.Reads [] [] rest := reads_no (refuses_char h)
  rw [← List.append_nil day.letters]
  refine reads_then ?_ hend
  cases day <;> rfl

theorem starts_letters (day : Weekday) : Starts day.letters := by
  cases day <;> exact ⟨_, _, rfl, by decide⟩

/-- Days that are neither numbered nor moved. -/
theorem reads_day_tail (h : DayEnds rest) :
    (maybe (ws >> word "[" >> ws >> nthSequence >> ws >> word "]")
      >> maybe (ws >> dayOffset)).Reads [] [] rest := by
  refine reads_then (reads_maybe_none ?_) (reads_maybe_none ?_)
  · refine refuses_ws_then (by decide) h.2 fun x hx => ?_
    simp [Ne.symm hx.2.1]
  · refine refuses_ws_then (by decide) h.2 fun x hx => ?_
    simp [dayOffset, mark, mayStart, sign, Ne.symm hx.1, Ne.symm hx.2.2]

theorem nameFirst_of_name {name : List Char} (h : Weekly.Verbatim Weekly.IsName t name)
    (hrest : CharClass.letter.Misses rest) : NameFirst (t ++ rest) := ⟨t, rest, rfl, h.2, hrest⟩

theorem nameFirst_of_span {span : Weekly.DaySpan} (h : span.Spelled t)
    (hrest : CharClass.letter.Misses rest) : NameFirst (t ++ rest) := by
  obtain ⟨first, last⟩ := span
  cases h with
  | one hname => exact nameFirst_of_name hname hrest
  | pair hname hg _ =>
    rw [List.append_assoc, List.append_assoc]
    exact nameFirst_of_name hname (Weekly.letter_misses_mark hg (by decide))

theorem nameFirst_of_days {spans : List Weekly.DaySpan} (h : Weekly.DaysSpelled t spans)
    (hrest : CharClass.letter.Misses rest) : NameFirst (t ++ rest) := by
  cases h with
  | one h => exact nameFirst_of_span h hrest
  | cons h hg _ =>
    rw [List.append_assoc, List.append_assoc]
    exact nameFirst_of_span h (Weekly.letter_misses_mark hg (by decide))

theorem item_starts (h : item.Written t) : Starts t := by
  refine Spanned.begins h ?_
  rintro t day rfl
  exact starts_letters day

theorem reads_weekdayRange (h : item.Written t) (hrest : DayEnds rest) :
    weekdayRange.Reads t [] rest := by
  obtain ⟨first, last⟩ := item
  have htail := reads_day_tail hrest
  cases h with
  | one hday =>
    obtain rfl : t = first.letters := hday
    have hnone : (maybe (ws >> word "-" >> ws >> weekday)).Reads [] [] rest := by
      refine reads_maybe_none (refuses_ws_then (by decide) hrest.2 fun x hx => ?_)
      simp [Ne.symm hx.1]
    have hday : weekday.Reads first.letters [] ([] ++ rest) := reads_weekday first hrest.1
    rw [← List.append_nil first.letters]
    exact reads_then hday (reads_then hnone htail)
  | @pair t _ g u last hday hg hday' =>
    obtain rfl : t = first.letters := hday
    obtain rfl : u = last.letters := hday'
    have hsome : (maybe (ws >> word "-" >> ws >> weekday)).Reads (g ++ last.letters) []
        ([] ++ rest) :=
      reads_maybe (reads_hyphen_then hg (starts_letters last) (reads_weekday last hrest.1))
    have hletter : CharClass.letter.Misses (g ++ last.letters ++ [] ++ rest) := by
      rw [List.append_nil, List.append_assoc]
      exact Weekly.letter_misses_mark hg (by decide)
    rw [← List.append_nil (g ++ last.letters)]
    exact reads_then (reads_weekday first hletter) (reads_then hsome htail)

theorem reads_weekdayEntry (h : item.Written t) (hrest : DayEnds rest) :
    (holiday <|> weekdayRange).Reads t [] rest := by
  have hname := nameFirst_of_span (daySpan_spelled h) hrest.1
  exact (reads_weekdayRange h hrest).choice_right hname.refuses_holiday

theorem dayEnds_comma (hg : IsMark ',' g) : DayEnds (g ++ s) :=
  ⟨Weekly.letter_misses_mark hg (by decide), (Next.sign hg (by decide)).mpr (by decide)⟩

theorem reads_weekdaySelector (h : Listed ',' DayItem.Written t items) (hrest : DayEnds rest)
    (hnext : Next (· ≠ ',') rest) : weekdaySelector.Reads t [] rest :=
  reads_listOf (by decide) reads_weekdayEntry item_starts dayEnds_comma h hrest hnext

end Days

/-! ### Clock times -/

section Times

variable {a b : Char} {m : Int} {span : Span} {spans : List Span}

theorem refuses_of_digit {p : Peg α} (h : Begins (CharClass.digit.has · = true) t)
    (hempty : p.mayBeEmpty = false)
    (hstart : ∀ n, n < 10 → p.mayStart (Char.ofNat (48 + n)) = false) : p.Refuses (t ++ s) := by
  obtain ⟨x, u, rfl, hx⟩ := h
  refine refuses_of_head hempty ?_
  rintro _ ⟨⟩
  exact CharClass.forall_digit hstart hx

/-- The text begins with one or two digits and no third digit. -/
def HourFirst (s : List Char) : Prop :=
  ∃ t u, s = t ++ u ∧ Weekly.IsHour t ∧ CharClass.digit.Misses u

namespace HourFirst

theorem refuses_year (h : HourFirst s) : year.Refuses s := by
  obtain ⟨t, u, rfl, ⟨hlength | hlength, hdigits⟩, hu⟩ := h
  · obtain ⟨a, rfl⟩ := List.length_eq_one_iff.mp hlength
    exact refuses_then_of_reads (reads_digit (hdigits a (by simp)))
      (refuses_then (refuses_digit hu))
  · obtain ⟨a, b, rfl⟩ := List.length_eq_two.mp hlength
    have hsecond : (digit >> digit >> digit >> numberEnd).Refuses ([b] ++ u) :=
      refuses_then_of_reads (reads_digit (hdigits b (by simp))) (refuses_then (refuses_digit hu))
    show year.Refuses ([a] ++ ([b] ++ u))
    exact refuses_then_of_reads (reads_digit (hdigits a (by simp))) hsecond

theorem refuses_wideSelectors (h : HourFirst s) : wideSelectors.Refuses s := by
  have hyears : (listOf yearRange).Refuses s := ((refuses_then h.refuses_year).seq.map _).map _
  obtain ⟨t, u, rfl, hhour, -⟩ := h
  have hdigit := Weekly.hour_begins hhour
  refine refuses_then (Refuses.choice ?_ (Refuses.choice ?_ ?_))
  · exact refuses_then (hyears.map _)
  · exact refuses_then (refuses_of_digit hdigit (by decide) (by decide))
  · exact refuses_of_digit hdigit (by decide) (by decide)

end HourFirst

theorem toNat_of_digit (h : CharClass.digit.has x = true) : 48 ≤ x.toNat ∧ x.toNat ≤ 57 := by
  simpa [CharClass.has, Char.le_def, UInt32.le_iff_toNat_le] using h

theorem number_one (a : Char) : Text.number [a] = a.toNat - 48 := by simp [Text.number]

theorem number_two (a b : Char) :
    Text.number [a, b] = 10 * (a.toNat - 48) + (b.toNat - 48) := by simp [Text.number]

theorem eq_of_toNat {c : Char} (h : x.toNat = c.toNat) : x = c := by
  rw [← Char.ofNat_toNat x, h, Char.ofNat_toNat]

theorem between_iff {first last : Char} :
    first ≤ x ∧ x ≤ last ↔ first.toNat ≤ x.toNat ∧ x.toNat ≤ last.toNat := by
  simp [Char.le_def, UInt32.le_iff_toNat_le]

/-- A digit of some kind, which may be there or not, with nothing for the next expression. -/
theorem refuses_oneOf_then {first last : Char} (hq : q.Refuses s) :
    (oneOf first last >> q).Refuses (x :: s) := by
  by_cases hx : first ≤ x ∧ x ≤ last
  · exact refuses_then_of_reads (reads_oneOf hx) hq
  · refine refuses_then ((refuses_char ?_).map _)
    rw [CharClass.misses_cons]
    simpa [CharClass.has] using hx

theorem refuses_four_then (hq : q.Refuses s) : (word "4" >> q).Refuses (x :: s) := by
  by_cases hx : x = '4'
  · subst hx
    exact refuses_then_of_reads (reads_word "4" s) hq
  · refine refuses_then (refuses_word_of ?_)
    rintro ⟨more, hmore⟩
    injection hmore with hsame _
    exact hx hsame.symm

theorem refuses_oneOf {first last : Char} (h : '0' ≤ first ∧ last ≤ '9')
    (hrest : CharClass.digit.Misses rest) : (oneOf first last).Refuses rest := by
  refine (refuses_char fun x hx => ?_).map _
  have hdigit := hrest x hx
  simp [CharClass.has, Char.le_def, UInt32.le_iff_toNat_le] at hdigit h ⊢
  omega

/-- An hour up to 47. -/
theorem reads_hour (h : Weekly.IsHour t) (hmax : Text.number t ≤ 47)
    (hrest : CharClass.digit.Misses rest) :
    (oneOf '0' '3' >> digit <|> word "4" >> oneOf '0' '7' <|> digit).Reads t [] rest := by
  obtain ⟨hlength | hlength, hdigits⟩ := h
  · obtain ⟨a, rfl⟩ := List.length_eq_one_iff.mp hlength
    refine Reads.choice_right (refuses_oneOf_then (refuses_digit hrest)) (Reads.choice_right ?_ ?_)
    · exact refuses_four_then (refuses_oneOf (by decide) hrest)
    · exact reads_digit (hdigits a (by simp))
  · obtain ⟨a, b, rfl⟩ := List.length_eq_two.mp hlength
    have hb := toNat_of_digit (hdigits b (by simp))
    have ha := toNat_of_digit (hdigits a (by simp))
    have hvalue := number_two a b
    by_cases hsmall : a.toNat ≤ 51
    · have hfirst : (oneOf '0' '3').Reads [a] [] ([b] ++ rest) :=
        reads_oneOf (between_iff.mpr ⟨ha.1, hsmall⟩)
      exact (reads_then hfirst (reads_digit (hdigits b (by simp)))).choice_left
    · -- The first alternative stops at a 3, and what is left up to 47 begins with a 4.
      have hfour : a = '4' := eq_of_toNat (by change a.toNat = 52; omega)
      subst hfour
      have hlast : (oneOf '0' '7').Reads [b] [] rest :=
        reads_oneOf (between_iff.mpr ⟨hb.1, by change b.toNat ≤ 55; omega⟩)
      refine Reads.choice_right ?_ (reads_then (reads_word "4" ([b] ++ rest)) hlast).choice_left
      refine refuses_then ((refuses_char ?_).map _)
      exact CharClass.misses_cons.mpr (by decide)

theorem refuses_fortyEight (h : Weekly.IsHour t) (hmax : Text.number t ≤ 47)
    (hrest : CharClass.digit.Misses rest) : (word "48").Refuses (t ++ rest) := by
  refine refuses_word_of ?_
  rintro ⟨more, hmore⟩
  obtain ⟨hlength | hlength, -⟩ := h
  · obtain ⟨a, rfl⟩ := List.length_eq_one_iff.mp hlength
    injection hmore with _ hmore
    have hsame : '8' :: more = rest := hmore
    subst hsame
    exact absurd (CharClass.misses_cons.mp hrest) (by decide)
  · obtain ⟨a, b, rfl⟩ := List.length_eq_two.mp hlength
    injection hmore with ha hmore
    injection hmore with hb _
    subst ha hb
    exact absurd hmax (by decide)

theorem eq_fortyEight (h : Weekly.IsHour t) (h48 : Text.number t = 48) : t = "48".toList := by
  obtain ⟨hlength | hlength, hdigits⟩ := h
  · obtain ⟨a, rfl⟩ := List.length_eq_one_iff.mp hlength
    have ha := toNat_of_digit (hdigits a (by simp))
    rw [number_one] at h48
    omega
  · obtain ⟨a, b, rfl⟩ := List.length_eq_two.mp hlength
    have ha := toNat_of_digit (hdigits a (by simp))
    have hb := toNat_of_digit (hdigits b (by simp))
    rw [number_two] at h48
    have hfour : a = '4' := eq_of_toNat (by change a.toNat = 52; omega)
    have height : b = '8' := eq_of_toNat (by change b.toNat = 56; omega)
    subst hfour height
    rfl

theorem reads_minutes (hdigits : Weekly.AllDigits [a, b]) (hminute : Text.number [a, b] ≤ 59) :
    minute.Reads [a, b] [] rest := by
  have ha := toNat_of_digit (hdigits a (by simp))
  have hvalue := number_two a b
  have hfirst : (oneOf '0' '5').Reads [a] [] ([b] ++ rest) :=
    reads_oneOf (between_iff.mpr ⟨ha.1, by change a.toNat ≤ 53; omega⟩)
  exact reads_then hfirst (reads_digit (hdigits b (by simp)))

theorem refuses_colon_then (h : rest.head? ≠ some ':') : (word ":" >> q).Refuses rest :=
  refuses_then ((Peg.refuses_word h).map _)

theorem eq_zeros (hdigits : Weekly.AllDigits [a, b]) (h : Text.number [a, b] = 0) :
    [a, b] = ['0', '0'] := by
  have ha := toNat_of_digit (hdigits a (by simp))
  have hb := toNat_of_digit (hdigits b (by simp))
  rw [number_two] at h
  have hfirst : a = '0' := eq_of_toNat (by change a.toNat = 48; omega)
  have hsecond : b = '0' := eq_of_toNat (by change b.toNat = 48; omega)
  rw [hfirst, hsecond]

theorem reads_extended_of_hour (h : Weekly.IsHour t) (hmax : Text.number t ≤ 47)
    (hend : CharClass.digit.Misses (u ++ rest))
    (hminutes : (maybe (word ":" >> minute)).Reads u [] rest) :
    extendedHourMinutes.Reads (t ++ u) [] rest := by
  have hnumber : numberEnd.Reads [] [] (u ++ rest) := reads_no (refuses_char hend)
  refine Reads.choice_right ?_ (reads_then (reads_hour h hmax hend) (reads_then hnumber hminutes))
  rw [List.append_assoc]
  exact refuses_then (refuses_fortyEight h hmax hend)

theorem reads_extended_of_fortyEight (hend : CharClass.digit.Misses (u ++ rest))
    (hminutes : (maybe (word ":00")).Reads u [] rest) :
    extendedHourMinutes.Reads ("48".toList ++ u) [] rest := by
  have hnumber : numberEnd.Reads [] [] (u ++ rest) := reads_no (refuses_char hend)
  exact (reads_then (reads_word "48" (u ++ rest)) (reads_then hnumber hminutes)).choice_left

/-- The clock times of the weekly language are extended hours. -/
theorem reads_clockText (h : ClockText t m) (hrest : Weekly.ClockEnds rest) :
    time.Reads t [] rest := by
  refine Reads.choice_left ?_
  cases h with
  | hour h hmax =>
    have hfull : Text.number t ≤ 48 := by
      simp only [Reading.lastMinute, minutesPerDay] at hmax
      omega
    -- The hour 48 has an alternative of its own, which comes first and has no minutes but 00.
    rw [← List.append_nil t]
    by_cases h48 : Text.number t = 48
    · rw [eq_fortyEight h h48]
      exact reads_extended_of_fortyEight hrest.1
        (reads_maybe_none ((Peg.refuses_word hrest.2).map _))
    · exact reads_extended_of_hour h (by omega) hrest.1
        (reads_maybe_none (refuses_colon_then hrest.2))
  | @minutes t a b h hdigits hminute hmax =>
    have hcolon : CharClass.digit.Misses ([':', a, b] ++ rest) :=
      CharClass.misses_cons.mpr (by decide)
    simp only [Reading.lastMinute, minutesPerDay] at hmax
    by_cases h48 : Text.number t = 48
    · obtain rfl := eq_fortyEight h h48
      rw [eq_zeros hdigits (by omega)] at hcolon ⊢
      exact reads_extended_of_fortyEight hcolon (reads_maybe (reads_word ":00" rest))
    · refine reads_extended_of_hour h (by omega) hcolon (reads_maybe ?_)
      exact reads_then (reads_word ":" ([a, b] ++ rest)) (reads_minutes hdigits hminute)

theorem clockText_begins (h : ClockText t m) : Begins (CharClass.digit.has · = true) t :=
  Weekly.clock_begins ⟨rfl, (clockText_iff.mp h).1⟩

theorem span_begins (h : span.Written t) : Begins (CharClass.digit.has · = true) t :=
  Spanned.begins h clockText_begins

theorem hourFirst_of_clock (h : ClockText t m) (hs : CharClass.digit.Misses s) :
    HourFirst (t ++ s) := by
  cases h with
  | hour h => exact ⟨t, s, rfl, h, hs⟩
  | minutes h => exact ⟨_, _, List.append_assoc .., h, CharClass.misses_cons.mpr (by decide)⟩

theorem hourFirst_of_span (h : span.Written t) : HourFirst (t ++ s) := by
  obtain ⟨start, stop⟩ := span
  cases h with
  | pair h hg _ =>
    rw [List.append_assoc, List.append_assoc]
    exact hourFirst_of_clock h (hg.misses (by decide) fun _ => CharClass.digit_of_blank)

theorem hourFirst_of_spans (h : Listed ',' Span.Written t spans) : HourFirst (t ++ s) := by
  cases h with
  | one h => exact hourFirst_of_span h
  | cons h _ _ =>
    rw [List.append_assoc]
    exact hourFirst_of_span h

/-- What follows a span of times: a comma, or what ends a rule. -/
abbrev TimeEnds : List Char → Prop := Next fun x => x = ',' ∨ x = ';'

theorem clockEnds_of_timeEnds (h : TimeEnds rest) : Weekly.ClockEnds rest := by
  refine ⟨h.misses (fun _ => CharClass.digit_of_blank) (by rintro x (rfl | rfl) <;> decide), ?_⟩
  intro hcolon
  rcases h.head ':' hcolon with hblank | hsame | hsame
  · exact absurd hblank (by decide)
  · exact absurd hsame (by decide)
  · exact absurd hsame (by decide)

theorem reads_timespan (h : span.Written t) (hrest : TimeEnds rest) :
    timespan.Reads t [] rest := by
  obtain ⟨start, stop⟩ := span
  cases h with
  | @pair t _ g u _ hstart hg hstop =>
    have hopen : openEnd.Refuses (g ++ u ++ rest) := by
      have hnext : Next (· = '-') (g ++ u ++ rest) := by
        rw [List.append_assoc]
        exact (Next.sign hg (by decide)).mpr rfl
      exact refuses_of_next (by decide) (by decide) hnext (by rintro x rfl; decide)
    have hlast : (time >> maybe openEnd >> maybe (ws >> word "/" >> ws >> period)).Reads u []
        rest := by
      have hnone : (maybe openEnd).Reads [] [] ([] ++ rest) := reads_maybe_none
        (refuses_of_next (by decide) (by decide) hrest (by rintro x (rfl | rfl) <;> decide))
      have hslash : (maybe (ws >> word "/" >> ws >> period)).Reads [] [] rest := reads_maybe_none
        (refuses_ws_then (by decide) hrest (by rintro x (rfl | rfl) <;> decide))
      rw [← List.append_nil u]
      exact reads_then (reads_clockText hstop (clockEnds_of_timeEnds hrest))
        (reads_then hnone hslash)
    have hmore := reads_hyphen_then hg (Weekly.starts_of_digit (clockText_begins hstop)) hlast
    refine reads_then (reads_clockText hstart ?_) (reads_maybe (hmore.choice_right hopen))
    rw [List.append_assoc]
    exact Weekly.clockEnds_mark hg (by decide) (by decide)

theorem reads_timeSelector (h : Listed ',' Span.Written t spans) (hrest : Weekly.RuleEnds rest) :
    timeSelector.Reads t [] rest := by
  refine reads_listOf (by decide) reads_timespan
    (fun h => Weekly.starts_of_digit (span_begins h)) ?_ h (hrest.imp fun _ => .inr)
    (hrest.imp (by rintro x rfl; decide))
  exact fun hg => (Next.sign hg (by decide)).mpr (.inl rfl)

end Times

/-! ### Rules -/

section Rules

variable {items : List DayItem} {spans : List Span} {hours : Hours} {subj : Subject}
  {m : Option Modifier}

/-- Days, perhaps with times. -/
theorem reads_subject_of_days {times : Option (List Construct)} (hname : NameFirst (t ++ u ++ rest))
    (hdays : weekdaySelector.Reads t [] (u ++ rest))
    (htimes : (option (spaced timeSelector)).Reads u times rest) (hnone : times.getD [] = []) :
    subject.Reads (t ++ u) (.selected times.isSome, []) rest := by
  have halways : (literal "24/7".toList).Refuses (t ++ u ++ rest) :=
    hname.refuses (by decide) (by decide)
  have hsmall : smallSelectors.Reads (t ++ u) (times.isSome, [] ++ times.getD []) rest :=
    ((hdays.seq htimes).map _).choice_left
  rw [hnone] at hsmall
  have hselectors : selectors.Reads (t ++ u) (times.isSome, []) rest :=
    hsmall.choice_right (hname.refuses_wideSelectors.seq.map _)
  exact Reads.choice_right (halways.map _) (hselectors.map _)

theorem spans_begin (h : Listed ',' Span.Written t spans) :
    Begins (CharClass.digit.has · = true) t := h.begins span_begins

theorem reads_subject_of_spans (h : Listed ',' Span.Written t spans)
    (hrest : Weekly.RuleEnds rest) : subject.Reads t (.selected true, []) rest := by
  obtain ⟨clocks, -, hclocks⟩ := clocks_spelled h
  have halways := Weekly.refuses_always_of_clocks hclocks hrest
  have hhour : HourFirst (t ++ rest) := hourFirst_of_spans h
  have hdays : weekdaySelector.Refuses (t ++ rest) :=
    refuses_of_digit (spans_begin h) (by decide) (by decide)
  have hsmall : smallSelectors.Reads t (true, []) rest :=
    ((reads_timeSelector h hrest).map _).choice_right (hdays.seq.map _)
  have hselectors : selectors.Reads t (true, []) rest :=
    hsmall.choice_right (hhour.refuses_wideSelectors.seq.map _)
  exact Reads.choice_right (halways.map _) (hselectors.map _)

/-- What can follow a rule, or the part of it that is read. -/
abbrev RuleStops : List Char → Prop := Next fun x => x = ';' ∨ x = ',' ∨ x = '-'

theorem reads_no_comment (hrest : RuleStops rest) : (maybe (ws >> comment)).Reads [] [] rest :=
  reads_maybe_none (refuses_ws_then (by decide) hrest (by rintro x (rfl | rfl | rfl) <;> decide))

theorem reads_no_modifier (hrest : RuleStops rest) :
    (option (spaced Weekly.modifier)).Reads [] none rest :=
  reads_option_none (refuses_spaced (by decide) hrest (by rintro x (rfl | rfl | rfl) <;> decide))

theorem reads_no_times (hrest : RuleStops rest) :
    (option (spaced timeSelector)).Reads [] none rest :=
  reads_option_none (refuses_spaced (by decide) hrest (by rintro x (rfl | rfl | rfl) <;> decide))

theorem reads_rule_of_subject (hsubject : subject.Reads t (subj, []) (u ++ rest))
    (hmodifier : (option (spaced Weekly.modifier)).Reads u m rest) (hrest : RuleStops rest) :
    Language.rule.Reads (t ++ u) ⟨t ++ u, subj, m, modifierConstructs m⟩ rest := by
  have hmore : (seq (option (spaced Weekly.modifier)) (maybe (ws >> comment))).Reads u (m, [])
      rest := by
    rw [← List.append_nil u]
    exact Reads.seq hmodifier (reads_no_comment hrest)
  have hform : ruleForm.Reads (t ++ u) (subj, m, [] ++ modifierConstructs m ++ []) rest :=
    ((hsubject.seq hmore).map _).choice_left
  rw [List.nil_append, List.append_nil] at hform
  exact hform.matched.map _

/-- Hours are a known word or spans. -/
theorem hours_cases (h : Hours.Written t hours) :
    (∃ m, Weekly.WordSpelled t m ∧ modifierConstructs (some m) = []) ∨
    ∃ spans, Listed ',' Span.Written t spans := by
  cases h with
  | opened => exact .inl ⟨_, .opened, rfl⟩
  | closed => exact .inl ⟨_, .closed, rfl⟩
  | off => exact .inl ⟨_, .off, rfl⟩
  | spans h => exact .inr ⟨_, h⟩

theorem word_begins {m : Modifier} (h : Weekly.WordSpelled t m) :
    Begins (fun x => x = 'o' ∨ x = 'c' ∨ x = 'u') t := by
  cases h with
  | opened => exact ⟨_, _, rfl, .inl rfl⟩
  | closed => exact ⟨_, _, rfl, .inr (.inl rfl)⟩
  | off => exact ⟨_, _, rfl, .inl rfl⟩
  | unknown => exact ⟨_, _, rfl, .inr (.inr rfl)⟩

theorem refuses_subject_of_word {m : Modifier} (h : Weekly.WordSpelled t m) :
    subject.Refuses (t ++ s) := by
  obtain ⟨x, v, rfl, hx⟩ := word_begins h
  refine refuses_of_head (by decide) ?_
  rintro _ ⟨⟩
  rcases hx with rfl | rfl | rfl <;> decide

theorem ruleStops (h : Weekly.RuleEnds rest) : RuleStops rest := h.imp fun _ => .inl

theorem dayEnds (h : Weekly.RuleEnds rest) : DayEnds rest :=
  ⟨Weekly.letter_misses h, h.imp (by rintro x rfl; decide)⟩

/-- The rule reads the text and has nothing in it that a weekly schedule has no place for. -/
def ReadsPlainly (t rest : List Char) : Prop :=
  ∃ rule : Language.Rule, rule.constructs = [] ∧ Language.rule.Reads t rule rest

/-- The rule reads the text and finds just these constructs in it. -/
def ReadsFinding (found : List Construct) (t rest : List Char) : Prop :=
  ∃ rule : Language.Rule, rule.constructs = found ∧ Language.rule.Reads t rule rest

theorem readsPlainly_of_subject (h : subject.Reads t (subj, []) rest) (hrest : RuleStops rest) :
    ReadsPlainly t rest := by
  have hread := reads_rule_of_subject h (u := []) (reads_no_modifier hrest) hrest
  rw [List.append_nil] at hread
  exact ⟨_, rfl, hread⟩

theorem reads_always (rest : List Char) : subject.Reads "24/7".toList (.always, []) rest := by
  have hword : (literal "24/7".toList).Reads "24/7".toList () rest := reads_literal _ _
  have hmap := hword.map fun _ => (Subject.always, ([] : List Construct))
  exact hmap.choice_left

theorem reads_subject_of_days_alone (hname : NameFirst (t ++ rest))
    (hdays : weekdaySelector.Reads t [] rest)
    (htimes : (option (spaced timeSelector)).Reads [] none rest) :
    subject.Reads t (.selected false, []) rest := by
  rw [← List.append_nil t] at hname
  have hread := reads_subject_of_days hname hdays htimes rfl
  rwa [List.append_nil] at hread

theorem readsFinding_of_word {m : Modifier} (hword : Weekly.WordSpelled t m)
    (hrest : Weekly.RuleEnds rest) : ReadsFinding (modifierConstructs (some m)) t rest := by
  have hmodifier : Weekly.modifier.Reads t m ([] ++ rest) :=
    Weekly.reads_modifier_iff.mpr ⟨hword, Weekly.letter_misses hrest⟩
  have hmore : (seq Weekly.modifier (maybe (ws >> comment))).Reads t (m, []) rest := by
    rw [← List.append_nil t]
    exact hmodifier.seq (reads_no_comment (ruleStops hrest))
  have hform : ruleForm.Reads t (.unstated, some m, modifierConstructs (some m) ++ []) rest := by
    refine Reads.choice_right ((refuses_subject_of_word hword).seq.map _) ?_
    exact (hmore.map _).choice_left
  rw [List.append_nil] at hform
  exact ⟨_, rfl, hform.matched.map _⟩

theorem letter_of_word {m : Modifier} (h : Weekly.WordSpelled t m) :
    ¬CharClass.letter.Misses (t ++ rest) := by
  obtain ⟨x, v, rfl, hx⟩ := Weekly.modifier_begins h
  intro hmisses
  have hletter := CharClass.misses_cons.mp hmisses
  rw [CharClass.letter_of_lower hx] at hletter
  cases hletter

/-- After days come hours: neither more days nor anything that changes the days. -/
theorem dayEnds_of_body {body : Weekly.Body} (hg : AllBlank g) (hgap : body.IsWord → g ≠ [])
    (h : body.Spelled u) : DayEnds (g ++ u ++ rest) ∧ Next (· ≠ ',') (g ++ u ++ rest) ∧
      CharClass.blank.Misses (u ++ rest) := by
  obtain ⟨hletter, hnext⟩ := Weekly.days_end (s := rest) hg hgap h
  have hne : ∀ c, CharClass.lower.has c = false → CharClass.digit.has c = false → ∀ x,
      CharClass.lower.has x = true ∨ CharClass.digit.has x = true → x ≠ c := by
    rintro c hlower hdigit x hx rfl
    rw [hlower, hdigit] at hx
    rcases hx with hx | hx <;> cases hx
  refine ⟨⟨hletter, hnext.imp fun x hx => ⟨?_, ?_, ?_⟩⟩, hnext.imp ?_,
    (Weekly.starts_of_body h).misses rest⟩
  · exact hne '-' (by decide) (by decide) x hx
  · exact hne '[' (by decide) (by decide) x hx
  · exact hne '+' (by decide) (by decide) x hx
  · exact hne ',' (by decide) (by decide)

theorem readsFinding_of_days_word {m : Modifier} (h : Listed ',' DayItem.Written t items)
    (hg : AllBlank g) (hgap : g ≠ []) (hword : Weekly.WordSpelled u m)
    (hrest : Weekly.RuleEnds rest) :
    ReadsFinding (modifierConstructs (some m)) (t ++ (g ++ u)) rest := by
  obtain ⟨hends, hcomma, hblank⟩ : DayEnds (g ++ u ++ rest) ∧ Next (· ≠ ',') (g ++ u ++ rest) ∧
      CharClass.blank.Misses (u ++ rest) := dayEnds_of_body hg (fun _ => hgap) (.modifier hword)
  have hmodifier : (option (spaced Weekly.modifier)).Reads (g ++ u) (some m) rest :=
    (Reads.spaced hg hblank
      (Weekly.reads_modifier_iff.mpr ⟨hword, Weekly.letter_misses hrest⟩)).option
  have htimes : (option (spaced timeSelector)).Reads [] none (g ++ u ++ rest) := by
    have hnext : Next (fun x => x = 'o' ∨ x = 'c' ∨ x = 'u') (g ++ u ++ rest) := by
      rw [List.append_assoc, Next.append hg]
      exact Next.of_begins (word_begins hword) (by rintro x (rfl | rfl | rfl) <;> decide)
    exact reads_option_none
      (refuses_spaced (by decide) hnext (by rintro x (rfl | rfl | rfl) <;> decide))
  have hsubject := reads_subject_of_days_alone (nameFirst_of_days (days_spelled h) hends.1)
    (reads_weekdaySelector h hends hcomma) htimes
  exact ⟨_, rfl, reads_rule_of_subject hsubject hmodifier (ruleStops hrest)⟩

theorem readsPlainly_of_days {hours : Hours} (h : Listed ',' DayItem.Written t items)
    (hg : AllBlank g) (hgap : g = [] → ∃ written, hours = .spans written)
    (h' : Hours.Written u hours) (hrest : Weekly.RuleEnds rest) :
    ReadsPlainly (t ++ (g ++ u)) rest := by
  obtain ⟨body, hsays, hbody⟩ := hours_spelled h'
  have hgap : body.IsWord → g ≠ [] := fun hword hnil => (isWord_iff hsays).mp hword (hgap hnil)
  obtain ⟨hends, hcomma, hblank⟩ : DayEnds (g ++ u ++ rest) ∧ Next (· ≠ ',') (g ++ u ++ rest) ∧
      CharClass.blank.Misses (u ++ rest) := dayEnds_of_body hg hgap hbody
  rcases hours_cases h' with ⟨m, hword, hknown⟩ | ⟨spans, hspans⟩
  · have hgap : g ≠ [] := by
      rintro rfl
      exact letter_of_word hword hends.1
    obtain ⟨rule, hfound, hrule⟩ := readsFinding_of_days_word h hg hgap hword hrest
    exact ⟨rule, hfound.trans hknown, hrule⟩
  · have htimes : (option (spaced timeSelector)).Reads (g ++ u) (some []) rest :=
      (Reads.spaced hg hblank (reads_timeSelector hspans hrest)).option
    have hname := nameFirst_of_days (days_spelled h) hends.1
    rw [← List.append_assoc] at hname
    exact readsPlainly_of_subject (reads_subject_of_days hname
      (reads_weekdaySelector h hends hcomma) htimes rfl) (ruleStops hrest)

/-- A rule of the weekly language is one of the wider language, without constructs. -/
theorem reads_rule {items : Option (List DayItem)} {hours : Option Hours}
    (h : RuleText t items hours) (hrest : Weekly.RuleEnds rest) : ReadsPlainly t rest := by
  have hstops := ruleStops hrest
  cases h with
  | always => exact readsPlainly_of_subject (reads_always rest) hstops
  | days h =>
    have hcomma : Next (· ≠ ',') rest := hrest.imp (by rintro x rfl; decide)
    have hname := nameFirst_of_days (days_spelled h) (dayEnds hrest).1
    have hdays := reads_weekdaySelector h (dayEnds hrest) hcomma
    exact readsPlainly_of_subject
      (reads_subject_of_days_alone hname hdays (reads_no_times hstops)) hstops
  | hours h =>
    rcases hours_cases h with ⟨m, hword, hknown⟩ | ⟨spans, hspans⟩
    · obtain ⟨rule, hfound, hrule⟩ := readsFinding_of_word hword hrest
      exact ⟨rule, hfound.trans hknown, hrule⟩
    · exact readsPlainly_of_subject (reads_subject_of_spans hspans hrest) hstops
  | both h hg hgap h' => exact readsPlainly_of_days h hg hgap h' hrest

end Rules

end Language

end OpeningHours
