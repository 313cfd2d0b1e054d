import OpeningHours.Proofs.Acceptance
import OpeningHours.Proofs.JoinedTexts

/-! Runs of blanks. Where blanks stand, it does not matter how many there are nor which: two texts
that are the same once every run of blanks is squeezed to one space are read alike. Neither grammar
can stop within a run of blanks, and no token has a blank in it. -/

namespace OpeningHours

open Peg

/-- The text with one space in place of every run of blanks. -/
def squeeze : List Char → List Char
  | [] => []
  | x :: s =>
    if CharClass.blank.has x then
      if s.head?.any CharClass.blank.has then squeeze s else ' ' :: squeeze s
    else x :: squeeze s

/-- The texts differ in their runs of blanks only. -/
def Reblanked (s t : List Char) : Prop := squeeze s = squeeze t

variable {s t u g rest : List Char} {x mark : Char} {c : CharClass}

section Squeeze

theorem squeeze_cons (hx : CharClass.blank.has x = false) : squeeze (x :: s) = x :: squeeze s := by
  simp [squeeze, hx]

theorem squeeze_blanks (hg : AllBlank g) (hsome : g ≠ []) (hs : CharClass.blank.Misses s) :
    squeeze (g ++ s) = ' ' :: squeeze s := by
  induction g with
  | nil => exact absurd rfl hsome
  | cons x g ih =>
    obtain ⟨hx, hmore⟩ := List.forall_mem_cons.mp hg
    cases g with
    | nil =>
      have hhead : s.head?.any CharClass.blank.has = false := by
        cases s with
        | nil => rfl
        | cons y s => simpa using CharClass.misses_cons.mp hs
      simp [squeeze, hx, hhead]
    | cons y g =>
      have hy : CharClass.blank.has y = true := hmore y (by simp)
      rw [← ih hmore (by simp)]
      simp [squeeze, hx, hy]

theorem misses_dropWhile (c : CharClass) (s : List Char) : c.Misses (s.dropWhile c.has) :=
  fun x hx => by
    have h := List.head?_dropWhile_not c.has s
    rwa [Option.mem_def.mp hx] at h

/-- A text starts with a run of blanks, or with another character, or it is empty. -/
theorem squeeze_eq (s : List Char) : squeeze s =
    (if s.takeWhile CharClass.blank.has = [] then [] else [' ']) ++
      squeeze (s.dropWhile CharClass.blank.has) := by
  have htext := List.takeWhile_append_dropWhile (p := CharClass.blank.has) (l := s)
  split
  · rename_i hnone
    rw [hnone, List.nil_append] at htext
    rw [htext, List.nil_append]
  · rename_i hsome
    conv_lhs => rw [← htext]
    exact squeeze_blanks (allBlank_takeWhile s) hsome (misses_dropWhile .blank s)

end Squeeze

namespace Reblanked

theorem symm (h : Reblanked s t) : Reblanked t s := Eq.symm h

/-- The runs in front are both there or both not, and the rests of the texts differ in their runs of
blanks only. -/
theorem dropBlanks (h : Reblanked s t) :
    (s.takeWhile CharClass.blank.has = [] ↔ t.takeWhile CharClass.blank.has = []) ∧
      Reblanked (s.dropWhile CharClass.blank.has) (t.dropWhile CharClass.blank.has) := by
  have hhead : ∀ u : List Char, (squeeze (u.dropWhile CharClass.blank.has)).head? ≠ some ' ' := by
    intro u
    have hmisses := misses_dropWhile .blank u
    cases hu : u.dropWhile CharClass.blank.has with
    | nil => simp [squeeze]
    | cons y v =>
      rw [hu, CharClass.misses_cons] at hmisses
      rw [squeeze_cons hmisses, List.head?_cons, ne_eq, Option.some.injEq]
      rintro rfl
      cases hmisses
  rw [Reblanked, squeeze_eq s, squeeze_eq t] at h
  by_cases hs : s.takeWhile CharClass.blank.has = []
  · by_cases ht : t.takeWhile CharClass.blank.has = []
    · rw [if_pos hs, if_pos ht] at h
      exact ⟨iff_of_true hs ht, h⟩
    · rw [if_pos hs, if_neg ht] at h
      exact absurd (congrArg List.head? h) (hhead s)
  · by_cases ht : t.takeWhile CharClass.blank.has = []
    · rw [if_neg hs, if_pos ht] at h
      exact absurd (congrArg List.head? h.symm) (hhead t)
    · rw [if_neg hs, if_neg ht] at h
      exact ⟨iff_of_false hs ht, (List.cons.inj h).2⟩

theorem exists_cons (hx : CharClass.blank.has x = false) (h : Reblanked (x :: s) t) :
    ∃ u, t = x :: u ∧ Reblanked s u := by
  obtain ⟨hrun, hrest⟩ := h.dropBlanks
  have htext := List.takeWhile_append_dropWhile (p := CharClass.blank.has) (l := t)
  rw [hrun.mp (by simp [hx]), List.nil_append] at htext
  rw [htext, List.dropWhile_cons_of_neg (by simp [hx]), Reblanked, squeeze_cons hx] at hrest
  cases t with
  | nil => cases hrest
  | cons y u =>
    have hy : CharClass.blank.has y = false := by
      have hmisses := misses_dropWhile .blank (y :: u)
      rwa [htext, CharClass.misses_cons] at hmisses
    rw [squeeze_cons hy] at hrest
    obtain ⟨rfl, hsame⟩ := List.cons.inj hrest
    exact ⟨u, rfl, hsame⟩

theorem eq_nil (h : Reblanked [] t) : t = [] := by
  cases t with
  | nil => rfl
  | cons x t =>
    cases hx : CharClass.blank.has x with
    | true =>
      have hnone := h.dropBlanks.1.mp rfl
      simp [hx] at hnone
    | false =>
      obtain ⟨u, hu, -⟩ := exists_cons hx h.symm
      cases hu

theorem allBlank (h : Reblanked s t) (hs : AllBlank s) : AllBlank t := by
  have hrest := h.dropBlanks.2
  rw [← List.append_nil s, List.dropWhile_append_of_pos hs, List.dropWhile_nil] at hrest
  rw [← List.takeWhile_append_dropWhile (p := CharClass.blank.has) (l := t), hrest.eq_nil,
    List.append_nil]
  exact allBlank_takeWhile t

/-- A word without blanks is the same in both texts. -/
theorem exists_append (hu : ∀ x ∈ u, CharClass.blank.has x = false) (h : Reblanked (u ++ s) t) :
    ∃ v, t = u ++ v ∧ Reblanked s v := by
  induction u generalizing t with
  | nil => exact ⟨t, rfl, h⟩
  | cons x u ih =>
    obtain ⟨hx, hmore⟩ := List.forall_mem_cons.mp hu
    obtain ⟨v, rfl, hv⟩ := exists_cons hx h
    obtain ⟨w, rfl, hw⟩ := ih hmore hv
    exact ⟨w, rfl, hw⟩

/-- A run of blanks is another one in the second text. -/
theorem exists_blanks (hg : AllBlank g) (hs : CharClass.blank.Misses s)
    (h : Reblanked (g ++ s) t) : ∃ g' v, t = g' ++ v ∧ AllBlank g' ∧ (g' = [] → g = []) ∧
      CharClass.blank.Misses v ∧ Reblanked s v := by
  obtain ⟨hrun, hrest⟩ := h.dropBlanks
  rw [List.takeWhile_append_of_pos hg, CharClass.takeWhile_of_misses hs, List.append_nil] at hrun
  rw [List.dropWhile_append_of_pos hg, CharClass.dropWhile_of_misses hs] at hrest
  exact ⟨_, _, List.takeWhile_append_dropWhile.symm, allBlank_takeWhile t, hrun.mpr,
    misses_dropWhile .blank t, hrest⟩

/-- A mark with blanks around it, all of them up to what follows. -/
theorem exists_mark (hg : IsMark mark g) (hmark : CharClass.blank.has mark = false)
    (hs : CharClass.blank.Misses s) (h : Reblanked (g ++ s) t) :
    ∃ g' v, t = g' ++ v ∧ IsMark mark g' ∧ Reblanked s v := by
  obtain ⟨front, back, hfront, hback, rfl⟩ := hg
  rw [List.append_assoc] at h
  obtain ⟨front', v, rfl, hfront', -, -, hv⟩ := exists_blanks hfront (by simp [hmark]) h
  obtain ⟨w, rfl, hw⟩ := exists_cons hmark hv
  obtain ⟨back', y, rfl, hback', -, -, hy⟩ := exists_blanks hback hs hw
  exact ⟨front' ++ mark :: back', y, by simp, ⟨front', back', hfront', hback', rfl⟩, hy⟩

end Reblanked

/-! ### The wider language -/

/-- The class has all blanks or none of them. -/
def CharClass.isEven (c : CharClass) : Bool :=
  c.has '\t' == c.has ' ' && c.has '\r' == c.has ' ' && c.has '\n' == c.has ' '

theorem CharClass.has_of_blank (hc : c.isEven = true) (hx : blank.has x = true) :
    c.has x = c.has ' ' := by
  simp only [isEven, Bool.and_eq_true, beq_iff_eq] at hc
  obtain ⟨⟨htab, hreturn⟩, hnewline⟩ := hc
  rcases eq_of_blank hx with rfl | rfl | rfl | rfl
  · rfl
  · exact htab
  · exact hreturn
  · exact hnewline

/-- Whether no expression of one character and no word has a blank in it, and whether runs of
characters have all blanks or none. -/
def Peg.evenOnBlanks (p : Peg α) : Bool :=
  p.testsLeaves (fun word => word.all fun x => !CharClass.blank.has x)
    (fun c => c.isEven && !c.has ' ') CharClass.isEven

namespace Reblanked

theorem respects_literal {word : List Char}
    (hword : (word.all fun x => !CharClass.blank.has x) = true) :
    (literal word).Respects Reblanked := by
  have hsolid : ∀ x ∈ word, CharClass.blank.has x = false := by
    intro x hx
    simpa using List.all_eq_true.mp hword x hx
  apply Respects.intro
  · intro s t h hs
    rw [refuses_literal_iff] at *
    rintro ⟨rest, rfl⟩
    obtain ⟨v, rfl, -⟩ := exists_append hsolid h.symm
    exact hs (List.prefix_append word v)
  · intro s t rest h hs
    obtain rfl := leaves_literal_iff.mp hs
    obtain ⟨v, rfl, hv⟩ := exists_append hsolid h
    exact ⟨v, leaves_literal_iff.mpr rfl, hv⟩

theorem blank_of_has (hc : (c.isEven && !c.has ' ') = true) (hx : c.has x = true) :
    CharClass.blank.has x = false := by
  obtain ⟨heven, hspace⟩ := Bool.and_eq_true_iff.mp hc
  cases hblank : CharClass.blank.has x with
  | false => rfl
  | true =>
    rw [CharClass.has_of_blank heven hblank] at hx
    simp [hx] at hspace

theorem respects_char (hc : (c.isEven && !c.has ' ') = true) : (char c).Respects Reblanked := by
  apply Respects.intro
  · intro s t h hs
    rw [refuses_char_iff] at *
    cases t with
    | nil => exact CharClass.misses_nil
    | cons x t =>
      rw [CharClass.misses_cons]
      cases hx : c.has x with
      | false => rfl
      | true =>
        obtain ⟨u, rfl, -⟩ := exists_cons (blank_of_has hc hx) h.symm
        exact hx.symm.trans (CharClass.misses_cons.mp hs)
  · intro s t rest h hs
    obtain ⟨x, rfl, hx⟩ := leaves_char_iff.mp hs
    obtain ⟨u, rfl, hu⟩ := exists_cons (blank_of_has hc hx) h
    exact ⟨u, leaves_char_iff.mpr ⟨x, rfl, hx⟩, hu⟩

/-- A class with the blanks in it takes the blanks in front first. -/
theorem dropWhile_dropBlanks (hc : c.isEven = true) (hspace : c.has ' ' = true) (s : List Char) :
    (s.dropWhile CharClass.blank.has).dropWhile c.has = s.dropWhile c.has := by
  have hall : ∀ x ∈ s.takeWhile CharClass.blank.has, c.has x = true := fun x hx =>
    (CharClass.has_of_blank hc (allBlank_takeWhile s x hx)).trans hspace
  conv_rhs => rw [← List.takeWhile_append_dropWhile (p := CharClass.blank.has) (l := s)]
  rw [List.dropWhile_append_of_pos hall]

/-- A run of characters of a class stops at the same place in both texts. The induction is on the
length of the first text, of which a whole run of blanks is taken at once. -/
theorem dropWhile (hc : c.isEven = true) (h : Reblanked s t) :
    Reblanked (s.dropWhile c.has) (t.dropWhile c.has) := by
  induction hlength : s.length using Nat.strongRecOn generalizing s t with
  | ind n ih =>
    cases s with
    | nil =>
      obtain rfl := eq_nil h
      exact h
    | cons x s =>
      cases hx : CharClass.blank.has x with
      | false =>
        obtain ⟨u, rfl, hu⟩ := exists_cons hx h
        rw [List.dropWhile_cons, List.dropWhile_cons]
        split
        · exact ih s.length (by simp [← hlength]) hu rfl
        · exact h
      | true =>
        cases hspace : c.has ' ' with
        | true =>
          rw [← dropWhile_dropBlanks hc hspace, ← dropWhile_dropBlanks hc hspace t]
          refine ih _ ?_ h.dropBlanks.2 rfl
          rw [List.dropWhile_cons_of_pos hx, ← hlength]
          exact Nat.lt_succ_of_le (List.dropWhile_sublist _).length_le
        | false =>
          have hstop : ∀ u : List Char, u.takeWhile CharClass.blank.has ≠ [] → c.Misses u := by
            intro u hu
            cases u with
            | nil => exact CharClass.misses_nil
            | cons y u =>
              rw [CharClass.misses_cons]
              cases hy : CharClass.blank.has y with
              | true => rw [CharClass.has_of_blank hc hy, hspace]
              | false => simp [hy] at hu
          have hs : (x :: s).takeWhile CharClass.blank.has ≠ [] := by simp [hx]
          have ht : t.takeWhile CharClass.blank.has ≠ [] := mt h.dropBlanks.1.mpr hs
          rwa [CharClass.dropWhile_of_misses (hstop _ hs),
            CharClass.dropWhile_of_misses (hstop _ ht)]

theorem respects_chars (hc : c.isEven = true) : (chars c).Respects Reblanked := by
  apply Respects.intro
  · intro s t _ hs
    exact absurd hs not_refuses_chars
  · intro s t rest h hs
    obtain rfl := leaves_chars_iff.mp hs
    exact ⟨_, leaves_chars_iff.mpr rfl, h.dropWhile hc⟩

theorem respects {p : Peg α} (h : p.evenOnBlanks = true) : p.Respects Reblanked :=
  respects_of_leaves (fun _ => respects_literal) (fun _ => respects_char)
    (fun _ => respects_chars) h

end Reblanked

theorem isWellFormed_of_reblanked {a b : String} (h : Reblanked a.toList b.toList)
    (ha : isWellFormed a = true) : isWellFormed b = true := by
  have hrules : Language.rules.Respects Reblanked := Reblanked.respects (by decide)
  obtain ⟨back, hback, hblank⟩ := isWellFormed_iff.mp ha
  obtain ⟨back', hback', hrest⟩ := hrules.leaves h.dropBlanks.2 hback
  have hnil := hrest.dropBlanks.2
  rw [hblank] at hnil
  exact isWellFormed_iff.mpr ⟨back', hback', hnil.eq_nil⟩

/-! ### Weekly schedules -/

/-- An item is found in the second text too, at its place and with a related value. -/
def Kept (R : α → α → Prop) (item : List Char → α → Prop) : Prop :=
  ∀ ⦃t a rest s⦄, item t a → Reblanked (t ++ rest) s →
    ∃ u b rest', s = u ++ rest' ∧ item u b ∧ R a b ∧ Reblanked rest rest'

/-- The values are read alike, unless they are refused. -/
def ReadAlike (read : α → Except ε β) (a b : α) : Prop := ∀ c, read a = .ok c ↔ read b = .ok c

theorem ReadAlike.forall₂_iff {read : α → Except ε β} {as bs : List α} {cs : List β}
    (h : List.Forall₂ (ReadAlike read) as bs) :
    List.Forall₂ (fun a c => read a = .ok c) as cs ↔
      List.Forall₂ (fun b c => read b = .ok c) bs cs := by
  induction h generalizing cs with
  | nil => simp
  | cons hread _ ih => simp only [List.forall₂_cons_left_iff, hread _, ih]

namespace Kept

variable {R : α → α → Prop} {token item : List Char → α → Prop}

theorem of_solid (h : ∀ {t a}, token t a → ∀ x ∈ t, CharClass.blank.has x = false) :
    Kept Eq token := by
  intro t a rest s htoken hs
  obtain ⟨v, rfl, hv⟩ := hs.exists_append (h htoken)
  exact ⟨t, a, v, rfl, htoken, rfl, hv⟩

theorem spanned (h : Kept Eq token) (hstarts : ∀ {t a}, token t a → Starts t) :
    Kept Eq (Spanned token) := by
  intro t pair rest s hpair hs
  cases hpair with
  | one hfirst =>
    obtain ⟨u, _, v, rfl, hu, rfl, hv⟩ := h hfirst hs
    exact ⟨u, _, v, rfl, .one hu, rfl, hv⟩
  | @pair t a g w b hfirst hg hlast =>
    simp only [List.append_assoc] at hs
    obtain ⟨u, _, v, rfl, hu, rfl, hv⟩ := h hfirst hs
    obtain ⟨g', v, rfl, hg', hv⟩ := hv.exists_mark hg (by decide) ((hstarts hlast).misses rest)
    obtain ⟨w', _, v, rfl, hw', rfl, hv⟩ := h hlast hv
    exact ⟨u ++ (g' ++ w'), _, v, by simp, .pair hu hg' hw', rfl, hv⟩

theorem listed (h : Kept R item) (hmark : CharClass.blank.has mark = false)
    (hstarts : ∀ {t a}, item t a → Starts t) : Kept (List.Forall₂ R) (Listed mark item) := by
  intro t as rest s hlist hs
  induction hlist generalizing s with
  | one hitem =>
    obtain ⟨u, b, v, rfl, hu, hb, hv⟩ := h hitem hs
    exact ⟨u, [b], v, rfl, .one hu, .cons hb .nil, hv⟩
  | cons hitem hg hmore ih =>
    simp only [List.append_assoc] at hs
    obtain ⟨u, b, v, rfl, hu, hb, hv⟩ := h hitem hs
    obtain ⟨g', v, rfl, hg', hv⟩ := hv.exists_mark hg hmark ((hmore.begins hstarts).misses rest)
    obtain ⟨w, bs, v, rfl, hw, hbs, hv⟩ := ih hv
    exact ⟨u ++ (g' ++ w), b :: bs, v, by simp, .cons hu hg' hw, .cons hb hbs, hv⟩

end Kept

namespace Weekly

open Reading

theorem kept_daySpan : Kept Eq DaySpan.Spelled := by
  have hname : Kept Eq (Verbatim IsName) := .of_solid fun {t a} h => by
    obtain ⟨-, x, y, rfl, hx, hy⟩ := h
    simp [CharClass.blank_of_letter (CharClass.letter_of_upper hx),
      CharClass.blank_of_letter (CharClass.letter_of_lower hy)]
  intro t span rest s h hs
  obtain ⟨u, pair, v, rfl, hu, hpair, hv⟩ :=
    hname.spanned (fun h => starts_of_upper (name_begins h)) h hs
  subst hpair
  exact ⟨u, span, v, rfl, hu, rfl, hv⟩

theorem kept_days : Kept Eq DaysSpelled := by
  intro t spans rest s h hs
  obtain ⟨u, spans', v, rfl, hu, hspans, hv⟩ :=
    kept_daySpan.listed (by decide) (fun h => starts_of_upper (daySpan_begins h)) h hs
  exact ⟨u, spans', v, rfl, hu, List.forall₂_eq_eq_eq ▸ hspans, hv⟩

/-- Of a span of clock times the text can change, but the text is not in the hours. -/
theorem kept_clockSpan : Kept (ReadAlike readSpan) ClockSpan.Spelled := by
  have hclock : Kept Eq (Verbatim IsClock) := .of_solid fun h x hx => by
    rcases clock_chars h x hx with hdigit | rfl
    · exact CharClass.blank_of_digit hdigit
    · decide
  intro t span rest s h hs
  obtain ⟨u, pair, v, rfl, hu, hpair, hv⟩ :=
    hclock.spanned (fun h => starts_of_digit (clock_begins h)) h.2 hs
  subst hpair
  refine ⟨u, ⟨u, span.start, span.stop⟩, v, rfl, ⟨rfl, hu⟩, ?_, hv⟩
  intro stretch
  rw [readSpan_eq_ok_iff, readSpan_eq_ok_iff]

theorem readSelector_alike {spans spans' : List ClockSpan} {text text' : List Char}
    {days : WeekdaySet} {group : DayGroup} (h : List.Forall₂ (ReadAlike readSpan) spans spans') :
    readSelector days ⟨text, spans⟩ = .ok group ↔
      readSelector days ⟨text', spans'⟩ = .ok group := by
  simp only [readSelector_eq_ok_iff, groupOfSpans_eq_ok_iff, groupOfStretches_eq_ok_iff,
    ReadAlike.forall₂_iff h]

/-- The bodies stand for the same hours of the same days, and both are words or both are not. -/
def Body.Alike (b b' : Body) : Prop :=
  (b.IsWord ↔ b'.IsWord) ∧ ∀ days text text' group,
    readBody days text b = .ok group ↔ readBody days text' b' = .ok group

theorem kept_body : Kept Body.Alike Body.Spelled := by
  intro t b rest s h hs
  cases h with
  | @modifier m h =>
    have hsolid : ∀ x ∈ t, CharClass.blank.has x = false := by
      cases h <;> simp <;> decide
    obtain ⟨v, rfl, hv⟩ := hs.exists_append hsolid
    refine ⟨t, _, v, rfl, .modifier h, ⟨Iff.rfl, fun days text text' group => ?_⟩, hv⟩
    cases m <;> simp [readBody]
  | clocks h =>
    obtain ⟨u, spans, v, rfl, hu, hspans, hv⟩ :=
      kept_clockSpan.listed (by decide) (fun h => starts_of_digit (clockSpan_begins h)) h hs
    refine ⟨u, _, v, rfl, .clocks hu, ⟨Iff.rfl, fun days text text' group => ?_⟩, hv⟩
    exact readSelector_alike hspans

/-- The clauses are read as the same group, whatever the texts of their rules are. -/
def Clause.Alike (c c' : Clause) : Prop := ∀ text text' group,
  readRule ⟨text, c⟩ = .ok group ↔ readRule ⟨text', c'⟩ = .ok group

/-- The gap before a word does not vanish, whatever blanks it has. -/
theorem kept_clause : Kept Clause.Alike Clause.Spelled := by
  intro t c rest s h hs
  cases h with
  | always =>
    obtain ⟨v, rfl, hv⟩ := hs.exists_append (by simp; decide)
    exact ⟨_, _, v, rfl, .always, fun text text' group => Iff.rfl, hv⟩
  | days h =>
    obtain ⟨u, _, v, rfl, hu, rfl, hv⟩ := kept_days h hs
    exact ⟨u, _, v, rfl, .days hu, fun text text' group => Iff.rfl, hv⟩
  | body h =>
    obtain ⟨u, b, v, rfl, hu, hb, hv⟩ := kept_body h hs
    exact ⟨u, _, v, rfl, .body hu, hb.2 .all, hv⟩
  | @both t g w spans b h hg hgap hb =>
    simp only [List.append_assoc] at hs
    obtain ⟨u, _, v, rfl, hu, rfl, hv⟩ := kept_days h hs
    obtain ⟨g', v, rfl, hg', hnone, -, hv⟩ := hv.exists_blanks hg ((starts_of_body hb).misses rest)
    obtain ⟨w', b', v, rfl, hw', hb', hv⟩ := kept_body hb hv
    refine ⟨u ++ (g' ++ w'), .days spans (some b'), v, by simp,
      .both hu hg' (fun hword hnil => hgap (hb'.1.mpr hword) (hnone hnil)) hw', ?_, hv⟩
    intro text text' group
    simp only [readRule_both_eq_ok_iff, hb'.2 _ text text']

theorem kept_rule : Kept (ReadAlike readRule) Rule.Spelled := by
  intro t rule rest s h hs
  obtain ⟨u, c, v, rfl, hu, hc, hv⟩ := kept_clause h.2 hs
  exact ⟨u, ⟨u, c⟩, v, rfl, ⟨rfl, hu⟩, hc rule.text u, hv⟩

end Weekly

theorem Reading.readChars_of_reblanked {result : Schedule} (h : Reblanked s t)
    (hs : readChars s = .ok result) : readChars t = .ok result := by
  obtain ⟨rules, hrun, groups, hgroups, hfold⟩ := readChars_eq_ok_iff_rules.mp hs
  obtain ⟨-, front, w, back, hfront, hback, rfl, hw⟩ := Weekly.run_schedule_iff.mp hrun
  obtain ⟨front', v, rfl, hfront', -, -, hv⟩ :=
    h.exists_blanks hfront ((Weekly.rules_start hw).misses back)
  obtain ⟨w', rules', back', rfl, hw', hrules, hback'⟩ :=
    Weekly.kept_rule.listed (by decide) (fun h => Weekly.clause_starts h.2) hw hv
  have hrun' : Weekly.schedule.run (front' ++ (w' ++ back')) = some (rules', []) :=
    Weekly.run_schedule_iff.mpr
      ⟨rfl, front', w', back', hfront', hback'.allBlank hback, rfl, hw'⟩
  exact readChars_eq_ok_iff_rules.mpr
    ⟨rules', hrun', groups, (ReadAlike.forall₂_iff hrules).mp hgroups, hfold⟩

/-- Texts that are the same once each run of blanks is one space are the same schedule, to the last
clock time with or without minutes, or both are none. They are both well formed, or neither is. -/
theorem Schedule.read_of_squeeze_eq {a b : String} (h : squeeze a.toList = squeeze b.toList) :
    (∀ schedule, Schedule.read a = .ok schedule ↔ Schedule.read b = .ok schedule) ∧
      isWellFormed a = isWellFormed b := by
  have hback : Reblanked b.toList a.toList := h.symm
  refine ⟨fun schedule => ?_, ?_⟩
  · exact ⟨Reading.readChars_of_reblanked h, Reading.readChars_of_reblanked hback⟩
  · exact Bool.eq_iff_iff.mpr ⟨isWellFormed_of_reblanked h, isWellFormed_of_reblanked hback⟩

theorem Schedule.read_tabs_and_lines :
    let schedule : Schedule := ⟨[.timed (.range .monday .friday) ⟨⟨9, 0, false⟩, ⟨12, 0, true⟩⟩,
      .closed (.ofList [.sunday])]⟩
    squeeze "\t Mo-\tFr 9\r\n- 12:00 ;Su\toff\n".toList =
        squeeze " Mo-  Fr\t9\n-\t12:00\r\n;Su  off ".toList ∧
      Schedule.read "\t Mo-\tFr 9\r\n- 12:00 ;Su\toff\n" = .ok schedule ∧
      Schedule.read " Mo-  Fr\t9\n-\t12:00\r\n;Su  off " = .ok schedule ∧
      isWellFormed "\t Mo-\tFr 9\r\n- 12:00 ;Su\toff\n" = true ∧
      isWellFormed " Mo-  Fr\t9\n-\t12:00\r\n;Su  off " = true := by
  intro schedule
  have h : squeeze "\t Mo-\tFr 9\r\n- 12:00 ;Su\toff\n".toList =
      squeeze " Mo-  Fr\t9\n-\t12:00\r\n;Su  off ".toList := by decide
  obtain ⟨hread, hformed⟩ := Schedule.read_of_squeeze_eq h
  have hfirst : Schedule.read "\t Mo-\tFr 9\r\n- 12:00 ;Su\toff\n" = .ok schedule := rfl
  have hwide : isWellFormed "\t Mo-\tFr 9\r\n- 12:00 ;Su\toff\n" = true := by decide
  exact ⟨h, hfirst, (hread schedule).mp hfirst, hwide, hformed.symm.trans hwide⟩

end OpeningHours
