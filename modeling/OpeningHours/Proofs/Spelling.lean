import OpeningHours.Proofs.Matches

/-! How runs and lists are spelled: tokens with a hyphen between them, items with a mark between
them, and blanks around hyphen and mark. A relation between texts and values says what the tokens
are, and an expression that reads the tokens gives one that reads the runs and the lists. -/

namespace OpeningHours

open Peg

/-- The text has no characters but blanks. -/
def AllBlank (s : List Char) : Prop := ∀ x ∈ s, CharClass.blank.has x = true

/-- The text has a first character, and it is as allowed. -/
def Begins (allowed : Char → Prop) (s : List Char) : Prop := ∃ x u, s = x :: u ∧ allowed x

/-- The text begins with a character that is no blank. -/
abbrev Starts : List Char → Prop := Begins (CharClass.blank.has · = false)

/-- The text is a mark with blanks around it, if any. -/
def IsMark (mark : Char) (s : List Char) : Prop :=
  ∃ front back, AllBlank front ∧ AllBlank back ∧ s = front ++ (mark :: back)

/-- The first character that is no blank, if there is one, is as allowed. -/
def Next (allowed : Char → Prop) (s : List Char) : Prop :=
  ∀ x ∈ (s.dropWhile CharClass.blank.has).head?, allowed x

/-- One token, or two with a hyphen between them. -/
inductive Spanned (token : List Char → α → Prop) : List Char → α × Option α → Prop
  | one (h : token t a) : Spanned token t (a, none)
  | pair (h : token t a) (hg : IsMark '-' g) (h' : token u b) :
      Spanned token (t ++ (g ++ u)) (a, some b)

/-- Items, one at least, with a mark between one and the next. -/
inductive Listed (mark : Char) (item : List Char → α → Prop) : List Char → List α → Prop
  | one (h : item t a) : Listed mark item t [a]
  | cons (h : item t a) (hg : IsMark mark g) (hmore : Listed mark item u as) :
      Listed mark item (t ++ (g ++ u)) (a :: as)

variable {s t u g rest : List Char} {x mark : Char} {allowed allowed' : Char → Prop}

namespace CharClass

theorem eq_of_blank (h : blank.has x = true) : x = ' ' ∨ x = '\t' ∨ x = '\r' ∨ x = '\n' := by
  simpa [has, or_assoc] using h

theorem blank_of_letter (h : letter.has x = true) : blank.has x = false := by
  cases hblank : blank.has x with
  | false => rfl
  | true => rcases eq_of_blank hblank with rfl | rfl | rfl | rfl <;> revert h <;> decide

theorem blank_of_digit (h : digit.has x = true) : blank.has x = false := by
  cases hblank : blank.has x with
  | false => rfl
  | true => rcases eq_of_blank hblank with rfl | rfl | rfl | rfl <;> revert h <;> decide

theorem letter_of_upper (h : upper.has x = true) : letter.has x = true := by
  simp only [has, Bool.or_eq_true] at *
  exact .inr h

theorem letter_of_lower (h : lower.has x = true) : letter.has x = true := by
  simp only [has, Bool.or_eq_true] at *
  exact .inl h

theorem letter_of_digit (h : digit.has x = true) : letter.has x = false := by
  simp [has, Char.le_def, UInt32.le_iff_toNat_le] at *
  omega

theorem lower_of_digit (h : digit.has x = true) : lower.has x = false :=
  (Bool.or_eq_false_iff.mp (letter_of_digit h)).1

theorem upper_of_digit (h : digit.has x = true) : upper.has x = false :=
  (Bool.or_eq_false_iff.mp (letter_of_digit h)).2

theorem upper_of_lower (h : lower.has x = true) : upper.has x = false := by
  simp [has, Char.le_def, UInt32.le_iff_toNat_le] at *
  omega

theorem letter_of_blank (h : blank.has x = true) : letter.has x = false := by
  rcases eq_of_blank h with rfl | rfl | rfl | rfl <;> decide

theorem digit_of_blank (h : blank.has x = true) : digit.has x = false := by
  rcases eq_of_blank h with rfl | rfl | rfl | rfl <;> decide

end CharClass

theorem IsMark.alone (mark : Char) : IsMark mark [mark] := ⟨[], [], nofun, nofun, rfl⟩

theorem IsMark.misses {c : CharClass} (hg : IsMark mark g) (hmark : c.has mark = false)
    (hblank : ∀ x, CharClass.blank.has x = true → c.has x = false) : c.Misses (g ++ s) := by
  obtain ⟨front, back, hfront, -, rfl⟩ := hg
  cases front with
  | nil => exact CharClass.misses_cons.mpr hmark
  | cons x front => exact CharClass.misses_cons.mpr (hblank x (hfront x (by simp)))

namespace Begins

theorem append (h : Begins allowed s) (t : List Char) : Begins allowed (s ++ t) := by
  obtain ⟨x, u, rfl, hx⟩ := h
  exact ⟨x, u ++ t, rfl, hx⟩

theorem imp (h : Begins allowed s) (himp : ∀ x, allowed x → allowed' x) : Begins allowed' s := by
  obtain ⟨x, u, rfl, hx⟩ := h
  exact ⟨x, u, rfl, himp x hx⟩

theorem misses {c : CharClass} (h : Begins (c.has · = false) s) (t : List Char) :
    c.Misses (s ++ t) := by
  obtain ⟨x, u, rfl, hx⟩ := h
  exact CharClass.misses_cons.mpr hx

end Begins

namespace Next

@[simp] theorem nil : Next allowed [] := nofun

@[simp] theorem cons (hx : CharClass.blank.has x = false) :
    Next allowed (x :: s) ↔ allowed x := by
  simp [Next, hx]

theorem append (h : AllBlank g) : Next allowed (g ++ s) ↔ Next allowed s := by
  rw [Next, List.dropWhile_append_of_pos h, Next]

theorem of_allBlank (h : AllBlank s) : Next allowed s := by
  rw [← List.append_nil s, append h]
  exact nil

theorem of_begins (h : Begins allowed t)
    (hblank : ∀ x, allowed x → CharClass.blank.has x = false) : Next allowed (t ++ s) := by
  obtain ⟨x, u, rfl, hx⟩ := h
  exact (cons (hblank x hx)).mpr hx

theorem imp (h : Next allowed s) (himp : ∀ x, allowed x → allowed' x) : Next allowed' s :=
  fun x hx => himp x (h x hx)

theorem sign (hg : IsMark mark g) (hmark : CharClass.blank.has mark = false) :
    Next allowed (g ++ s) ↔ allowed mark := by
  obtain ⟨front, back, hfront, -, rfl⟩ := hg
  rw [List.append_assoc, append hfront]
  exact cons hmark

/-- The first character of all is a blank or as allowed. -/
theorem head (h : Next allowed s) : ∀ x ∈ s.head?, CharClass.blank.has x = true ∨ allowed x := by
  intro x hx
  cases s with
  | nil => cases hx
  | cons y s =>
    cases hx
    cases hblank : CharClass.blank.has x with
    | true => exact .inl rfl
    | false => exact .inr ((cons hblank).mp h)

theorem misses {c : CharClass} (h : Next allowed s)
    (hblank : ∀ x, CharClass.blank.has x = true → c.has x = false)
    (hallowed : ∀ x, allowed x → c.has x = false) : c.Misses s :=
  fun x hx => (h.head x hx).elim (hblank x) (hallowed x)

theorem refuses_sign (h : Next (· ≠ mark) s) : (padded (literal [mark])).Refuses s :=
  (refuses_word fun hx => h mark hx rfl).padded

end Next

/-- An expression is refused after blanks if none of what may come next can start it. -/
theorem refuses_spaced {p : Peg α} (hempty : p.mayBeEmpty = false) (h : Next allowed s)
    (hstart : ∀ x, allowed x → p.mayStart x = false) : (spaced p).Refuses s :=
  (refuses_of_head hempty fun x hx => hstart x (h x hx)).spaced

/-! ### Relations between texts and values -/

section Relations

variable {token item : List Char → α → Prop} {item' : List Char → β → Prop} {R : α → β → Prop}
  {as : List α} {pair : α × Option α}

theorem Spanned.begins (h : Spanned token t pair)
    (htoken : ∀ {t a}, token t a → Begins allowed t) : Begins allowed t := by
  cases h with
  | one h => exact htoken h
  | pair h => exact (htoken h).append _

theorem Listed.begins (h : Listed mark item t as)
    (hitem : ∀ {t a}, item t a → Begins allowed t) : Begins allowed t := by
  cases h with
  | one h => exact hitem h
  | cons h => exact (hitem h).append _

theorem Listed.exists_text (h : Listed mark item t as) : ∀ a ∈ as, ∃ u, item u a := by
  induction h with
  | one h => exact List.forall_mem_singleton.mpr ⟨_, h⟩
  | cons h _ _ ih => exact List.forall_mem_cons.mpr ⟨⟨_, h⟩, ih⟩

/-- The items of a list, each with another value, make a list of these values. -/
theorem Listed.transfer (h : Listed mark item t as)
    (himp : ∀ {t a}, a ∈ as → item t a → ∃ b, R a b ∧ item' t b) :
    ∃ bs, List.Forall₂ R as bs ∧ Listed mark item' t bs := by
  induction h with
  | one h =>
    obtain ⟨b, hab, hb⟩ := himp (List.mem_singleton_self _) h
    exact ⟨[b], .cons hab .nil, .one hb⟩
  | cons h hg _ ih =>
    obtain ⟨b, hab, hb⟩ := himp (by simp) h
    obtain ⟨bs, has, hbs⟩ := ih fun ha => himp (List.mem_cons_of_mem _ ha)
    exact ⟨b :: bs, .cons hab has, .cons hb hg hbs⟩

/-- Items written with the mark between them are a list. -/
theorem listed_intercalate {glue : List Char} {text : ι → List Char} {value : ι → α} {first : ι}
    {more : List ι} (hglue : IsMark mark glue) (h : ∀ x ∈ first :: more, item (text x) (value x)) :
    Listed mark item (glue.intercalate ((first :: more).map text)) ((first :: more).map value) := by
  induction more generalizing first with
  | nil =>
    rw [List.map_singleton, List.map_singleton, List.intercalate_singleton]
    exact .one (h first (by simp))
  | cons next more ih =>
    obtain ⟨hfirst, hmore⟩ := List.forall_mem_cons.mp h
    rw [List.map_cons, List.map_cons, List.intercalate_cons_cons, List.append_assoc,
      ← List.map_cons]
    exact .cons hfirst hglue (ih hmore)

end Relations

/-! ### Reading runs and lists -/

/-- An expression reads a whole text if it reads what is left of it without the blanks around. -/
theorem run_document_iff {p : Peg α} {a : α} : (document p).run s = some (a, rest) ↔
    rest = [] ∧ ∃ front t back, AllBlank front ∧ AllBlank back ∧ s = front ++ (t ++ back) ∧
      CharClass.blank.Misses (t ++ back) ∧ p.Reads t a back := by
  constructor
  · intro h
    obtain ⟨whole, rfl⟩ := exists_append_of_run h
    obtain ⟨v, w, _, rfl, hpadded, hfinish⟩ := reads_before_iff.mp h
    obtain ⟨rfl, rfl⟩ := reads_finish_iff.mp hfinish
    obtain ⟨front, u, _, rfl, hfront, hp⟩ := reads_after_iff.mp hpadded
    obtain ⟨t, back, _, rfl, hp, hback⟩ := reads_before_iff.mp hp
    obtain ⟨-, hfront, hmisses⟩ := reads_chars_iff.mp hfront
    obtain ⟨-, hback, -⟩ := reads_chars_iff.mp hback
    simp only [List.append_nil] at hp hmisses
    rw [List.append_nil, List.append_nil]
    exact ⟨rfl, front, t, back, hfront, hback, rfl, hmisses, hp⟩
  · rintro ⟨rfl, front, t, back, hfront, hback, rfl, hmisses, hp⟩
    rw [← List.append_nil back] at hmisses hp
    have hread := (hp.padded hfront hback hmisses CharClass.misses_nil).before reads_finish
    simp only [Reads, List.append_nil] at hread
    exact hread

theorem eq_of_front {front front' s' : List Char} (hfront : AllBlank front)
    (hfront' : AllBlank front') (hs : CharClass.blank.Misses s) (hs' : CharClass.blank.Misses s')
    (h : front ++ s = front' ++ s') : s = s' := by
  have hdrop := congrArg (List.dropWhile CharClass.blank.has) h
  rwa [List.dropWhile_append_of_pos hfront, List.dropWhile_append_of_pos hfront',
    CharClass.dropWhile_of_misses hs, CharClass.dropWhile_of_misses hs'] at hdrop

/-- Where an expression does not reach the blanks at the end, it does not read the whole text. -/
theorem refuses_document {p : Peg α} {front : List Char} (hfront : AllBlank front)
    (hs : CharClass.blank.Misses s) (h : ∀ a rest, p.run s = some (a, rest) → ¬AllBlank rest) :
    (document p).Refuses (front ++ s) := by
  rw [Refuses, Option.eq_none_iff_forall_ne_some]
  rintro ⟨a, rest⟩ hrun
  obtain ⟨-, before, t, back, hbefore, hback, htext, hmisses, hp⟩ := run_document_iff.mp hrun
  obtain rfl := eq_of_front hfront hbefore hs hmisses htext
  exact h a back hp hback

section Reading

variable {p : Peg α} {sep : Peg Unit} {token item : List Char → α → Prop}
  {leaves ends : List Char → Prop} {a : α} {b : Option α} {as : List α}

theorem reads_mark_iff (hsep : sep.run = (literal [mark]).run)
    (hmark : CharClass.blank.has mark = false) :
    (padded sep).Reads g () rest ↔ IsMark mark g ∧ CharClass.blank.Misses rest := by
  have hword : ∀ {t s}, sep.Reads t () s ↔ t = [mark] := by
    intro t s
    rw [Reads, hsep]
    exact reads_literal_iff
  constructor
  · intro h
    obtain ⟨front, v, _, rfl, hfront, hv⟩ := reads_after_iff.mp h
    obtain ⟨w, back, _, rfl, hw, hback⟩ := reads_before_iff.mp hv
    obtain ⟨-, hback, hrest⟩ := reads_chars_iff.mp hback
    rw [hword.mp hw]
    exact ⟨⟨front, back, (reads_chars_iff.mp hfront).2.1, hback, rfl⟩, hrest⟩
  · rintro ⟨⟨front, back, hfront, hback, rfl⟩, hrest⟩
    exact (hword.mpr rfl).padded hfront hback (CharClass.misses_cons.mpr hmark) hrest

theorem spanned_of_reads (hp : ∀ {t a rest}, p.Reads t a rest → token t a ∧ leaves rest)
    (h : (seq p (option (after (padded (literal ['-'])) p))).Reads t (a, b) rest) :
    Spanned token t (a, b) ∧ leaves rest := by
  obtain ⟨u, v, rfl, hfirst, hsecond⟩ := reads_seq_iff.mp h
  cases b with
  | none =>
    obtain ⟨rfl, -⟩ := reads_option_none_iff.mp hsecond
    rw [List.append_nil]
    exact ⟨.one (hp hfirst).1, (hp hfirst).2⟩
  | some b =>
    obtain ⟨g, w, _, rfl, hhyphen, hlast⟩ := reads_after_iff.mp (reads_option_some_iff.mp hsecond)
    obtain ⟨hg, -⟩ := (reads_mark_iff rfl (by decide)).mp hhyphen
    exact ⟨.pair (hp hfirst).1 hg (hp hlast).1, (hp hlast).2⟩

theorem reads_of_spanned (hp : ∀ {t a rest}, token t a → ends rest → p.Reads t a rest)
    (hstarts : ∀ {t a}, token t a → Starts t) (hends : ∀ {g s}, IsMark '-' g → ends (g ++ s))
    (h : Spanned token t (a, b)) (hrest : ends rest) (hnext : Next (· ≠ '-') rest) :
    (seq p (option (after (padded (literal ['-'])) p))).Reads t (a, b) rest := by
  cases h with
  | one h =>
    refine reads_seq_iff.mpr ⟨t, [], (List.append_nil t).symm, hp h hrest, ?_⟩
    exact reads_option_none hnext.refuses_sign.after
  | @pair t _ g u _ h hg h' =>
    have hhyphen : (padded (literal ['-'])).Reads g () (u ++ rest) :=
      (reads_mark_iff rfl (by decide)).mpr ⟨hg, (hstarts h').misses rest⟩
    refine Reads.seq (hp h ?_) (hhyphen.after (hp h' hrest)).option
    rw [List.append_assoc]
    exact hends hg

/-- The expression for a list of items, which is the same for all marks. Its last item tells what
the list leaves. -/
theorem listed_of_reads_last {leaves : α → List Char → Prop} (hsep : sep.run = (literal [mark]).run)
    (hmark : CharClass.blank.has mark = false) (hempty : p.mayBeEmpty = false)
    (hp : ∀ {t a rest}, p.Reads t a rest → item t a ∧ leaves a rest)
    (h : (map (fun (a, more) => a :: more) (seq p (star (after (padded sep) p)))).Reads t as rest) :
    Listed mark item t as ∧ ∃ a ∈ as, leaves a rest := by
  obtain ⟨⟨first, more⟩, rfl, hseq⟩ := reads_map_iff.mp h
  obtain ⟨u, v, rfl, hfirst, hmore⟩ := reads_seq_iff.mp hseq
  have hstep : (after (padded sep) p).mayBeEmpty = false := by simp [after, mayBeEmpty, hempty]
  clear h hseq
  induction more generalizing u first v with
  | nil =>
    obtain ⟨rfl, -⟩ := (reads_star_nil_iff hstep).mp hmore
    rw [List.append_nil]
    exact ⟨.one (hp hfirst).1, first, by simp, (hp hfirst).2⟩
  | cons next more ih =>
    obtain ⟨v, w, rfl, hnext, hlater⟩ := (reads_star_cons_iff hstep).mp hmore
    obtain ⟨g, x, _, rfl, hg, hx⟩ := reads_after_iff.mp hnext
    obtain ⟨hlist, a, ha, hrest⟩ := ih next x w hx hlater
    rw [List.append_assoc g x w]
    exact ⟨.cons (hp hfirst).1 ((reads_mark_iff hsep hmark).mp hg).1 hlist, a,
      List.mem_cons_of_mem first ha, hrest⟩

theorem listed_of_reads (hsep : sep.run = (literal [mark]).run)
    (hmark : CharClass.blank.has mark = false) (hempty : p.mayBeEmpty = false)
    (hp : ∀ {t a rest}, p.Reads t a rest → item t a ∧ leaves rest)
    (h : (map (fun (a, more) => a :: more) (seq p (star (after (padded sep) p)))).Reads t as rest) :
    Listed mark item t as ∧ leaves rest := by
  have hlast : Listed mark item t as ∧ ∃ a ∈ as, leaves rest :=
    listed_of_reads_last hsep hmark hempty hp h
  obtain ⟨hlist, _, -, hrest⟩ := hlast
  exact ⟨hlist, hrest⟩

/-- A list ends where the mark is not there, or not a further item after it. -/
theorem reads_list_one (hempty : p.mayBeEmpty = false) (h : p.Reads t a rest)
    (hstop : (after (padded sep) p).Refuses rest) :
    (map (fun (a, more) => a :: more) (seq p (star (after (padded sep) p)))).Reads t [a] rest := by
  have hstep : (after (padded sep) p).mayBeEmpty = false := by simp [after, mayBeEmpty, hempty]
  have hnil := (reads_star_nil_iff hstep).mpr ⟨rfl, hstop⟩
  have hseq := (h.seq hnil).map fun ((a, more) : α × List α) => a :: more
  rw [List.append_nil] at hseq
  exact hseq

theorem reads_list_cons (hsep : sep.run = (literal [mark]).run)
    (hmark : CharClass.blank.has mark = false) (hempty : p.mayBeEmpty = false)
    (h : p.Reads t a (g ++ u ++ rest)) (hg : IsMark mark g)
    (hblank : CharClass.blank.Misses (u ++ rest))
    (hmore : (map (fun (a, more) => a :: more)
      (seq p (star (after (padded sep) p)))).Reads u as rest) :
    (map (fun (a, more) => a :: more)
      (seq p (star (after (padded sep) p)))).Reads (t ++ (g ++ u)) (a :: as) rest := by
  have hstep : (after (padded sep) p).mayBeEmpty = false := by simp [after, mayBeEmpty, hempty]
  obtain ⟨⟨next, more⟩, rfl, hseq⟩ := reads_map_iff.mp hmore
  obtain ⟨v, w, rfl, hv, hw⟩ := reads_seq_iff.mp hseq
  rw [List.append_assoc] at hblank
  have hsign := (reads_mark_iff hsep hmark).mpr ⟨hg, hblank⟩
  have hlater : (star (after (padded sep) p)).Reads (g ++ (v ++ w)) (next :: more) rest :=
    (reads_star_cons_iff hstep).mpr
      ⟨g ++ v, w, (List.append_assoc ..).symm, hsign.after hv, hw⟩
  exact (h.seq hlater).map _

theorem reads_of_listed (hsep : sep.run = (literal [mark]).run)
    (hmark : CharClass.blank.has mark = false) (hempty : p.mayBeEmpty = false)
    (hp : ∀ {t a rest}, item t a → ends rest → p.Reads t a rest)
    (hstarts : ∀ {t a}, item t a → Starts t) (hends : ∀ {g s}, IsMark mark g → ends (g ++ s))
    (h : Listed mark item t as) (hrest : ends rest) (hnext : Next (· ≠ mark) rest) :
    (map (fun (a, more) => a :: more) (seq p (star (after (padded sep) p)))).Reads t as rest := by
  induction h with
  | one h =>
    refine reads_list_one hempty (hp h hrest) (Refuses.after ?_)
    have hrun : (padded sep).run = (padded (literal [mark])).run := by
      funext s
      simp only [padded, after, before, run, hsep]
    rw [Refuses, hrun]
    exact hnext.refuses_sign
  | @cons t a g u as h hg hmore ih =>
    refine reads_list_cons hsep hmark hempty (hp h ?_) hg ((hmore.begins hstarts).misses rest) ih
    rw [List.append_assoc]
    exact hends hg

end Reading

end OpeningHours
