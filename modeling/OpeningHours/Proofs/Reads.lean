import OpeningHours.Grammar.Peg
import OpeningHours.Proofs.Lists

/-! What an expression reads off the front of a text, composed along the expression. -/

namespace OpeningHours

namespace CharClass

/-- The text does not begin with a character of the class. -/
def Misses (c : CharClass) (s : List Char) : Prop := ∀ x ∈ s.head?, c.has x = false

variable {c : CharClass} {x : Char} {s : List Char}

@[simp] theorem misses_nil : c.Misses [] := by simp [Misses]

@[simp] theorem misses_cons : c.Misses (x :: s) ↔ c.has x = false := by simp [Misses]

theorem takeWhile_of_misses (h : c.Misses s) : s.takeWhile c.has = [] := by
  cases s with
  | nil => rfl
  | cons x s => simp [misses_cons.mp h]

theorem dropWhile_of_misses (h : c.Misses s) : s.dropWhile c.has = s := by
  cases s with
  | nil => rfl
  | cons x s => simp [misses_cons.mp h]

end CharClass

namespace Peg

/-- The expression takes `taken` off the front of a text, with a value, and leaves `rest`. -/
def Reads (p : Peg α) (taken : List Char) (a : α) (rest : List Char) : Prop :=
  p.run (taken ++ rest) = some (a, rest)

/-- The expression does not match at the front of the text. -/
def Refuses (p : Peg α) (s : List Char) : Prop := p.run s = none

variable {p : Peg α} {q : Peg β} {c : CharClass} {s t rest : List Char} {a : α} {b : β}

theorem reads_literal (word rest : List Char) : (literal word).Reads word () rest := by
  rw [Reads, run, afterWord?_eq_some_iff.mpr rfl]
  rfl

theorem reads_char {x : Char} (h : c.has x = true) : (char c).Reads [x] x rest := by
  simp [Reads, run, h]

theorem reads_chars (h : ∀ x ∈ t, c.has x = true) (hrest : c.Misses rest) :
    (chars c).Reads t t rest := by
  rw [Reads, run, List.takeWhile_append_of_pos h, List.dropWhile_append_of_pos h,
    CharClass.takeWhile_of_misses hrest, CharClass.dropWhile_of_misses hrest, List.append_nil]

theorem reads_finish : finish.Reads [] () [] := rfl

theorem Reads.seq (hp : p.Reads s a (t ++ rest)) (hq : q.Reads t b rest) :
    (seq p q).Reads (s ++ t) (a, b) rest := by
  unfold Reads at *
  rw [run, List.append_assoc, hp]
  simp only [hq]

theorem Reads.choice_left {q : Peg α} (h : p.Reads s a rest) : (choice p q).Reads s a rest := by
  unfold Reads at *
  rw [run, h]

theorem Reads.choice_right {q : Peg α} (hp : p.Refuses (s ++ rest)) (hq : q.Reads s a rest) :
    (choice p q).Reads s a rest := by
  unfold Reads Refuses at *
  rw [run, hp, hq]

theorem Reads.option (h : p.Reads s a rest) : (option p).Reads s (some a) rest := by
  unfold Reads at *
  rw [run, h]

theorem reads_option_none (h : p.Refuses rest) : (option p).Reads [] none rest := by
  unfold Reads Refuses at *
  rw [List.nil_append, run, h]

theorem reads_absent (h : p.Refuses rest) : (absent p).Reads [] () rest := by
  unfold Reads Refuses at *
  rw [List.nil_append, run, h]
  rfl

theorem Reads.map (f : α → β) (h : p.Reads s a rest) : (map f p).Reads s (f a) rest := by
  unfold Reads at *
  rw [run, h]

theorem Reads.matched (h : p.Reads s a rest) : (matched p).Reads s (s, a) rest :=
  run_matched_iff.mpr ⟨h, rfl⟩

theorem Reads.named (h : p.Reads s a rest) : (named p).Reads s a rest := h

theorem Reads.token (h : p.Reads s a rest) : (token p).Reads s a rest := h

theorem Reads.text (h : p.Reads s a rest) : (text p).Reads s s rest := h.matched.map Prod.fst

theorem Reads.after (hp : p.Reads s a (t ++ rest)) (hq : q.Reads t b rest) :
    (after p q).Reads (s ++ t) b rest := (hp.seq hq).map Prod.snd

theorem Reads.before (hp : p.Reads s a (t ++ rest)) (hq : q.Reads t b rest) :
    (before p q).Reads (s ++ t) a rest := (hp.seq hq).map Prod.fst

theorem Reads.spaced (hs : ∀ x ∈ s, CharClass.blank.has x = true)
    (ht : CharClass.blank.Misses (t ++ rest)) (h : p.Reads t a rest) :
    (spaced p).Reads (s ++ t) a rest := (reads_chars hs ht).after h

/-- The blanks around an expression are read with it. -/
theorem Reads.padded {front back : List Char} (hfront : ∀ x ∈ front, CharClass.blank.has x = true)
    (hback : ∀ x ∈ back, CharClass.blank.has x = true)
    (hs : CharClass.blank.Misses (s ++ (back ++ rest))) (hrest : CharClass.blank.Misses rest)
    (h : p.Reads s a (back ++ rest)) : (padded p).Reads (front ++ (s ++ back)) a rest := by
  refine Reads.spaced hfront ?_ (h.before (reads_chars hback hrest))
  rwa [List.append_assoc]

section Refuses

theorem refuses_literal {word : List Char} (h : ¬word <+: s) : (literal word).Refuses s := by
  rw [Refuses, run, Option.map_eq_none_iff, Option.eq_none_iff_forall_ne_some]
  intro rest hrest
  exact h ⟨rest, (afterWord?_eq_some_iff.mp hrest).symm⟩

theorem refuses_word {x : Char} {word : List Char} (h : s.head? ≠ some x) :
    (literal (x :: word)).Refuses s := by
  refine refuses_literal ?_
  rintro ⟨rest, rfl⟩
  exact h rfl

theorem refuses_char (h : c.Misses s) : (char c).Refuses s := by
  cases s with
  | nil => rfl
  | cons x s => simp [Refuses, run, CharClass.misses_cons.mp h]

theorem Refuses.seq (h : p.Refuses s) : (seq p q).Refuses s := by
  unfold Refuses at *
  rw [run, h]

theorem Refuses.seq_of_reads (hp : p.Reads s a rest) (hq : q.Refuses rest) :
    (Peg.seq p q).Refuses (s ++ rest) := by
  unfold Refuses Reads at *
  rw [run, hp]
  simp only [hq]

theorem Refuses.choice {q : Peg α} (hp : p.Refuses s) (hq : q.Refuses s) :
    (choice p q).Refuses s := by
  unfold Refuses at *
  rw [run, hp, hq]

theorem Refuses.map (f : α → β) (h : p.Refuses s) : (map f p).Refuses s := by
  unfold Refuses at *
  rw [run, h]

theorem Refuses.matched (h : p.Refuses s) : (matched p).Refuses s := by
  unfold Refuses at *
  rw [run, h]

theorem Refuses.named (h : p.Refuses s) : (named p).Refuses s := h

theorem Refuses.after (h : p.Refuses s) : (after p q).Refuses s := h.seq.map Prod.snd

theorem Refuses.before (h : p.Refuses s) : (before p q).Refuses s := h.seq.map Prod.fst

theorem reads_blanks (s : List Char) : blanks.Reads (s.takeWhile CharClass.blank.has)
    (s.takeWhile CharClass.blank.has) (s.dropWhile CharClass.blank.has) := by
  rw [Reads, List.takeWhile_append_dropWhile]
  rfl

/-- An expression with blanks in front is refused by what follows the blanks. -/
theorem Refuses.spaced (h : p.Refuses (s.dropWhile CharClass.blank.has)) :
    (spaced p).Refuses s := by
  have hrefuses := (Refuses.seq_of_reads (reads_blanks s) h).map Prod.snd
  rwa [List.takeWhile_append_dropWhile] at hrefuses

theorem Refuses.padded (h : p.Refuses (s.dropWhile CharClass.blank.has)) :
    (padded p).Refuses s := h.before.spaced

end Refuses

end Peg

end OpeningHours
