import OpeningHours.Proofs.Spelling

/-! What an expression leaves of a text, its value aside. An expression respects a relation between
texts if it cannot tell related texts apart: it is refused on both of them, or it matches both and
leaves related rests. However expressions are put together, this is kept, so that only the words and
the classes of characters at the leaves have to be looked at. -/

namespace OpeningHours

namespace Peg

/-- The expression matches the beginning of the text and leaves `rest`. -/
def Leaves (p : Peg α) (s rest : List Char) : Prop := ∃ a, p.run s = some (a, rest)

variable {p : Peg α} {q : Peg β} {s t rest : List Char}

theorem refuses_or_leaves (p : Peg α) (s : List Char) : p.Refuses s ∨ ∃ rest, p.Leaves s rest := by
  unfold Refuses Leaves
  cases p.run s with
  | none => exact .inl rfl
  | some result => exact .inr ⟨result.2, result.1, rfl⟩

theorem Leaves.not_refuses (h : p.Leaves s rest) : ¬p.Refuses s := by
  obtain ⟨a, hrun⟩ := h
  simp [Refuses, hrun]

theorem leaves_literal_iff {word : List Char} :
    (literal word).Leaves s rest ↔ s = word ++ rest := by
  simp [Leaves, run, afterWord?_eq_some_iff]

theorem refuses_literal_iff {word : List Char} : (literal word).Refuses s ↔ ¬word <+: s := by
  refine ⟨fun h hword => ?_, refuses_literal⟩
  obtain ⟨rest, rfl⟩ := hword
  exact (leaves_literal_iff.mpr rfl).not_refuses h

theorem leaves_char_iff {c : CharClass} :
    (char c).Leaves s rest ↔ ∃ x, s = x :: rest ∧ c.has x = true := by
  unfold Leaves
  cases s with
  | nil => simp [run]
  | cons x s =>
    cases hx : c.has x <;> simp [run, hx]

theorem leaves_chars_iff {c : CharClass} :
    (chars c).Leaves s rest ↔ s.dropWhile c.has = rest := by
  simp [Leaves, run]

theorem not_refuses_chars {c : CharClass} : ¬(chars c).Refuses s := by simp [Refuses, run]

theorem leaves_finish_iff : finish.Leaves s rest ↔ s = [] ∧ rest = [] := by
  unfold Leaves
  cases s with
  | nil => simp [run, eq_comm]
  | cons x s => simp [run]

theorem leaves_seq_iff :
    (seq p q).Leaves s rest ↔ ∃ middle, p.Leaves s middle ∧ q.Leaves middle rest := by
  constructor
  · intro ⟨⟨a, b⟩, h⟩
    obtain ⟨middle, hp, hq⟩ := run_seq_iff.mp h
    exact ⟨middle, ⟨a, hp⟩, b, hq⟩
  · intro ⟨middle, ⟨a, hp⟩, b, hq⟩
    exact ⟨(a, b), run_seq_iff.mpr ⟨middle, hp, hq⟩⟩

theorem refuses_seq_iff :
    (seq p q).Refuses s ↔ p.Refuses s ∨ ∃ middle, p.Leaves s middle ∧ q.Refuses middle := by
  constructor
  · intro h
    rcases refuses_or_leaves p s with hp | ⟨middle, hp⟩
    · exact .inl hp
    rcases refuses_or_leaves q middle with hq | ⟨rest, hq⟩
    · exact .inr ⟨middle, hp, hq⟩
    · exact absurd h (leaves_seq_iff.mpr ⟨middle, hp, hq⟩).not_refuses
  · intro h
    rcases h with hp | ⟨middle, ⟨a, hp⟩, hq⟩
    · exact hp.seq
    · unfold Refuses at *
      simp only [run, hp, hq]

theorem leaves_choice_iff {q : Peg α} :
    (choice p q).Leaves s rest ↔ p.Leaves s rest ∨ p.Refuses s ∧ q.Leaves s rest := by
  simp only [Leaves, run_choice_iff, exists_or, Refuses, exists_and_left]

theorem refuses_choice_iff {q : Peg α} :
    (choice p q).Refuses s ↔ p.Refuses s ∧ q.Refuses s := by
  unfold Refuses
  rw [run]
  cases p.run s <;> simp

theorem leaves_option_iff :
    (option p).Leaves s rest ↔ p.Leaves s rest ∨ p.Refuses s ∧ s = rest := by
  constructor
  · intro ⟨value, h⟩
    rcases run_option_iff.mp h with ⟨a, -, hp⟩ | ⟨-, hp⟩
    · exact .inl ⟨a, hp⟩
    · exact .inr hp
  · intro h
    rcases h with ⟨a, hp⟩ | hp
    · exact ⟨some a, run_option_iff.mpr (.inl ⟨a, rfl, hp⟩)⟩
    · exact ⟨none, run_option_iff.mpr (.inr ⟨rfl, hp⟩)⟩

theorem leaves_absent_iff : (absent p).Leaves s rest ↔ p.Refuses s ∧ s = rest := by
  constructor
  · intro ⟨_, h⟩
    exact run_absent_iff.mp h
  · intro h
    exact ⟨(), run_absent_iff.mpr h⟩

theorem refuses_absent_iff : (absent p).Refuses s ↔ ∃ rest, p.Leaves s rest := by
  unfold Refuses Leaves
  rw [run]
  cases p.run s with
  | none => simp
  | some result => simp [Prod.ext_iff]

theorem leaves_map_iff {f : α → β} : (map f p).Leaves s rest ↔ p.Leaves s rest := by
  simp only [Leaves, run_map_iff]
  constructor
  · intro ⟨_, a, _, h⟩
    exact ⟨a, h⟩
  · intro ⟨a, h⟩
    exact ⟨f a, a, rfl, h⟩

theorem refuses_map_iff {f : α → β} : (map f p).Refuses s ↔ p.Refuses s := by
  unfold Refuses
  rw [run]
  cases p.run s <;> simp

theorem leaves_matched_iff : (matched p).Leaves s rest ↔ p.Leaves s rest := by
  constructor
  · intro ⟨⟨_, a⟩, h⟩
    exact ⟨a, (run_matched_iff.mp h).1⟩
  · intro ⟨a, h⟩
    obtain ⟨text, htext⟩ := exists_append_of_run h
    exact ⟨(text, a), run_matched_iff.mpr ⟨h, htext⟩⟩

theorem refuses_matched_iff : (matched p).Refuses s ↔ p.Refuses s := by
  unfold Refuses
  rw [run]
  cases p.run s <;> simp

/-- A repetition ends where its step is refused, or goes on after one step. -/
theorem leaves_star_iff (hempty : p.mayBeEmpty = false) : (star p).Leaves s rest ↔
    p.Refuses s ∧ s = rest ∨ ∃ middle, p.Leaves s middle ∧ (star p).Leaves middle rest := by
  unfold Leaves Refuses
  rw [run_star hempty]
  cases p.run s with
  | none => simp
  | some result => simp [Prod.ext_iff]

theorem not_refuses_star : ¬(star p).Refuses s := by simp [Refuses, run]

theorem not_refuses_option : ¬(option p).Refuses s := by
  unfold Refuses
  rw [run]
  cases p.run s <;> simp

theorem leaves_after_iff :
    (after p q).Leaves s rest ↔ ∃ middle, p.Leaves s middle ∧ q.Leaves middle rest :=
  leaves_map_iff.trans leaves_seq_iff

theorem leaves_before_iff :
    (before p q).Leaves s rest ↔ ∃ middle, p.Leaves s middle ∧ q.Leaves middle rest :=
  leaves_map_iff.trans leaves_seq_iff

theorem leaves_padded_iff : (padded p).Leaves s rest ↔ ∃ middle,
    p.Leaves (s.dropWhile CharClass.blank.has) middle ∧
      middle.dropWhile CharClass.blank.has = rest := by
  simp only [padded, blanks, leaves_after_iff, leaves_before_iff, leaves_chars_iff,
    exists_eq_left']

/-- A whole text is read if only blanks are left of it. -/
theorem leaves_document_iff : (document p).Leaves s rest ↔ rest = [] ∧ ∃ back,
    p.Leaves (s.dropWhile CharClass.blank.has) back ∧
      back.dropWhile CharClass.blank.has = [] := by
  simp only [document, leaves_before_iff, leaves_padded_iff, leaves_finish_iff]
  constructor
  · intro ⟨_, ⟨back, hp, hback⟩, hnil, hrest⟩
    exact ⟨hrest, back, hp, hback.trans hnil⟩
  · intro ⟨hrest, back, hp, hback⟩
    exact ⟨[], ⟨back, hp, hback⟩, rfl, hrest⟩

theorem matches?_document_iff : (document p).matches? s = true ↔ ∃ back,
    p.Leaves (s.dropWhile CharClass.blank.has) back ∧
      back.dropWhile CharClass.blank.has = [] := by
  have hleaves : (document p).matches? s = true ↔ ∃ rest, (document p).Leaves s rest := by
    rw [matches?, Option.isSome_iff_exists, Prod.exists, exists_comm]
    rfl
  simp only [hleaves, leaves_document_iff, exists_eq_left]

theorem leaves_length (hempty : p.mayBeEmpty = false) (h : p.Leaves s rest) :
    rest.length < s.length := by
  obtain ⟨a, hrun⟩ := h
  exact length_lt_of_run hempty hrun

/-! ### Texts that an expression cannot tell apart -/

/-- On related texts the expression is refused both times, or leaves related rests. -/
def Respects (R : List Char → List Char → Prop) (p : Peg α) : Prop :=
  ∀ s t, R s t → p.Refuses s ∧ p.Refuses t ∨
    ∃ rest rest', p.Leaves s rest ∧ p.Leaves t rest' ∧ R rest rest'

namespace Respects

variable {R : List Char → List Char → Prop}

theorem refuses (hp : Respects R p) (h : R s t) (hs : p.Refuses s) : p.Refuses t := by
  rcases hp s t h with hnone | ⟨rest, _, hrest, _⟩
  · exact hnone.2
  · exact absurd hs hrest.not_refuses

theorem refuses_iff (hp : Respects R p) (h : R s t) : p.Refuses s ↔ p.Refuses t := by
  refine ⟨hp.refuses h, fun ht => ?_⟩
  rcases hp s t h with hnone | ⟨_, rest', _, hrest, _⟩
  · exact hnone.1
  · exact absurd ht hrest.not_refuses

theorem leaves (hp : Respects R p) (h : R s t) (hs : p.Leaves s rest) :
    ∃ rest', p.Leaves t rest' ∧ R rest rest' := by
  rcases hp s t h with hnone | ⟨first, rest', ⟨a, hfirst⟩, ht, hrest⟩
  · exact absurd hnone.1 hs.not_refuses
  · obtain ⟨b, hs⟩ := hs
    obtain rfl : first = rest := by simpa [hfirst] using congrArg (Option.map Prod.snd) hs
    exact ⟨rest', ht, hrest⟩

/-- It is enough that a refusal, and what is left, carry over from the first text to the second. -/
theorem intro (hrefuses : ∀ s t, R s t → p.Refuses s → p.Refuses t)
    (hleaves : ∀ s t rest, R s t → p.Leaves s rest → ∃ rest', p.Leaves t rest' ∧ R rest rest') :
    Respects R p := by
  intro s t h
  rcases refuses_or_leaves p s with hs | ⟨rest, hs⟩
  · exact .inl ⟨hs, hrefuses s t h hs⟩
  · obtain ⟨rest', ht, hrest⟩ := hleaves s t rest h hs
    exact .inr ⟨rest, rest', hs, ht, hrest⟩

theorem seq (hp : Respects R p) (hq : Respects R q) : Respects R (seq p q) := by
  refine .intro (fun s t h hs => ?_) (fun s t rest h hs => ?_)
  · rcases refuses_seq_iff.mp hs with hfirst | ⟨middle, hfirst, hsecond⟩
    · exact (hp.refuses h hfirst).seq
    · obtain ⟨middle', hfirst', hmiddle⟩ := hp.leaves h hfirst
      exact refuses_seq_iff.mpr (.inr ⟨middle', hfirst', hq.refuses hmiddle hsecond⟩)
  · obtain ⟨middle, hfirst, hsecond⟩ := leaves_seq_iff.mp hs
    obtain ⟨middle', hfirst', hmiddle⟩ := hp.leaves h hfirst
    obtain ⟨rest', hsecond', hrest⟩ := hq.leaves hmiddle hsecond
    exact ⟨rest', leaves_seq_iff.mpr ⟨middle', hfirst', hsecond'⟩, hrest⟩

theorem choice {q : Peg α} (hp : Respects R p) (hq : Respects R q) : Respects R (choice p q) := by
  refine .intro (fun s t h hs => ?_) (fun s t rest h hs => ?_)
  · obtain ⟨hfirst, hsecond⟩ := refuses_choice_iff.mp hs
    exact (hp.refuses h hfirst).choice (hq.refuses h hsecond)
  · rcases leaves_choice_iff.mp hs with hfirst | ⟨hfirst, hsecond⟩
    · obtain ⟨rest', ht, hrest⟩ := hp.leaves h hfirst
      exact ⟨rest', leaves_choice_iff.mpr (.inl ht), hrest⟩
    · obtain ⟨rest', ht, hrest⟩ := hq.leaves h hsecond
      exact ⟨rest', leaves_choice_iff.mpr (.inr ⟨hp.refuses h hfirst, ht⟩), hrest⟩

theorem option (hp : Respects R p) : Respects R (option p) := by
  refine .intro (fun s t h hs => absurd hs not_refuses_option) (fun s t rest h hs => ?_)
  rcases leaves_option_iff.mp hs with hsome | ⟨hnone, rfl⟩
  · obtain ⟨rest', ht, hrest⟩ := hp.leaves h hsome
    exact ⟨rest', leaves_option_iff.mpr (.inl ht), hrest⟩
  · exact ⟨t, leaves_option_iff.mpr (.inr ⟨hp.refuses h hnone, rfl⟩), h⟩

theorem absent (hp : Respects R p) : Respects R (absent p) := by
  refine .intro (fun s t h hs => ?_) (fun s t rest h hs => ?_)
  · obtain ⟨rest, hs⟩ := refuses_absent_iff.mp hs
    obtain ⟨rest', ht, -⟩ := hp.leaves h hs
    exact refuses_absent_iff.mpr ⟨rest', ht⟩
  · obtain ⟨hnone, rfl⟩ := leaves_absent_iff.mp hs
    exact ⟨t, leaves_absent_iff.mpr ⟨hp.refuses h hnone, rfl⟩, h⟩

theorem map {f : α → β} (hp : Respects R p) : Respects R (map f p) := by
  intro s t h
  simp only [refuses_map_iff, leaves_map_iff]
  exact hp s t h

theorem matched (hp : Respects R p) : Respects R (matched p) := by
  intro s t h
  simp only [refuses_matched_iff, leaves_matched_iff]
  exact hp s t h

/-- The induction is on the length of the first text, which each step of the repetition shortens. -/
theorem star (hempty : p.mayBeEmpty = false) (hp : Respects R p) : Respects R (star p) := by
  refine .intro (fun s t h hs => absurd hs not_refuses_star) (fun s => ?_)
  induction hlength : s.length using Nat.strongRecOn generalizing s with
  | ind n ih =>
    intro t rest h hs
    rcases (leaves_star_iff hempty).mp hs with ⟨hnone, rfl⟩ | ⟨middle, hstep, hmore⟩
    · exact ⟨t, (leaves_star_iff hempty).mpr (.inl ⟨hp.refuses h hnone, rfl⟩), h⟩
    · obtain ⟨middle', hstep', hmiddle⟩ := hp.leaves h hstep
      have hless := leaves_length hempty hstep
      obtain ⟨rest', hmore', hrest⟩ := ih middle.length (by omega) middle rfl middle' rest hmiddle
        hmore
      exact ⟨rest', (leaves_star_iff hempty).mpr (.inr ⟨middle', hstep', hmore'⟩), hrest⟩

end Respects

/-- Whether the words and the classes of characters in an expression pass a test for words, one for
single characters and one for runs of them. What is repeated has to take a character, and the end of
the text may not be asked for. -/
def testsLeaves (word : List Char → Bool) (one many : CharClass → Bool) : Peg γ → Bool
  | literal w => word w
  | char c => one c
  | chars c => many c
  | finish => false
  | seq p q => p.testsLeaves word one many && q.testsLeaves word one many
  | choice p q => p.testsLeaves word one many && q.testsLeaves word one many
  | option p => p.testsLeaves word one many
  | star p => !p.mayBeEmpty && p.testsLeaves word one many
  | absent p => p.testsLeaves word one many
  | map _ p => p.testsLeaves word one many
  | matched p => p.testsLeaves word one many
  | named p => p.testsLeaves word one many
  | token p => p.testsLeaves word one many

/-- An expression respects a relation if its leaves do. -/
theorem respects_of_leaves {R : List Char → List Char → Prop} {word : List Char → Bool}
    {one many : CharClass → Bool} (hword : ∀ w, word w = true → Respects R (literal w))
    (hone : ∀ c, one c = true → Respects R (char c))
    (hmany : ∀ c, many c = true → Respects R (chars c))
    (h : p.testsLeaves word one many = true) : Respects R p := by
  induction p with
  | literal w => exact hword w h
  | char c => exact hone c h
  | chars c => exact hmany c h
  | finish => cases h
  | seq p q ihp ihq =>
    have hboth := Bool.and_eq_true_iff.mp h
    exact (ihp hboth.1).seq (ihq hboth.2)
  | choice p q ihp ihq =>
    have hboth := Bool.and_eq_true_iff.mp h
    exact (ihp hboth.1).choice (ihq hboth.2)
  | option p ih => exact (ih h).option
  | star p ih =>
    have hboth := Bool.and_eq_true_iff.mp h
    exact (ih hboth.2).star (by simpa using hboth.1)
  | absent p ih => exact (ih h).absent
  | map f p ih => exact (ih h).map
  | matched p ih => exact (ih h).matched
  | named p ih => exact ih h
  | token p ih => exact ih h

end Peg

end OpeningHours
