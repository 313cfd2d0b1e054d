import OpeningHours.Proofs.FirstCharacters

/-! What a match tells: the text that an expression takes off comes apart along the expression. With
the rules that build a match up these make equivalences, from which a grammar is described by the
texts that it matches. -/

namespace OpeningHours

namespace Peg

variable {p : Peg α} {q : Peg β} {c : CharClass} {s t u rest : List Char} {a : α} {b : β}
  {x : Char}

theorem reads_literal_iff {word : List Char} : (literal word).Reads t () rest ↔ t = word := by
  constructor
  · intro h
    obtain ⟨_, hword, hrest⟩ := Option.map_eq_some_iff.mp h
    cases hrest
    exact List.append_cancel_right (afterWord?_eq_some_iff.mp hword)
  · rintro rfl
    exact reads_literal t rest

theorem reads_char_iff : (char c).Reads t x rest ↔ t = [x] ∧ c.has x = true := by
  constructor
  · intro h
    unfold Reads at h
    cases hs : t ++ rest with
    | nil => simp [hs, run] at h
    | cons y s =>
      by_cases hy : c.has y
      · simp only [hs, run, hy, if_pos, Option.some.injEq, Prod.mk.injEq] at h
        obtain ⟨rfl, rfl⟩ := h
        exact ⟨List.append_cancel_right hs, hy⟩
      · simp [hs, run, hy] at h
  · rintro ⟨rfl, hx⟩
    exact reads_char hx

theorem refuses_char_iff : (char c).Refuses s ↔ c.Misses s := by
  refine ⟨fun h x hx => ?_, refuses_char⟩
  cases s with
  | nil => cases hx
  | cons y s =>
    cases hx
    cases hc : c.has x with
    | false => rfl
    | true => simp [Refuses, run, hc] at h

theorem reads_chars_iff :
    (chars c).Reads t u rest ↔ u = t ∧ (∀ x ∈ t, c.has x = true) ∧ c.Misses rest := by
  constructor
  · intro h
    unfold Reads at h
    simp only [run, Option.some.injEq, Prod.mk.injEq] at h
    obtain ⟨htake, hdrop⟩ := h
    have htext : u = t := by
      have happend := List.takeWhile_append_dropWhile (p := c.has) (l := t ++ rest)
      rw [htake, hdrop] at happend
      exact List.append_cancel_right happend
    subst htext
    refine ⟨rfl, fun x hx => ?_, fun x hx => ?_⟩
    · rw [← htake] at hx
      exact List.all_eq_true.mp List.all_takeWhile x hx
    · rw [← hdrop] at hx
      have := List.head?_dropWhile_not c.has (u ++ rest)
      rw [Option.mem_def.mp hx] at this
      exact this
  · rintro ⟨rfl, ht, hrest⟩
    exact reads_chars ht hrest

theorem reads_finish_iff : finish.Reads t () rest ↔ t = [] ∧ rest = [] := by
  constructor
  · intro h
    unfold Reads at h
    rw [run] at h
    split at h
    · rename_i hnil
      exact List.append_eq_nil_iff.mp (List.isEmpty_iff.mp hnil)
    · cases h
  · rintro ⟨rfl, rfl⟩
    exact reads_finish

theorem reads_seq_iff : (seq p q).Reads t (a, b) rest ↔
    ∃ u v, t = u ++ v ∧ p.Reads u a (v ++ rest) ∧ q.Reads v b rest := by
  constructor
  · intro h
    obtain ⟨middle, hp, hq⟩ := run_seq_iff.mp h
    obtain ⟨u, hu⟩ := exists_append_of_run hp
    obtain ⟨v, rfl⟩ := exists_append_of_run hq
    rw [← List.append_assoc] at hu
    obtain rfl := List.append_cancel_right hu
    rw [List.append_assoc] at hp
    exact ⟨u, v, rfl, hp, hq⟩
  · rintro ⟨u, v, rfl, hp, hq⟩
    exact hp.seq hq

theorem reads_choice_iff {q : Peg α} : (choice p q).Reads t a rest ↔
    p.Reads t a rest ∨ p.Refuses (t ++ rest) ∧ q.Reads t a rest := run_choice_iff

theorem reads_option_some_iff : (option p).Reads t (some a) rest ↔ p.Reads t a rest := by
  refine ⟨fun h => ?_, Reads.option⟩
  rcases run_option_iff.mp h with ⟨_, hvalue, hp⟩ | ⟨hvalue, -⟩
  · cases hvalue
    exact hp
  · cases hvalue

theorem reads_option_none_iff : (option p).Reads t none rest ↔ t = [] ∧ p.Refuses rest := by
  constructor
  · intro h
    rcases run_option_iff.mp h with ⟨_, hvalue, -⟩ | ⟨-, hp, hrest⟩
    · cases hvalue
    · obtain rfl : t = [] := by simpa using hrest
      exact ⟨rfl, hp⟩
  · rintro ⟨rfl, hp⟩
    exact reads_option_none hp

theorem reads_absent_iff : (absent p).Reads t () rest ↔ t = [] ∧ p.Refuses rest := by
  constructor
  · intro h
    obtain ⟨hp, hrest⟩ := run_absent_iff.mp h
    obtain rfl : t = [] := by simpa using hrest
    exact ⟨rfl, hp⟩
  · rintro ⟨rfl, hp⟩
    exact reads_absent hp

theorem reads_map_iff {f : α → β} :
    (map f p).Reads t b rest ↔ ∃ a, f a = b ∧ p.Reads t a rest := run_map_iff

theorem reads_matched_iff :
    (matched p).Reads t (u, a) rest ↔ u = t ∧ p.Reads t a rest := by
  unfold Reads
  rw [run_matched_iff, and_comm]
  refine and_congr_left fun _ => ⟨fun h => (List.append_cancel_right h).symm, ?_⟩
  rintro rfl
  rfl

theorem reads_named_iff : (named p).Reads t a rest ↔ p.Reads t a rest := Iff.rfl

theorem reads_token_iff : (token p).Reads t a rest ↔ p.Reads t a rest := Iff.rfl

theorem reads_text_iff : (text p).Reads t u rest ↔ u = t ∧ ∃ a, p.Reads t a rest := by
  rw [text, reads_map_iff]
  constructor
  · rintro ⟨⟨_, a⟩, rfl, h⟩
    obtain ⟨rfl, hp⟩ := reads_matched_iff.mp h
    exact ⟨rfl, a, hp⟩
  · rintro ⟨rfl, a, hp⟩
    exact ⟨(u, a), rfl, hp.matched⟩

theorem reads_after_iff : (after p q).Reads t b rest ↔
    ∃ u v a, t = u ++ v ∧ p.Reads u a (v ++ rest) ∧ q.Reads v b rest := by
  rw [after, reads_map_iff]
  constructor
  · rintro ⟨⟨a, _⟩, rfl, h⟩
    obtain ⟨u, v, ht, hp, hq⟩ := reads_seq_iff.mp h
    exact ⟨u, v, a, ht, hp, hq⟩
  · rintro ⟨u, v, a, rfl, hp, hq⟩
    exact ⟨(a, b), rfl, hp.seq hq⟩

theorem reads_before_iff : (before p q).Reads t a rest ↔
    ∃ u v b, t = u ++ v ∧ p.Reads u a (v ++ rest) ∧ q.Reads v b rest := by
  rw [before, reads_map_iff]
  constructor
  · rintro ⟨⟨_, b⟩, rfl, h⟩
    obtain ⟨u, v, ht, hp, hq⟩ := reads_seq_iff.mp h
    exact ⟨u, v, b, ht, hp, hq⟩
  · rintro ⟨u, v, b, rfl, hp, hq⟩
    exact ⟨(a, b), rfl, hp.seq hq⟩

/-! ### Repetitions -/

theorem repeated_congr (hempty : p.mayBeEmpty = false) {fuel other : Nat} (h : s.length ≤ fuel)
    (h' : s.length ≤ other) : repeated p.run fuel s = repeated p.run other s := by
  induction fuel generalizing s other with
  | zero =>
    obtain rfl : s = [] := List.eq_nil_of_length_eq_zero (Nat.le_zero.mp h)
    have hrefuses : p.run [] = none := refuses_of_head hempty (by simp)
    cases other <;> simp [repeated, hrefuses]
  | succ fuel ih =>
    cases other with
    | zero =>
      obtain rfl : s = [] := List.eq_nil_of_length_eq_zero (Nat.le_zero.mp h')
      have hrefuses : p.run [] = none := refuses_of_head hempty (by simp)
      simp [repeated, hrefuses]
    | succ other =>
      rw [repeated, repeated]
      split
      · rfl
      · rename_i a rest hp
        have := length_lt_of_run hempty hp
        rw [ih (by omega) (by omega : rest.length ≤ other)]

/-- A repetition matches its step once and goes on from there. -/
theorem run_star (hempty : p.mayBeEmpty = false) : (star p).run s =
    match p.run s with
    | none => some ([], s)
    | some (a, rest) => ((star p).run rest).map fun (values, last) => (a :: values, last) := by
  have hrun : (star p).run s = some (repeated p.run (s.length + 1) s) := by
    rw [run, repeated_congr hempty (Nat.le_refl _) (Nat.le_succ _)]
  rw [hrun, repeated]
  cases hp : p.run s with
  | none => rfl
  | some result =>
    obtain ⟨a, rest⟩ := result
    have hless := length_lt_of_run hempty hp
    have hstar : (star p).run rest = some (repeated p.run s.length rest) := by
      rw [run, repeated_congr hempty (Nat.le_of_lt hless) (Nat.le_refl _)]
    simp only [hstar, Option.map_some]

theorem reads_star_nil_iff (hempty : p.mayBeEmpty = false) :
    (star p).Reads t [] rest ↔ t = [] ∧ p.Refuses rest := by
  rw [Reads, run_star hempty]
  constructor
  · intro h
    split at h
    · rename_i hp
      have ht : t = [] := by simpa using h
      subst ht
      exact ⟨rfl, hp⟩
    · simp at h
  · rintro ⟨rfl, hp⟩
    rw [Refuses] at hp
    rw [List.nil_append, hp]

theorem reads_star_cons_iff (hempty : p.mayBeEmpty = false) {values : List α} :
    (star p).Reads t (a :: values) rest ↔
      ∃ u v, t = u ++ v ∧ p.Reads u a (v ++ rest) ∧ (star p).Reads v values rest := by
  rw [Reads, run_star hempty]
  constructor
  · intro h
    split at h
    · cases h
    · rename_i b middle hp
      obtain ⟨⟨values', last⟩, hstar, heq⟩ := Option.map_eq_some_iff.mp h
      cases heq
      obtain ⟨u, hu⟩ := exists_append_of_run hp
      obtain ⟨v, rfl⟩ := exists_append_of_run hstar
      rw [← List.append_assoc] at hu
      obtain rfl := List.append_cancel_right hu
      rw [List.append_assoc] at hp
      exact ⟨u, v, rfl, hp, hstar⟩
  · rintro ⟨u, v, rfl, hp, hstar⟩
    rw [Reads] at hp hstar
    rw [List.append_assoc, hp]
    simp only [hstar, Option.map_some]

end Peg

end OpeningHours
