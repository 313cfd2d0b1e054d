import OpeningHours.Proofs.Reads

/-! What an expression can begin with, told from the expression alone. `mayBeEmpty` says whether it
can match without a character and `mayStart` with which characters it can match one at least. Both
can allow too much, and what they rule out never happens: an expression refuses a text that begins
with none of its characters. Most alternatives of a grammar are refused for this reason. -/

namespace OpeningHours

namespace Peg

/-- Whether the expression can match without a character. -/
def mayBeEmpty : Peg α → Bool
  | literal word => word.isEmpty
  | char _ => false
  | chars _ => true
  | finish => true
  | seq p q => p.mayBeEmpty && q.mayBeEmpty
  | choice p q => p.mayBeEmpty || q.mayBeEmpty
  | option _ => true
  | star _ => true
  | absent _ => true
  | map _ p => p.mayBeEmpty
  | matched p => p.mayBeEmpty
  | named p => p.mayBeEmpty
  | token p => p.mayBeEmpty

/-- Whether the expression can match a text with this first character, and take the character. -/
def mayStart : Peg α → Char → Bool
  | literal word, x => word.head? == some x
  | char c, x => c.has x
  | chars c, x => c.has x
  | finish, _ => false
  | seq p q, x => p.mayStart x || (p.mayBeEmpty && q.mayStart x)
  | choice p q, x => p.mayStart x || q.mayStart x
  | option p, x => p.mayStart x
  | star p, x => p.mayStart x
  | absent _, _ => false
  | map _ p, x => p.mayStart x
  | matched p, x => p.mayStart x
  | named p, x => p.mayStart x
  | token p, x => p.mayStart x

variable {p : Peg α} {q : Peg β} {s t rest : List Char} {a : α} {b : β} {x : Char}

/-! ### Runs come apart -/

theorem run_seq_iff : (seq p q).run s = some ((a, b), rest) ↔
    ∃ middle, p.run s = some (a, middle) ∧ q.run middle = some (b, rest) := by
  rw [run]
  cases p.run s with
  | none => simp
  | some first =>
    obtain ⟨a, middle⟩ := first
    cases hq : q.run middle with
    | none => simp [hq]
    | some second => simp [hq, Prod.ext_iff, and_assoc]

theorem run_choice_iff {q : Peg α} : (choice p q).run s = some (a, rest) ↔
    p.run s = some (a, rest) ∨ p.run s = none ∧ q.run s = some (a, rest) := by
  rw [run]
  cases p.run s <;> simp

theorem run_option_iff {value : Option α} : (option p).run s = some (value, rest) ↔
    (∃ a, value = some a ∧ p.run s = some (a, rest)) ∨
      value = none ∧ p.run s = none ∧ s = rest := by
  rw [run]
  cases p.run s with
  | none => simp [eq_comm]
  | some result => simp [Prod.ext_iff, eq_comm]

theorem run_absent_iff : (absent p).run s = some ((), rest) ↔ p.run s = none ∧ s = rest := by
  rw [run]
  cases p.run s <;> simp

theorem run_map_iff {f : α → β} :
    (map f p).run s = some (b, rest) ↔ ∃ a, f a = b ∧ p.run s = some (a, rest) := by
  rw [run]
  cases p.run s <;> simp [Prod.ext_iff]

theorem length_le_of_run (h : p.run s = some (a, rest)) : rest.length ≤ s.length := by
  obtain ⟨taken, rfl⟩ := exists_append_of_run h
  simp

/-- An expression that cannot be empty takes a character. -/
theorem length_lt_of_run (hempty : p.mayBeEmpty = false) (h : p.run s = some (a, rest)) :
    rest.length < s.length := by
  induction p generalizing s rest with
  | literal word =>
    obtain ⟨_, hword, hrest⟩ := Option.map_eq_some_iff.mp h
    cases hrest
    rw [afterWord?_eq_some_iff.mp hword, List.length_append]
    have := List.length_pos_iff.mpr (List.isEmpty_eq_false_iff.mp hempty)
    omega
  | char c =>
    cases s with
    | nil => cases h
    | cons x s =>
      simp only [run] at h
      split at h
      · cases h
        exact Nat.lt_succ_self _
      · cases h
  | chars c => cases hempty
  | finish => cases hempty
  | seq p q ihp ihq =>
    obtain ⟨middle, hp, hq⟩ := run_seq_iff.mp h
    have := length_le_of_run hp
    have := length_le_of_run hq
    rcases Bool.and_eq_false_iff.mp hempty with hfirst | hsecond
    · have := ihp hfirst hp
      omega
    · have := ihq hsecond hq
      omega
  | choice p q ihp ihq =>
    obtain ⟨hfirst, hsecond⟩ := Bool.or_eq_false_iff.mp hempty
    rcases run_choice_iff.mp h with hp | ⟨-, hq⟩
    · exact ihp hfirst hp
    · exact ihq hsecond hq
  | option p => cases hempty
  | star p => cases hempty
  | absent p => cases hempty
  | map f p ih =>
    obtain ⟨_, -, hp⟩ := run_map_iff.mp h
    exact ih hempty hp
  | matched p ih =>
    obtain ⟨hp, -⟩ := run_matched_iff.mp h
    exact ih hempty hp
  | named p ih => exact ih hempty h
  | token p ih => exact ih hempty h

theorem rest_of_repeated {step : List Char → Option (α × List Char)}
    (h : ∀ a rest, step (x :: s) = some (a, rest) → rest = x :: s) (fuel : Nat) :
    (repeated step fuel (x :: s)).2 = x :: s := by
  induction fuel with
  | zero => rfl
  | succ fuel ih =>
    rw [repeated]
    split
    · rfl
    · rename_i a rest found
      rw [h a rest found]
      exact ih

/-- An expression that cannot start with a character leaves it where it is. -/
theorem rest_of_run (hstart : p.mayStart x = false) (h : p.run (x :: s) = some (a, rest)) :
    rest = x :: s := by
  induction p generalizing rest with
  | literal word =>
    obtain ⟨_, hword, hrest⟩ := Option.map_eq_some_iff.mp h
    cases hrest
    cases word with
    | nil => exact (afterWord?_eq_some_iff.mp hword).symm
    | cons w word =>
      obtain ⟨rfl, -⟩ := List.cons.inj (afterWord?_eq_some_iff.mp hword)
      simp [mayStart] at hstart
  | char c =>
    change c.has x = false at hstart
    simp [run, hstart] at h
  | chars c =>
    change c.has x = false at hstart
    simp only [run, List.takeWhile_cons, List.dropWhile_cons, hstart] at h
    cases h
    rfl
  | finish => cases h
  | seq p q ihp ihq =>
    obtain ⟨hfirst, hsecond⟩ := Bool.or_eq_false_iff.mp hstart
    obtain ⟨middle, hp, hq⟩ := run_seq_iff.mp h
    obtain rfl := ihp hfirst hp
    -- The first expression took nothing, so that it is the second one's turn to start.
    have hempty : p.mayBeEmpty = true := by
      apply eq_true_of_ne_false
      intro hempty
      exact absurd (length_lt_of_run hempty hp) (Nat.lt_irrefl _)
    rw [hempty, Bool.true_and] at hsecond
    exact ihq hsecond hq
  | choice p q ihp ihq =>
    obtain ⟨hfirst, hsecond⟩ := Bool.or_eq_false_iff.mp hstart
    rcases run_choice_iff.mp h with hp | ⟨-, hq⟩
    · exact ihp hfirst hp
    · exact ihq hsecond hq
  | option p ih =>
    rcases run_option_iff.mp h with ⟨_, -, hp⟩ | ⟨-, -, hrest⟩
    · exact ih hstart hp
    · exact hrest.symm
  | star p ih =>
    rw [run, Option.some.injEq] at h
    have hrest : (repeated p.run (x :: s).length (x :: s)).2 = x :: s :=
      rest_of_repeated (fun a rest => ih hstart) _
    rw [h] at hrest
    exact hrest
  | absent p =>
    obtain ⟨-, hrest⟩ := run_absent_iff.mp h
    exact hrest.symm
  | map f p ih =>
    obtain ⟨_, -, hp⟩ := run_map_iff.mp h
    exact ih hstart hp
  | matched p ih =>
    obtain ⟨hp, -⟩ := run_matched_iff.mp h
    exact ih hstart hp
  | named p ih => exact ih hstart h
  | token p ih => exact ih hstart h

/-- An expression refuses a text that begins with none of its first characters. -/
theorem refuses_of_head (hempty : p.mayBeEmpty = false)
    (hstart : ∀ x ∈ s.head?, p.mayStart x = false) : p.Refuses s := by
  rw [Refuses, Option.eq_none_iff_forall_ne_some]
  rintro ⟨a, rest⟩ h
  have hless := length_lt_of_run hempty h
  cases s with
  | nil => exact absurd hless (Nat.not_lt_zero _)
  | cons x s =>
    rw [rest_of_run (hstart x rfl) h] at hless
    exact Nat.lt_irrefl _ hless

end Peg

end OpeningHours
