/-! Parsing expressions as data. An expression matches a beginning of the text, or fails: a choice
takes its first alternative that matches and never comes back to the second, and a repetition or an
option takes as much as it can. Each expression gives a value of its type, and what it matches does
not depend on those values.

`Peg.run` matches an expression. `Peg.failures` tells where the named parts of a failed match were
tried in vain, which is what a report on the text starts from. -/

namespace OpeningHours

/-- The classes of characters that the grammars of this library need. -/
inductive CharClass where
  | blank
  | digit
  | upper
  | lower
  | letter
  | notQuote
  | between (first last : Char)
  deriving DecidableEq, Repr

/-- Whether a character is in the class. Letters and digits are those of ASCII, and the blanks are
space, tab and the two characters that end lines. -/
def CharClass.has : CharClass → Char → Bool
  | blank, c => c == ' ' || c == '\t' || c == '\r' || c == '\n'
  | digit, c => '0' ≤ c && c ≤ '9'
  | upper, c => 'A' ≤ c && c ≤ 'Z'
  | lower, c => 'a' ≤ c && c ≤ 'z'
  | letter, c => ('a' ≤ c && c ≤ 'z') || ('A' ≤ c && c ≤ 'Z')
  | notQuote, c => c != '"'
  | between first last, c => first ≤ c && c ≤ last

/-- A parsing expression with a value of type `α`. -/
inductive Peg : Type → Type 1 where
  /-- The characters of a word. -/
  | literal (word : List Char) : Peg Unit
  /-- One character of a class. -/
  | char (c : CharClass) : Peg Char
  /-- All characters of a class up to the next one that is not in it. -/
  | chars (c : CharClass) : Peg (List Char)
  /-- The end of the text. -/
  | finish : Peg Unit
  /-- One expression after the other. -/
  | seq (p : Peg α) (q : Peg β) : Peg (α × β)
  /-- The first expression, or the second where the first does not match. -/
  | choice (p q : Peg α) : Peg α
  /-- The expression if it matches. -/
  | option (p : Peg α) : Peg (Option α)
  /-- The expression again and again as long as it matches. -/
  | star (p : Peg α) : Peg (List α)
  /-- Nothing, where the expression does not match. -/
  | absent (p : Peg α) : Peg Unit
  /-- The expression with another value. -/
  | map (f : α → β) (p : Peg α) : Peg β
  /-- The expression together with the characters that it matches. -/
  | matched (p : Peg α) : Peg (List Char × α)
  /-- An expression with a name of its own, which a report counts where it fails. -/
  | named (p : Peg α) : Peg α
  /-- A named expression whose parts have no names. -/
  | token (p : Peg α) : Peg α

namespace Peg

/-- What follows a word at the beginning of a text. -/
def afterWord? : List Char → List Char → Option (List Char)
  | [], s => some s
  | _ :: _, [] => none
  | w :: word, c :: s => if w = c then afterWord? word s else none

theorem afterWord?_eq_some_iff {word s rest : List Char} :
    afterWord? word s = some rest ↔ s = word ++ rest := by
  induction word generalizing s with
  | nil => simp [afterWord?]
  | cons w word ih =>
    cases s with
    | nil => simp [afterWord?]
    | cons c s =>
      by_cases h : w = c
      · simp [afterWord?, h, ih]
      · simp [afterWord?, h, Ne.symm h]

/-- Matches a step again and again, at most `fuel` times. -/
def repeated (step : List Char → Option (α × List Char)) :
    Nat → List Char → List α × List Char
  | 0, s => ([], s)
  | fuel + 1, s =>
    match step s with
    | none => ([], s)
    | some (value, rest) =>
      let (values, last) := repeated step fuel rest
      (value :: values, last)

/-- The value of an expression at the beginning of a text, with the rest of the text, or nothing if
the expression does not match. The expression of a repetition has to match a character at least, so
that the length of the text bounds the repetition. -/
def run : Peg α → List Char → Option (α × List Char)
  | literal word, s => (afterWord? word s).map ((), ·)
  | char c, s =>
    match s with
    | [] => none
    | x :: rest => if c.has x then some (x, rest) else none
  | chars c, s => some (s.takeWhile c.has, s.dropWhile c.has)
  | finish, s => if s.isEmpty then some ((), []) else none
  | seq p q, s =>
    match p.run s with
    | none => none
    | some (a, rest) =>
      match q.run rest with
      | none => none
      | some (b, last) => some ((a, b), last)
  | choice p q, s =>
    match p.run s with
    | none => q.run s
    | some result => some result
  | option p, s =>
    match p.run s with
    | none => some (none, s)
    | some (a, rest) => some (some a, rest)
  | star p, s => some (repeated p.run s.length s)
  | absent p, s => if (p.run s).isSome then none else some ((), s)
  | map f p, s =>
    match p.run s with
    | none => none
    | some (a, rest) => some (f a, rest)
  | matched p, s =>
    match p.run s with
    | none => none
    | some (a, rest) => some ((s.take (s.length - rest.length), a), rest)
  | named p, s => p.run s
  | token p, s => p.run s

theorem repeated_append {step : List Char → Option (α × List Char)}
    (h : ∀ s a rest, step s = some (a, rest) → ∃ taken, s = taken ++ rest) (fuel : Nat)
    (s : List Char) : ∃ taken, s = taken ++ (repeated step fuel s).2 := by
  induction fuel generalizing s with
  | zero => exact ⟨[], rfl⟩
  | succ fuel ih =>
    rw [repeated]
    split
    · exact ⟨[], rfl⟩
    · rename_i a rest found
      obtain ⟨first, hfirst⟩ := h s a rest found
      obtain ⟨more, hmore⟩ := ih rest
      exact ⟨first ++ more, by rw [List.append_assoc, ← hmore, hfirst]⟩

/-- An expression matches a beginning of the text. -/
theorem exists_append_of_run {p : Peg α} {s rest : List Char} {a : α}
    (h : p.run s = some (a, rest)) : ∃ taken, s = taken ++ rest := by
  induction p generalizing s rest with
  | literal word =>
    obtain ⟨_, hword, hrest⟩ := Option.map_eq_some_iff.mp h
    cases hrest
    exact ⟨word, afterWord?_eq_some_iff.mp hword⟩
  | char c =>
    cases s with
    | nil => cases h
    | cons x s =>
      simp only [run] at h
      split at h
      · cases h
        exact ⟨[_], rfl⟩
      · cases h
  | chars c =>
    cases h
    exact ⟨_, (List.takeWhile_append_dropWhile).symm⟩
  | finish =>
    rw [run] at h
    split at h
    · cases h
      exact ⟨s, by simp⟩
    · cases h
  | seq p q ihp ihq =>
    rw [run] at h
    split at h
    · cases h
    · rename_i first middle hp
      split at h
      · cases h
      · rename_i second last hq
        cases h
        obtain ⟨before, hbefore⟩ := ihp hp
        obtain ⟨after, hafter⟩ := ihq hq
        exact ⟨before ++ after, by rw [List.append_assoc, ← hafter, hbefore]⟩
  | choice p q ihp ihq =>
    rw [run] at h
    split at h
    · exact ihq h
    · rename_i hp
      cases h
      exact ihp hp
  | option p ih =>
    rw [run] at h
    split at h
    · cases h
      exact ⟨[], rfl⟩
    · rename_i hp
      cases h
      exact ih hp
  | star p ih =>
    rw [run, Option.some.injEq] at h
    obtain ⟨taken, htaken⟩ := repeated_append (fun s a rest => ih) s.length s
    exact ⟨taken, by rw [h] at htaken; exact htaken⟩
  | absent p =>
    rw [run] at h
    split at h
    · cases h
    · cases h
      exact ⟨[], rfl⟩
  | map f p ih =>
    rw [run] at h
    split at h
    · cases h
    · rename_i hp
      cases h
      exact ih hp
  | matched p ih =>
    rw [run] at h
    split at h
    · cases h
    · rename_i hp
      cases h
      exact ih hp
  | named p ih => exact ih h
  | token p ih => exact ih h

/-- The text of a match is what lies between the place where it starts and the rest. -/
theorem run_matched_iff {p : Peg α} {s text rest : List Char} {a : α} :
    (matched p).run s = some ((text, a), rest) ↔ p.run s = some (a, rest) ∧ s = text ++ rest := by
  rw [run]
  constructor
  · intro h
    split at h
    · cases h
    · rename_i hp
      cases h
      obtain ⟨taken, rfl⟩ := exists_append_of_run hp
      exact ⟨hp, by simp⟩
  · rintro ⟨hp, rfl⟩
    rw [hp]
    simp

/-- The failures of a repetition whose step is `step` and whose failures at a text are `inner`. -/
def repeatedFailures (step : List Char → Option (α × List Char))
    (inner : List Char → List (List Char)) : Nat → List Char → List (List Char)
  | 0, s => inner s
  | fuel + 1, s =>
    inner s ++
      match step s with
      | none => []
      | some (_, rest) => repeatedFailures step inner fuel rest

/-- The rests of the text at which a named expression, or the end of the text, was tried in vain,
also where the match went on with another alternative. What must be absent is not counted. -/
def failures : Peg α → List Char → List (List Char)
  | literal _, _ => []
  | char _, _ => []
  | chars _, _ => []
  | finish, s => if s.isEmpty then [] else [s]
  | seq p q, s =>
    p.failures s ++
      match p.run s with
      | none => []
      | some (_, rest) => q.failures rest
  | choice p q, s => p.failures s ++ if (p.run s).isSome then [] else q.failures s
  | option p, s => p.failures s
  | star p, s => repeatedFailures p.run p.failures s.length s
  | absent _, _ => []
  | map _ p, s => p.failures s
  | matched p, s => p.failures s
  | named p, s => if (p.run s).isSome then p.failures s else s :: p.failures s
  | token p, s => if (p.run s).isSome then [] else [s]

/-- The rest of the text at the last place where a named expression failed, or the whole text. -/
def furthest (p : Peg α) (s : List Char) : List Char :=
  (p.failures s).foldl (fun best rest => if rest.length < best.length then rest else best) s

/-- Blanks, if any. -/
def blanks : Peg (List Char) := chars .blank

/-- The second of two expressions, with the value of the second. -/
def after (p : Peg α) (q : Peg β) : Peg β := map Prod.snd (seq p q)

/-- The first of two expressions, with the value of the first. -/
def before (p : Peg α) (q : Peg β) : Peg α := map Prod.fst (seq p q)

/-- The expression with blanks in front. -/
def spaced (p : Peg α) : Peg α := after blanks p

/-- The expression with blanks around it. -/
def padded (p : Peg α) : Peg α := after blanks (before p blanks)

/-- One expression or more with commas between them. -/
def commaList (p : Peg α) : Peg (List α) :=
  map (fun (first, more) => first :: more)
    (seq p (star (after (padded (literal [','])) p)))

/-- The expression as the whole text, blanks around it aside. -/
def document (p : Peg α) : Peg α := before (padded p) finish

/-- The characters that an expression matches. -/
def text (p : Peg α) : Peg (List Char) := map Prod.fst (matched p)

/-- Whether an expression matches the beginning of a text. -/
def matches? (p : Peg α) (s : List Char) : Bool := (p.run s).isSome

end Peg

end OpeningHours
