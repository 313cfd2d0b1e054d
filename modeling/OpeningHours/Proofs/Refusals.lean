import OpeningHours.Proofs.Acceptance

/-! For which reasons a rule is refused. Each step of the reading has reasons of its own: clock
spans that are no hours, names of no day, and the word that says that the hours are unknown. -/

namespace OpeningHours

/-- The reason is one of those for which clock spans cannot be the hours of a day. -/
def ReadError.IsOfHours (e : ReadError) : Prop :=
  e.kind = .invalidTime ∨ e.kind = .emptyRange ∨ e.kind = .overlappingRanges ∨
    e.kind = .spanTooLong

namespace Reading

open Weekly

variable {e : ReadError} {days : WeekdaySet} {text : List Char} {body : Body} {rule : Rule}

theorem refused_clock (h : readClock text = .error e) : e.IsOfHours := by
  simp only [readClock] at h
  split at h
  · split at h
    · cases h
    · cases h
      exact .inl rfl
  · split at h
    · cases h
    · cases h
      exact .inl rfl

theorem refused_span {span : ClockSpan} (h : readSpan span = .error e) : e.IsOfHours := by
  rcases bind_eq_error_iff.mp h with hstart | ⟨start, -, h⟩
  · exact refused_clock hstart
  rcases bind_eq_error_iff.mp h with hstop | ⟨stop, -, h⟩
  · cases hend : span.stop with
    | none => simp [hend, pure, Except.pure] at hstop
    | some text =>
      cases hread : readClock text with
      | error e' =>
        simp only [hend, Option.mapM_some, hread, Functor.map, Except.map,
          Except.error.injEq] at hstop
        exact hstop ▸ refused_clock hread
      | ok clock => simp [hend, hread, Functor.map, Except.map] at hstop
  cases stop with
  | none =>
    cases h
    exact .inl rfl
  | some stop =>
    simp only at h
    split at h
    · cases h
      exact .inr (.inl rfl)
    split at h
    · cases h
    · cases h
      exact .inr (.inr (.inr rfl))

theorem refused_stretches {first : Stretch} {more : List Stretch}
    (h : groupOfStretches days text first more = .error e) : e.IsOfHours := by
  simp only [groupOfStretches] at h
  split at h
  · cases h
    exact .inl rfl
  split at h
  · cases h
    exact .inr (.inr (.inr rfl))
  split at h <;> cases h

theorem refused_spans {stretches : List Stretch}
    (h : groupOfSpans days text stretches = .error e) : e.IsOfHours := by
  rw [groupOfSpans] at h
  cases hsorted : sortOn (·.start.minute) stretches with
  | nil =>
    simp only [hsorted, Except.error.injEq] at h
    exact h ▸ .inl rfl
  | cons first rest =>
    cases hjoined : joinStretches first rest with
    | none =>
      simp only [hsorted, hjoined, Except.error.injEq] at h
      exact h ▸ .inr (.inr (.inl rfl))
    | some joined =>
      cases joined with
      | nil =>
        simp only [hsorted, hjoined, Except.error.injEq] at h
        exact h ▸ .inl rfl
      | cons current more =>
        simp only [hsorted, hjoined] at h
        exact refused_stretches h

/-- Hours are refused because their spans are none, or because they are said to be unknown. -/
theorem refused_body (h : readBody days text body = .error e) :
    e.IsOfHours ∨ body = .modifier .unknown ∧
      e = .unsupported .unknownModifier (String.ofList (Text.trim text)) := by
  cases body with
  | modifier m =>
    cases m with
    | unknown => exact .inr ⟨rfl, (Except.error.inj h).symm⟩
    | opened => cases h
    | closed => cases h
  | clocks selector =>
    rcases bind_eq_error_iff.mp h with hspans | ⟨stretches, -, h⟩
    · obtain ⟨span, -, hspan⟩ := exists_of_mapM_error hspans
      exact .inl (refused_span hspan)
    · exact .inl (refused_spans h)

theorem refused_rules {rules : List Rule} (h : readRules rules = .error e) :
    rules.mapM readRule = .error e := by
  rcases bind_eq_error_iff.mp h with hgroups | ⟨groups, -, hnone⟩
  · exact hgroups
  · cases hnone

end Reading

end OpeningHours
