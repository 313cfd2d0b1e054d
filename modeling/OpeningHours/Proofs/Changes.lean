import OpeningHours.Proofs.Spans

/-! The first change along an axis of minutes. `ChangesAfter` says of a predicate that it keeps its
value for some minutes and has lost it after them. There is one such number at most, and no minute
of the opposite value comes before it. In separated spans the first change is the end of the span
that has the minute, or the start of the next one. -/

namespace OpeningHours

/-- The predicate is as it is at a minute for so many minutes, and the opposite then. -/
structure ChangesAfter (p : Int → Prop) (minute : Int) (minutes : Nat) : Prop where
  same : ∀ k : Nat, k < minutes → (p (minute + k) ↔ p minute)
  change : p (minute + minutes) ↔ ¬p minute

namespace ChangesAfter

variable {p q : Int → Prop} {minute other : Int} {minutes k n : Nat}

theorem pos (h : ChangesAfter p minute minutes) : 1 ≤ minutes := by
  rcases Nat.eq_zero_or_pos minutes with rfl | hpos
  · have hchange := h.change
    rw [Int.natCast_zero, Int.add_zero] at hchange
    by_cases hp : p minute <;> simp [hp] at hchange
  · exact hpos

theorem le_of_change (h : ChangesAfter p minute minutes) (hk : p (minute + k) ↔ ¬p minute) :
    minutes ≤ k := by
  apply Nat.not_lt.mp
  intro hbefore
  have hsame := h.same k hbefore
  rw [hk] at hsame
  by_cases hp : p minute <;> simp [hp] at hsame

theorem unique (h : ChangesAfter p minute minutes) (h' : ChangesAfter p minute n) :
    minutes = n :=
  Nat.le_antisymm (h.le_of_change h'.change) (h'.le_of_change h.change)

theorem exists_le (h : p (minute + k) ↔ ¬p minute) : ∃ n ≤ k, ChangesAfter p minute n := by
  induction k using Nat.strongRecOn with
  | ind k ih =>
    by_cases hearlier : ∃ j : Nat, j < k ∧ (p (minute + j) ↔ ¬p minute)
    · obtain ⟨j, hj, hchange⟩ := hearlier
      obtain ⟨n, hn, hfirst⟩ := ih j hj hchange
      exact ⟨n, by omega, hfirst⟩
    · refine ⟨k, Nat.le_refl k, fun j hj => ?_, h⟩
      apply Classical.byContradiction
      intro hother
      have hchange := Classical.not_iff.mp fun hsame => hother (Iff.symm hsame)
      exact hearlier ⟨j, hj, hchange.symm⟩

/-- The first change is the same wherever the minutes up to it are. -/
theorem transfer (h : ChangesAfter p minute minutes)
    (hpq : ∀ k : Nat, k ≤ minutes → (p (minute + k) ↔ q (other + k))) :
    ChangesAfter q other minutes := by
  have hstart : p minute ↔ q other := by simpa using hpq 0 (Nat.zero_le _)
  refine ⟨fun k hk => ?_, ?_⟩
  · rw [← hpq k (Nat.le_of_lt hk), ← hstart]
    exact h.same k hk
  · rw [← hpq minutes (Nat.le_refl _), ← hstart]
    exact h.change

theorem later (h : ChangesAfter p minute minutes) (hk : k < minutes) :
    ChangesAfter p (minute + k) (minutes - k) := by
  have hnow := h.same k hk
  refine ⟨fun j hj => ?_, ?_⟩
  · rw [hnow, Int.add_assoc, ← Int.natCast_add]
    exact h.same (k + j) (by omega)
  · rw [hnow, show minute + k + (minutes - k : Nat) = minute + minutes by omega]
    exact h.change

end ChangesAfter

namespace Span

variable {spans : List Span} {span : Span} {minute other : Int}

theorem Separated.changesAfter_stop (h : Separated spans) (hspan : span ∈ spans)
    (hminute : minute ∈ span) :
    ChangesAfter (Covers spans) minute (span.stop - minute).toNat := by
  rw [mem_iff] at hminute
  have hnow : Covers spans minute := ⟨span, hspan, hminute⟩
  refine ⟨fun k hk => iff_of_true ⟨span, hspan, ?_⟩ hnow, iff_of_false ?_ (not_not_intro hnow)⟩
  · rw [mem_iff]
    omega
  · rw [show minute + (span.stop - minute).toNat = span.stop by omega]
    exact h.not_covers_stop hspan

theorem Separated.changesAfter_start (h : Separated spans) (hminute : ¬Covers spans minute)
    (hnext : spans.find? (fun span => minute < span.start) = some span) :
    ChangesAfter (Covers spans) minute (span.start - minute).toNat := by
  have hspan := List.mem_of_find?_eq_some hnext
  have hlater : minute < span.start := by simpa using List.find?_some hnext
  refine ⟨fun k hk => iff_of_false ?_ hminute, iff_of_true ?_ hminute⟩
  · exact h.not_covers_before_next hminute hnext (by omega) (by omega)
  · rw [show minute + (span.start - minute).toNat = span.start by omega]
    exact ⟨span, hspan, Int.le_refl _, h.start_lt_stop hspan⟩

theorem not_covers_of_no_next (hminute : ¬Covers spans minute)
    (hnone : spans.find? (fun span => minute < span.start) = none) (hle : minute ≤ other) :
    ¬Covers spans other := by
  rintro ⟨span, hspan, hin⟩
  rw [mem_iff] at hin
  have hstart : ¬minute < span.start := by simpa using List.find?_eq_none.mp hnone span hspan
  exact hminute ⟨span, hspan, by omega, by omega⟩

end Span

end OpeningHours
