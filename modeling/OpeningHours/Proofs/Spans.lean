import OpeningHours.Timeline

/-! Lists of spans as sets of minutes. `Covers` is the view of a list, and `Separated` the form in
which each set of minutes has one list: spans of some length, in order, with gaps between them. The
gaps that closed spans leave in a window, and the spans that blocked periods leave on a timeline,
are exact on the view and separated. -/

namespace OpeningHours

namespace Span

/-- Some span of the list has the minute. -/
def Covers (spans : List Span) (minute : Int) : Prop := ∃ span ∈ spans, minute ∈ span

instance (spans : List Span) (minute : Int) : Decidable (Covers spans minute) :=
  inferInstanceAs (Decidable (∃ span ∈ spans, _))

/-- Each span has a minute, and it stops before any later span of the list starts. -/
def Separated : List Span → Prop
  | [] => True
  | span :: rest =>
    span.start < span.stop ∧ (∀ next ∈ rest, span.stop < next.start) ∧ Separated rest

section Covers

variable {span : Span} {spans more : List Span} {minute : Int}

@[simp] theorem covers_nil : ¬Covers [] minute := by simp [Covers]

@[simp] theorem covers_cons :
    Covers (span :: spans) minute ↔ minute ∈ span ∨ Covers spans minute := by
  simp [Covers]

theorem covers_flatMap {f : α → List Span} {xs : List α} :
    Covers (xs.flatMap f) minute ↔ ∃ x ∈ xs, Covers (f x) minute := by
  simp only [Covers, List.mem_flatMap]
  constructor
  · rintro ⟨span, ⟨x, hx, hspan⟩, hm⟩
    exact ⟨x, hx, span, hspan, hm⟩
  · rintro ⟨x, hx, span, hspan, hm⟩
    exact ⟨span, ⟨x, hx, hspan⟩, hm⟩

theorem covers_map_shift {minutes : Int} :
    Covers (spans.map (·.shift minutes)) minute ↔ Covers spans (minute - minutes) := by
  simp only [Covers, List.mem_map, mem_iff]
  constructor
  · rintro ⟨_, ⟨span, hspan, rfl⟩, hm⟩
    rw [start_shift, stop_shift] at hm
    exact ⟨span, hspan, by omega⟩
  · rintro ⟨span, hspan, hm⟩
    refine ⟨_, ⟨span, hspan, rfl⟩, ?_⟩
    rw [start_shift, stop_shift]
    omega

theorem covers_filter_nonempty :
    Covers (spans.filter fun span => span.start < span.stop) minute ↔ Covers spans minute := by
  simp only [Covers, List.mem_filter, decide_eq_true_eq]
  constructor
  · rintro ⟨span, ⟨hspan, -⟩, hm⟩
    exact ⟨span, hspan, hm⟩
  · rintro ⟨span, hspan, hm⟩
    exact ⟨span, ⟨hspan, by rw [mem_iff] at hm; omega⟩, hm⟩

theorem covers_sortOn : Covers (sortOn Span.start spans) minute ↔ Covers spans minute := by
  simp [Covers]

/-- The order of the spans does not count. -/
theorem covers_perm (h : spans.Perm more) : Covers spans minute ↔ Covers more minute := by
  simp only [Covers, h.mem_iff]

end Covers

theorem separated_iff_pairwise {spans : List Span} : Separated spans ↔
    (∀ span ∈ spans, span.start < span.stop) ∧
      spans.Pairwise fun span next => span.stop < next.start := by
  induction spans with
  | nil => simp [Separated]
  | cons first rest ih =>
    rw [Separated, ih, List.forall_mem_cons, List.pairwise_cons]
    constructor
    · rintro ⟨hfirst, hgap, hlength, hrest⟩
      exact ⟨⟨hfirst, hlength⟩, hgap, hrest⟩
    · rintro ⟨⟨hfirst, hlength⟩, hgap, hrest⟩
      exact ⟨hfirst, hgap, hlength, hrest⟩

namespace Separated

variable {span : Span} {spans rest : List Span} {minute : Int}

theorem tail (h : Separated (span :: rest)) : Separated rest := h.2.2

theorem start_lt_stop (h : Separated spans) (hspan : span ∈ spans) : span.start < span.stop :=
  (separated_iff_pairwise.mp h).1 span hspan

theorem sorted (h : Separated spans) : SortedOn Span.start spans := by
  induction spans with
  | nil => exact List.Pairwise.nil
  | cons first rest ih =>
    refine List.pairwise_cons.mpr ⟨?_, ih h.tail⟩
    intro next hnext
    have := h.2.1 next hnext
    have := h.1
    omega

theorem start_le (h : Separated (span :: rest)) :
    ∀ next ∈ span :: rest, span.start ≤ next.start := by
  have hsorted := List.pairwise_cons.mp h.sorted
  exact List.forall_mem_cons.mpr ⟨Int.le_refl _, hsorted.1⟩

/-- The minute at which a span stops is in no span: the spans are as long as they can be. -/
theorem not_covers_stop (h : Separated spans) (hspan : span ∈ spans) : ¬Covers spans span.stop := by
  induction spans with
  | nil => cases hspan
  | cons first rest ih =>
    rw [covers_cons, mem_iff]
    rintro (hfirst | hrest)
    · rcases List.mem_cons.mp hspan with rfl | hlater
      · omega
      · have := h.2.1 span hlater
        have := h.tail.start_lt_stop hlater
        omega
    · rcases List.mem_cons.mp hspan with rfl | hlater
      · obtain ⟨next, hnext, hm⟩ := hrest
        have := h.2.1 next hnext
        rw [mem_iff] at hm
        omega
      · exact ih h.tail hlater hrest

/-- Before the first span that starts after a minute, nothing is open that is not open at the
minute. -/
theorem not_covers_before_next (h : Separated spans) (hm : ¬Covers spans minute)
    (hnext : spans.find? (fun span => minute < span.start) = some span) {other : Int}
    (hfrom : minute ≤ other) (hto : other < span.start) : ¬Covers spans other := by
  induction spans with
  | nil => cases hnext
  | cons first rest ih =>
    rw [covers_cons, not_or, mem_iff] at hm ⊢
    rw [List.find?_cons] at hnext
    split at hnext
    · obtain rfl : first = span := by simpa using hnext
      refine ⟨by omega, ?_⟩
      rintro ⟨next, hlater, hin⟩
      have := h.2.1 next hlater
      have := h.1
      rw [mem_iff] at hin
      omega
    · rename_i hstart
      have : ¬minute < first.start := by simpa using hstart
      exact ⟨by omega, ih h.tail hm.2 hnext⟩

theorem start_le_of_covers (h : Separated (span :: rest)) (hm : Covers (span :: rest) minute) :
    span.start ≤ minute := by
  obtain ⟨first, hfirst, hin⟩ := hm
  have := h.start_le first hfirst
  rw [mem_iff] at hin
  omega

theorem covers_tail_iff (h : Separated (span :: rest)) :
    Covers rest minute ↔ Covers (span :: rest) minute ∧ span.stop ≤ minute := by
  rw [covers_cons, mem_iff]
  constructor
  · rintro ⟨next, hnext, hin⟩
    have := h.2.1 next hnext
    rw [mem_iff] at hin
    exact ⟨.inr ⟨next, hnext, hin⟩, by omega⟩
  · rintro ⟨hfirst | hrest, hstop⟩
    · omega
    · exact hrest

/-- A set of minutes has one list of separated spans. -/
theorem eq_of_covers_iff {more : List Span} (h : Separated spans) (hmore : Separated more)
    (hcovers : ∀ minute, Covers spans minute ↔ Covers more minute) : spans = more := by
  induction spans generalizing more with
  | nil =>
    cases more with
    | nil => rfl
    | cons other _ =>
      exact absurd ((hcovers other.start).mpr
        (covers_cons.mpr (.inl ⟨Int.le_refl _, hmore.1⟩))) covers_nil
  | cons first rest ih =>
    cases more with
    | nil =>
      exact absurd ((hcovers first.start).mp
        (covers_cons.mpr (.inl ⟨Int.le_refl _, h.1⟩))) covers_nil
    | cons other more =>
      have hlength := h.1
      have hlength' := hmore.1
      have hstart : first.start = other.start := by
        have hle := h.start_le_of_covers ((hcovers other.start).mpr
          (covers_cons.mpr (.inl ⟨Int.le_refl _, hlength'⟩)))
        have hge := hmore.start_le_of_covers ((hcovers first.start).mp
          (covers_cons.mpr (.inl ⟨Int.le_refl _, hlength⟩)))
        omega
      -- A span that went on past the other one's end would have a minute that the other list lacks.
      have hstop : first.stop = other.stop := by
        have hle : ¬first.stop < other.stop := fun hlt =>
          h.not_covers_stop (List.mem_cons_self ..) ((hcovers first.stop).mpr
            (covers_cons.mpr (.inl ⟨by omega, hlt⟩)))
        have hge : ¬other.stop < first.stop := fun hlt =>
          hmore.not_covers_stop (List.mem_cons_self ..) ((hcovers other.stop).mp
            (covers_cons.mpr (.inl ⟨by omega, hlt⟩)))
        omega
      have hrest : rest = more := ih h.tail hmore.tail fun minute => by
        rw [h.covers_tail_iff, hmore.covers_tail_iff, hcovers minute, hstop]
      have hfirst : first = other := by
        cases first
        cases other
        simp only at hstart hstop
        rw [hstart, hstop]
      rw [hfirst, hrest]

end Separated

/-! ### The gaps between closed spans -/

section Gaps

variable {window : Span} {cursor minute : Int} {closed : List Span} {span : Span}

theorem gaps_bounds (hcursor : window.start ≤ cursor) (h : span ∈ gaps window cursor closed) :
    cursor ≤ span.start ∧ span.start < span.stop ∧ span.stop ≤ window.stop := by
  induction closed generalizing cursor with
  | nil =>
    rw [gaps] at h
    split at h
    · obtain rfl := List.mem_singleton.mp h
      exact ⟨Int.le_refl _, by assumption, Int.le_refl _⟩
    · cases h
  | cons first rest ih =>
    simp only [gaps] at h
    have later : span ∈ gaps window
        (max cursor (max window.start (min first.stop window.stop))) rest →
        cursor ≤ span.start ∧ span.start < span.stop ∧ span.stop ≤ window.stop := by
      intro hspan
      obtain ⟨hstart, hlength, hstop⟩ := ih (by omega) hspan
      exact ⟨by omega, hlength, hstop⟩
    split at h
    · rcases List.mem_cons.mp h with rfl | hrest
      · exact ⟨Int.le_refl _, by assumption, by simp only; omega⟩
      · exact later hrest
    · exact later h

/-- The gaps have the minutes of the window from the cursor on that no closed span has. -/
theorem covers_gaps (hcursor : window.start ≤ cursor) (hclosed : SortedOn Span.start closed) :
    Covers (gaps window cursor closed) minute ↔
      cursor ≤ minute ∧ minute < window.stop ∧ ∀ span ∈ closed, minute ∉ span := by
  induction closed generalizing cursor with
  | nil =>
    rw [gaps]
    split
    · simp [mem_iff]
    · simp only [covers_nil, List.not_mem_nil, false_implies, implies_true, and_true, false_iff]
      omega
  | cons first rest ih =>
    have hfirst := List.pairwise_cons.mp hclosed
    have hpast : window.start ≤ max cursor (max window.start (min first.stop window.stop)) := by
      omega
    have later := ih hpast hfirst.2
    -- A minute before the first closed span is in no later one, as those start no earlier.
    have before : minute < first.start → ∀ span ∈ rest, minute ∉ span := by
      intro hminute span hspan
      have := hfirst.1 span hspan
      rw [mem_iff]
      omega
    simp only [gaps, List.forall_mem_cons, @mem_iff minute first]
    split
    · rw [covers_cons, later, mem_iff]
      constructor
      · rintro (hgap | ⟨hfrom, hto, hrest⟩)
        · simp only at hgap
          exact ⟨by omega, by omega, by omega, before (by omega)⟩
        · exact ⟨by omega, hto, by omega, hrest⟩
      · rintro ⟨hfrom, hto, hnot, hrest⟩
        by_cases hminute : minute < first.start
        · left
          simp only
          omega
        · right
          exact ⟨by omega, hto, hrest⟩
    · rw [later]
      constructor
      · rintro ⟨hfrom, hto, hrest⟩
        exact ⟨by omega, hto, by omega, hrest⟩
      · rintro ⟨hfrom, hto, hnot, hrest⟩
        exact ⟨by omega, hto, hrest⟩

theorem gaps_separated (hcursor : window.start ≤ cursor)
    (hlength : ∀ span ∈ closed, span.start < span.stop) :
    Separated (gaps window cursor closed) := by
  induction closed generalizing cursor with
  | nil =>
    rw [gaps]
    split
    · exact ⟨by assumption, by simp, trivial⟩
    · trivial
  | cons first rest ih =>
    have hfirst := hlength first (by simp)
    have hpast : window.start ≤ max cursor (max window.start (min first.stop window.stop)) := by
      omega
    have later := ih hpast fun span hspan => hlength span (List.mem_cons_of_mem _ hspan)
    simp only [gaps]
    split
    · refine ⟨by assumption, ?_, later⟩
      intro next hnext
      obtain ⟨hstart, hnonempty, hstop⟩ := gaps_bounds (by omega) hnext
      simp only
      omega
    · exact later

end Gaps

end Span

end OpeningHours
