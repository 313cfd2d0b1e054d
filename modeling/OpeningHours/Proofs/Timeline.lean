import OpeningHours.Proofs.Spans

/-! What a timeline resolves to: the minutes that some window has and no blocked period, as
separated spans. -/

namespace OpeningHours

namespace Span

variable {minute : Int}

theorem covers_without {window blocked : Span} :
    Covers (window.without blocked) minute ↔ minute ∈ window ∧ minute ∉ blocked := mem_without

theorem without_nonempty {window blocked piece : Span} (h : window.start < window.stop)
    (hpiece : piece ∈ window.without blocked) : piece.start < piece.stop := by
  simp only [without] at hpiece
  split at hpiece
  · obtain rfl := List.mem_singleton.mp hpiece
    exact h
  · rcases List.mem_append.mp hpiece with hleft | hright
    · split at hleft
      · obtain rfl := List.mem_singleton.mp hleft
        assumption
      · cases hleft
    · split at hright
      · obtain rfl := List.mem_singleton.mp hright
        assumption
      · cases hright

theorem sortedOn_joined {current next : Span} {rest : List Span} (stop : Int)
    (h : SortedOn Span.start (current :: next :: rest)) :
    SortedOn Span.start (⟨current.start, stop⟩ :: rest) := by
  have hcurrent := List.pairwise_cons.mp h
  refine List.pairwise_cons.mpr ⟨?_, (List.pairwise_cons.mp hcurrent.2).2⟩
  intro span hspan
  exact hcurrent.1 span (List.mem_cons_of_mem _ hspan)

theorem covers_joinFrom {current : Span} {rest : List Span}
    (h : SortedOn Span.start (current :: rest)) :
    Covers (joinFrom current rest) minute ↔ minute ∈ current ∨ Covers rest minute := by
  induction rest generalizing current with
  | nil => simp [joinFrom]
  | cons next rest ih =>
    have hcurrent := List.pairwise_cons.mp h
    have hle := hcurrent.1 next (by simp)
    rw [joinFrom, covers_cons]
    split
    · rw [ih (sortedOn_joined _ h), ← or_assoc]
      refine or_congr ?_ Iff.rfl
      simp only [mem_iff]
      omega
    · rw [covers_cons, ih hcurrent.2]

theorem start_le_of_mem_joinFrom {current span : Span} {rest : List Span}
    (h : SortedOn Span.start (current :: rest)) (hspan : span ∈ joinFrom current rest) :
    current.start ≤ span.start := by
  induction rest generalizing current with
  | nil =>
    obtain rfl := List.mem_singleton.mp hspan
    exact Int.le_refl _
  | cons next rest ih =>
    have hcurrent := List.pairwise_cons.mp h
    rw [joinFrom] at hspan
    split at hspan
    · exact (ih (sortedOn_joined (max current.stop next.stop) h) hspan :)
    · rcases List.mem_cons.mp hspan with rfl | hlater
      · exact Int.le_refl _
      · exact Int.le_trans (hcurrent.1 next (by simp)) (ih hcurrent.2 hlater)

theorem joinFrom_separated {current : Span} {rest : List Span}
    (h : SortedOn Span.start (current :: rest))
    (hlength : ∀ span ∈ current :: rest, span.start < span.stop) :
    Separated (joinFrom current rest) := by
  induction rest generalizing current with
  | nil => exact ⟨hlength current (by simp), by simp, trivial⟩
  | cons next rest ih =>
    have hcurrent := List.pairwise_cons.mp h
    have hfirst := hlength current (by simp)
    rw [joinFrom]
    split
    · apply ih (sortedOn_joined _ h)
      intro span hspan
      rcases List.mem_cons.mp hspan with rfl | hrest
      · simp only
        omega
      · exact hlength span (by simp [hrest])
    · refine ⟨hfirst, fun span hspan => ?_, ih hcurrent.2 fun span hspan =>
        hlength span (List.mem_cons_of_mem _ hspan)⟩
      have := start_le_of_mem_joinFrom hcurrent.2 hspan
      omega

theorem covers_join {spans : List Span} (h : SortedOn Span.start spans) :
    Covers (join spans) minute ↔ Covers spans minute := by
  cases spans with
  | nil => rfl
  | cons first rest => rw [join, covers_joinFrom h, covers_cons]

theorem join_separated {spans : List Span} (h : SortedOn Span.start spans)
    (hlength : ∀ span ∈ spans, span.start < span.stop) : Separated (join spans) := by
  cases spans with
  | nil => trivial
  | cons first rest => exact joinFrom_separated h hlength

end Span

namespace Timeline

open OpeningHours.Span

variable {minute : Int}

/-- Blocking one period after the other leaves the minutes that none of them has. -/
theorem covers_blocking {blocked spans : List Span} :
    Covers (blocked.foldl (fun pieces period => pieces.flatMap (·.without period)) spans) minute ↔
      Covers spans minute ∧ ¬Covers blocked minute := by
  induction blocked generalizing spans with
  | nil => simp
  | cons period rest ih =>
    rw [List.foldl_cons, ih, covers_flatMap, covers_cons, not_or, ← and_assoc]
    refine and_congr ?_ Iff.rfl
    simp only [covers_without]
    constructor
    · rintro ⟨span, hspan, hin, hout⟩
      exact ⟨⟨span, hspan, hin⟩, hout⟩
    · rintro ⟨⟨span, hspan, hin⟩, hout⟩
      exact ⟨span, hspan, hin, hout⟩

theorem blocking_nonempty {blocked spans : List Span}
    (h : ∀ span ∈ spans, span.start < span.stop) :
    ∀ piece ∈ blocked.foldl (fun pieces period => pieces.flatMap (·.without period)) spans,
      piece.start < piece.stop := by
  induction blocked generalizing spans with
  | nil => exact h
  | cons period rest ih =>
    apply ih
    intro piece hpiece
    obtain ⟨span, hspan, hin⟩ := List.mem_flatMap.mp hpiece
    exact without_nonempty (h span hspan) hin

theorem pieces_nonempty (timeline : Timeline) :
    ∀ piece ∈ timeline.pieces, piece.start < piece.stop :=
  blocking_nonempty fun span hspan => by simpa using (List.mem_filter.mp hspan).2

/-- A minute is open when a window has it and no blocked period does. -/
theorem covers_openSpans {timeline : Timeline} :
    Covers timeline.openSpans minute ↔
      Covers timeline.windows minute ∧ ¬Covers timeline.blocked minute := by
  rw [openSpans, covers_join (sortOn_sorted _ _), covers_sortOn, pieces, covers_blocking,
    covers_filter_nonempty]

theorem openSpans_separated (timeline : Timeline) : Separated timeline.openSpans :=
  join_separated (sortOn_sorted _ _) fun span hspan =>
    timeline.pieces_nonempty span (mem_sortOn.mp hspan)

/-- A timeline resolves to the one list of separated spans that has its open minutes. -/
theorem openSpans_eq_iff {timeline : Timeline} {spans : List Span} :
    timeline.openSpans = spans ↔ Separated spans ∧ ∀ minute,
      Covers spans minute ↔ Covers timeline.windows minute ∧ ¬Covers timeline.blocked minute := by
  constructor
  · rintro rfl
    exact ⟨timeline.openSpans_separated, fun _ => covers_openSpans⟩
  · rintro ⟨hseparated, hminutes⟩
    apply timeline.openSpans_separated.eq_of_covers_iff hseparated
    intro minute
    rw [covers_openSpans, hminutes minute]

/-- A timeline is open in the minutes that some window has and no blocked period does, whatever the
windows and periods are, without length or backwards among them. It resolves to these minutes as
spans in order, each of which has a minute and stops before the next one starts, so that the order of
windows and of periods does not count. -/
theorem openSpans_canonical (timeline : Timeline) :
    (∀ minute, Covers timeline.openSpans minute ↔
      Covers timeline.windows minute ∧ ¬Covers timeline.blocked minute) ∧
    SortedOn Span.start timeline.openSpans ∧
    (∀ span ∈ timeline.openSpans, span.start < span.stop) ∧
    timeline.openSpans.Pairwise (fun span next => span.stop < next.start) ∧
    ∀ other : Timeline, other.windows.Perm timeline.windows →
      other.blocked.Perm timeline.blocked → other.openSpans = timeline.openSpans := by
  have hseparated := timeline.openSpans_separated
  obtain ⟨hlength, hgaps⟩ := separated_iff_pairwise.mp hseparated
  refine ⟨fun _ => covers_openSpans, hseparated.sorted, hlength, hgaps, ?_⟩
  intro other hwindows hblocked
  refine openSpans_eq_iff.mpr ⟨hseparated, fun minute => ?_⟩
  rw [covers_openSpans, covers_perm hwindows, covers_perm hblocked]

/-- Windows that overlap or touch, and one without a minute. A period that is blocked backwards
splits a window into pieces that overlap, and they join again. -/
theorem openSpans_canonical_backwards :
    let windows : List Span := [⟨540, 720⟩, ⟨100, 100⟩, ⟨-120, 60⟩, ⟨720, 1080⟩, ⟨660, 780⟩]
    let blocked : List Span := [⟨700, 600⟩, ⟨1000, 1020⟩, ⟨0, 0⟩]
    (⟨windows, blocked⟩ : Timeline).openSpans = [⟨-120, 60⟩, ⟨540, 1000⟩, ⟨1020, 1080⟩] ∧
      (⟨windows.reverse, blocked.reverse⟩ : Timeline).openSpans =
        (⟨windows, blocked⟩ : Timeline).openSpans := by
  intro windows blocked
  exact ⟨by decide, (openSpans_canonical ⟨windows, blocked⟩).2.2.2.2 _
    windows.reverse_perm blocked.reverse_perm⟩

end Timeline

end OpeningHours
