import OpeningHours.Sorting
import OpeningHours.Span

/-! Open windows and blocked periods on one axis of minutes. A minute is open when a window has it
and no blocked period does. `Timeline.openSpans` gives the open minutes as spans in order, each of
which is as long as it can be. -/

namespace OpeningHours

namespace Span

/-- What a blocked period leaves of a window: nothing, a piece, or a piece on either side. -/
def without (window blocked : Span) : List Span :=
  if blocked.stop ≤ window.start ∨ window.stop ≤ blocked.start then [window]
  else
    (if window.start < blocked.start then [⟨window.start, blocked.start⟩] else []) ++
      (if blocked.stop < window.stop then [⟨blocked.stop, window.stop⟩] else [])

/-- Blocking takes the minutes of the blocked period away and no others. -/
theorem mem_without {window blocked : Span} {minute : Int} :
    (∃ piece ∈ window.without blocked, minute ∈ piece) ↔ minute ∈ window ∧ minute ∉ blocked := by
  simp only [without, mem_iff]
  split
  · simp only [List.mem_singleton, exists_eq_left]
    omega
  · split <;> split <;> simp <;> omega

/-- Joins spans that touch, where the spans come by rising start and `current` is the first. -/
def joinFrom (current : Span) : List Span → List Span
  | [] => [current]
  | next :: rest =>
    if next.start ≤ current.stop then joinFrom ⟨current.start, max current.stop next.stop⟩ rest
    else current :: joinFrom next rest

/-- Joins spans that touch, where the spans come by rising start. -/
def join : List Span → List Span
  | [] => []
  | first :: rest => joinFrom first rest

end Span

/-- Open windows and blocked periods, each in any order. -/
structure Timeline where
  windows : List Span
  blocked : List Span
  deriving DecidableEq, Repr

namespace Timeline

/-- What the blocked periods leave of the windows that have a length. -/
def pieces (timeline : Timeline) : List Span :=
  timeline.blocked.foldl (fun pieces period => pieces.flatMap (·.without period))
    (timeline.windows.filter fun window => window.start < window.stop)

/-- The open minutes as spans in order with gaps between them. -/
def openSpans (timeline : Timeline) : List Span :=
  Span.join (sortOn Span.start timeline.pieces)

end Timeline

end OpeningHours
