import OpeningHours.Proofs.Stretches

/-! Which clock spans can be the hours of one rule. The spans are sorted and joined before they are
measured, and the outcome says the same as conditions on pairs of spans in the order in which they
are written. -/

namespace OpeningHours

open OpeningHours.Span Reading

namespace Span

/-- The minutes between two written clock times: an end before the start is on the next day. -/
def lift (written : Span) : Span := ⟨written.start, liftStop written.start written.stop⟩

/-- The checks of a single written span. It has two different clock times, does not stop before it
starts, and reaches neither over a day nor past the second day. -/
structure Passes (written : Span) : Prop where
  distinct : written.start ≠ written.stop
  forward : written.start ≤ written.lift.stop
  within_day : written.lift.stop ≤ written.start + minutesPerDay
  stop_le : written.lift.stop ≤ lastMinute

/-- The spans start on the day itself and reach over a day at most, and over a whole day only if
they leave no minute of it out. -/
structure OneDay (spans : List Span) : Prop where
  starts_early : ∃ span ∈ spans, span.start < minutesPerDay
  within_day : ∀ a ∈ spans, ∀ b ∈ spans, b.stop ≤ a.start + minutesPerDay
  no_gap : ∀ a ∈ spans, ∀ b ∈ spans, b.stop = a.start + minutesPerDay →
    ∀ minute, a.start ≤ minute → minute < b.stop → Covers spans minute

/-- The span that starts first stops before the other one starts. The first of two spans that start
together is the one that is written first. -/
def Clear (a b : Span) : Prop := if a.start ≤ b.start then a.stop ≤ b.start else b.stop ≤ a.start

variable {a b : Span} {spans spans' : List Span} {minute : Int}

theorem clear_iff_not_overlaps (ha : a.start < a.stop) (hb : b.start < b.stop) :
    a.Clear b ↔ ¬a.Overlaps b := by
  simp only [Clear, Overlaps]
  split <;> omega

theorem Covers.congr (h : ∀ span, span ∈ spans ↔ span ∈ spans') :
    Covers spans minute ↔ Covers spans' minute := by
  simp only [Covers, h]

theorem OneDay.of_mem_iff (h : ∀ span, span ∈ spans ↔ span ∈ spans') (hday : OneDay spans) :
    OneDay spans' := by
  obtain ⟨⟨span, hspan, hearly⟩, hwithin, hgap⟩ := hday
  refine ⟨⟨span, (h span).mp hspan, hearly⟩, fun a ha b hb => ?_, fun a ha b hb htotal m hm => ?_⟩
  · exact hwithin a ((h a).mpr ha) b ((h b).mpr hb)
  · intro hm'
    exact (Covers.congr h).mp (hgap a ((h a).mpr ha) b ((h b).mpr hb) htotal m hm hm')

theorem OneDay.congr (h : ∀ span, span ∈ spans ↔ span ∈ spans') :
    OneDay spans ↔ OneDay spans' := ⟨of_mem_iff h, of_mem_iff fun span => (h span).symm⟩

/-- Each span stops before any later span of the list starts, or as that one starts. -/
def InOrder (spans : List Span) : Prop := spans.Pairwise fun a b => a.stop ≤ b.start

/-- No span stops before it starts. -/
def Forward (spans : List Span) : Prop := ∀ span ∈ spans, span.start ≤ span.stop

/-- Written spans that can be the hours of a rule: each has a minute and reaches neither over a day
nor past the second day, no two of them overlap, and they keep to one day. -/
structure Acceptable (written : List Span) : Prop where
  length : ∀ span ∈ written, span.start < span.lift.stop ∧
    span.lift.stop ≤ span.start + minutesPerDay ∧ span.lift.stop ≤ lastMinute
  apart : (written.map lift).Pairwise fun a b => ¬a.Overlaps b
  oneDay : OneDay (written.map lift)

/-- Written spans that are read as the hours of a rule. A span without a minute can be among them:
its end is a day before its start, and it is on the second day when it is moved. -/
structure Passable (written : List Span) : Prop where
  passes : ∀ span ∈ written, span.Passes
  clear : (written.map lift).Pairwise Clear
  oneDay : OneDay (written.map lift)

theorem passes_iff_of_lt {written : Span} (h : written.start < written.lift.stop) :
    written.Passes ↔ written.lift.stop ≤ written.start + minutesPerDay ∧
      written.lift.stop ≤ lastMinute := by
  constructor
  · exact fun hpass => ⟨hpass.within_day, hpass.stop_le⟩
  · rintro ⟨hday, hlast⟩
    refine ⟨fun heq => ?_, Int.le_of_lt h, hday, hlast⟩
    simp only [lift, liftStop] at h
    split at h <;> omega

theorem clear_pairwise_iff {written : List Span}
    (h : ∀ span ∈ written, span.start < span.lift.stop) :
    (written.map lift).Pairwise Clear ↔ (written.map lift).Pairwise fun a b => ¬a.Overlaps b := by
  rw [List.pairwise_map, List.pairwise_map]
  exact List.Pairwise.iff_of_mem fun ha hb => clear_iff_not_overlaps (h _ ha) (h _ hb)

/-- The reader accepts too much only where a span has no minute. -/
theorem acceptable_iff {written : List Span} :
    Acceptable written ↔ Passable written ∧ ∀ span ∈ written, span.start < span.lift.stop := by
  constructor
  · rintro ⟨hlength, hapart, hday⟩
    have hsome : ∀ span ∈ written, span.start < span.lift.stop := fun span hspan =>
      (hlength span hspan).1
    refine ⟨⟨fun span hspan => ?_, (clear_pairwise_iff hsome).mpr hapart, hday⟩, hsome⟩
    exact (passes_iff_of_lt (hsome span hspan)).mpr (hlength span hspan).2
  · rintro ⟨⟨hpasses, hclear, hday⟩, hsome⟩
    refine ⟨fun span hspan => ⟨hsome span hspan, ?_⟩, (clear_pairwise_iff hsome).mp hclear, hday⟩
    exact (passes_iff_of_lt (hsome span hspan)).mp (hpasses span hspan)

section InOrder

variable {first next : Span} {more : List Span}

theorem InOrder.start_le (h : InOrder (first :: more)) (hforward : Forward (first :: more)) :
    ∀ span ∈ first :: more, first.start ≤ span.start := by
  intro span hspan
  rcases List.mem_cons.mp hspan with rfl | hmore
  · exact Int.le_refl _
  · exact Int.le_trans (hforward first (by simp)) ((List.pairwise_cons.mp h).1 span hmore)

theorem InOrder.stop_le_last (h : InOrder (first :: more)) (hforward : Forward (first :: more)) :
    ∀ span ∈ first :: more, span.stop ≤ (more.getLast?.getD first).stop := by
  induction more generalizing first with
  | nil => simp
  | cons next rest ih =>
    obtain ⟨hfirst, htail⟩ := List.pairwise_cons.mp h
    have hrest := ih htail fun span hspan => hforward span (List.mem_cons_of_mem _ hspan)
    have hgap := hfirst next (by simp)
    have hlength := hforward next (by simp)
    have hnext := hrest next (by simp)
    rw [List.getLast?_cons, Option.getD_some]
    exact List.forall_mem_cons.mpr ⟨by omega, hrest⟩

theorem inOrder_cons_iff (hnext : next.start ≤ next.stop) : InOrder (first :: next :: more) ↔
    first.stop ≤ next.start ∧ InOrder (next :: more) := by
  simp only [InOrder, List.pairwise_cons, List.forall_mem_cons]
  constructor
  · rintro ⟨⟨hgap, -⟩, hrest⟩
    exact ⟨hgap, hrest⟩
  · rintro ⟨hgap, hlater, hrest⟩
    refine ⟨⟨hgap, fun span hspan => ?_⟩, hlater, hrest⟩
    have := hlater span hspan
    omega

/-- The minute at which the first span stops belongs to none if there is a gap after it. -/
theorem InOrder.not_covers_stop (h : InOrder (first :: next :: more))
    (hforward : Forward (next :: more)) (hgap : first.stop < next.start) :
    ¬Covers (first :: next :: more) first.stop := by
  have hstart := InOrder.start_le (List.pairwise_cons.mp h).2 hforward
  rintro ⟨span, hspan, hminute⟩
  rw [mem_iff] at hminute
  rcases List.mem_cons.mp hspan with rfl | hmore
  · exact Int.lt_irrefl _ hminute.2
  · have := hstart span hmore
    omega

/-- Of spans in order only the first and the last one matter. -/
theorem oneDay_iff (h : InOrder (first :: more)) (hforward : Forward (first :: more)) :
    OneDay (first :: more) ↔ first.start < minutesPerDay ∧
      (more.getLast?.getD first).stop ≤ first.start + minutesPerDay ∧
      ((more.getLast?.getD first).stop = first.start + minutesPerDay →
        ∀ minute, first.start ≤ minute → minute < (more.getLast?.getD first).stop →
          Covers (first :: more) minute) := by
  have hstart := h.start_le hforward
  have hstop := h.stop_le_last hforward
  have hlast : more.getLast?.getD first ∈ first :: more :=
    List.mem_of_getLast? List.getLast?_cons
  constructor
  · rintro ⟨⟨span, hspan, hearly⟩, hday, hgap⟩
    have := hstart span hspan
    exact ⟨by omega, hday first (by simp) _ hlast, hgap first (by simp) _ hlast⟩
  · rintro ⟨hearly, hday, hgap⟩
    refine ⟨⟨first, by simp, hearly⟩, fun a ha b hb => ?_, fun a ha b hb htotal m hm hm' => ?_⟩
    · have := hstart a ha
      have := hstop b hb
      omega
    · have := hstart a ha
      have := hstop b hb
      exact hgap (by omega) m (by omega) (by omega)

end InOrder

end Span

/-! ### Joining stretches -/

section Join

variable {current first : Stretch} {rest more joined stretches : List Stretch} {days : WeekdaySet}
  {text : List Char} {group : DayGroup}

theorem forward_tail (h : Forward ((current :: rest).map Stretch.span)) :
    Forward (rest.map Stretch.span) :=
  fun span hspan => h span (List.mem_cons_of_mem _ hspan)

section Meet

variable {next : Stretch}

/-- The stretch that two stretches make that meet. -/
abbrev Reading.Stretch.join (current next : Stretch) : Stretch := { current with stop := next.stop }

theorem forward_join (hforward : Forward ((current :: next :: rest).map Stretch.span))
    (hmeet : next.start.minute = current.stop.minute) :
    Forward ((current.join next :: rest).map Stretch.span) := by
  have hcurrent : current.start.minute ≤ current.stop.minute := hforward current.span (by simp)
  have hnext : next.start.minute ≤ next.stop.minute := hforward next.span (by simp)
  refine List.forall_mem_cons.mpr ⟨?_, forward_tail (forward_tail hforward)⟩
  show current.start.minute ≤ next.stop.minute
  omega

theorem inOrder_join : InOrder ((current.join next :: rest).map Stretch.span) ↔
    InOrder ((next :: rest).map Stretch.span) := by
  simp only [InOrder, List.map_cons, List.pairwise_cons, Stretch.span]

theorem covers_join (hforward : Forward ((current :: next :: rest).map Stretch.span))
    (hmeet : next.start.minute = current.stop.minute) (minute : Int) :
    Covers ((current.join next :: rest).map Stretch.span) minute ↔
      Covers ((current :: next :: rest).map Stretch.span) minute := by
  have hcurrent : current.start.minute ≤ current.stop.minute := hforward current.span (by simp)
  have hnext : next.start.minute ≤ next.stop.minute := hforward next.span (by simp)
  simp only [List.map_cons, covers_cons, mem_iff, Stretch.span, ← or_assoc]
  refine or_congr_left ?_
  omega

end Meet

theorem joinStretches_isSome_iff (hforward : Forward ((current :: rest).map Stretch.span)) :
    (∃ joined, joinStretches current rest = some joined) ↔
      InOrder ((current :: rest).map Stretch.span) := by
  induction rest generalizing current with
  | nil => simp [joinStretches, InOrder]
  | cons next rest ih =>
    have hnext : next.start.minute ≤ next.stop.minute := hforward next.span (by simp)
    have horder : InOrder ((current :: next :: rest).map Stretch.span) ↔
        current.stop.minute ≤ next.start.minute ∧
          InOrder ((next :: rest).map Stretch.span) := inOrder_cons_iff hnext
    rw [joinStretches, horder]
    split
    · rename_i hover
      simp
      omega
    split
    · rename_i hmeet
      rw [ih (forward_join hforward hmeet), inOrder_join]
      exact ⟨fun h => ⟨by omega, h⟩, And.right⟩
    · rename_i hover hmeet
      have hlater := ih (forward_tail hforward)
      simp only [Option.map_eq_some_iff]
      constructor
      · rintro ⟨_, joined, hjoined, -⟩
        exact ⟨by omega, hlater.mp ⟨joined, hjoined⟩⟩
      · rintro ⟨-, h⟩
        obtain ⟨joined, hjoined⟩ := hlater.mpr h
        exact ⟨_, joined, hjoined, rfl⟩

/-- Joined stretches start and stop with the stretches that they join, and one is left if there is
no gap. -/
theorem joinStretches_eq (hforward : Forward ((current :: rest).map Stretch.span))
    (h : joinStretches current rest = some joined) :
    ∃ first more, joined = first :: more ∧ first.start = current.start ∧
      (more.getLast?.getD first).stop.minute = (rest.getLast?.getD current).stop.minute ∧
      (more = [] ↔ ∀ minute, current.start.minute ≤ minute →
        minute < (rest.getLast?.getD current).stop.minute →
          Covers ((current :: rest).map Stretch.span) minute) := by
  have horder := (joinStretches_isSome_iff hforward).mp ⟨joined, h⟩
  induction rest generalizing current joined with
  | nil =>
    cases h
    refine ⟨current, [], rfl, rfl, rfl, iff_of_true rfl fun minute hlow hhigh => ?_⟩
    simpa [mem_iff, Stretch.span] using And.intro hlow hhigh
  | cons next rest ih =>
    have hcurrent : current.start.minute ≤ current.stop.minute := hforward current.span (by simp)
    have hnext : next.start.minute ≤ next.stop.minute := hforward next.span (by simp)
    have htail := forward_tail hforward
    obtain ⟨hlater, hrest⟩ := List.pairwise_cons.mp horder
    have hgap : current.stop.minute ≤ next.start.minute := hlater next.span (by simp)
    rw [joinStretches, if_neg (by omega)] at h
    rw [List.getLast?_cons, Option.getD_some]
    split at h
    · rename_i hmeet
      obtain ⟨first, more, rfl, hstart, hstop, hwhole⟩ :=
        ih (forward_join hforward hmeet) h (inOrder_join.mpr hrest)
      have hlast : (rest.getLast?.getD (current.join next)).stop =
          (rest.getLast?.getD next).stop := by
        cases rest.getLast? <;> rfl
      simp only [hlast, covers_join hforward hmeet] at hstop hwhole
      exact ⟨first, more, rfl, hstart, hstop, hwhole⟩
    · rename_i hapart
      obtain ⟨joined, hjoined, rfl⟩ := Option.map_eq_some_iff.mp h
      obtain ⟨first, more, rfl, hstart, hstop, -⟩ := ih htail hjoined hrest
      refine ⟨current, first :: more, rfl, rfl, ?_, iff_of_false (by simp) fun hall => ?_⟩
      · rw [List.getLast?_cons, Option.getD_some, hstop]
      · have hlast : next.stop.minute ≤ (rest.getLast?.getD next).stop.minute := by
          have hspan := InOrder.stop_le_last hrest htail next.span (by simp)
          rw [stop_last_span] at hspan
          exact hspan
        have hafter : current.span.stop < next.span.start := by
          show current.stop.minute < next.start.minute
          omega
        exact InOrder.not_covers_stop horder htail hafter
          (hall current.stop.minute hcurrent (by omega))

theorem groupOfStretches_isOk_iff : (∃ group, groupOfStretches days text first more = .ok group) ↔
    first.start.minute < minutesPerDay ∧
      (more.getLast?.getD first).stop.minute ≤ first.start.minute + minutesPerDay ∧
      ((more.getLast?.getD first).stop.minute = first.start.minute + minutesPerDay →
        more = []) := by
  simp only [groupOfStretches_eq_ok_iff, exists_and_left, exists_or, exists_eq, and_true]
  refine and_congr_right fun _ => ?_
  constructor
  · rintro (⟨htotal, hmore⟩ | htotal)
    · exact ⟨Int.le_of_eq htotal, fun _ => hmore⟩
    · exact ⟨Int.le_of_lt htotal, fun heq => absurd heq (Int.ne_of_lt htotal)⟩
  · rintro ⟨hlong, hwhole⟩
    rcases Int.lt_or_eq_of_le hlong with htotal | htotal
    · exact .inr htotal
    · exact .inl ⟨htotal, hwhole htotal⟩

theorem mem_span_sortOn {span : Span} :
    span ∈ (sortOn (·.start.minute) stretches).map Stretch.span ↔
      span ∈ stretches.map Stretch.span := by
  simp only [List.mem_map, mem_sortOn]

theorem groupOfSpans_eq_ok_iff : groupOfSpans days text stretches = .ok group ↔
    ∃ current rest first more, sortOn (·.start.minute) stretches = current :: rest ∧
      joinStretches current rest = some (first :: more) ∧
      groupOfStretches days text first more = .ok group := by
  rw [groupOfSpans]
  cases sortOn (·.start.minute) stretches with
  | nil => simp
  | cons current rest =>
    cases hjoined : joinStretches current rest with
    | none => simp [hjoined]
    | some joined =>
      cases joined with
      | nil => simp [hjoined]
      | cons first more =>
        simp only [hjoined]
        constructor
        · exact fun h => ⟨current, rest, first, more, rfl, hjoined, h⟩
        · rintro ⟨_, _, _, _, ⟨⟩, hsome, h⟩
          rw [hjoined] at hsome
          cases hsome
          exact h

/-- Whether spans keep to one day can be told from the stretches that they are joined to. -/
theorem oneDay_iff_joined (hforward : Forward ((current :: rest).map Stretch.span))
    (h : joinStretches current rest = some (first :: more)) :
    OneDay ((current :: rest).map Stretch.span) ↔
      ∃ group, groupOfStretches days text first more = .ok group := by
  have horder := (joinStretches_isSome_iff hforward).mp ⟨_, h⟩
  obtain ⟨_, _, ⟨⟩, hstart, hstop, hwhole⟩ := joinStretches_eq hforward h
  have hday := oneDay_iff horder hforward
  rw [stop_last_span] at hday
  rw [List.map_cons, hday, groupOfStretches_isOk_iff, hstart, hstop, hwhole]
  rfl

/-- The hours of a rule are read if no two spans overlap and all of them keep to one day. -/
theorem groupOfSpans_isOk_iff (hforward : Forward (stretches.map Stretch.span)) :
    (∃ group, groupOfSpans days text stretches = .ok group) ↔
      (stretches.map Stretch.span).Pairwise Clear ∧ OneDay (stretches.map Stretch.span) := by
  have hclear : (stretches.map Stretch.span).Pairwise Clear ↔
      InOrder ((sortOn (·.start.minute) stretches).map Stretch.span) := by
    rw [InOrder, List.pairwise_map, List.pairwise_map, pairwise_sortOn]
    rfl
  have hsorted : Forward ((sortOn (·.start.minute) stretches).map Stretch.span) :=
    fun span hspan => hforward span (mem_span_sortOn.mp hspan)
  rw [hclear, OneDay.congr fun span => (@mem_span_sortOn stretches span).symm]
  simp only [groupOfSpans_eq_ok_iff]
  generalize sortOn (·.start.minute) stretches = sorted at hsorted ⊢
  constructor
  · rintro ⟨group, current, rest, first, more, rfl, hjoined, hgroup⟩
    exact ⟨(joinStretches_isSome_iff hsorted).mp ⟨_, hjoined⟩,
      (oneDay_iff_joined hsorted hjoined).mpr ⟨group, hgroup⟩⟩
  · rintro ⟨horder, hday⟩
    cases sorted with
    | nil =>
      obtain ⟨span, hspan, -⟩ := hday.starts_early
      cases hspan
    | cons current rest =>
      obtain ⟨joined, hjoined⟩ := (joinStretches_isSome_iff hsorted).mpr horder
      obtain ⟨first, more, rfl, -⟩ := joinStretches_eq hsorted hjoined
      obtain ⟨group, hgroup⟩ := (oneDay_iff_joined hsorted hjoined).mp hday
      exact ⟨group, current, rest, first, more, rfl, hjoined, hgroup⟩

end Join

end OpeningHours
