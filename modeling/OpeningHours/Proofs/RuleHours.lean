import OpeningHours.Proofs.NormalForm
import OpeningHours.Proofs.Stretches
import OpeningHours.Proofs.WrittenHours

/-! What the spans of a rule become. Joined spans cover what the spans cover, and the group that is
made of them is tidy. It is sound if no joined span lacks a minute, which the spans tell before they
are joined: a span without a minute has to touch one that has some. -/

namespace OpeningHours

open OpeningHours.Span Reading

namespace Span

/-- Every span touches one that has a minute. -/
def Anchored (spans : List Span) : Prop :=
  ∀ span ∈ spans, ∃ other ∈ spans, other.start < other.stop ∧ other.Touches span

/-- Some span stops a day after one starts. -/
def TakesDay (spans : List Span) : Prop :=
  ∃ a ∈ spans, ∃ b ∈ spans, b.stop = a.start + minutesPerDay

instance (spans : List Span) : Decidable (TakesDay spans) :=
  inferInstanceAs (Decidable (∃ a ∈ spans, ∃ b ∈ spans, _))

/-- What is kept of the spans of a rule: if they take a whole day, the day itself, wherever they
start. -/
def kept (spans : List Span) : List Span :=
  if TakesDay spans then [⟨0, minutesPerDay⟩] else spans

/-- The second spans are the first ones joined where they meet: they have gaps between them and the
same minutes, no span is cut, and a joined span starts with one of the spans in it. -/
structure JoinsTo (spans joined : List Span) : Prop where
  gapped : Gapped joined
  covers : ∀ minute, Covers joined minute ↔ Covers spans minute
  within : ∀ span ∈ spans, ∃ whole ∈ joined, whole.start ≤ span.start ∧ span.stop ≤ whole.stop
  starts : ∀ whole ∈ joined, ∃ span ∈ spans, span.start = whole.start ∧ span.stop ≤ whole.stop

variable {first : Span} {spans joined more : List Span}

/-! ### Joined spans -/

section Joined

theorem Gapped.eq_or_apart (h : Gapped spans) : ∀ a ∈ spans, ∀ b ∈ spans,
    a = b ∨ a.stop < b.start ∨ b.stop < a.start := by
  induction spans with
  | nil => simp
  | cons first rest ih =>
    obtain ⟨-, hgap, hrest⟩ := gapped_cons.mp h
    simp only [List.forall_mem_cons]
    refine ⟨⟨.inl trivial, fun b hb => .inr (.inl (hgap b hb))⟩, fun a ha => ?_⟩
    exact ⟨.inr (.inr (hgap a ha)), fun b hb => ih hrest a ha b hb⟩

theorem Gapped.start_le (h : Gapped (first :: more)) :
    ∀ span ∈ first :: more, first.start ≤ span.start := by
  obtain ⟨hfirst, hgap, -⟩ := gapped_cons.mp h
  refine List.forall_mem_cons.mpr ⟨Int.le_refl _, fun span hspan => ?_⟩
  exact Int.le_trans hfirst (Int.le_of_lt (hgap span hspan))

theorem joinsTo_self (h : Gapped spans) : JoinsTo spans spans where
  gapped := h
  covers _ := Iff.rfl
  within span hspan := ⟨span, hspan, Int.le_refl _, Int.le_refl _⟩
  starts span hspan := ⟨span, hspan, rfl, Int.le_refl _⟩

/-- The order in which spans are written does not matter. -/
theorem JoinsTo.of_mem_iff (h : JoinsTo spans joined) (hmem : ∀ span, span ∈ spans ↔ span ∈ more) :
    JoinsTo more joined where
  gapped := h.gapped
  covers minute := (h.covers minute).trans (Covers.congr hmem)
  within span hspan := h.within span ((hmem span).mpr hspan)
  starts whole hwhole := by
    obtain ⟨span, hspan, hstarts⟩ := h.starts whole hwhole
    exact ⟨span, (hmem span).mp hspan, hstarts⟩

/-- A span before a gap is joined to none. -/
theorem JoinsTo.cons (h : JoinsTo more joined) (hfirst : first.start ≤ first.stop)
    (hgap : ∀ span ∈ more, first.stop < span.start) :
    JoinsTo (first :: more) (first :: joined) where
  gapped := by
    refine gapped_cons.mpr ⟨hfirst, fun whole hwhole => ?_, h.gapped⟩
    obtain ⟨span, hspan, hstart, -⟩ := h.starts whole hwhole
    have := hgap span hspan
    omega
  covers minute := by rw [covers_cons, covers_cons, h.covers]
  within span hspan := by
    rcases List.mem_cons.mp hspan with rfl | hmore
    · exact ⟨span, by simp, Int.le_refl _, Int.le_refl _⟩
    · obtain ⟨whole, hwhole, hlies⟩ := h.within span hmore
      exact ⟨whole, List.mem_cons_of_mem _ hwhole, hlies⟩
  starts whole hwhole := by
    rcases List.mem_cons.mp hwhole with rfl | hmore
    · exact ⟨whole, by simp, rfl, Int.le_refl _⟩
    · obtain ⟨span, hspan, hstarts⟩ := h.starts whole hmore
      exact ⟨span, List.mem_cons_of_mem _ hspan, hstarts⟩

/-- No joined span lacks a minute if every span touches one that has some. Next to a joined span
without a minute nothing is covered. -/
theorem JoinsTo.lengths_iff (h : JoinsTo spans joined) (hforward : Forward spans) :
    (∀ whole ∈ joined, whole.start < whole.stop) ↔ Anchored spans := by
  constructor
  · intro hlength span hspan
    obtain ⟨whole, hwhole, hfrom, hto⟩ := h.within span hspan
    have hsome := hlength whole hwhole
    have hspan' := hforward span hspan
    -- A minute of the joined span that touches the span.
    have hminute : Covers joined (min span.start (whole.stop - 1)) :=
      ⟨whole, hwhole, by rw [mem_iff]; omega⟩
    obtain ⟨other, hother, hin⟩ := (h.covers _).mp hminute
    rw [mem_iff] at hin
    exact ⟨other, hother, by omega, by rw [Touches]; omega⟩
  · intro hanchored whole hwhole
    have hlength := h.gapped.forward whole hwhole
    refine Int.not_le.mp fun hempty => ?_
    obtain ⟨span, hspan, hstart, hstop⟩ := h.starts whole hwhole
    obtain ⟨other, hother, hsome, htouch⟩ := hanchored span hspan
    have hspan' := hforward span hspan
    rw [Touches] at htouch
    -- A minute next to the empty span, which some joined span has: no gap would be left between.
    have hminute : Covers spans (min span.start (other.stop - 1)) :=
      ⟨other, hother, by rw [mem_iff]; omega⟩
    obtain ⟨near, hnear, hin⟩ := (h.covers _).mpr hminute
    rw [mem_iff] at hin
    rcases h.gapped.eq_or_apart whole hwhole near hnear with rfl | hbefore | hafter <;> omega

theorem JoinsTo.start_le (h : JoinsTo spans (first :: more)) :
    ∀ span ∈ spans, first.start ≤ span.start := by
  intro span hspan
  obtain ⟨whole, hwhole, hfrom, -⟩ := h.within span hspan
  exact Int.le_trans (h.gapped.start_le whole hwhole) hfrom

theorem JoinsTo.stop_le_last (h : JoinsTo spans (first :: more)) :
    ∀ span ∈ spans, span.stop ≤ (more.getLast?.getD first).stop := by
  intro span hspan
  obtain ⟨whole, hwhole, -, hto⟩ := h.within span hspan
  exact Int.le_trans hto (h.gapped.stop_le_last whole hwhole)

/-- Spans with gaps are separated if the spans between them are, strictly inside of them. -/
theorem separated_iff_between (h : Gapped (first :: more)) :
    Separated (first :: more) ↔ first.start < (more.getLast?.getD first).stop ∧
      (∀ span ∈ between (first :: more),
        StrictlyContains ⟨first.start, (more.getLast?.getD first).stop⟩ span) ∧
      Separated (between (first :: more)) := by
  induction more generalizing first with
  | nil => simp [Separated, between]
  | cons next rest ih =>
    obtain ⟨hfirst, hgap, hmore⟩ := gapped_cons.mp h
    have hnext := hgap next (by simp)
    have hlast := hmore.stop_le_last next (by simp)
    have hforward := hmore.forward next (by simp)
    rw [List.getLast?_cons, Option.getD_some, Separated, ih hmore, between, Separated]
    simp only [StrictlyContains, List.forall_mem_cons]
    constructor
    · rintro ⟨hlength, -, hlong, hinside, hbetween⟩
      refine ⟨by omega, ⟨⟨hlength, by omega⟩, fun span hspan => ?_⟩, hnext,
        fun span hspan => (hinside span hspan).1, hbetween⟩
      have := hinside span hspan
      omega
    · rintro ⟨-, ⟨⟨hlength, hlong⟩, hinside⟩, -, hafter, hbetween⟩
      exact ⟨hlength, List.forall_mem_cons.mp hgap, hlong,
        fun span hspan => ⟨hafter span hspan, (hinside span hspan).2⟩, hbetween⟩

end Joined

end Span

/-! ### Joined stretches -/

section Stretches

variable {current next : Stretch} {rest joined stretches : List Stretch} {spans : List Span}

/-- What two stretches that meet are joined to with the others, they are joined to as one. -/
theorem joinsTo_of_join (hforward : Forward ((current :: next :: rest).map Stretch.span))
    (hmeet : next.start.minute = current.stop.minute)
    (h : JoinsTo ((current.join next :: rest).map Stretch.span) spans) :
    JoinsTo ((current :: next :: rest).map Stretch.span) spans where
  gapped := h.gapped
  covers minute := (h.covers minute).trans (covers_join hforward hmeet minute)
  within := by
    have hcurrent : current.start.minute ≤ current.stop.minute := hforward current.span (by simp)
    have hnext : next.start.minute ≤ next.stop.minute := hforward next.span (by simp)
    obtain ⟨⟨whole, hwhole, hfrom, hto⟩, hmore⟩ := List.forall_mem_cons.mp h.within
    simp only [Stretch.span] at hfrom hto
    refine List.forall_mem_cons.mpr ⟨⟨whole, hwhole, hfrom, ?_⟩,
      List.forall_mem_cons.mpr ⟨⟨whole, hwhole, ?_, hto⟩, hmore⟩⟩
    · simp only [Stretch.span]
      omega
    · simp only [Stretch.span]
      omega
  starts whole hwhole := by
    have hnext : next.start.minute ≤ next.stop.minute := hforward next.span (by simp)
    obtain ⟨span, hspan, hstart, hstop⟩ := h.starts whole hwhole
    rcases List.mem_cons.mp hspan with rfl | hrest
    · refine ⟨current.span, by simp, hstart, ?_⟩
      simp only [Stretch.span] at hstop ⊢
      omega
    · exact ⟨span, List.mem_cons_of_mem _ (List.mem_cons_of_mem _ hrest), hstart, hstop⟩

/-- Stretches are joined by induction on the later ones, with the current one as it has grown. -/
theorem joinsTo_of_joinStretches (hforward : Forward ((current :: rest).map Stretch.span))
    (h : joinStretches current rest = some joined) :
    JoinsTo ((current :: rest).map Stretch.span) (joined.map Stretch.span) := by
  have horder := (joinStretches_isSome_iff hforward).mp ⟨joined, h⟩
  induction rest generalizing current joined with
  | nil =>
    cases h
    exact joinsTo_self ⟨hforward, List.pairwise_singleton _ _⟩
  | cons next rest ih =>
    have htail := forward_tail hforward
    obtain ⟨hlater, hrest⟩ := List.pairwise_cons.mp horder
    have hgap : current.stop.minute ≤ next.start.minute := hlater next.span (by simp)
    rw [joinStretches, if_neg (by omega)] at h
    split at h
    · rename_i hmeet
      exact joinsTo_of_join hforward hmeet
        (ih (forward_join hforward hmeet) h (inOrder_join.mpr hrest))
    · rename_i hapart
      obtain ⟨joined, hjoined, rfl⟩ := Option.map_eq_some_iff.mp h
      refine (ih htail hjoined hrest).cons (hforward current.span (by simp)) fun span hspan => ?_
      have hstart : next.start.minute ≤ span.start := InOrder.start_le hrest htail span hspan
      show current.stop.minute < span.start
      omega

/-- A group is made of stretches that are sorted and then joined. -/
theorem joinsTo_of_groupOfSpans {days : WeekdaySet} {text : List Char} {group : DayGroup}
    (hforward : Forward (stretches.map Stretch.span))
    (h : groupOfSpans days text stretches = .ok group) :
    ∃ current rest first more, sortOn (·.start.minute) stretches = current :: rest ∧
      Forward ((current :: rest).map Stretch.span) ∧
      joinStretches current rest = some (first :: more) ∧
      JoinsTo (stretches.map Stretch.span) ((first :: more).map Stretch.span) ∧
      groupOfStretches days text first more = .ok group := by
  obtain ⟨current, rest, first, more, hlist, hjoined, hgroup⟩ := groupOfSpans_eq_ok_iff.mp h
  have hmem : ∀ span, span ∈ (current :: rest).map Stretch.span ↔
      span ∈ stretches.map Stretch.span := by
    rw [← hlist]
    exact fun span => mem_span_sortOn
  have hsorted : Forward ((current :: rest).map Stretch.span) :=
    fun span hspan => hforward span ((hmem span).mp hspan)
  have hjoin := (joinsTo_of_joinStretches hsorted hjoined).of_mem_iff hmem
  exact ⟨current, rest, first, more, hlist, hsorted, hjoined, hjoin, hgroup⟩

end Stretches

/-! ### The group of joined stretches -/

namespace ClockRange

variable {start stop : Clock}

theorem start_span_times (h : 0 ≤ start.minute ∧ start.minute < minutesPerDay) :
    (⟨start.time, stop.time⟩ : ClockRange).span.start = start.minute := by
  simp only [span, ofTimes, minuteOfDay_time, minutesPerDay] at *
  omega

theorem isValid_times_iff (hforward : start.minute ≤ stop.minute)
    (hstop : stop.minute < start.minute + minutesPerDay) :
    (⟨start.time, stop.time⟩ : ClockRange).IsValid ↔ start.minute < stop.minute := by
  have hstart : start.time.IsValid := ClockTime.ofMinute_isValid start.minute
  have hstop' : stop.time.IsValid := ClockTime.ofMinute_isValid stop.minute
  simp only [IsValid, hstart, hstop', IsDegenerate, ClockTime.SameTime, minuteOfDay_time,
    minutesPerDay, true_and] at *
  omega

theorem breaksBetween_isValid {first : Stretch} {more : List Stretch} {origin : Int}
    (hgapped : Gapped ((first :: more).map Stretch.span)) (hstart : origin ≤ first.start.minute)
    (hstop : ∀ stretch ∈ more, stretch.stop.minute < origin + minutesPerDay) :
    ∀ range ∈ breaksBetween (first :: more), range.IsValid := by
  induction more generalizing first with
  | nil => nofun
  | cons next rest ih =>
    obtain ⟨hfirst, hgap, hmore⟩ := gapped_cons.mp hgapped
    obtain ⟨hnext, hrest⟩ := List.forall_mem_cons.mp hstop
    have hforward : first.start.minute ≤ first.stop.minute := hfirst
    have hgap : first.stop.minute < next.start.minute := hgap next.span (by simp)
    have hlength : next.start.minute ≤ next.stop.minute := hmore.forward next.span (by simp)
    refine List.forall_mem_cons.mpr ⟨?_, ih hmore (by omega) hrest⟩
    exact (isValid_times_iff (Int.le_of_lt hgap) (by omega)).mpr hgap

end ClockRange

theorem breaksFit_iff {opening : ClockRange} {breaks : List ClockRange}
    (hvalid : ∀ range ∈ breaks, range.IsValid)
    (hsorted : SortedOn Span.start (breaks.map (·.spanAfter opening.span.start))) :
    BreaksFit opening breaks ↔
      (∀ span ∈ breaks.map (·.spanAfter opening.span.start),
        opening.span.StrictlyContains span) ∧
      Separated (breaks.map (·.spanAfter opening.span.start)) := by
  have hlength : ∀ span ∈ breaks.map (·.spanAfter opening.span.start), span.start < span.stop := by
    rw [List.forall_mem_map]
    exact fun range _ => (range.spanAfter_bounds _).2.2.1
  rw [separated_iff_apart hsorted hlength, List.pairwise_map, List.forall_mem_map]
  exact ⟨fun h => ⟨h.inside, h.apart⟩, fun h => ⟨hvalid, h.1, h.2⟩⟩

namespace DayGroup

/-- The group is what some spans become: it is tidy, it is sound if the spans are anchored, and then
it opens for what is kept of them. -/
structure OpensFor (group : DayGroup) (spans : List Span) : Prop where
  tidy : group.IsTidy
  sound_iff : group.HasSoundHours ↔ Anchored spans
  covers_iff : Anchored spans →
    ∀ minute, Covers group.openSpans minute ↔ Covers (kept spans) minute

section OfStretches

variable {days : WeekdaySet} {first : Stretch} {more : List Stretch} {spans : List Span}

theorem ofStretches_isTidy (hgapped : Gapped ((first :: more).map Stretch.span))
    (hfirst : 0 ≤ first.start.minute ∧ first.start.minute < minutesPerDay)
    (htotal : (more.getLast?.getD first).stop.minute < first.start.minute + minutesPerDay) :
    (ofStretches days first more).IsTidy where
  bare := nofun
  ordered := by
    rintro opening ⟨⟩
    have hstarts : (between ((first :: more).map Stretch.span)).Pairwise
        fun a b => a.start < b.start := between_strict hgapped
    rw [← spanAfter_ofStretches hgapped hfirst htotal, List.pairwise_map] at hstarts
    refine hstarts.imp fun {a b} hab => ?_
    rw [← ClockRange.start_span_times hfirst, a.start_spanAfter, b.start_spanAfter] at hab
    exact Int.lt_of_add_lt_add_left hab

theorem ofStretches_hasSoundHours_iff (hgapped : Gapped ((first :: more).map Stretch.span))
    (hfirst : 0 ≤ first.start.minute ∧ first.start.minute < minutesPerDay)
    (htotal : (more.getLast?.getD first).stop.minute < first.start.minute + minutesPerDay) :
    (ofStretches days first more).HasSoundHours ↔
      Separated ((first :: more).map Stretch.span) := by
  have hlast := stop_last_span first more
  have hstop := stop_le_last_of_gapped hgapped
  have hforward : first.start.minute ≤ first.stop.minute := (gapped_cons.mp hgapped).1
  have hfrom := hstop first (by simp)
  have hvalid : ∀ range ∈ breaksBetween (first :: more), range.IsValid :=
    ClockRange.breaksBetween_isValid hgapped (Int.le_refl _) fun stretch hstretch =>
      Int.lt_of_le_of_lt (hstop stretch (List.mem_cons_of_mem _ hstretch)) htotal
  have hspans : (breaksBetween (first :: more)).map (·.spanAfter first.start.minute) =
      between ((first :: more).map Stretch.span) :=
    @spanAfter_ofStretches days first more hgapped hfirst htotal
  have hhours : (ofStretches days first more).HasSoundHours ↔
      (⟨first.start.time, (more.getLast?.getD first).stop.time⟩ : ClockRange).IsValid ∧
        BreaksFit ⟨first.start.time, (more.getLast?.getD first).stop.time⟩
          (breaksBetween (first :: more)) := forall_prop_of_true rfl
  rw [hhours, ClockRange.isValid_times_iff (by omega) htotal, List.map_cons,
    separated_iff_between hgapped, hlast]
  refine and_congr_right fun hlong => ?_
  have hopening := ClockRange.span_times hfirst hlong htotal
  have hsorted : SortedOn Span.start (between ((first :: more).map Stretch.span)) :=
    between_sorted hgapped
  rw [← hspans] at hsorted
  rw [breaksFit_iff hvalid (by rwa [hopening]), hopening]
  simp only [hspans]
  rfl

theorem opensFor_ofStretches (hjoin : JoinsTo spans ((first :: more).map Stretch.span))
    (hforward : Forward spans)
    (hfirst : 0 ≤ first.start.minute ∧ first.start.minute < minutesPerDay)
    (htotal : (more.getLast?.getD first).stop.minute < first.start.minute + minutesPerDay) :
    (ofStretches days first more).OpensFor spans := by
  have hsound : (ofStretches days first more).HasSoundHours ↔ Anchored spans := by
    rw [ofStretches_hasSoundHours_iff hjoin.gapped hfirst htotal, separated_iff_gapped,
      and_iff_right hjoin.gapped]
    exact hjoin.lengths_iff hforward
  refine ⟨ofStretches_isTidy hjoin.gapped hfirst htotal, hsound, fun hanchored minute => ?_⟩
  have hpart : ¬TakesDay spans := by
    rintro ⟨a, ha, b, hb, hday⟩
    have hstart : first.start.minute ≤ a.start := hjoin.start_le a ha
    have hstop := hjoin.stop_le_last b hb
    rw [stop_last_span] at hstop
    omega
  have hseparated := (ofStretches_hasSoundHours_iff hjoin.gapped hfirst htotal).mp
    (hsound.mpr hanchored)
  rw [openSpans_of_separated hseparated hfirst htotal, hjoin.covers, kept, if_neg hpart]

/-- A whole day without a gap is the day itself. -/
theorem opensFor_fullDay {whole : Span} (hjoin : JoinsTo spans [whole]) (hforward : Forward spans)
    (htotal : whole.stop = whole.start + minutesPerDay) : (fullDay days).OpensFor spans := by
  have hlength : whole.start < whole.stop := by
    rw [htotal]
    simp only [minutesPerDay]
    omega
  have hday : TakesDay spans := by
    obtain ⟨a, ha, hstart, -⟩ := hjoin.starts whole (by simp)
    have hlast : Covers [whole] (whole.stop - 1) := ⟨whole, by simp, by rw [mem_iff]; omega⟩
    obtain ⟨b, hb, hminute⟩ := (hjoin.covers _).mp hlast
    obtain ⟨other, hother, -, hstop⟩ := hjoin.within b hb
    obtain rfl := List.mem_singleton.mp hother
    rw [mem_iff] at hminute
    exact ⟨a, ha, b, hb, by omega⟩
  refine ⟨fullDay_isTidy days, iff_of_true (fullDay_hours days) ?_, fun _ minute => ?_⟩
  · exact (hjoin.lengths_iff hforward).mp (by simpa using hlength)
  · rw [kept, if_pos hday]
    rfl

end OfStretches

theorem opensFor_day (days : WeekdaySet) : (fullDay days).OpensFor [⟨0, minutesPerDay⟩] := by
  have hforward : Forward [⟨0, minutesPerDay⟩] := by simp [Forward, minutesPerDay]
  exact opensFor_fullDay (joinsTo_self ⟨hforward, List.pairwise_singleton _ _⟩) hforward rfl

theorem opensFor_nil (days : WeekdaySet) : (closed days).OpensFor [] where
  tidy := closed_isTidy days
  sound_iff := iff_of_true (closed_hours days) nofun
  covers_iff _ _ := by
    rw [kept, if_neg (by simp [TakesDay]), openSpans_closed rfl rfl]

/-- The group that is read from stretches opens for their spans. -/
theorem opensFor_of_groupOfSpans {days : WeekdaySet} {text : List Char}
    {stretches : List Stretch} {group : DayGroup}
    (hforward : Forward (stretches.map Stretch.span))
    (hstart : ∀ span ∈ stretches.map Stretch.span, 0 ≤ span.start)
    (h : groupOfSpans days text stretches = .ok group) :
    group.days = days ∧ group.OpensFor (stretches.map Stretch.span) := by
  obtain ⟨_, _, first, more, -, -, -, hjoin, hgroup⟩ := joinsTo_of_groupOfSpans hforward h
  obtain ⟨span, hspan, hfirst, -⟩ := hjoin.starts first.span (by simp)
  have hlow := hstart span hspan
  rw [hfirst] at hlow
  obtain ⟨hearly, ⟨htotal, rfl, rfl⟩ | ⟨htotal, rfl⟩⟩ := groupOfStretches_eq_ok_iff.mp hgroup
  · exact ⟨rfl, opensFor_fullDay hjoin hforward htotal⟩
  · exact ⟨rfl, opensFor_ofStretches hjoin hforward ⟨hlow, hearly⟩ htotal⟩

end DayGroup

end OpeningHours
