import Mathlib.Data.List.Perm.Basic
import OpeningHours.Proofs.Acceptance
import OpeningHours.Proofs.RuleHours

/-! What a rule with clock spans means. The group that is read from it opens from the earliest start
to the latest end, its breaks are the gaps between the spans once these are sorted and joined, and
its hours are the joined spans that have a minute. The order in which the spans are written does not
count, unless a span without a minute starts together with another one. -/

namespace OpeningHours

open OpeningHours.Span Reading Weekly

namespace DayGroup

/-- The group is timed by joined spans: it opens over all of them and breaks between them. -/
structure TimedBy (group : DayGroup) (opening : Span) (joined : List Span) : Prop where
  part : group.isFullDay = false
  opening : group.openingSpan? = some opening
  breaks : group.breakSpans = between joined
  hours : group.openSpans = joined.filter fun span => span.start < span.stop

/-- The group is made of spans that start at `start` at the earliest and stop at `stop` at the
latest. -/
structure MadeOf (group : DayGroup) (spans : List Span) (start stop : Int) : Prop where
  earliest : (spans.map Span.start).min? = some start
  latest : (spans.map Span.stop).max? = some stop
  within_day : stop ≤ start + minutesPerDay
  whole : stop = start + minutesPerDay → group = .fullDay group.days
  timed : stop < start + minutesPerDay →
    group.TimedBy ⟨start, stop⟩ (join (sortOn Span.start spans)) ∧
      (group.openSpans = join (sortOn Span.start spans) ↔ Anchored spans)

end DayGroup

/-- Of spans that start together none lacks a minute. -/
def Span.Orderless (spans : List Span) : Prop :=
  spans.Pairwise fun a b => a.start = b.start → a.start < a.stop ∧ b.start < b.stop

/-! ### Sorting and joining -/

section Join

variable {current : Stretch} {rest joined stretches : List Stretch}

/-- The reader joins spans in order as a timeline does. -/
theorem map_span_of_joinStretches (hforward : Forward ((current :: rest).map Stretch.span))
    (h : joinStretches current rest = some joined) :
    joined.map Stretch.span = joinFrom current.span (rest.map Stretch.span) := by
  induction rest generalizing current joined with
  | nil =>
    cases h
    rfl
  | cons next rest ih =>
    have hnext : next.start.minute ≤ next.stop.minute := hforward next.span (by simp)
    rw [joinStretches] at h
    rw [List.map_cons, joinFrom]
    split at h
    · cases h
    split at h
    · rename_i hmeet
      have hle : next.span.start ≤ current.span.stop := Int.le_of_eq hmeet
      have hstop : max current.stop.minute next.stop.minute = next.stop.minute := by omega
      have hspan : (current.join next).span =
          ⟨current.span.start, max current.span.stop next.span.stop⟩ :=
        congrArg (Span.mk _) hstop.symm
      rw [if_pos hle, ih (forward_join hforward hmeet) h, hspan]
    · -- A start before the end is an overlap and one at the end was joined, so it lies behind.
      rename_i hover hmeet
      obtain ⟨more, hmore, rfl⟩ := Option.map_eq_some_iff.mp h
      have hapart : ¬next.span.start ≤ current.span.stop := by
        show ¬next.start.minute ≤ current.stop.minute
        omega
      rw [if_neg hapart, List.map_cons, ih (forward_tail hforward) hmore]

theorem map_span_sortOn (stretches : List Stretch) :
    (sortOn (·.start.minute) stretches).map Stretch.span =
      sortOn Span.start (stretches.map Stretch.span) :=
  map_sortOn Stretch.span Span.start stretches

/-- Spans that are read start at different minutes if none lacks a minute where another starts. -/
theorem starts_distinct {spans : List Span} (hclear : spans.Pairwise Clear)
    (horderless : Orderless spans) : spans.Pairwise fun a b => a.start ≠ b.start := by
  refine (hclear.and horderless).imp ?_
  rintro a b ⟨hab, hminutes⟩ hstart
  obtain ⟨ha, -⟩ := hminutes hstart
  rw [Clear, if_pos (Int.le_of_eq hstart)] at hab
  omega

end Join

/-! ### The group of a rule -/

section Group

variable {days : WeekdaySet} {text : List Char} {current first : Stretch}
  {rest more stretches : List Stretch} {spans : List Span} {group : DayGroup}

theorem min_start_of_joinsTo (hjoin : JoinsTo spans ((first :: more).map Stretch.span)) :
    (spans.map Span.start).min? = some first.start.minute := by
  refine List.min?_eq_some_iff.mpr ⟨?_, List.forall_mem_map.mpr hjoin.start_le⟩
  obtain ⟨span, hspan, hstart, -⟩ := hjoin.starts first.span (by simp)
  exact List.mem_map.mpr ⟨span, hspan, hstart⟩

/-- The latest end is that of the last of the sorted spans. -/
theorem max_stop_of_joinStretches (hlist : sortOn (·.start.minute) stretches = current :: rest)
    (hforward : Forward ((current :: rest).map Stretch.span))
    (hjoined : joinStretches current rest = some (first :: more))
    (hjoin : JoinsTo (stretches.map Stretch.span) ((first :: more).map Stretch.span)) :
    ((stretches.map Stretch.span).map Span.stop).max? =
      some (more.getLast?.getD first).stop.minute := by
  have hle := hjoin.stop_le_last
  rw [stop_last_span] at hle
  refine List.max?_eq_some_iff.mpr ⟨?_, List.forall_mem_map.mpr hle⟩
  obtain ⟨_, _, ⟨⟩, -, hstop, -⟩ := joinStretches_eq hforward hjoined
  have hlast : rest.getLast?.getD current ∈ stretches := by
    rw [← @mem_sortOn _ (·.start.minute), hlist]
    exact List.mem_of_getLast? List.getLast?_cons
  exact List.mem_map.mpr ⟨_, List.mem_map_of_mem hlast, hstop.symm⟩

theorem timedBy_ofStretches (hgapped : Gapped ((first :: more).map Stretch.span))
    (hfirst : 0 ≤ first.start.minute ∧ first.start.minute < minutesPerDay)
    (hlength : first.start.minute < (more.getLast?.getD first).stop.minute)
    (htotal : (more.getLast?.getD first).stop.minute < first.start.minute + minutesPerDay) :
    (DayGroup.ofStretches days first more).TimedBy
      ⟨first.start.minute, (more.getLast?.getD first).stop.minute⟩
      ((first :: more).map Stretch.span) where
  part := rfl
  opening := openingSpan?_ofStretches hfirst hlength htotal
  breaks := breakSpans_ofStretches hgapped hfirst hlength htotal
  hours := openSpans_ofStretches hgapped hfirst hlength htotal

theorem DayGroup.TimedBy.openSpans_eq_iff {opening : Span} {joined : List Span}
    (h : group.TimedBy opening joined) (hjoin : JoinsTo spans joined) (hforward : Forward spans) :
    group.openSpans = joined ↔ Anchored spans := by
  rw [h.hours, List.filter_eq_self, ← hjoin.lengths_iff hforward]
  simp only [decide_eq_true_eq]

/-- A span that starts on the first day has a minute, so that the opening has one. -/
theorem madeOf_of_groupOfSpans (hforward : Forward (stretches.map Stretch.span))
    (hlow : ∀ span ∈ stretches.map Stretch.span, 0 ≤ span.start)
    (hearly : ∀ span ∈ stretches.map Stretch.span,
      span.start < minutesPerDay → span.start < span.stop)
    (h : groupOfSpans days text stretches = .ok group) :
    ∃ start stop, group.MadeOf (stretches.map Stretch.span) start stop := by
  obtain ⟨current, rest, first, more, hlist, hsorted, hjoined, hjoin, hgroup⟩ :=
    joinsTo_of_groupOfSpans hforward h
  have hspans : (first :: more).map Stretch.span =
      join (sortOn Span.start (stretches.map Stretch.span)) := by
    rw [← map_span_sortOn, hlist, map_span_of_joinStretches hsorted hjoined]
    rfl
  obtain ⟨hday, hcases⟩ := groupOfStretches_eq_ok_iff.mp hgroup
  refine ⟨first.start.minute, (more.getLast?.getD first).stop.minute,
    min_start_of_joinsTo hjoin, max_stop_of_joinStretches hlist hsorted hjoined hjoin, ?_, ?_, ?_⟩
  · rcases hcases with ⟨htotal, -⟩ | ⟨htotal, -⟩ <;> omega
  · intro hwhole
    rcases hcases with ⟨-, -, rfl⟩ | ⟨htotal, -⟩
    · rfl
    · omega
  · intro hpart
    rcases hcases with ⟨htotal, -⟩ | ⟨htotal, rfl⟩
    · omega
    -- The opening has a minute since the span that it starts with has one.
    obtain ⟨span, hspan, hstart, -⟩ := hjoin.starts first.span (by simp)
    have hfirst : span.start = first.start.minute := hstart
    have hlow := hlow span hspan
    have hminute := hearly span hspan (by omega)
    have hstop := hjoin.stop_le_last span hspan
    rw [stop_last_span] at hstop
    have htimed := @timedBy_ofStretches days first more hjoin.gapped ⟨by omega, hday⟩ (by omega)
      htotal
    have hexact := htimed.openSpans_eq_iff hjoin hforward
    rw [hspans] at htimed hexact
    exact ⟨htimed, hexact⟩

/-- Spans that start at different minutes make one group, whatever order they come in. -/
theorem groupOfSpans_of_perm {others : List Stretch} {text' : List Char}
    (hperm : stretches.Perm others)
    (hdistinct : (stretches.map Stretch.span).Pairwise fun a b => a.start ≠ b.start)
    (h : groupOfSpans days text stretches = .ok group) :
    groupOfSpans days text' others = .ok group := by
  rw [List.pairwise_map] at hdistinct
  have hsort : sortOn (·.start.minute) stretches = sortOn (·.start.minute) others :=
    sortOn_eq_of_perm hperm hdistinct
  obtain ⟨current, rest, first, more, hlist, hjoined, hgroup⟩ := groupOfSpans_eq_ok_iff.mp h
  rw [hsort] at hlist
  refine groupOfSpans_eq_ok_iff.mpr ⟨current, rest, first, more, hlist, hjoined, ?_⟩
  -- The text of the rule shows in errors only.
  exact groupOfStretches_eq_ok_iff.mpr (groupOfStretches_eq_ok_iff.mp hgroup)

end Group

/-! ### The rules of a text -/

namespace Weekly

/-- The clock spans of a body, if it has some. -/
def Body.clocks? : Body → Option ClockSelector
  | .modifier _ => none
  | .clocks selector => some selector

/-- The clock spans of a rule, if it has some. -/
def Clause.clocks? : Clause → Option ClockSelector
  | .alwaysOpen => none
  | .days _ hours => hours.bind Body.clocks?
  | .body hours => hours.clocks?

/-- The hours are the same but for the order of their spans and the text around them. -/
inductive Body.Reorders : Body → Body → Prop
  | modifier (modifier : Modifier) : Reorders (.modifier modifier) (.modifier modifier)
  | clocks {selector other : ClockSelector} (h : selector.spans.Perm other.spans) :
      Reorders (.clocks selector) (.clocks other)

/-- The rules are the same but for the order of their clock spans and the text around them. -/
inductive Clause.Reorders : Clause → Clause → Prop
  | always : Reorders .alwaysOpen .alwaysOpen
  | days (spans : List DaySpan) : Reorders (.days spans none) (.days spans none)
  | body {body other : Body} (h : body.Reorders other) : Reorders (.body body) (.body other)
  | both (spans : List DaySpan) {body other : Body} (h : body.Reorders other) :
      Reorders (.days spans (some body)) (.days spans (some other))

/-- No span that lacks a minute starts where another one starts. -/
def ClockSelector.Orderless (selector : ClockSelector) : Prop :=
  ∀ written, List.Forall₂ Shows selector.spans written → Span.Orderless (written.map lift)

end Weekly

section Rules

variable {days : WeekdaySet} {selector other : ClockSelector} {written : List Span}
  {group : DayGroup} {rule : Weekly.Rule} {text text' : List Char}

theorem Span.Passes.start_lt_stop {written : Span} (h : written.Passes) (hstop : 0 ≤ written.stop)
    (hearly : written.start < minutesPerDay) : written.start < written.lift.stop := by
  obtain ⟨hdistinct, hforward, -, -⟩ := h
  simp only [lift, liftStop, minutesPerDay] at *
  split at hforward <;> split <;> omega

theorem readSelector_madeOf (h : List.Forall₂ Shows selector.spans written)
    (hread : readSelector days selector = .ok group) :
    ∃ start stop, group.MadeOf (written.map lift) start stop := by
  obtain ⟨stretches, hstretches, hgroup⟩ := readSelector_eq_ok_iff.mp hread
  have hpasses := (mapM_readSpan_isOk_iff h).mp ⟨stretches, mapM_eq_ok_iff.mpr hstretches⟩
  have hlow := lifts_nonneg h
  have hearly : ∀ span ∈ written.map lift, span.start < minutesPerDay →
      span.start < span.stop := by
    refine List.forall_mem_map.mpr fun span hspan => ?_
    obtain ⟨c, hshows⟩ := exists_forall₂_iff.mp ⟨selector.spans, h.flip⟩ span hspan
    exact (hpasses span hspan).start_lt_stop (Shows.stop_nonneg hshows)
  have hforward := forward_of_passes hpasses
  rw [← map_span_of_mapM h hstretches] at hlow hearly hforward ⊢
  exact madeOf_of_groupOfSpans hforward hlow hearly hgroup

theorem exists_forall₂_shows (h : readSelector days selector = .ok group) :
    ∃ written, List.Forall₂ Shows selector.spans written := by
  obtain ⟨stretches, hstretches, -⟩ := readSelector_eq_ok_iff.mp h
  refine exists_forall₂_iff.mpr fun c hc => ?_
  obtain ⟨stretch, hstretch⟩ := exists_forall₂_iff.mp ⟨stretches, hstretches⟩ c hc
  exact exists_shows hstretch

theorem readSelector_of_perm (hperm : selector.spans.Perm other.spans)
    (horderless : selector.Orderless) (hread : readSelector days selector = .ok group) :
    readSelector days other = .ok group := by
  obtain ⟨stretches, hstretches, hgroup⟩ := readSelector_eq_ok_iff.mp hread
  obtain ⟨written, hshows⟩ := exists_forall₂_shows hread
  have hclear := ((readSelector_isOk_iff hshows).mp ⟨group, hread⟩).clear
  have hdistinct := starts_distinct hclear (horderless written hshows)
  rw [← map_span_of_mapM hshows hstretches] at hdistinct
  obtain ⟨others, hothers, hsame⟩ := List.perm_comp_forall₂ hperm.symm hstretches
  exact readSelector_eq_ok_iff.mpr
    ⟨others, hothers, groupOfSpans_of_perm hsame.symm hdistinct hgroup⟩

theorem readBody_of_reorders {body other : Body} (h : body.Reorders other)
    (horderless : ∀ selector ∈ body.clocks?, selector.Orderless)
    (hread : readBody days text body = .ok group) : readBody days text' other = .ok group := by
  cases h with
  | modifier modifier =>
    cases modifier with
    | opened => exact hread
    | closed => exact hread
    | unknown => cases hread
  | clocks hperm => exact readSelector_of_perm hperm (horderless _ rfl) hread

/-- The order in which the spans of a rule are written does not count. -/
theorem readRule_of_reorders {rule other : Weekly.Rule} (h : rule.clause.Reorders other.clause)
    (horderless : ∀ selector ∈ rule.clause.clocks?, selector.Orderless)
    (hread : readRule rule = .ok group) : readRule other = .ok group := by
  obtain ⟨text, clause⟩ := rule
  obtain ⟨text', clause'⟩ := other
  cases h with
  | always => exact hread
  | days spans => exact hread
  | body h => exact readBody_of_reorders h horderless hread
  | both spans h =>
    obtain ⟨days, hdays, hbody⟩ := readRule_both_eq_ok_iff.mp hread
    exact readRule_both_eq_ok_iff.mpr ⟨days, hdays, readBody_of_reorders h horderless hbody⟩

theorem readSelector_of_readBody {body : Body} (h : readBody days text body = .ok group)
    (hselector : selector ∈ body.clocks?) : readSelector days selector = .ok group := by
  cases body with
  | modifier => cases hselector
  | clocks =>
    cases hselector
    exact h

theorem exists_readSelector (h : readRule rule = .ok group)
    (hselector : selector ∈ rule.clause.clocks?) :
    ∃ days, readSelector days selector = .ok group := by
  obtain ⟨text, clause⟩ := rule
  cases clause with
  | alwaysOpen => cases hselector
  | body body => exact ⟨.all, readSelector_of_readBody h hselector⟩
  | days spans body =>
    cases body with
    | none => cases hselector
    | some body =>
      obtain ⟨days, -, hbody⟩ := readRule_both_eq_ok_iff.mp h
      exact ⟨days, readSelector_of_readBody hbody hselector⟩

/-- What the clock spans of a rule make of the group that is read from it. -/
def ReadsClocks (rule : Weekly.Rule) (group : DayGroup) : Prop :=
  ∀ selector ∈ rule.clause.clocks?, ∃ written, List.Forall₂ Shows selector.spans written ∧
    (∃ start stop, group.MadeOf (written.map lift) start stop) ∧
    (Orderless (written.map lift) → ∀ other : Weekly.Rule, rule.clause.Reorders other.clause →
      readRule other = .ok group)

theorem readsClocks_of_readRule (h : readRule rule = .ok group) : ReadsClocks rule group := by
  intro selector hselector
  obtain ⟨days, hread⟩ := exists_readSelector h hselector
  obtain ⟨written, hshows⟩ := exists_forall₂_shows hread
  refine ⟨written, hshows, readSelector_madeOf hshows hread, fun horderless other hother => ?_⟩
  refine readRule_of_reorders hother ?_ h
  intro selector' hselector' written' hshows'
  obtain rfl : selector = selector' := Option.some.inj (hselector.symm.trans hselector')
  rwa [shows_unique hshows' hshows]

end Rules

namespace Schedule

/-- A text is read rule by rule, and a rule with clock spans is read as a group that they make. It
opens from the earliest start to the latest end. Over less than a day its hours are the spans sorted
and joined, those without a minute left out, and its breaks are the gaps between them; over a whole
day it is open around the clock. -/
theorem read_clock_rules {text : String} {schedule : Schedule}
    (h : Schedule.read text = .ok schedule) :
    ∃ rules groups, Weekly.schedule.run text.toList = some (rules, []) ∧
      List.Forall₂ (fun rule group => readRule rule = .ok group ∧ ReadsClocks rule group)
        rules groups ∧
      groups.foldl addRule {} = schedule := by
  obtain ⟨rules, hrun, groups, hgroups, hfold⟩ := readChars_eq_ok_iff_rules.mp h
  refine ⟨rules, groups, hrun, hgroups.imp fun rule group hread => ?_, hfold⟩
  exact ⟨hread, readsClocks_of_readRule hread⟩

theorem read_clock_rules_night :
    ∃ schedule, Schedule.read "Fr 25-28,20-23" = .ok schedule ∧
      schedule.groups.map DayGroup.openSpans = [[⟨1200, 1380⟩, ⟨1500, 1680⟩]] ∧
      ∃ rules groups, Weekly.schedule.run "Fr 25-28,20-23".toList = some (rules, []) ∧
        List.Forall₂ (fun rule group => readRule rule = .ok group ∧ ReadsClocks rule group)
          rules groups ∧
        groups.foldl addRule {} = schedule := by
  obtain ⟨schedule, hread, hopen⟩ : ∃ schedule, Schedule.read "Fr 25-28,20-23" = .ok schedule ∧
      schedule.groups.map DayGroup.openSpans = [[⟨1200, 1380⟩, ⟨1500, 1680⟩]] :=
    ⟨_, rfl, by decide⟩
  exact ⟨schedule, hread, hopen, read_clock_rules hread⟩

/-- The rule of a text that has three clock spans, which are written without a blank. -/
def threeSpans (first second third : ClockSpan) : Weekly.Rule :=
  let text := first.text ++ ',' :: second.text ++ ',' :: third.text
  ⟨text, .body (.clocks ⟨text, [first, second, third]⟩)⟩

/-- Where a span without a minute starts together with another one, it counts which of the two is
written first. No span without a minute is among the hours. -/
theorem read_depends_on_order :
    (∃ rules rules' schedule schedule',
      Weekly.schedule.run "10-24,24:00-0,24-0:00".toList = some (rules, []) ∧
      Weekly.schedule.run "10-24,24-0:00,24:00-0".toList = some (rules', []) ∧
      List.Forall₂ (fun rule other => rule.clause.Reorders other.clause) rules rules' ∧
      Schedule.read "10-24,24:00-0,24-0:00" = .ok schedule ∧
      Schedule.read "10-24,24-0:00,24:00-0" = .ok schedule' ∧ schedule ≠ schedule') ∧
    ∃ group, Schedule.read "10-12,24:00-0" = .ok ⟨[group]⟩ ∧
      group.openSpans ≠ join (sortOn Span.start [⟨600, 720⟩, ⟨1440, 1440⟩]) := by
  let day : ClockSpan := ⟨"10-24".toList, "10".toList, some "24".toList⟩
  let first : ClockSpan := ⟨"24:00-0".toList, "24:00".toList, some "0".toList⟩
  let second : ClockSpan := ⟨"24-0:00".toList, "24".toList, some "0:00".toList⟩
  have hrun : Weekly.schedule.run "10-24,24:00-0,24-0:00".toList =
      some ([threeSpans day first second], []) := rfl
  have hrun' : Weekly.schedule.run "10-24,24-0:00,24:00-0".toList =
      some ([threeSpans day second first], []) := rfl
  have hread : Schedule.read "10-24,24:00-0,24-0:00" =
      .ok ⟨[.timed .all ⟨⟨10, 0, false⟩, ⟨0, 0, true⟩⟩]⟩ := rfl
  have hread' : Schedule.read "10-24,24-0:00,24:00-0" =
      .ok ⟨[.timed .all ⟨⟨10, 0, false⟩, ⟨0, 0, false⟩⟩]⟩ := rfl
  have hlast : Schedule.read "10-12,24:00-0" = .ok ⟨[(DayGroup.timed .all
      ⟨⟨10, 0, false⟩, ⟨0, 0, false⟩⟩).withBreak ⟨⟨12, 0, false⟩, ⟨0, 0, true⟩⟩]⟩ := rfl
  have hswap : (threeSpans day first second).clause.Reorders
      (threeSpans day second first).clause := .body (.clocks (.cons _ (.swap _ _ [])))
  exact ⟨⟨_, _, _, _, hrun, hrun', .cons hswap .nil, hread, hread', by decide⟩, _, hlast,
    by decide⟩

end Schedule

end OpeningHours
