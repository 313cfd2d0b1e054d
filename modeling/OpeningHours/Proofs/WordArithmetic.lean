import OpeningHours.Outlook
import OpeningHours.Proofs.WideTexts

/-! Reading with words is reading with integers but for one operation, the length of a clock span.
An end before the start is moved to the next day once, and where that is not enough the difference
is below zero: a checked subtraction stops there, and a wrapping one gives a length that is too long
for a span. Every other sum and difference is a word. So an answer of the program is the one of the
reading with integers, and it breaks off nowhere else. -/

namespace OpeningHours

open Peg OpeningHours.Span Reading Weekly

/-- The items are read one by one up to one of a kind. -/
def Reaches (read : α → Except ReadError β) (kind : α → Prop) (xs : List α) : Prop :=
  ∃ before x after, xs = before ++ x :: after ∧ (∀ y ∈ before, ∃ b, read y = .ok b) ∧ kind x

/-- The end of the span, moved to the next day, is still before the start. -/
def Weekly.ClockSpan.EndsShort (c : ClockSpan) : Prop :=
  ∃ written, Shows c written ∧ written.stop + minutesPerDay < written.start

def Weekly.Body.EndsShort : Body → Prop
  | .modifier _ => False
  | .clocks selector => Reaches Reading.readSpan ClockSpan.EndsShort selector.spans

/-- Reading the rule comes to a span that ends short. -/
def Weekly.Rule.EndsShort (rule : Rule) : Prop :=
  match rule.clause with
  | .alwaysOpen => False
  | .body body => body.EndsShort
  | .days spans body => (∃ days, readDays spans = .ok days) ∧ ∃ b, body = some b ∧ b.EndsShort

/-- Reading the text comes to a span that ends short. -/
def ReachesShortSpan (text : List Char) : Prop :=
  ∃ rules, schedule.run text = some (rules, []) ∧ Reaches Reading.readRule Rule.EndsShort rules

section Reaches

variable {read : α → Except ReadError β} {kind : α → Prop} {x : α} {xs : List α}

theorem not_reaches_nil : ¬Reaches read kind [] := by
  intro ⟨before, x, after, h, _⟩
  simp at h

theorem reaches_cons_iff : Reaches read kind (x :: xs) ↔
    kind x ∨ (∃ b, read x = .ok b) ∧ Reaches read kind xs := by
  constructor
  · intro ⟨before, y, after, hxs, hbefore, hy⟩
    cases before with
    | nil =>
      obtain ⟨rfl, -⟩ := List.cons.inj hxs
      exact .inl hy
    | cons z before =>
      obtain ⟨rfl, rfl⟩ := List.cons.inj hxs
      obtain ⟨hz, hbefore⟩ := List.forall_mem_cons.mp hbefore
      exact .inr ⟨hz, before, y, after, rfl, hbefore, hy⟩
  · intro h
    rcases h with hx | ⟨hx, before, y, after, rfl, hbefore, hy⟩
    · exact ⟨[], x, xs, rfl, nofun, hx⟩
    · exact ⟨x :: before, y, after, rfl, List.forall_mem_cons.mpr ⟨hx, hbefore⟩, hy⟩

/-- The reading ends with the error of the item that is reached. -/
theorem Reaches.error {R : ReadError → Prop} (h : Reaches read kind xs)
    (hkind : ∀ x, kind x → ∃ e, read x = .error e ∧ R e) : ∃ e, xs.mapM read = .error e ∧ R e := by
  induction xs with
  | nil => exact absurd h not_reaches_nil
  | cons x xs ih =>
    rcases reaches_cons_iff.mp h with hx | ⟨hx, hxs⟩
    · obtain ⟨e, he, hR⟩ := hkind x hx
      exact ⟨e, mapM_cons_eq_error_iff.mpr (.inl he), hR⟩
    · obtain ⟨e, he, hR⟩ := ih hxs
      exact ⟨e, mapM_cons_eq_error_iff.mpr (.inr ⟨hx, he⟩), hR⟩

end Reaches

namespace Reading.Words

theorem run_bind_of_ok {attempt : Attempt α} {next : α → Attempt β} {a : α}
    (h : attempt.run = some (.ok a)) : (attempt >>= next).run = (next a).run := by
  rw [ExceptT.run_bind, h]
  rfl

theorem run_bind_of_error {attempt : Attempt α} {next : α → Attempt β} {e : ReadError}
    (h : attempt.run = some (.error e)) : (attempt >>= next).run = some (.error e) := by
  rw [ExceptT.run_bind, h]
  rfl

theorem run_bind_of_none {attempt : Attempt α} {next : α → Attempt β}
    (h : attempt.run = none) : (attempt >>= next).run = none := by
  rw [ExceptT.run_bind, h]
  rfl

/-- Reading with words gives a result, but in one case: there it stops if operations are checked. -/
structure Follows (attempt : Arithmetic → Attempt α) (result : Except ReadError α)
    (stops : Prop) : Prop where
  wrapping : (attempt .wrapping).run = some result
  stopped : stops → (attempt .checked).run = none
  goes : ¬stops → ∀ arithmetic, (attempt arithmetic).run = some result

namespace Follows

variable {attempt : Arithmetic → Attempt α} {result : Except ReadError α} {stops stops' : Prop}
  {next : Arithmetic → α → Attempt β} {result' : α → Except ReadError β}

theorem of_run (h : ∀ arithmetic, (attempt arithmetic).run = some result) :
    Follows attempt result False := ⟨h _, False.elim, fun _ => h⟩

theorem congr (h : Follows attempt result stops) (hiff : stops ↔ stops') :
    Follows attempt result stops' := by
  rwa [propext hiff] at h

/-- The second part is only come to with a value of the first. -/
theorem bind (later : α → Prop) (h : Follows attempt result stops)
    (hnext : ∀ a, result = .ok a → Follows (next · a) (result' a) (later a)) :
    Follows (fun arithmetic => attempt arithmetic >>= next arithmetic) (result >>= result')
      (stops ∨ ∃ a, result = .ok a ∧ later a) := by
  cases result with
  | error e =>
    refine ⟨run_bind_of_error h.wrapping, fun hstops => ?_, fun hgoes arithmetic => ?_⟩
    · rcases hstops with hfirst | ⟨a, ha, -⟩
      · exact run_bind_of_none (h.stopped hfirst)
      · cases ha
    · exact run_bind_of_error (h.goes (fun hfirst => hgoes (.inl hfirst)) arithmetic)
  | ok a =>
    obtain ⟨hwrapping, hstopped, hlast⟩ := hnext a rfl
    refine ⟨(run_bind_of_ok h.wrapping).trans hwrapping, fun hstops => ?_,
      fun hgoes arithmetic => ?_⟩
    · by_cases hfirst : stops
      · exact run_bind_of_none (h.stopped hfirst)
      rcases hstops with hfirst' | ⟨_, ⟨⟩, hlater⟩
      · exact absurd hfirst' hfirst
      · exact (run_bind_of_ok (h.goes hfirst .checked)).trans (hstopped hlater)
    · have hfirst := h.goes (fun hfirst => hgoes (.inl hfirst)) arithmetic
      exact (run_bind_of_ok hfirst).trans
        (hlast (fun hlater => hgoes (.inr ⟨a, rfl, hlater⟩)) arithmetic)

theorem bind_run (h : Follows attempt result stops) (hnext : ∀ a, result = .ok a →
      ∀ arithmetic, (next arithmetic a).run = some (result' a)) :
    Follows (fun arithmetic => attempt arithmetic >>= next arithmetic) (result >>= result')
      stops :=
  (h.bind (fun _ => False) fun a ha => .of_run (hnext a ha)).congr (by simp)

theorem mapM {step : Arithmetic → α → Attempt β} {read : α → Except ReadError β}
    {kind : α → Prop} {xs : List α} (h : ∀ x ∈ xs, Follows (step · x) (read x) (kind x)) :
    Follows (fun arithmetic => xs.mapM (step arithmetic)) (xs.mapM read)
      (Reaches read kind xs) := by
  induction xs with
  | nil =>
    have hnil : Follows (fun arithmetic => [].mapM (step arithmetic)) ([].mapM read) False :=
      of_run fun _ => rfl
    exact hnil.congr (iff_of_false id not_reaches_nil)
  | cons x xs ih =>
    obtain ⟨hx, hxs⟩ := List.forall_mem_cons.mp h
    simp only [List.mapM_cons]
    refine (hx.bind (fun _ => Reaches read kind xs) fun b _ =>
      (ih hxs).bind_run fun bs _ _ => rfl).congr ?_
    rw [reaches_cons_iff, exists_and_right]

end Follows

/-! ### Operations -/

variable {arithmetic : Arithmetic} {n : Int}

theorem wrap_of_bounds (hlow : 0 ≤ n) (hhigh : n < 4294967296) : wrap n = n :=
  Int.emod_eq_of_lt hlow hhigh

theorem run_word (hlow : 0 ≤ n) (hhigh : n < 4294967296) :
    (word arithmetic n).run = some (.ok n) := by
  unfold word
  rw [if_pos (wrap_of_bounds hlow hhigh)]
  rfl

/-- A difference below zero wraps around to the upper end of the words. -/
theorem run_word_of_neg (hlow : -4294967296 ≤ n) (hneg : n < 0) :
    (word .wrapping n).run = some (.ok (n + 4294967296)) ∧ (word .checked n).run = none := by
  have hwrap : wrap n = n + 4294967296 := by
    unfold wrap
    rw [← Int.add_emod_right, Int.emod_eq_of_lt (by omega) (by omega)]
  unfold word
  rw [if_neg (by omega), if_neg (by omega), hwrap]
  exact ⟨rfl, rfl⟩

/-- A check of the values that fails with words is one that does not pass with integers. -/
theorem run_check {fails passes : Prop} [Decidable fails] [Decidable passes] {e : ReadError}
    {a : α} (h : fails ↔ ¬passes) :
    (if fails then throw e else pure a : Attempt α).run =
      some (if passes then .ok a else .error e) := by
  by_cases hpasses : passes
  · rw [if_neg fun hfails => h.mp hfails hpasses, if_pos hpasses]
    rfl
  · rw [if_pos (h.mpr hpasses), if_neg hpasses]
    rfl

/-! ### Clock times -/

section Clocks

variable {t text digits : List Char} {start stop : Clock} {c : ClockSpan}

theorem number_lt (hlength : t.length ≤ 2) (hdigits : AllDigits t) : Text.number t < 100 := by
  match t, hlength with
  | [], _ => decide
  | [a], _ =>
    have ha := Language.toNat_of_digit (hdigits a (by simp))
    rw [Language.number_one]
    omega
  | [a, b], _ =>
    have ha := Language.toNat_of_digit (hdigits a (by simp))
    have hb := Language.toNat_of_digit (hdigits b (by simp))
    rw [Language.number_two]
    omega

theorem run_readNumber (hlength : digits.length ≤ 2) (hdigits : AllDigits digits) :
    (readNumber text digits).run = some (.ok (Text.number digits : Int)) := by
  have hsmall := number_lt hlength hdigits
  unfold readNumber
  rw [if_pos (wrap_of_bounds (by omega) (by omega))]
  rfl

theorem run_readMinute_of_two (htwo : digits.length = 2) (hdigits : AllDigits digits) :
    (readMinute text (':' :: digits)).run = some (.ok (Text.number digits : Int)) := by
  rw [readMinute, if_pos htwo]
  exact run_readNumber (by omega) hdigits

theorem run_readMinute_of_not_two (htwo : ¬digits.length = 2) :
    (readMinute text (':' :: digits)).run = some (.error (.invalidTime (String.ofList text))) := by
  rw [readMinute, if_neg htwo]
  rfl

theorem run_total {hour minute : Int} {next : Int → Attempt α} (hhour : 0 ≤ hour ∧ hour < 100)
    (hminute : 0 ≤ minute ∧ minute < 100) :
    (word arithmetic (60 * hour) >>= fun product =>
      word arithmetic (product + minute) >>= next).run = (next (60 * hour + minute)).run := by
  rw [run_bind_of_ok (run_word (by omega) (by omega)),
    run_bind_of_ok (run_word (by omega) (by omega))]

/-- A hundred hours and a hundred minutes are still words, and more are not written. -/
theorem run_readClock (h : IsClock t) :
    (readClock arithmetic t).run = some (Reading.readClock t) := by
  obtain ⟨hour, minutes, rfl, ⟨hlength, hhour⟩, hminutes⟩ := h
  have hsmall := number_lt (by omega) hhour
  have htake : (hour ++ minutes).takeWhile (· != ':') = hour := by
    rw [List.takeWhile_append_of_pos (ne_colon_of_digits hhour)]
    rcases hminutes with rfl | ⟨digits, -, -, rfl⟩ <;> simp
  have hdrop : (hour ++ minutes).dropWhile (· != ':') = minutes := by
    rw [List.dropWhile_append_of_pos (ne_colon_of_digits hhour)]
    rcases hminutes with rfl | ⟨digits, -, -, rfl⟩ <;> simp
  unfold readClock
  simp only [htake, hdrop]
  rw [run_bind_of_ok (run_readNumber (by omega) hhour)]
  rcases hminutes with rfl | ⟨digits, -, hdigits, rfl⟩
  · have hminute : (readMinute (hour ++ []) []).run = some (.ok 0) := rfl
    rw [run_bind_of_ok hminute, run_total (by omega) (by decide), List.append_nil,
      readClock_hour hhour, Int.add_zero]
    exact run_check (by omega)
  rw [readClock_minutes hhour]
  by_cases htwo : digits.length = 2
  · have hminute := number_lt (by omega) hdigits
    rw [run_bind_of_ok (run_readMinute_of_two htwo hdigits), run_total (by omega) (by omega)]
    exact run_check (by omega)
  · rw [run_bind_of_error (run_readMinute_of_not_two htwo), if_neg (by simp [htwo])]

theorem readClock_le {clock : Clock} (h : Reading.readClock t = .ok clock) :
    clock.minute ≤ lastMinute := by
  simp only [Reading.readClock] at h
  split at h
  · split at h <;> cases h
    assumption
  · split at h <;> cases h
    simp only
    omega

theorem run_liftStop {a b : Int} (hlow : 0 ≤ b) (hhigh : b ≤ lastMinute) :
    (liftStop arithmetic a b).run = some (.ok (Reading.liftStop a b)) := by
  have hbound : b ≤ 2 * 1440 := hhigh
  unfold liftStop Reading.liftStop
  split
  · exact run_word (show 0 ≤ b + 1440 by omega) (show b + 1440 < 4294967296 by omega)
  · rfl

/-- The length of a span is a word unless the span ends short. -/
theorem follows_stretchOf (hstart : 0 ≤ start.minute) (hstart' : start.minute ≤ lastMinute)
    (hstop : 0 ≤ stop.minute) (hstop' : stop.minute ≤ lastMinute) :
    Follows (stretchOf · text start stop)
      (if start.minute = stop.minute then .error (.emptyRange (String.ofList text))
      else if start.minute ≤ Reading.liftStop start.minute stop.minute ∧
        Reading.liftStop start.minute stop.minute ≤ start.minute + minutesPerDay ∧
          Reading.liftStop start.minute stop.minute ≤ lastMinute then
        .ok ⟨start, { stop with minute := Reading.liftStop start.minute stop.minute }⟩
      else .error (.spanTooLong (String.ofList text)))
      (stop.minute + minutesPerDay < start.minute) := by
  have hlift := fun arithmetic => @run_liftStop arithmetic start.minute stop.minute hstop hstop'
  have hlifted : Reading.liftStop start.minute stop.minute = stop.minute ∧
      start.minute ≤ stop.minute ∨ Reading.liftStop start.minute stop.minute =
        stop.minute + minutesPerDay ∧ stop.minute < start.minute := by
    unfold Reading.liftStop
    split <;> simp <;> omega
  unfold stretchOf
  generalize Reading.liftStop start.minute stop.minute = lifted at hlift hlifted ⊢
  have hday : (minutesPerDay : Int) = 1440 := rfl
  have htwo : (lastMinute : Int) = 2880 := rfl
  by_cases heq : start.minute = stop.minute
  · simp only [if_pos heq]
    exact (Follows.of_run fun _ => rfl).congr (iff_of_false id (by omega))
  simp only [if_neg heq]
  by_cases hshort : stop.minute + minutesPerDay < start.minute
  · obtain ⟨hwrapping, hchecked⟩ :=
      @run_word_of_neg (lifted - start.minute) (by omega) (by omega)
    refine ⟨?_, fun _ => ?_, fun hgoes => absurd hshort hgoes⟩
    · rw [run_bind_of_ok (hlift _), run_bind_of_ok hwrapping, if_pos (by omega), if_neg (by omega)]
      rfl
    · rw [run_bind_of_ok (hlift _), run_bind_of_none hchecked]
  · refine (Follows.of_run fun arithmetic => ?_).congr (iff_of_false id hshort)
    rw [run_bind_of_ok (hlift _), run_bind_of_ok (run_word (by omega) (by omega))]
    exact run_check (by omega)

theorem isClock_of_verbatim {value : List Char} (h : Verbatim IsClock t value) : IsClock value := by
  obtain ⟨rfl, hclock⟩ := h
  exact hclock

theorem follows_readSpan (h : c.Spelled t) :
    Follows (readSpan · c) (Reading.readSpan c) c.EndsShort := by
  obtain ⟨text, first, last⟩ := c
  obtain ⟨-, hspanned⟩ := h
  have hclocks : IsClock first ∧ ∀ u, last = some u → IsClock u := by
    cases hspanned with
    | one h => exact ⟨isClock_of_verbatim h, nofun⟩
    | pair h hg h' =>
      exact ⟨isClock_of_verbatim h, fun u hu => Option.some.inj hu ▸ isClock_of_verbatim h'⟩
  have hstart : Follows (readClock · first) (Reading.readClock first) False :=
    .of_run fun _ => run_readClock hclocks.1
  have hstop : Follows (fun arithmetic => last.mapM (readClock arithmetic))
      (last.mapM Reading.readClock) False := by
    cases last with
    | none => exact .of_run fun _ => rfl
    | some u =>
      exact (Follows.of_run fun _ => run_readClock (hclocks.2 u rfl)).bind_run fun _ _ _ => rfl
  refine (hstart.bind _ fun start hs => hstop.bind (fun stop => ∃ clock, stop = some clock ∧
    clock.minute + minutesPerDay < start.minute) fun stop hs' => ?_).congr ?_
  · cases stop with
    | none => exact (Follows.of_run fun _ => rfl).congr (by simp)
    | some clock =>
      obtain ⟨u, -, hu⟩ := optionMapM_eq_ok_iff.mp hs'
      have hspan := @follows_stretchOf text start clock (readClock_nonneg hs) (readClock_le hs)
        (readClock_nonneg hu) (readClock_le hu)
      exact hspan.congr (by simp)
  · constructor
    · intro h
      rcases h with hnever | ⟨start, hs, hnever | ⟨_, hs', clock, rfl, hshort⟩⟩
      · exact hnever.elim
      · exact hnever.elim
      · obtain ⟨u, hlast, hu⟩ := optionMapM_eq_ok_iff.mp hs'
        exact ⟨⟨start.minute, clock.minute⟩, ⟨start, u, clock, hs, hlast, hu, rfl⟩, hshort⟩
    · intro ⟨_, ⟨start, u, clock, hs, hlast, hu, hwritten⟩, hshort⟩
      subst hwritten
      exact .inr ⟨start, hs, .inr ⟨some clock, optionMapM_eq_ok_iff.mpr ⟨u, hlast, hu⟩, clock, rfl,
        hshort⟩⟩

end Clocks

/-! ### Groups -/

section Groups

variable {days : WeekdaySet} {t text : List Char} {first : Stretch} {more stretches : List Stretch}
  {spans : List ClockSpan} {body : Body} {rule : Rule} {rules : List Rule}

theorem run_groupOfStretches
    (hlow : first.start.minute ≤ (more.getLast?.getD first).stop.minute)
    (hhigh : (more.getLast?.getD first).stop.minute < first.start.minute + 4294967296) :
    (groupOfStretches arithmetic days text first more).run =
      some (Reading.groupOfStretches days text first more) := by
  unfold groupOfStretches Reading.groupOfStretches
  by_cases hlate : minutesPerDay ≤ first.start.minute
  · rw [if_pos hlate, if_pos hlate]
    rfl
  rw [if_neg hlate, if_neg hlate, run_bind_of_ok (run_word (by omega) (by omega))]
  split
  · rfl
  · split <;> rfl

theorem last_mem_cons (current : Stretch) (rest : List Stretch) :
    rest.getLast?.getD current ∈ current :: rest := by
  cases hlast : rest.getLast? with
  | none => simp
  | some last => exact List.mem_cons_of_mem current (List.mem_of_getLast? hlast)

/-- The last stop of joined spans is not before their first start. -/
theorem run_groupOfSpans (hstart : ∀ stretch ∈ stretches, 0 ≤ stretch.start.minute)
    (hstop : ∀ stretch ∈ stretches, stretch.stop.minute ≤ lastMinute)
    (hforward : Forward (stretches.map Stretch.span)) :
    (groupOfSpans arithmetic days text stretches).run =
      some (Reading.groupOfSpans days text stretches) := by
  have hsorted : Forward ((sortOn (·.start.minute) stretches).map Stretch.span) :=
    fun span hspan => hforward span (mem_span_sortOn.mp hspan)
  have hmem : ∀ stretch ∈ sortOn (·.start.minute) stretches, stretch ∈ stretches :=
    fun _ => mem_sortOn.mp
  unfold groupOfSpans Reading.groupOfSpans
  generalize sortOn (·.start.minute) stretches = sorted at hsorted hmem ⊢
  cases sorted with
  | nil => rfl
  | cons current rest =>
    cases hjoined : joinStretches current rest with
    | none =>
      simp only [hjoined]
      rfl
    | some joined =>
      obtain ⟨first, more, rfl, hfirst, hstopped, -⟩ := joinStretches_eq hsorted hjoined
      simp only [hjoined]
      have horder := (joinStretches_isSome_iff hsorted).mp ⟨_, hjoined⟩
      have hcurrent : current.start.minute ≤ current.stop.minute := hsorted current.span (by simp)
      have hlater : current.stop.minute ≤ (rest.getLast?.getD current).stop.minute := by
        have hspan := InOrder.stop_le_last horder hsorted current.span (by simp)
        rwa [stop_last_span] at hspan
      have hearly := hstart current (hmem current (by simp))
      have hlast := hstop _ (hmem _ (last_mem_cons current rest))
      have hbound : (rest.getLast?.getD current).stop.minute ≤ 2 * 1440 := hlast
      apply run_groupOfStretches <;> rw [hfirst, hstopped] <;> omega

theorem bounds_of_readSpan {c : ClockSpan} {stretch : Stretch}
    (h : Reading.readSpan c = .ok stretch) : 0 ≤ stretch.start.minute ∧
      stretch.start.minute ≤ stretch.stop.minute ∧ stretch.stop.minute ≤ lastMinute := by
  obtain ⟨start, u, stop, hstart, -, -, hpasses, rfl⟩ := readSpan_eq_ok_iff.mp h
  exact ⟨readClock_nonneg hstart, hpasses.forward, hpasses.stop_le⟩

theorem follows_readSelector (h : ClocksSpelled t spans) :
    Follows (readSelector · days ⟨text, spans⟩) (Reading.readSelector days ⟨text, spans⟩)
      (Reaches Reading.readSpan ClockSpan.EndsShort spans) := by
  have hspans : Follows (fun arithmetic => spans.mapM (readSpan arithmetic))
      (spans.mapM Reading.readSpan) (Reaches Reading.readSpan ClockSpan.EndsShort spans) :=
    Follows.mapM fun c hc => follows_readSpan (h.exists_text c hc).choose_spec
  refine hspans.bind_run fun stretches hread arithmetic => ?_
  have hbounds : ∀ stretch ∈ stretches, 0 ≤ stretch.start.minute ∧
      stretch.start.minute ≤ stretch.stop.minute ∧ stretch.stop.minute ≤ lastMinute := by
    have hall := exists_forall₂_iff.mp ⟨spans, (mapM_eq_ok_iff.mp hread).flip⟩
    intro stretch hstretch
    obtain ⟨c, hc⟩ := hall stretch hstretch
    exact bounds_of_readSpan hc
  apply run_groupOfSpans
  · exact fun stretch hstretch => (hbounds stretch hstretch).1
  · exact fun stretch hstretch => (hbounds stretch hstretch).2.2
  · exact List.forall_mem_map.mpr fun stretch hstretch => (hbounds stretch hstretch).2.1

/-! ### Rules and texts -/

theorem follows_readBody (h : body.Spelled t) :
    Follows (readBody · days text body) (Reading.readBody days text body) body.EndsShort := by
  cases h with
  | modifier h => exact .of_run fun _ => rfl
  | clocks h => exact follows_readSelector h

theorem follows_readRule (h : rule.Spelled t) :
    Follows (readRule · rule) (Reading.readRule rule) rule.EndsShort := by
  obtain ⟨text, clause⟩ := rule
  obtain ⟨-, hclause⟩ := h
  cases hclause with
  | always => exact .of_run fun _ => rfl
  | body h => exact follows_readBody h
  | @days t spans h =>
    have hdays : Follows (fun _ => ofRead (readDays spans)) (readDays spans) False :=
      .of_run fun _ => rfl
    exact (hdays.bind_run fun days _ _ => rfl).congr (by simp [Rule.EndsShort])
  | @both t g u spans body h hg hgap hb =>
    have hdays : Follows (fun _ => ofRead (readDays spans)) (readDays spans) False :=
      .of_run fun _ => rfl
    exact (hdays.bind _ fun days _ => follows_readBody hb).congr (by simp [Rule.EndsShort])

theorem follows_readRules (h : RulesSpelled t rules) :
    Follows (readRules · rules) (Reading.readRules rules)
      (Reaches Reading.readRule Rule.EndsShort rules) := by
  have hrules : Follows (fun arithmetic => rules.mapM (readRule arithmetic))
      (rules.mapM Reading.readRule) (Reaches Reading.readRule Rule.EndsShort rules) :=
    Follows.mapM fun rule hrule => follows_readRule (h.exists_text rule hrule).choose_spec
  exact hrules.bind_run fun groups _ _ => rfl

theorem follows_readChars (text : List Char) :
    Follows (readChars · text) (Reading.readChars text) (ReachesShortSpan text) := by
  cases hrun : schedule.run text with
  | none =>
    have hnever : ¬ReachesShortSpan text := by
      intro ⟨rules, hsome, _⟩
      rw [hrun] at hsome
      cases hsome
    refine (Follows.of_run fun _ => ?_).congr (iff_of_false id hnever)
    unfold readChars Reading.readChars
    rw [hrun]
    split <;> rfl
  | some result =>
    obtain ⟨rules, rest⟩ := result
    obtain ⟨rfl, front, t, back, -, -, -, hspelled⟩ := run_schedule_iff.mp hrun
    have hblank := not_all_blank hrun
    have hwords : (readChars · text) = (readRules · rules) := by
      funext arithmetic
      rw [readChars, if_neg (by simp [hblank]), hrun]
    rw [hwords, readChars_eq_readRules hrun]
    refine (follows_readRules hspelled).congr ?_
    simp [ReachesShortSpan, hrun]

end Groups

end Reading.Words

/-! ### Spans that end short -/

theorem error_of_endsShort {c : ClockSpan} (h : c.EndsShort) :
    Reading.readSpan c = .error (.spanTooLong (String.ofList c.text)) := by
  obtain ⟨text, first, last⟩ := c
  obtain ⟨_, ⟨start, u, stop, hstart, rfl, hstop, rfl⟩, hshort⟩ := h
  have hday : stop.minute + 1440 < start.minute := hshort
  have hlift : Reading.liftStop start.minute stop.minute = stop.minute + minutesPerDay :=
    if_pos (by omega)
  have hstop' : (some u).mapM Reading.readClock = .ok (some stop) :=
    optionMapM_eq_ok_iff.mpr ⟨u, rfl, hstop⟩
  simp only [Reading.readSpan]
  rw [hstart, hstop']
  refine (if_neg (by omega)).trans (if_neg fun hfits => ?_)
  rw [hlift] at hfits
  exact absurd hfits.1 (Int.not_le.mpr hday)

theorem error_of_rule_endsShort {rule : Rule} (h : rule.EndsShort) :
    ∃ e, Reading.readRule rule = .error e ∧ e.kind = .spanTooLong := by
  have hbody : ∀ {days text} {body : Body}, body.EndsShort →
      ∃ e, Reading.readBody days text body = .error e ∧ e.kind = .spanTooLong := by
    intro days text body hbody
    cases body with
    | modifier m => exact hbody.elim
    | clocks selector =>
      obtain ⟨e, he, hkind⟩ := Reaches.error (R := (·.kind = .spanTooLong)) hbody
        fun c hc => ⟨_, error_of_endsShort hc, rfl⟩
      exact ⟨e, by simp [Reading.readBody, Reading.readSelector, he, Bind.bind, Except.bind], hkind⟩
  obtain ⟨text, clause⟩ := rule
  cases clause with
  | alwaysOpen => exact h.elim
  | body body => exact hbody h
  | days spans body =>
    obtain ⟨⟨days, hdays⟩, b, rfl, hshort⟩ := h
    obtain ⟨e, he, hkind⟩ := @hbody days text b hshort
    exact ⟨e, by simp [Reading.readRule, hdays, he, Bind.bind, Except.bind], hkind⟩

theorem error_of_reachesShortSpan {text : List Char} (h : ReachesShortSpan text) :
    ∃ e, Reading.readChars text = .error e ∧ e.kind = .spanTooLong := by
  obtain ⟨rules, hrun, hrules⟩ := h
  obtain ⟨e, he, hkind⟩ := Reaches.error (R := (·.kind = .spanTooLong)) hrules
    fun rule hrule => error_of_rule_endsShort hrule
  refine ⟨e, ?_, hkind⟩
  rw [readChars_eq_readRules hrun]
  simp [Reading.readRules, he, Bind.bind, Except.bind]

/-! ### Answers of the program -/

section Answers

variable {text : String}

theorem Schedule.parse_of_not_reaches (h : ¬ReachesShortSpan text.toList) :
    Schedule.parse text = some (Schedule.read text) :=
  (Words.follows_readChars text.toList).goes h .checked

theorem Schedule.parse_eq_none_iff :
    Schedule.parse text = none ↔ ReachesShortSpan text.toList := by
  refine ⟨fun hnone => ?_, (Words.follows_readChars text.toList).stopped⟩
  by_contra hgoes
  rw [Schedule.parse_of_not_reaches hgoes] at hnone
  cases hnone

/-- An answer of the program is the one of the reading with integers. -/
theorem Schedule.read_of_parse {result : Except ReadError Schedule}
    (h : Schedule.parse text = some result) : Schedule.read text = result := by
  have hgoes : ¬ReachesShortSpan text.toList := by
    rw [← Schedule.parse_eq_none_iff, h]
    exact nofun
  exact Option.some.inj ((Schedule.parse_of_not_reaches hgoes).symm.trans h)

/-- The program does not break off in a text that is a schedule. -/
theorem Schedule.parse_of_read {schedule : Schedule} (h : Schedule.read text = .ok schedule) :
    Schedule.parse text = some (.ok schedule) := by
  cases hparse : Schedule.parse text with
  | none =>
    obtain ⟨e, he, -⟩ := error_of_reachesShortSpan (Schedule.parse_eq_none_iff.mp hparse)
    cases h.symm.trans he
  | some result => rw [← Schedule.read_of_parse hparse, h]

theorem parseOutlook_eq (holidays : Holidays) (limits : Limits) (now : Instant) :
    parseOutlook text holidays limits now =
      (Schedule.parse text).map fun _ => outlookOf text holidays limits now := by
  unfold parseOutlook outlookOf
  cases hparse : Schedule.parse text with
  | none => rfl
  | some result =>
    rw [Schedule.read_of_parse hparse]
    cases result <;> rfl

end Answers

/-- The program breaks off in a text exactly if the reading comes to a span that ends short. Words
that wrap around give a span that is too long there. In any other text all three ways to count give
the answer of the reading with integers, and an outlook of the text is the one of that answer. -/
theorem Schedule.parse_eq_read (text : String) :
    (Schedule.parse text = none ↔ ReachesShortSpan text.toList) ∧
    (∀ result, Schedule.parse text = some result → Schedule.read text = result) ∧
    (∀ schedule, Schedule.read text = .ok schedule → Schedule.parse text = some (.ok schedule)) ∧
    (∀ holidays limits now, parseOutlook text holidays limits now =
      (Schedule.parse text).map fun _ => outlookOf text holidays limits now) ∧
    Schedule.readWords .wrapping text = some (Schedule.read text) ∧
    (ReachesShortSpan text.toList →
      ∃ e, Schedule.read text = .error e ∧ e.kind = .spanTooLong) ∧
    (¬ReachesShortSpan text.toList →
      ∀ arithmetic, Schedule.readWords arithmetic text = some (Schedule.read text)) := by
  obtain ⟨hwrapping, -, hgoes⟩ := Words.follows_readChars text.toList
  exact ⟨Schedule.parse_eq_none_iff, fun _ => Schedule.read_of_parse,
    fun _ => Schedule.parse_of_read, parseOutlook_eq, hwrapping, error_of_reachesShortSpan, hgoes⟩

theorem Schedule.parse_short_span :
    Schedule.parse "47-1" = none ∧
      Schedule.readWords .wrapping "47-1" = some (.error (.spanTooLong "47-1")) ∧
      Schedule.readWords .unbounded "47-1" = some (.error (.lateStart "47-1")) := by
  refine ⟨?_, ?_, ?_⟩ <;> decide

end OpeningHours
