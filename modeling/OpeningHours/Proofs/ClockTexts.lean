import OpeningHours.Proofs.WeeklyTexts
import OpeningHours.Reading.Hours
import OpeningHours.Schedule.Rendering

/-! The hours of a rule as they are written and as they are read. The text of a span is spelled as
the grammar has it, and the span comes back from its text if it is shorter than a day. -/

namespace OpeningHours

open Peg Weekly Reading

section Digits

variable {x : Char} {minute : Int}

theorem twoDigits_eq {n : Nat} (h : n < 100) : ∃ x y, Text.twoDigits n = [x, y] ∧
    CharClass.digit.has x = true ∧ CharClass.digit.has y = true := by
  have hdigit : ∀ n < 10, CharClass.digit.has n.digitChar = true := by decide
  refine ⟨(n / 10).digitChar, (n % 10).digitChar, by rw [Text.twoDigits, if_pos h], ?_, ?_⟩
  · exact hdigit _ (by omega)
  · exact hdigit _ (by omega)

/-- A minute is written as two digits, a colon and two digits. -/
theorem renderMinute_eq (hlow : 0 ≤ minute) (hhigh : minute ≤ lastMinute) :
    ∃ a b c d, Text.twoDigits (minute / 60).toNat = [a, b] ∧
      Text.twoDigits (minute % 60).toNat = [c, d] ∧
      Span.renderMinute minute = [a, b, ':', c, d] ∧
      ∀ x ∈ [a, b, c, d], CharClass.digit.has x = true := by
  simp only [lastMinute, minutesPerDay] at hhigh
  obtain ⟨a, b, hhours, ha, hb⟩ := twoDigits_eq (n := (minute / 60).toNat) (by omega)
  obtain ⟨c, d, hminutes, hc, hd⟩ := twoDigits_eq (n := (minute % 60).toNat) (by omega)
  refine ⟨a, b, c, d, hhours, hminutes, by rw [Span.renderMinute, hhours, hminutes]; rfl, ?_⟩
  simp [ha, hb, hc, hd]

end Digits

/-- The span has a minute and lies in the two days that hours can reach. -/
structure Span.IsWritable (span : Span) : Prop where
  start_nonneg : 0 ≤ span.start
  start_lt_stop : span.start < span.stop
  stop_le : span.stop ≤ lastMinute

namespace Span.IsWritable

variable {span : Span}

theorem start_le (h : span.IsWritable) : span.start ≤ lastMinute :=
  Int.le_trans (Int.le_of_lt h.start_lt_stop) h.stop_le

theorem writtenStop_bounds (h : span.IsWritable) :
    0 ≤ span.writtenStop ∧ span.writtenStop ≤ lastMinute := by
  obtain ⟨hstart, hlength, hstop⟩ := h
  simp only [writtenStop, lastMinute, minutesPerDay] at *
  split <;> omega

end Span.IsWritable

/-! ### The grammar of the hours -/

section Grammar

variable {minute : Int} {span : Span}

/-- The span as the grammar has it. -/
def Span.clockSpan (span : Span) : ClockSpan :=
  ⟨span.render, renderMinute span.start, some (renderMinute span.writtenStop)⟩

theorem renderMinute_isClock (hlow : 0 ≤ minute) (hhigh : minute ≤ lastMinute) :
    IsClock (Span.renderMinute minute) := by
  obtain ⟨a, b, c, d, -, -, htext, hdigits⟩ := renderMinute_eq hlow hhigh
  rw [htext]
  refine ⟨[a, b], [':', c, d], rfl, ⟨.inr rfl, ?_⟩, .inr ⟨[c, d], by simp, ?_, rfl⟩⟩
  · exact fun x hx => hdigits x (List.mem_append_left [c, d] hx)
  · exact fun x hx => hdigits x (List.mem_append_right [a, b] hx)

theorem clockSpan_spelled (hspan : span.IsWritable) : span.clockSpan.Spelled span.render := by
  have hwritten := hspan.writtenStop_bounds
  have hstart := renderMinute_isClock hspan.start_nonneg hspan.start_le
  have hstop := renderMinute_isClock hwritten.1 hwritten.2
  exact ⟨rfl, .pair ⟨rfl, hstart⟩ (.alone '-') ⟨rfl, hstop⟩⟩

/-- Some spans as the grammar has them. -/
def Span.clockSelector (spans : List Span) : ClockSelector :=
  ⟨[','].intercalate (spans.map Span.render), spans.map Span.clockSpan⟩

theorem clockSelector_spelled {first : Span} {more : List Span}
    (hspans : ∀ span ∈ first :: more, span.IsWritable) :
    Body.Spelled ([','].intercalate ((first :: more).map Span.render))
      (.clocks (Span.clockSelector (first :: more))) :=
  .clocks (listed_intercalate (.alone ',') fun span hspan => clockSpan_spelled (hspans span hspan))

end Grammar

/-! ### The meaning of the hours -/

section Meaning

variable {t : List Char} {minute : Int} {span : Span}

theorem ne_colon_of_digits {digits : List Char} (h : AllDigits digits) :
    ∀ x ∈ digits, (x != ':') = true := by
  intro x hx
  rw [bne_iff_ne]
  rintro rfl
  exact absurd (h ':' hx) (by decide)

theorem readClock_hour (h : AllDigits t) : readClock t =
    if 60 * Text.number t ≤ lastMinute then .ok ⟨60 * Text.number t, false⟩
    else .error (.invalidTime (String.ofList t)) := by
  have hne := ne_colon_of_digits h
  have hhours : t.takeWhile (· != ':') = t := by
    simpa using @List.takeWhile_append_of_pos _ _ t [] hne
  have hminutes : t.dropWhile (· != ':') = [] := by
    simpa using @List.dropWhile_append_of_pos _ _ t [] hne
  simp only [readClock, hhours, hminutes]

theorem readClock_minutes {hour minutes : List Char} (h : AllDigits hour) :
    readClock (hour ++ ':' :: minutes) =
      if minutes.length = 2 ∧ Text.number minutes ≤ 59 ∧
        60 * Text.number hour + Text.number minutes ≤ lastMinute
      then .ok ⟨60 * Text.number hour + Text.number minutes, true⟩
      else .error (.invalidTime (String.ofList (hour ++ ':' :: minutes))) := by
  have hne := ne_colon_of_digits h
  have hhours : (hour ++ ':' :: minutes).takeWhile (· != ':') = hour := by
    simp [List.takeWhile_append_of_pos hne]
  have hminutes : (hour ++ ':' :: minutes).dropWhile (· != ':') = ':' :: minutes := by
    simp [List.dropWhile_append_of_pos hne]
  simp only [readClock, hhours, hminutes]
  push_cast
  rfl

theorem readClock_nonneg {clock : Clock} (h : readClock t = .ok clock) : 0 ≤ clock.minute := by
  simp only [readClock] at h
  split at h
  · split at h <;> cases h
    simp only
    omega
  · split at h <;> cases h
    simp only
    omega

theorem readClock_renderMinute (hlow : 0 ≤ minute) (hhigh : minute ≤ lastMinute) :
    readClock (Span.renderMinute minute) = .ok ⟨minute, true⟩ := by
  obtain ⟨a, b, c, d, hhours, hminutes, htext, hdigits⟩ := renderMinute_eq hlow hhigh
  have hfront : AllDigits [a, b] := fun x hx => hdigits x (List.mem_append_left [c, d] hx)
  have hbounds : minute ≤ 2 * 1440 := hhigh
  have hhour : Text.number [a, b] = (minute / 60).toNat := by
    rw [← hhours, Text.number_twoDigits (by omega)]
  have hminute : Text.number [c, d] = (minute % 60).toNat := by
    rw [← hminutes, Text.number_twoDigits (by omega)]
  have hvalue : 60 * ((minute / 60).toNat : Int) + (minute % 60).toNat = minute := by omega
  have hread := @readClock_minutes [a, b] [c, d] hfront
  rw [hhour, hminute, hvalue, if_pos ⟨rfl, by omega, hhigh⟩] at hread
  rw [htext]
  exact hread

/-- The span with its times as they were read. -/
def Span.stretch (span : Span) : Stretch := ⟨⟨span.start, true⟩, ⟨span.stop, true⟩⟩

@[simp] theorem Span.span_stretch (span : Span) : span.stretch.span = span := rfl

/-- A span shorter than a day is read back from its text. -/
theorem readSpan_clockSpan (hspan : span.IsWritable)
    (hlength : span.stop < span.start + minutesPerDay) :
    readSpan span.clockSpan = .ok span.stretch := by
  have hforward := hspan.start_lt_stop
  have hwritten := hspan.writtenStop_bounds
  have hlift : liftStop span.start span.writtenStop = span.stop := by
    simp only [liftStop, Span.writtenStop, minutesPerDay] at *
    split <;> split <;> omega
  have hne : span.start ≠ span.writtenStop := by
    simp only [Span.writtenStop, minutesPerDay] at *
    split <;> omega
  simp only [readSpan, Span.clockSpan, Option.mapM_some,
    readClock_renderMinute hspan.start_nonneg hspan.start_le,
    readClock_renderMinute hwritten.1 hwritten.2]
  refine (if_neg hne).trans ?_
  rw [hlift]
  exact if_pos ⟨Int.le_of_lt hforward, Int.le_of_lt hlength, hspan.stop_le⟩

end Meaning

end OpeningHours
