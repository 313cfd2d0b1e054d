import OpeningHours.Proofs.RuleParts

/-! Which part of a rule a text can begin with. Where weekdays or times can be read, none of the
parts in front of them can, so that what begins a rule says which part comes first. -/

namespace OpeningHours

open Peg

namespace Language

variable {p q : Scan} {s m : List Char}

/-! ### Refusals -/

theorem refuses_orElse_iff {p q : Peg α} : (p <|> q).Refuses s ↔ p.Refuses s ∧ q.Refuses s :=
  refuses_choice_iff

theorem refuses_then_iff (hq : ∀ s, ¬q.Refuses s) : (p >> q).Refuses s ↔ p.Refuses s := by
  refine ⟨fun h => ?_, refuses_then⟩
  rcases refuses_seq_iff.mp (refuses_map_iff.mp h) with hp | ⟨middle, -, hsecond⟩
  · exact hp
  · exact absurd hsecond (hq middle)

theorem not_refuses_then (hp : ∀ s, ¬p.Refuses s) (hq : ∀ s, ¬q.Refuses s) :
    ∀ s, ¬(p >> q).Refuses s := fun s h => hp s ((refuses_then_iff hq).mp h)

theorem refuses_then_of_leaves (h : p.Leaves s m) : (p >> q).Refuses s ↔ q.Refuses m := by
  rw [refuses_iff_rest?, rest?_then, leaves_iff_rest?.mp h, refuses_iff_rest?, Option.bind_some]

theorem refuses_listOf_iff : (listOf p).Refuses s ↔ p.Refuses s := by
  rw [listOf, refuses_map_iff, commaList, refuses_map_iff, refuses_seq_iff]
  exact ⟨fun h => h.resolve_right fun h => not_refuses_star h.choose_spec.2, .inl⟩

theorem refuses_yearSelector_iff : yearSelector.Refuses s ↔ year.Refuses s := by
  rw [yearSelector, mark, refuses_map_iff, refuses_listOf_iff]
  exact refuses_then_iff fun _ => not_refuses_maybe

theorem refuses_weekSelector_iff : weekSelector.Refuses ("week".toList ++ s) ↔
    weekNumber.Refuses (s.dropWhile CharClass.blank.has) := by
  have hblanks : ws.Leaves s (s.dropWhile CharClass.blank.has) := leaves_iff_rest?.mpr rest?_ws
  rw [weekSelector, mark, refuses_map_iff, refuses_then_of_leaves (leaves_word_iff.mpr rfl),
    refuses_then_of_leaves hblanks, refuses_listOf_iff]
  exact refuses_then_iff fun _ => not_refuses_maybe

theorem refuses_timeSelector_iff : timeSelector.Refuses s ↔ time.Refuses s := by
  rw [timeSelector, refuses_listOf_iff]
  exact refuses_then_iff fun _ => not_refuses_maybe

/-! ### Times -/

@[simp] theorem mayBeEmpty_then : (p >> q).mayBeEmpty = (p.mayBeEmpty && q.mayBeEmpty) := rfl

theorem digit_of_between {first last x : Char} (hfirst : '0' ≤ first) (hlast : last ≤ '9')
    (hx : (CharClass.between first last).has x = true) : CharClass.digit.has x = true := by
  simp only [CharClass.has, Bool.and_eq_true, decide_eq_true_eq] at *
  exact ⟨Char.le_trans hfirst hx.1, Char.le_trans hx.2 hlast⟩

theorem first_of_time {x : Char} (h : time.mayStart x = true) :
    CharClass.digit.has x = true ∨ x = 'd' ∨ x = 's' ∨ x = '(' := by
  simp [time, extendedHourMinutes, variableTime, mark, mayStart, mayBeEmpty, oneOf, plain, digit,
    event] at h
  rcases h with (rfl | hx | rfl | hx) | (rfl | rfl | rfl) | rfl
  · exact .inl (by decide)
  · exact .inl (digit_of_between (by decide) (by decide) hx)
  · exact .inl (by decide)
  · exact .inl hx
  all_goals decide

/-- Where a time can be read, nothing can that stands in front of the times, years aside. -/
theorem refuses_of_time (h : ¬timeSelector.Refuses s) :
    ∀ p ∈ [monthdaySelector, weekSelector, word ":", weekdaySelector], p.Refuses s := by
  rw [refuses_timeSelector_iff] at h
  obtain ⟨x, u, rfl, hx⟩ := begins_of_not_refuses (by decide) h
  have hempty : ∀ p ∈ [monthdaySelector, weekSelector, word ":", weekdaySelector],
      p.mayBeEmpty = false := by decide
  have hdigit : ∀ p ∈ [monthdaySelector, weekSelector, word ":", weekdaySelector],
      ∀ n, n < 10 → p.mayStart (Char.ofNat (48 + n)) = false := by decide
  have hother : ∀ p ∈ [monthdaySelector, weekSelector, word ":", weekdaySelector],
      p.mayStart 'd' = false ∧ p.mayStart 's' = false ∧ p.mayStart '(' = false := by decide
  intro p hp
  refine refuses_of_head (hempty p hp) fun y hy => ?_
  obtain rfl := Option.some.inj hy
  rcases first_of_time hx with hx | rfl | rfl | rfl
  · exact CharClass.forall_digit (hdigit p hp) hx
  · exact (hother p hp).1
  · exact (hother p hp).2.1
  · exact (hother p hp).2.2

/-- A number that goes on with a digit has not ended. -/
theorem refuses_number (h : ∀ m, p.Leaves s m → Begins (CharClass.digit.has · = true) m) :
    (p >> numberEnd >> q).Refuses s := by
  rcases refuses_or_leaves p s with hnone | ⟨m, hm⟩
  · exact refuses_then hnone
  · obtain ⟨x, u, rfl, hx⟩ := h m hm
    have hend : numberEnd.Refuses (x :: u) :=
      refuses_map_iff.mpr (refuses_absent_iff.mpr ⟨u, leaves_char_iff.mpr ⟨x, rfl, hx⟩⟩)
    exact refuses_map_iff.mpr (refuses_seq_iff.mpr (.inr ⟨_, hm, refuses_then hend⟩))

/-- An hour has two digits at most. -/
theorem refuses_hour {a b c : Char} (hb : CharClass.digit.has b = true)
    (hc : CharClass.digit.has c = true) : extendedHourMinutes.Refuses (a :: b :: c :: s) := by
  have hthird : Begins (CharClass.digit.has · = true) (c :: s) := ⟨c, s, rfl, hc⟩
  have hsecond : Begins (CharClass.digit.has · = true) (b :: c :: s) := ⟨b, c :: s, rfl, hb⟩
  refine Refuses.choice (refuses_number fun m hm => ?_) (refuses_number fun m hm => ?_)
  · cases leaves_word_iff.mp hm
    exact hthird
  rcases leaves_choice_iff.mp hm with hm | ⟨-, hm⟩
  · simp only [leaves_then_iff, oneOf, digit, plain, leaves_map_iff, leaves_char_iff] at hm
    obtain ⟨_, ⟨_, htaken, -⟩, _, htaken', -⟩ := hm
    cases htaken
    cases htaken'
    exact hthird
  rcases leaves_choice_iff.mp hm with hm | ⟨-, hm⟩
  · simp only [leaves_then_iff, oneOf, plain, leaves_map_iff, leaves_char_iff,
      leaves_word_iff] at hm
    obtain ⟨_, htaken, _, htaken', -⟩ := hm
    cases htaken
    cases htaken'
    exact hthird
  · simp only [digit, plain, leaves_map_iff, leaves_char_iff] at hm
    obtain ⟨_, htaken, -⟩ := hm
    cases htaken
    exact hsecond

theorem refuses_year_of_time (h : ¬timeSelector.Refuses s) : yearSelector.Refuses s := by
  rw [refuses_yearSelector_iff]
  by_contra hyear
  obtain ⟨rest, hyear⟩ := (refuses_or_leaves year s).resolve_left hyear
  simp only [year, leaves_then_iff, digit, plain, leaves_map_iff, leaves_char_iff] at hyear
  obtain ⟨_, ⟨a, rfl, ha⟩, _, ⟨b, rfl, hb⟩, u, ⟨c, rfl, hc⟩, -⟩ := hyear
  rw [refuses_timeSelector_iff] at h
  refine h ((refuses_hour hb hc).choice (refuses_of_head (by decide) fun y hy => ?_))
  obtain rfl := Option.some.inj hy
  exact CharClass.forall_digit (by decide) ha

/-! ### Weekdays, months and `24/7` -/

/-- The words that days are written with. -/
def dayWords : List String := ["Mo", "Tu", "We", "Th", "Fr", "Sa", "Su", "PH", "SH"]

theorem exists_dayWord (h : ¬weekdaySelector.Refuses s) : ∃ w ∈ dayWords, w.toList <+: s := by
  by_contra hnone
  have hword : ∀ w ∈ dayWords, (word w).Refuses s :=
    fun w hw => refuses_word_of fun hprefix => hnone ⟨w, hw, hprefix⟩
  have hweekday : weekday.Refuses s := by
    refine refuses_then ?_
    simp only [refuses_orElse_iff]
    exact ⟨hword _ (by decide), hword _ (by decide), hword _ (by decide), hword _ (by decide),
      hword _ (by decide), hword _ (by decide), hword _ (by decide)⟩
  have hholiday : holiday.Refuses s := by
    refine refuses_map_iff.mpr (refuses_then ?_)
    exact Refuses.choice (refuses_then (hword _ (by decide))) (refuses_then (hword _ (by decide)))
  exact h (refuses_listOf_iff.mpr (hholiday.choice (refuses_then hweekday)))

/-- Where weekdays can be read, nothing can that stands in front of them. -/
theorem refuses_of_weekday (h : ¬weekdaySelector.Refuses s) :
    ∀ p ∈ [yearSelector, monthdaySelector, weekSelector, word ":"], p.Refuses s := by
  obtain ⟨w, hw, rest, rfl⟩ := exists_dayWord h
  intro p hp
  simp only [dayWords, List.mem_cons, List.not_mem_nil, or_false] at hw hp
  rcases hp with rfl | rfl | rfl | rfl <;>
    rcases hw with rfl | rfl | rfl | rfl | rfl | rfl | rfl | rfl | rfl <;> rfl

theorem refuses_year_of_month (h : ¬monthdaySelector.Refuses s) : yearSelector.Refuses s := by
  rw [refuses_yearSelector_iff]
  by_contra hyear
  obtain ⟨x, u, rfl, hx⟩ := begins_of_not_refuses (by decide) hyear
  have hdigit : CharClass.digit.has x = true := by
    simpa [year, digit, plain, mayStart, mayBeEmpty] using hx
  refine h (refuses_of_head (by decide) fun y hy => ?_)
  obtain rfl := Option.some.inj hy
  exact CharClass.forall_digit (by decide) hdigit

/-- A time reads the hour of `24/7` and stops in front of the slash. -/
theorem leaves_time_always (s : List Char) :
    timeSelector.Leaves ("24/7".toList ++ s) ("/7".toList ++ s) := ⟨_, rfl⟩

/-- Nothing that stands in front of the times can be read at `24/7`. -/
theorem refuses_always (s : List Char) : ∀ p ∈ [yearSelector, monthdaySelector, weekSelector,
    word ":", weekdaySelector], p.Refuses ("24/7".toList ++ s) := by
  intro p hp
  simp only [List.mem_cons, List.not_mem_nil, or_false] at hp
  rcases hp with rfl | rfl | rfl | rfl | rfl <;> rfl

theorem not_always_of_mem (hp : p ∈ [yearSelector, monthdaySelector, weekSelector, word ":",
    weekdaySelector]) (h : ¬p.Refuses s) : ¬"24/7".toList <+: s := by
  rintro ⟨rest, rfl⟩
  exact h (refuses_always rest p hp)

theorem misses_always (s : List Char) : CharClass.blank.Misses ("24/7".toList ++ s) :=
  CharClass.misses_cons.mpr (by decide)

end Language

end OpeningHours
