import OpeningHours.Outlook

/-! How far the search for the horizon goes. One day more passed makes one step of the search, and
what holds of a whole search follows by induction on the days that it has left. The horizon is a
day of the calendar. It comes no nearer when there is more to look for, and none when today moves
on. -/

namespace OpeningHours

namespace Schedule

variable {schedule : Schedule} {holidays more : Holidays} {limits near far : Limits}
  {today tomorrow date : Date}

section Search

variable {lookahead left offset regular : Nat} {pending : Bool}

/-- The number of regular days passed, once a date is passed too. -/
def regularWith (holidays : Holidays) (date : Date) (regular : Nat) : Nat :=
  if !holidays date then regular + 1 else regular

/-- Whether the search still waits for an opening once a date is passed. -/
def pendingWith (schedule : Schedule) (holidays : Holidays) (date : Date) (pending : Bool) : Bool :=
  pending && !(!holidays date && schedule.opensOn date.weekday)

theorem regularWith_bounds :
    regular ≤ regularWith holidays date regular ∧
      regularWith holidays date regular ≤ regular + 1 := by
  rw [regularWith]
  split <;> omega

/-- More holidays pass fewer regular days. -/
theorem regularWith_mono {fewer : Nat} (hmore : ∀ date, holidays date = true → more date = true)
    (hfewer : fewer ≤ regular) :
    regularWith more date fewer ≤ regularWith holidays date regular := by
  have hdate := hmore date
  rw [regularWith, regularWith]
  cases hholiday : holidays date with
  | true => simpa [hdate hholiday] using hfewer
  | false => cases more date <;> simp <;> omega

/-- Under more holidays a search waits at least as long for an opening. -/
theorem pendingWith_mono {waits : Bool} (hmore : ∀ date, holidays date = true → more date = true)
    (hwaits : pending = true → waits = true)
    (h : schedule.pendingWith holidays date pending = true) :
    schedule.pendingWith more date waits = true := by
  have hdate := hmore date
  obtain ⟨hpending, hpasses⟩ := Bool.and_eq_true_iff.mp h
  rw [pendingWith, hwaits hpending, Bool.true_and]
  cases hholiday : holidays date with
  | true => simp [hdate hholiday]
  | false =>
    have hshut : schedule.opensOn date.weekday = false := by simpa [hholiday] using hpasses
    simp [hshut]

theorem horizonFrom_end (h : today.shift? (offset + 1) = none) :
    schedule.horizonFrom holidays today lookahead left offset regular pending = offset := by
  cases left with
  | zero => rfl
  | succ left => rw [horizonFrom, h]

theorem horizonFrom_succ (h : today.shift? (offset + 1) = some date) :
    schedule.horizonFrom holidays today lookahead (left + 1) offset regular pending =
      if lookahead ≤ regularWith holidays date regular ∧
          schedule.pendingWith holidays date pending = false then offset + 1
      else schedule.horizonFrom holidays today lookahead left (offset + 1)
        (regularWith holidays date regular) (schedule.pendingWith holidays date pending) := by
  rw [horizonFrom, h]
  rfl

theorem horizonFrom_bounds :
    offset ≤ schedule.horizonFrom holidays today lookahead left offset regular pending ∧
      schedule.horizonFrom holidays today lookahead left offset regular pending ≤
        offset + left := by
  induction left generalizing offset regular pending with
  | zero => exact ⟨Nat.le_refl _, Nat.le_refl _⟩
  | succ left ih =>
    cases hdate : today.shift? (offset + 1) with
    | none =>
      rw [horizonFrom_end hdate]
      omega
    | some date =>
      rw [horizonFrom_succ hdate]
      split
      · omega
      · have := @ih (offset + 1) (regularWith holidays date regular)
          (schedule.pendingWith holidays date pending)
        omega

/-- The search ends on a day of the calendar. -/
theorem isSome_shift?_horizonFrom (h : (today.shift? offset).isSome = true) :
    (today.shift? (schedule.horizonFrom holidays today lookahead left offset regular
      pending)).isSome = true := by
  induction left generalizing offset regular pending with
  | zero => exact h
  | succ left ih =>
    cases hdate : today.shift? (offset + 1) with
    | none =>
      rw [horizonFrom_end hdate]
      exact h
    | some date =>
      have hnext : (today.shift? (offset + 1 : Nat)).isSome = true := by
        rw [Int.natCast_add, Int.natCast_one, hdate]
        rfl
      rw [horizonFrom_succ hdate]
      split
      · exact hnext
      · exact ih hnext

/-- The search passes as many days as it is to look ahead, as far as the limit and the calendar
allow. -/
theorem le_horizonFrom {days : Nat} (hdays : (today.shift? days).isSome = true)
    (hregular : regular ≤ offset) (hlookahead : days ≤ lookahead) (hleft : days ≤ offset + left) :
    days ≤ schedule.horizonFrom holidays today lookahead left offset regular pending := by
  induction left generalizing offset regular pending with
  | zero => exact hleft
  | succ left ih =>
    by_cases hpassed : days ≤ offset
    · exact Nat.le_trans hpassed horizonFrom_bounds.1
    · obtain ⟨date, hdate⟩ :=
        Date.exists_shift? hdays (by omega : (0 : Int) ≤ offset + 1) (by omega)
      have hdate' := @regularWith_bounds holidays date regular
      rw [horizonFrom_succ hdate]
      split
      · omega
      · exact ih (by omega) (by omega)

/-- A search that has passed fewer regular days, still waits, has more days left and looks further
ahead, all of it under more holidays, goes no less far. -/
theorem horizonFrom_mono {further longer fewer : Nat} {waits : Bool}
    (hmore : ∀ date, holidays date = true → more date = true) (hlookahead : lookahead ≤ further)
    (hleft : left ≤ longer) (hfewer : fewer ≤ regular) (hwaits : pending = true → waits = true) :
    schedule.horizonFrom holidays today lookahead left offset regular pending ≤
      schedule.horizonFrom more today further longer offset fewer waits := by
  induction left generalizing longer offset regular fewer pending waits with
  | zero => exact horizonFrom_bounds.1
  | succ left ih =>
    obtain ⟨longer, rfl⟩ : ∃ rest, longer = rest + 1 := ⟨longer - 1, by omega⟩
    cases hdate : today.shift? (offset + 1) with
    | none => exact Nat.le_trans (Nat.le_of_eq (horizonFrom_end hdate)) horizonFrom_bounds.1
    | some date =>
      have hcount := @regularWith_mono _ _ date _ _ hmore hfewer
      have hpending := @pendingWith_mono schedule _ _ date _ _ hmore hwaits
      rw [horizonFrom_succ hdate, horizonFrom_succ hdate]
      split
      · split
        · exact Nat.le_refl _
        · exact horizonFrom_bounds.1
      · rename_i hgoes
        -- Where the first search goes on, the second one has all the more reason to.
        have hgoes' : ¬(further ≤ regularWith more date fewer ∧
            schedule.pendingWith more date waits = false) := by
          rintro ⟨hregular, hfound⟩
          refine hgoes ⟨by omega, Bool.eq_false_iff.mpr fun hstill => ?_⟩
          rw [hpending hstill] at hfound
          cases hfound
        rw [if_neg hgoes']
        exact ih (by omega) hcount hpending

/-- The search from tomorrow on counts each day as one less. -/
theorem horizonFrom_tomorrow (htomorrow : today.shift? 1 = some tomorrow) :
    schedule.horizonFrom holidays tomorrow lookahead left offset regular pending + 1 =
      schedule.horizonFrom holidays today lookahead left (offset + 1) regular pending := by
  induction left generalizing offset regular pending with
  | zero => rfl
  | succ left ih =>
    have hshift : tomorrow.shift? (offset + 1) = today.shift? ((offset + 1 : Nat) + 1) := by
      rw [Date.shift?_shift? htomorrow]
      congr 1
      omega
    cases hdate : tomorrow.shift? (offset + 1) with
    | none => rw [horizonFrom_end hdate, horizonFrom_end (hshift ▸ hdate)]
    | some date =>
      rw [horizonFrom_succ hdate, horizonFrom_succ (hshift ▸ hdate)]
      split
      · rfl
      · exact ih

end Search

theorem horizon_le (schedule : Schedule) (holidays : Holidays) (today : Date) (limits : Limits) :
    schedule.horizon holidays today limits ≤ limits.scan := by
  simp only [horizon]
  split
  · exact Nat.zero_le _
  · exact Nat.le_trans horizonFrom_bounds.2 (by omega)

/-- The search passes tomorrow if the calendar has it, unless there is nothing to look for. -/
theorem one_le_horizon (holidays : Holidays) (hscan : 1 ≤ limits.scan)
    (htomorrow : today.shift? 1 = some date) {day : Weekday}
    (hopens : schedule.openSpans day ≠ []) :
    1 ≤ schedule.horizon holidays today limits := by
  have hany : Weekday.all.any schedule.opensOn = true :=
    List.any_eq_true.mpr ⟨day, Weekday.mem_all day, by simpa [opensOn] using hopens⟩
  obtain ⟨left, hleft⟩ : ∃ left, limits.scan = left + 1 := ⟨limits.scan - 1, by omega⟩
  have hfirst : today.shift? ((0 : Nat) + 1) = some date := htomorrow
  simp only [horizon, hany, Bool.true_eq_false, and_false, if_false, hleft]
  rw [horizonFrom_succ hfirst]
  split
  · exact Nat.le_refl _
  · exact horizonFrom_bounds.1

theorem horizon_of_last_day (h : today.shift? 1 = none) :
    schedule.horizon holidays today limits = 0 := by
  have hfirst : today.shift? ((0 : Nat) + 1) = none := h
  simp only [horizon]
  split
  · rfl
  · exact horizonFrom_end hfirst

theorem isSome_shift?_horizon (schedule : Schedule) (holidays : Holidays) (today : Date)
    (limits : Limits) : (today.shift? (schedule.horizon holidays today limits)).isSome = true := by
  have htoday : (today.shift? (0 : Nat)).isSome = true := by
    rw [Int.natCast_zero, Date.shift?_zero]
    rfl
  simp only [horizon]
  split
  · exact htoday
  · exact isSome_shift?_horizonFrom htoday

theorem le_horizon {days : Nat} (hdays : (today.shift? days).isSome = true)
    (hlookahead : days ≤ limits.lookahead) (hscan : days ≤ limits.scan) :
    days ≤ schedule.horizon holidays today limits := by
  simp only [horizon]
  split
  · omega
  · exact le_horizonFrom hdays (Nat.le_refl 0) hlookahead (by omega)

/-- More holidays and wider limits bring the horizon no nearer. -/
theorem horizon_mono (hmore : ∀ date, holidays date = true → more date = true)
    (hlookahead : near.lookahead ≤ far.lookahead) (hscan : near.scan ≤ far.scan) :
    schedule.horizon holidays today near ≤ schedule.horizon more today far := by
  simp only [horizon]
  split
  · exact Nat.zero_le _
  · rename_i hsearch
    rw [if_neg fun h => hsearch ⟨by omega, h.2⟩]
    exact horizonFrom_mono hmore hlookahead hscan (Nat.le_refl 0) id

theorem horizon_le_tomorrow (htomorrow : today.shift? 1 = some tomorrow) :
    schedule.horizon holidays today limits ≤ schedule.horizon holidays tomorrow limits + 1 := by
  have hfirst : today.shift? ((0 : Nat) + 1) = some tomorrow := htomorrow
  simp only [horizon]
  split
  · exact Nat.zero_le _
  · rw [horizonFrom_tomorrow htomorrow]
    cases limits.scan with
    | zero => exact Nat.zero_le _
    | succ left =>
      rw [horizonFrom_succ hfirst]
      split
      · exact horizonFrom_bounds.1
      · refine horizonFrom_mono (fun _ => id) (Nat.le_refl _) (Nat.le_succ _) (Nat.zero_le _) ?_
        intro hpending
        exact (Bool.and_eq_true_iff.mp hpending).1

/-- The horizon never moves back as today moves on. -/
theorem horizon_never_back {days : Nat} (hdate : today.shift? days = some date) :
    schedule.horizon holidays today limits ≤ days + schedule.horizon holidays date limits := by
  induction days generalizing date with
  | zero =>
    rw [Int.natCast_zero, Date.shift?_zero] at hdate
    obtain rfl := Option.some.inj hdate
    omega
  | succ days ih =>
    have hsome : (today.shift? (days + 1 : Nat)).isSome = true := by rw [hdate]; rfl
    obtain ⟨before, hbefore⟩ := Date.exists_shift? hsome (Int.natCast_nonneg days) (by omega)
    have hnext : before.shift? 1 = some date := by
      rw [Date.shift?_shift? hbefore, ← hdate]
      rfl
    have := ih hbefore
    have := @horizon_le_tomorrow schedule holidays limits _ _ hnext
    omega

end Schedule

end OpeningHours
