/-! Sorting by an integer key. The sort is stable: elements with equal keys keep their order. -/

namespace OpeningHours

/-- Puts `x` into a list in front of the first element whose key is not smaller. -/
def insertOn (key : α → Int) (x : α) : List α → List α
  | [] => [x]
  | y :: rest => if key x ≤ key y then x :: y :: rest else y :: insertOn key x rest

/-- The elements of a list by rising key, those of one key in the order of the list. -/
def sortOn (key : α → Int) (xs : List α) : List α := xs.foldr (insertOn key) []

/-- The keys of a list rise, not always strictly. -/
def SortedOn (key : α → Int) (xs : List α) : Prop := xs.Pairwise fun x y => key x ≤ key y

theorem insertOn_perm (key : α → Int) (x : α) (xs : List α) :
    (insertOn key x xs).Perm (x :: xs) := by
  induction xs with
  | nil => exact .refl _
  | cons y rest ih =>
    rw [insertOn]
    split
    · exact .refl _
    · exact (ih.cons y).trans (.swap x y rest)

theorem sortOn_perm (key : α → Int) (xs : List α) : (sortOn key xs).Perm xs := by
  induction xs with
  | nil => exact .refl _
  | cons x rest ih => exact (insertOn_perm key x _).trans (ih.cons x)

@[simp] theorem mem_sortOn {key : α → Int} {x : α} {xs : List α} :
    x ∈ sortOn key xs ↔ x ∈ xs := (sortOn_perm key xs).mem_iff

theorem insertOn_sorted {key : α → Int} {x : α} {xs : List α} (h : SortedOn key xs) :
    SortedOn key (insertOn key x xs) := by
  induction xs with
  | nil => exact List.pairwise_singleton ..
  | cons y rest ih =>
    have hy := List.pairwise_cons.mp h
    rw [insertOn]
    split
    · rename_i hle
      refine List.pairwise_cons.mpr ⟨fun z hz => ?_, h⟩
      rcases List.mem_cons.mp hz with rfl | hz
      · exact hle
      · exact Int.le_trans hle (hy.1 z hz)
    · rename_i hlt
      refine List.pairwise_cons.mpr ⟨fun z hz => ?_, ih hy.2⟩
      rcases List.mem_cons.mp ((insertOn_perm key x rest).mem_iff.mp hz) with rfl | hz
      · omega
      · exact hy.1 z hz

/-- Elements with different keys are put in with the same result in either order. -/
theorem insertOn_comm {key : α → Int} {x y : α} (h : key x ≠ key y) (xs : List α) :
    insertOn key x (insertOn key y xs) = insertOn key y (insertOn key x xs) := by
  induction xs with
  | nil =>
    rcases Int.lt_or_gt_of_ne h with hlt | hlt
    · simp [insertOn, Int.le_of_lt hlt, Int.not_le.mpr hlt]
    · simp [insertOn, Int.le_of_lt hlt, Int.not_le.mpr hlt]
  | cons z rest ih =>
    by_cases hx : key x ≤ key z <;> by_cases hy : key y ≤ key z
    · rcases Int.lt_or_gt_of_ne h with hlt | hlt
      · simp [insertOn, hx, hy, Int.le_of_lt hlt, Int.not_le.mpr hlt]
      · simp [insertOn, hx, hy, Int.le_of_lt hlt, Int.not_le.mpr hlt]
    · have hyx : ¬key y ≤ key x := by omega
      simp [insertOn, hx, hy, hyx]
    · have hxy : ¬key x ≤ key y := by omega
      simp [insertOn, hx, hy, hxy]
    · simp [insertOn, hx, hy, ih]

/-- An element that is taken out of a list with rising keys and put in again has its old place. -/
theorem insertOn_eraseIdx {key : α → Int} {xs : List α} {i : Nat} {x : α}
    (h : xs.Pairwise fun x y => key x < key y) (hx : xs[i]? = some x) :
    insertOn key x (xs.eraseIdx i) = xs := by
  induction xs generalizing i with
  | nil => cases hx
  | cons y rest ih =>
    obtain ⟨hy, hrest⟩ := List.pairwise_cons.mp h
    cases i with
    | zero =>
      obtain rfl : y = x := by simpa using hx
      rw [List.eraseIdx_cons_zero]
      cases rest with
      | nil => rfl
      | cons z rest => rw [insertOn, if_pos (Int.le_of_lt (hy z (by simp)))]
    | succ i =>
      rw [List.getElem?_cons_succ] at hx
      have hlt := hy x (List.mem_of_getElem? hx)
      rw [List.eraseIdx_cons_succ, insertOn, if_neg (Int.not_le.mpr hlt), ih hrest hx]

/-- An element that is put in has a place, and without what stands there the list is the old one. -/
theorem exists_eraseIdx_insertOn (key : α → Int) (x : α) (xs : List α) :
    ∃ i, (insertOn key x xs)[i]? = some x ∧ (insertOn key x xs).eraseIdx i = xs := by
  induction xs with
  | nil => exact ⟨0, rfl, rfl⟩
  | cons y rest ih =>
    rw [insertOn]
    split
    · exact ⟨0, rfl, rfl⟩
    · obtain ⟨i, hx, hrest⟩ := ih
      exact ⟨i + 1, hx, by rw [List.eraseIdx_cons_succ, hrest]⟩

theorem sortOn_sorted (key : α → Int) (xs : List α) : SortedOn key (sortOn key xs) := by
  induction xs with
  | nil => exact List.Pairwise.nil
  | cons x rest ih => exact insertOn_sorted ih

section Pairwise

variable {key : α → Int} {R : α → α → Prop} {x : α} {xs : List α}

theorem pairwise_insertOn (h : SortedOn key xs) : (insertOn key x xs).Pairwise R ↔
    (∀ y ∈ xs, if key x ≤ key y then R x y else R y x) ∧ xs.Pairwise R := by
  induction xs with
  | nil => simp [insertOn]
  | cons y rest ih =>
    obtain ⟨hy, hrest⟩ := List.pairwise_cons.mp h
    have hmem : ∀ z, z ∈ insertOn key x rest ↔ z = x ∨ z ∈ rest := fun z =>
      (insertOn_perm key x rest).mem_iff.trans List.mem_cons
    rw [insertOn, List.forall_mem_cons]
    split
    · rename_i hle
      have hlater : (∀ z ∈ rest, if key x ≤ key z then R x z else R z x) ↔ ∀ z ∈ rest, R x z :=
        forall₂_congr fun z hz => by rw [if_pos (Int.le_trans hle (hy z hz))]
      rw [List.pairwise_cons, List.forall_mem_cons, hlater]
    · rw [List.pairwise_cons, List.pairwise_cons, ih hrest]
      simp only [hmem, forall_eq_or_imp, and_assoc, and_left_comm]

/-- Elements in sorted order are related if they are in the order of the list, with two elements
exchanged where their keys fall. -/
theorem pairwise_sortOn : (sortOn key xs).Pairwise R ↔
    xs.Pairwise fun x y => if key x ≤ key y then R x y else R y x := by
  induction xs with
  | nil => simp [sortOn]
  | cons x rest ih =>
    change (insertOn key x (sortOn key rest)).Pairwise R ↔ _
    rw [pairwise_insertOn (sortOn_sorted key rest), ih, List.pairwise_cons]
    simp only [mem_sortOn]

end Pairwise

/-- A sorted list is left as it is. -/
theorem sortOn_of_sorted {key : α → Int} {xs : List α} (h : SortedOn key xs) :
    sortOn key xs = xs := by
  induction xs with
  | nil => rfl
  | cons x rest ih =>
    have hx := List.pairwise_cons.mp h
    change insertOn key x (sortOn key rest) = x :: rest
    rw [ih hx.2]
    cases rest with
    | nil => rfl
    | cons y rest => rw [insertOn, if_pos (hx.1 y (by simp))]

/-- Elements with different keys have one order, whatever order they come in. -/
theorem sortOn_eq_of_perm {key : α → Int} {xs ys : List α} (hperm : xs.Perm ys)
    (hdistinct : xs.Pairwise fun x y => key x ≠ key y) : sortOn key xs = sortOn key ys := by
  have hsorted : (sortOn key xs).Perm (sortOn key ys) :=
    ((sortOn_perm key xs).trans hperm).trans (sortOn_perm key ys).symm
  have hkeys : (sortOn key xs).Pairwise fun x y => key x ≠ key y :=
    ((sortOn_perm key xs).pairwise_iff Ne.symm).mpr hdistinct
  have hkeys' : (sortOn key ys).Pairwise fun x y => key x ≠ key y :=
    (hsorted.pairwise_iff Ne.symm).mp hkeys
  have hrise : ∀ {zs : List α}, SortedOn key zs → zs.Pairwise (fun x y => key x ≠ key y) →
      zs.Pairwise fun x y => key x < key y := fun hle hne =>
    (hle.and hne).imp fun h => Int.lt_iff_le_and_ne.mpr h
  refine hsorted.eq_of_pairwise ?_ (hrise (sortOn_sorted key xs) hkeys)
    (hrise (sortOn_sorted key ys) hkeys')
  intro x y _ _ hxy hyx
  exact absurd hyx (Int.lt_asymm hxy)

theorem map_insertOn (f : α → β) (key : β → Int) (x : α) (xs : List α) :
    (insertOn (fun x => key (f x)) x xs).map f = insertOn key (f x) (xs.map f) := by
  induction xs with
  | nil => rfl
  | cons y rest ih =>
    rw [insertOn, List.map_cons, insertOn]
    split
    · rfl
    · rw [List.map_cons, ih]

theorem map_sortOn (f : α → β) (key : β → Int) (xs : List α) :
    (sortOn (fun x => key (f x)) xs).map f = sortOn key (xs.map f) := by
  induction xs with
  | nil => rfl
  | cons x rest ih =>
    change (insertOn _ x (sortOn _ rest)).map f = insertOn key (f x) (sortOn key (rest.map f))
    rw [map_insertOn, ih]

end OpeningHours
