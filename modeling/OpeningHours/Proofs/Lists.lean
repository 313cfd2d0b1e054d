import Mathlib.Data.List.Forall2

/-! Lists written with a separator between their items, and lists read item by item. -/

namespace OpeningHours

section Intercalate

variable {glue : List α}

theorem intercalate_cons (glue first : List α) (more : List (List α)) :
    glue.intercalate (first :: more) = first ++ more.flatMap (glue ++ ·) := by
  induction more generalizing first with
  | nil => simp
  | cons next more ih =>
    rw [List.intercalate_cons_cons, ih, List.flatMap_cons, List.append_assoc, List.append_assoc]

theorem intercalate_append {xs ys : List (List α)} (hx : xs ≠ []) (hy : ys ≠ []) :
    glue.intercalate (xs ++ ys) = glue.intercalate xs ++ glue ++ glue.intercalate ys := by
  obtain ⟨x, xs, rfl⟩ := List.exists_cons_of_ne_nil hx
  obtain ⟨y, ys, rfl⟩ := List.exists_cons_of_ne_nil hy
  rw [List.cons_append, intercalate_cons, intercalate_cons, intercalate_cons, List.flatMap_append,
    List.flatMap_cons]
  simp only [List.append_assoc]

/-- Lists that have items can be written one by one or all at once. -/
theorem intercalate_flatten {lists : List (List (List α))} (h : ∀ list ∈ lists, list ≠ []) :
    glue.intercalate lists.flatten = glue.intercalate (lists.map glue.intercalate) := by
  induction lists with
  | nil => rfl
  | cons list more ih =>
    obtain ⟨hlist, hmore⟩ := List.forall_mem_cons.mp h
    cases more with
    | nil => simp
    | cons next more =>
      have hflatten : (next :: more).flatten ≠ [] := by
        rw [List.flatten_cons]
        exact List.append_ne_nil_of_left_ne_nil (hmore next (by simp)) _
      rw [List.flatten_cons, intercalate_append hlist hflatten, ih hmore]
      simp only [List.map_cons, List.intercalate_cons_cons]

end Intercalate

/-- A list is read if each of its items is. -/
theorem mapM_ok {f : α → Except ε β} {g : α → β} {xs : List α} (h : ∀ x ∈ xs, f x = .ok (g x)) :
    xs.mapM f = .ok (xs.map g) := by
  induction xs with
  | nil => rfl
  | cons x rest ih =>
    obtain ⟨hx, hrest⟩ := List.forall_mem_cons.mp h
    rw [List.mapM_cons, hx, ih hrest]
    rfl

theorem mapM_eq_ok_iff {f : α → Except ε β} {xs : List α} {ys : List β} :
    xs.mapM f = .ok ys ↔ List.Forall₂ (fun x y => f x = .ok y) xs ys := by
  induction xs generalizing ys with
  | nil =>
    rw [List.mapM_nil, List.forall₂_nil_left_iff]
    exact ⟨fun h => (Except.ok.inj h).symm, fun h => congrArg Except.ok h.symm⟩
  | cons x rest ih =>
    rw [List.mapM_cons, List.forall₂_cons_left_iff]
    constructor
    · intro h
      cases hx : f x with
      | error e => simp [hx, bind, Except.bind] at h
      | ok y =>
        cases hrest : rest.mapM f with
        | error e => simp [hx, hrest, bind, Except.bind] at h
        | ok more =>
          simp only [hx, hrest, bind, Except.bind, pure, Except.pure, Except.ok.injEq] at h
          exact ⟨y, more, rfl, ih.mp hrest, h.symm⟩
    · rintro ⟨y, more, hx, hrest, rfl⟩
      rw [hx, ih.mpr hrest]
      rfl

theorem bind_eq_error_iff {x : Except ε α} {f : α → Except ε β} {e : ε} :
    (x >>= f) = .error e ↔ x = .error e ∨ ∃ a, x = .ok a ∧ f a = .error e := by
  cases x <;> simp [bind, Except.bind]

/-- A list is not read because of the first of its items that is not. -/
theorem mapM_cons_eq_error_iff {f : α → Except ε β} {x : α} {xs : List α} {e : ε} :
    (x :: xs).mapM f = .error e ↔
      f x = .error e ∨ (∃ y, f x = .ok y) ∧ xs.mapM f = .error e := by
  rw [List.mapM_cons]
  cases hx : f x with
  | error e => simp [bind, Except.bind]
  | ok y => cases hxs : xs.mapM f <;> simp [bind, Except.bind, pure, Except.pure]

theorem exists_of_mapM_error {f : α → Except ε β} {xs : List α} {e : ε}
    (h : xs.mapM f = .error e) : ∃ x ∈ xs, f x = .error e := by
  induction xs with
  | nil => cases h
  | cons x xs ih =>
    rcases mapM_cons_eq_error_iff.mp h with hx | ⟨-, hxs⟩
    · exact ⟨x, by simp, hx⟩
    · obtain ⟨y, hy, herror⟩ := ih hxs
      exact ⟨y, List.mem_cons_of_mem x hy, herror⟩

theorem optionMapM_eq_ok_iff {f : α → Except ε β} {x : Option α} {y : β} :
    x.mapM f = .ok (some y) ↔ ∃ a, x = some a ∧ f a = .ok y := by
  cases x with
  | none => simp [pure, Except.pure]
  | some a => cases h : f a <;> simp [h, Functor.map, Except.map]

theorem foldlM_cons_eq_ok_iff {f : β → α → Except ε β} {x : α} {xs : List α} {first last : β} :
    (x :: xs).foldlM f first = .ok last ↔
      ∃ middle, f first x = .ok middle ∧ xs.foldlM f middle = .ok last := by
  rw [List.foldlM_cons]
  cases f first x with
  | error e => simp [bind, Except.bind]
  | ok middle => simp [bind, Except.bind]

theorem exists_forall₂_iff {R : α → β → Prop} {xs : List α} :
    (∃ ys, List.Forall₂ R xs ys) ↔ ∀ x ∈ xs, ∃ y, R x y := by
  induction xs with
  | nil => exact iff_of_true ⟨[], .nil⟩ nofun
  | cons x rest ih =>
    rw [List.forall_mem_cons, ← ih]
    constructor
    · rintro ⟨_, hall⟩
      cases hall with
      | cons hx hrest => exact ⟨⟨_, hx⟩, _, hrest⟩
    · rintro ⟨⟨y, hx⟩, ys, hrest⟩
      exact ⟨y :: ys, .cons hx hrest⟩

/-- Lists that are related in two steps are related item by item. -/
theorem forall₂_exists_iff {R : α → β → Prop} {S : β → γ → Prop} {xs : List α} {zs : List γ} :
    List.Forall₂ (fun x z => ∃ y, R x y ∧ S y z) xs zs ↔
      ∃ ys, List.Forall₂ R xs ys ∧ List.Forall₂ S ys zs := by
  constructor
  · intro h
    induction h with
    | nil => exact ⟨[], .nil, .nil⟩
    | cons h _ ih =>
      obtain ⟨y, hxy, hyz⟩ := h
      obtain ⟨ys, hxs, hzs⟩ := ih
      exact ⟨y :: ys, .cons hxy hxs, .cons hyz hzs⟩
  · rintro ⟨ys, hxs, hzs⟩
    induction hxs generalizing zs with
    | nil =>
      cases hzs
      exact .nil
    | cons hxy _ ih =>
      cases hzs with
      | cons hyz hzs => exact .cons ⟨_, hxy, hyz⟩ (ih hzs)

theorem forall₂_set {R : α → α → Prop} {xs : List α} {x y : α} (hrefl : ∀ z ∈ xs, R z z)
    (h : R x y) (index : Nat) : List.Forall₂ R (xs.set index x) (xs.set index y) := by
  induction xs generalizing index with
  | nil => exact .nil
  | cons z rest ih =>
    obtain ⟨hz, hrest⟩ := List.forall_mem_cons.mp hrefl
    cases index with
    | zero => exact .cons h (List.forall₂_same.mpr hrest)
    | succ index => exact .cons hz (ih hrest index)

theorem find?_rel {R : α → β → Prop} {p : α → Bool} {q : β → Bool} {xs : List α} {ys : List β}
    (h : List.Forall₂ R xs ys) (hpq : ∀ x y, R x y → p x = q y) :
    Option.Rel R (xs.find? p) (ys.find? q) := by
  induction h with
  | nil => exact .none
  | cons hxy _ ih =>
    rw [List.find?_cons, List.find?_cons, hpq _ _ hxy]
    split
    · exact .some hxy
    · exact ih

theorem mapM_isOk_iff {f : α → Except ε β} {xs : List α} :
    (∃ ys, xs.mapM f = .ok ys) ↔ ∀ x ∈ xs, ∃ y, f x = .ok y := by
  simp only [mapM_eq_ok_iff, exists_forall₂_iff]

end OpeningHours
