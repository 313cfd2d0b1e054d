import OpeningHours.Proofs.Spelling

/-! A list of items as the pieces of its text between the marks. An item that holds no mark and
neither begins nor ends with a blank is what stays of its piece without the blanks around it. -/

namespace OpeningHours

/-- The text without the blanks at its two ends. -/
def strip (text : List Char) : List Char :=
  ((text.dropWhile CharClass.blank.has).reverse.dropWhile CharClass.blank.has).reverse

/-- The text begins and ends with characters that are no blanks, and the mark is not in it. -/
structure Solid (mark : Char) (t : List Char) : Prop where
  starts : Starts t
  ends : Starts t.reverse
  unmarked : mark ∉ t

variable {mark other : Char} {t u g s front back : List Char}

theorem AllBlank.reverse (h : AllBlank s) : AllBlank s.reverse :=
  fun x hx => h x (List.mem_reverse.mp hx)

theorem AllBlank.unmarked (h : AllBlank s) (hmark : CharClass.blank.has mark = false) :
    mark ∉ s := by
  intro hmem
  rw [h mark hmem] at hmark
  cases hmark

theorem IsMark.unmarked (h : IsMark other g) (hmark : CharClass.blank.has mark = false)
    (hne : mark ≠ other) : mark ∉ g := by
  obtain ⟨front, back, hfront, hback, rfl⟩ := h
  simp [hne, hfront.unmarked hmark, hback.unmarked hmark]

namespace Solid

theorem of_forall (hsome : t ≠ []) (h : ∀ x ∈ t, CharClass.blank.has x = false ∧ x ≠ mark) :
    Solid mark t := by
  have hstarts : ∀ s : List Char, s ≠ [] → (∀ x ∈ s, x ∈ t) → Starts s := by
    intro s hs hmem
    obtain ⟨x, u, rfl⟩ := List.exists_cons_of_ne_nil hs
    exact ⟨x, u, rfl, (h x (hmem x (by simp))).1⟩
  refine ⟨hstarts t hsome fun _ => id, ?_, fun hmem => (h mark hmem).2 rfl⟩
  exact hstarts t.reverse (by simpa using hsome) fun _ => List.mem_reverse.mp

theorem join (ht : Solid mark t) (hg : mark ∉ g) (hu : Solid mark u) :
    Solid mark (t ++ (g ++ u)) := by
  refine ⟨ht.starts.append _, ?_, by simp [ht.unmarked, hg, hu.unmarked]⟩
  simp only [List.reverse_append, List.append_assoc]
  exact hu.ends.append _

theorem strip_eq (ht : Solid mark t) (hfront : AllBlank front) (hback : AllBlank back) :
    strip (front ++ (t ++ back)) = t := by
  have hends : CharClass.blank.Misses t.reverse := by
    have h := ht.ends.misses []
    rwa [List.append_nil] at h
  rw [strip, List.dropWhile_append_of_pos hfront,
    CharClass.dropWhile_of_misses (ht.starts.misses back), List.reverse_append,
    List.dropWhile_append_of_pos hback.reverse, CharClass.dropWhile_of_misses hends,
    List.reverse_reverse]

end Solid

theorem allBlank_takeWhile (s : List Char) : AllBlank (s.takeWhile CharClass.blank.has) :=
  fun x hx => List.all_eq_true.mp List.all_takeWhile x hx

/-- Only blanks are stripped. -/
theorem exists_eq_strip (text : List Char) :
    ∃ front back, AllBlank front ∧ AllBlank back ∧ text = front ++ (strip text ++ back) := by
  refine ⟨_, _, allBlank_takeWhile text, (allBlank_takeWhile
    (text.dropWhile CharClass.blank.has).reverse).reverse, ?_⟩
  rw [strip, ← List.reverse_append, List.takeWhile_append_dropWhile, List.reverse_reverse,
    List.takeWhile_append_dropWhile]

section Relations

variable {token item : List Char → α → Prop} {as : List α} {pair : α × Option α}

theorem Spanned.solid (h : Spanned token t pair) (hmark : CharClass.blank.has mark = false)
    (hne : mark ≠ '-') (htoken : ∀ {t a}, token t a → Solid mark t) : Solid mark t := by
  cases h with
  | one h => exact htoken h
  | pair h hg h' => exact (htoken h).join (hg.unmarked hmark hne) (htoken h')

theorem Listed.solid (h : Listed other item t as) (hmark : CharClass.blank.has mark = false)
    (hne : mark ≠ other) (hitem : ∀ {t a}, item t a → Solid mark t) : Solid mark t := by
  induction h with
  | one h => exact hitem h
  | cons h hg _ ih => exact (hitem h).join (hg.unmarked hmark hne) ih

theorem pieces_of_listed (h : Listed mark item t as) (hmark : CharClass.blank.has mark = false)
    (hitem : ∀ {t a}, item t a → Solid mark t) (hfront : AllBlank front) (hback : AllBlank back) :
    List.Forall₂ (fun piece a => item (strip piece) a)
      ((front ++ (t ++ back)).splitOn mark) as := by
  induction h generalizing front with
  | @one t a h =>
    have hpiece : mark ∉ front ++ (t ++ back) := by
      simp [hfront.unmarked hmark, (hitem h).unmarked, hback.unmarked hmark]
    rw [List.splitOn_eq_singleton hpiece]
    refine .cons ?_ .nil
    rwa [(hitem h).strip_eq hfront hback]
  | @cons t a g u as h hg hmore ih =>
    obtain ⟨before, after, hbefore, hafter, rfl⟩ := hg
    have hpiece : mark ∉ front ++ (t ++ before) := by
      simp [hfront.unmarked hmark, (hitem h).unmarked, hbefore.unmarked hmark]
    have hsplit : front ++ (t ++ (before ++ mark :: after ++ u) ++ back) =
        (front ++ (t ++ before)) ++ mark :: (after ++ (u ++ back)) := by simp
    rw [hsplit, List.splitOn, List.splitOnP_append_cons _ _ (by simp)]
    change List.Forall₂ _ ((front ++ (t ++ before)).splitOn mark ++ _) _
    rw [List.splitOn_eq_singleton hpiece]
    refine .cons ?_ (ih hafter)
    rwa [(hitem h).strip_eq hfront hbefore]

theorem listed_of_pieces {pieces : List (List Char)}
    (h : List.Forall₂ (fun piece a => item (strip piece) a) pieces as) (hsome : pieces ≠ []) :
    ∃ front t back, AllBlank front ∧ AllBlank back ∧
      [mark].intercalate pieces = front ++ (t ++ back) ∧ Listed mark item t as := by
  induction h with
  | nil => exact absurd rfl hsome
  | @cons piece a more as h hmore ih =>
    obtain ⟨front, back, hfront, hback, hpiece⟩ := exists_eq_strip piece
    cases more with
    | nil =>
      cases hmore
      exact ⟨front, _, back, hfront, hback, by simpa using hpiece, .one h⟩
    | cons next more =>
      obtain ⟨after, t, last, hafter, hlast, htext, hlist⟩ := ih (by simp)
      refine ⟨front, _, last, hfront, hlast, ?_, .cons h ⟨back, after, hback, hafter, rfl⟩ hlist⟩
      rw [List.intercalate_cons_cons, htext]
      nth_rewrite 1 [hpiece]
      simp

/-- A text is a list with blanks around it if its pieces between the marks, each without the blanks
around it, are the items. -/
theorem listed_iff_pieces {text : List Char} (hmark : CharClass.blank.has mark = false)
    (hitem : ∀ {t a}, item t a → Solid mark t) :
    (∃ front t back, AllBlank front ∧ AllBlank back ∧ text = front ++ (t ++ back) ∧
      Listed mark item t as) ↔
    List.Forall₂ (fun piece a => item (strip piece) a) (text.splitOn mark) as := by
  constructor
  · rintro ⟨front, t, back, hfront, hback, rfl, h⟩
    exact pieces_of_listed h hmark hitem hfront hback
  · intro h
    have hlist := @listed_of_pieces _ mark _ _ _ h (List.splitOn_ne_nil mark text)
    rwa [List.intercalate_splitOn] at hlist

end Relations

end OpeningHours
