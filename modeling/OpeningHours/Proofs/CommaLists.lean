import OpeningHours.Proofs.FirstParts

/-! Lists in front of a comma. Where a text goes on with a comma, its last list takes the comma as
one of its own if it can read an entry behind it. No other part of a rule reads on: a comma has a
place in lists and comments only, and a comment ends with its own quote. -/

namespace OpeningHours

open Peg

/-- A character that is left of the first text is left of the second one. -/
theorem GoesOn.exists_cons {tail s t : List Char} {x : Char} (h : GoesOn tail (x :: s) t) :
    ∃ t', t = x :: t' ∧ GoesOn tail s t' := by
  obtain ⟨u, rfl, hu⟩ := h
  exact ⟨s ++ u, rfl, u, rfl, hu⟩

namespace Language

variable {p q : Scan} {s t rest more c tail : List Char}

/-- An entry of a list is read as before where the text goes on. Numbers in brackets can follow the
days of an entry, and they have commas in them, so that no bracket may be left. -/
structure Entry (tail : List Char) (p : Scan) : Prop where
  refuses : ∀ {s t}, GoesOn tail s t → (p.Refuses s ↔ p.Refuses t)
  leaves : ∀ {s t rest}, GoesOn tail s t → p.Leaves s rest → Next (· ≠ '[') rest →
    ∃ rest', p.Leaves t rest' ∧ GoesOn tail rest rest'

/-- How an expression that leaves `rest` of a text reads the text `t` that goes on with a comma: as
before, or beyond the comma, and then it leaves what it leaves of `c`. -/
inductive ReadsOn (more c : List Char) (p : Scan) (t rest : List Char) : Prop
  | before {rest' : List Char} (ht : p.Leaves t rest') (hrest : GoesOn (',' :: more) rest rest')
      (hstop : UsedUp rest → p.Refuses c)
  | beyond {last : List Char} (ht : p.Leaves t last) (hused : UsedUp rest)
      (hlast : p.Leaves c last)

/-- A part of a rule where the text goes on with a comma. -/
structure Joins (more c : List Char) (p : Scan) : Prop where
  refuses : ∀ {s t}, GoesOn (',' :: more) s t → (p.Refuses s ↔ p.Refuses t)
  leaves : ∀ {s t rest}, GoesOn (',' :: more) s t → p.Leaves s rest → Next (· ≠ '[') rest →
    ReadsOn more c p t rest

theorem Entry.of_respects (hp : p.Respects (GoesOn tail)) : Entry tail p :=
  ⟨hp.refuses_iff, fun h hs _ => hp.leaves h hs⟩

/-- What keeps clear of commas is read as before. -/
theorem Joins.of_respects (hp : p.Respects (GoesOn (',' :: more))) (hc : p.Refuses c) :
    Joins more c p :=
  ⟨hp.refuses_iff, fun h hs _ => (hp.leaves h hs).elim fun _ ht => .before ht.1 ht.2 fun _ => hc⟩

theorem Joins.mark {construct : Construct} (hp : Joins more c p) :
    Joins more c (mark construct p) := by
  refine ⟨fun h => ?_, fun h hs hnext => ?_⟩
  · rw [Language.mark, refuses_map_iff, refuses_map_iff]
    exact hp.refuses h
  · rcases hp.leaves h (leaves_map_iff.mp hs) hnext with ⟨ht, hrest, hc⟩ | ⟨ht, hused, hc⟩
    · exact .before (leaves_map_iff.mpr ht) hrest fun hused => refuses_map_iff.mpr (hc hused)
    · exact .beyond (leaves_map_iff.mpr ht) hused (leaves_map_iff.mpr hc)

/-- A word that stands in front of a list stands in front of what is read behind the comma too. -/
theorem Joins.then {d : List Char} (hq : q.Respects (GoesOn (',' :: more))) (hd : q.Leaves d c)
    (hp : Joins more c p) : Joins more d (q >> p) := by
  refine ⟨fun {s t} h => ?_, fun {s t rest} h hs hnext => ?_⟩
  · rcases hq s t h with ⟨hs, ht⟩ | ⟨m, m', hs, ht, hm⟩
    · exact iff_of_true (refuses_then hs) (refuses_then ht)
    · rw [refuses_then_of_leaves hs, refuses_then_of_leaves ht]
      exact hp.refuses hm
  · obtain ⟨m, hfirst, hsecond⟩ := leaves_then_iff.mp hs
    obtain ⟨m', hfirst', hm⟩ := hq.leaves h hfirst
    rcases hp.leaves hm hsecond hnext with ⟨ht, hrest, hc⟩ | ⟨ht, hused, hc⟩
    · exact .before (leaves_then_iff.mpr ⟨m', hfirst', ht⟩) hrest fun hused =>
        (refuses_then_of_leaves hd).mpr (hc hused)
    · exact .beyond (leaves_then_iff.mpr ⟨m', hfirst', ht⟩) hused (leaves_then_iff.mpr ⟨c, hd, hc⟩)

/-! ### Lists -/

theorem leaves_comma_iff : (padded (literal [','])).Leaves s rest ↔ ∃ later,
    s.dropWhile CharClass.blank.has = ',' :: later ∧
      later.dropWhile CharClass.blank.has = rest := by
  simp only [leaves_padded_iff, leaves_literal_iff, List.cons_append, List.nil_append]

theorem refuses_comma_iff : (after (padded (literal [','])) p).Refuses s ↔ ∀ later,
    s.dropWhile CharClass.blank.has = ',' :: later →
      p.Refuses (later.dropWhile CharClass.blank.has) := by
  rw [after, refuses_map_iff, refuses_seq_iff]
  constructor
  · rintro (hnone | ⟨_, hsign, hp⟩) later hlater
    · exact absurd hnone (leaves_comma_iff.mpr ⟨later, hlater, rfl⟩).not_refuses
    · rwa [← hsign.unique (leaves_comma_iff.mpr ⟨later, hlater, rfl⟩)]
  · intro h
    rcases refuses_or_leaves (padded (literal [','])) s with hnone | ⟨m, hsign⟩
    · exact .inl hnone
    · obtain ⟨later, hlater, rfl⟩ := leaves_comma_iff.mp hsign
      exact .inr ⟨_, hsign, h later hlater⟩

/-- A list is an entry and, where a comma with another entry follows, the list of the entries from
there on. -/
theorem leaves_listOf_iff (hempty : p.mayBeEmpty = false) : (listOf p).Leaves s rest ↔
    ∃ middle, p.Leaves s middle ∧
      ((∀ later, middle.dropWhile CharClass.blank.has = ',' :: later →
          p.Refuses (later.dropWhile CharClass.blank.has)) ∧ middle = rest ∨
        ∃ later, middle.dropWhile CharClass.blank.has = ',' :: later ∧
          (listOf p).Leaves (later.dropWhile CharClass.blank.has) rest) := by
  have hlist : ∀ {s rest}, (listOf p).Leaves s rest ↔ ∃ middle, p.Leaves s middle ∧
      (star (after (padded (literal [','])) p)).Leaves middle rest := by
    intro s rest
    rw [listOf, leaves_map_iff, commaList, leaves_map_iff, leaves_seq_iff]
  rw [hlist]
  refine exists_congr fun middle => and_congr_right fun _ => ?_
  rw [leaves_star_iff (by simp [after, padded, before, mayBeEmpty, hempty]), refuses_comma_iff]
  refine or_congr_right ?_
  simp only [hlist, leaves_after_iff, leaves_comma_iff]
  constructor
  · rintro ⟨_, ⟨_, ⟨later, hlater, rfl⟩, hp⟩, hmore⟩
    exact ⟨later, hlater, _, hp, hmore⟩
  · rintro ⟨later, hlater, m, hp, hmore⟩
    exact ⟨m, ⟨_, ⟨later, hlater, rfl⟩, hp⟩, hmore⟩

section Lists

variable {middle later : List Char} (hempty : p.mayBeEmpty = false)

include hempty

theorem leaves_listOf_last (hp : p.Leaves s rest)
    (hstop : ∀ later, rest.dropWhile CharClass.blank.has = ',' :: later →
      p.Refuses (later.dropWhile CharClass.blank.has)) : (listOf p).Leaves s rest :=
  (leaves_listOf_iff hempty).mpr ⟨rest, hp, .inl ⟨hstop, rfl⟩⟩

theorem leaves_listOf_more (hp : p.Leaves s middle)
    (hcomma : middle.dropWhile CharClass.blank.has = ',' :: later)
    (hlist : (listOf p).Leaves (later.dropWhile CharClass.blank.has) rest) :
    (listOf p).Leaves s rest :=
  (leaves_listOf_iff hempty).mpr ⟨middle, hp, .inr ⟨later, hcomma, hlist⟩⟩

/-- The last entry of the list is followed by the comma of the text, or by something else that
stands there in both texts. -/
theorem readsOn_last (hp : Entry (',' :: more) p) (h : GoesOn (',' :: more) s t)
    (hs : p.Leaves s rest) (hstop : ∀ later, rest.dropWhile CharClass.blank.has = ',' :: later →
      p.Refuses (later.dropWhile CharClass.blank.has)) (hnext : Next (· ≠ '[') rest) :
    ReadsOn more (more.dropWhile CharClass.blank.has) (listOf p) t rest := by
  obtain ⟨rest', hentry, hrest⟩ := hp.leaves h hs hnext
  cases hback : rest.dropWhile CharClass.blank.has with
  | nil =>
    have htail := hrest.of_blank hback
    rcases refuses_or_leaves (listOf p) (more.dropWhile CharClass.blank.has) with
      hnone | ⟨last, hlast⟩
    · refine .before (leaves_listOf_last hempty hentry ?_) hrest fun _ => hnone
      intro later hlater
      cases htail.symm.trans hlater
      exact refuses_listOf_iff.mp hnone
    · exact .beyond (leaves_listOf_more hempty hentry htail hlast) hback hlast
  | cons x back =>
    obtain ⟨back', hback', hgoes⟩ := (hback ▸ hrest.dropWhile (by decide)).exists_cons
    refine .before (leaves_listOf_last hempty hentry ?_) hrest fun hused => ?_
    · intro later hlater
      cases hback'.symm.trans hlater
      exact (hp.refuses (hgoes.dropWhile (by decide))).mp (hstop back hback)
    · cases hback.symm.trans hused

/-- The induction is on the length of the text, which each entry shortens. -/
theorem readsOn_list (hp : Entry (',' :: more) p) (h : GoesOn (',' :: more) s t)
    (hs : (listOf p).Leaves s rest) (hnext : Next (· ≠ '[') rest) :
    ReadsOn more (more.dropWhile CharClass.blank.has) (listOf p) t rest := by
  induction hlength : s.length using Nat.strongRecOn generalizing s t with
  | ind n ih =>
    obtain ⟨middle, hentry, hlater⟩ := (leaves_listOf_iff hempty).mp hs
    rcases hlater with ⟨hstop, rfl⟩ | ⟨later, hcomma, hlist⟩
    · exact readsOn_last hempty hp h hentry hstop hnext
    obtain ⟨middle', hentry', hmiddle⟩ := hp.leaves h hentry (next_of_cons hcomma (by decide))
    obtain ⟨later', hcomma', hgoes⟩ := (hcomma ▸ hmiddle.dropWhile (by decide)).exists_cons
    have hshort : (later.dropWhile CharClass.blank.has).length < s.length := by
      have hfirst := leaves_length hempty hentry
      have hblanks := (List.dropWhile_sublist CharClass.blank.has (l := middle)).length_le
      have hmore := (List.dropWhile_sublist CharClass.blank.has (l := later)).length_le
      rw [hcomma, List.length_cons] at hblanks
      omega
    rcases ih _ (hlength ▸ hshort) (hgoes.dropWhile (by decide)) hlist rfl with
      ⟨hlist', hrest, hstop⟩ | ⟨hlist', hused, hlast⟩
    · exact .before (leaves_listOf_more hempty hentry' hcomma' hlist') hrest hstop
    · exact .beyond (leaves_listOf_more hempty hentry' hcomma' hlist') hused hlast

end Lists

theorem Joins.listOf (hempty : p.mayBeEmpty = false) (hp : Entry (',' :: more) p) :
    Joins more (more.dropWhile CharClass.blank.has) (listOf p) := by
  refine ⟨fun h => ?_, readsOn_list hempty hp⟩
  rw [refuses_listOf_iff, refuses_listOf_iff]
  exact hp.refuses h

/-! ### The parts of a rule -/

/-- A comma has no place in the expression. -/
theorem respects_comma {p : Peg α} (h : p.keepsOut ',' = true) :
    p.Respects (GoesOn (',' :: more)) := GoesOn.respects (by decide) h

/-- The numbers of a weekday within its month, in brackets. -/
def bracket : Scan := word "[" >> ws >> nthSequence >> ws >> word "]"

/-- The commas between the brackets are not the last of the text, as a bracket follows. -/
theorem leaves_bracket_join (h : GoesOn (',' :: more) s t) (hs : (ws >> bracket).Leaves s rest) :
    ∃ rest', (ws >> bracket).Leaves t rest' ∧ GoesOn (',' :: more) rest rest' := by
  have hfront : (ws >> word "[" >> ws).Respects (GoesOn (',' :: more)) := respects_comma (by decide)
  have hback : (ws >> word "]").Respects (GoesOn (',' :: more)) := respects_comma (by decide)
  have hentry : Entry (',' :: more) nthEntry := .of_respects (respects_comma (by decide))
  have hlist : Joins more _ nthSequence := (Joins.listOf (by decide) hentry).mark
  have hsplit : ∀ {s rest}, (ws >> bracket).Leaves s rest ↔ ∃ inner outer,
      (ws >> word "[" >> ws).Leaves s inner ∧ nthSequence.Leaves inner outer ∧
        (ws >> word "]").Leaves outer rest := by
    intro s rest
    simp only [bracket, leaves_then_iff]
    constructor
    · rintro ⟨m, hm, n, hn, inner, hinner, outer, houter, last, hlast, hrest⟩
      exact ⟨inner, outer, ⟨m, hm, n, hn, hinner⟩, houter, last, hlast, hrest⟩
    · rintro ⟨inner, outer, ⟨m, hm, n, hn, hinner⟩, houter, last, hlast, hrest⟩
      exact ⟨m, hm, n, hn, inner, hinner, outer, houter, last, hlast, hrest⟩
  obtain ⟨inner, outer, hopen, hnumbers, hclose⟩ := hsplit.mp hs
  obtain ⟨inner', hopen', hinner⟩ := hfront.leaves h hopen
  have hnext : outer.dropWhile CharClass.blank.has = ']' :: rest := by
    obtain ⟨_, hblanks, hword⟩ := leaves_then_iff.mp hclose
    rw [leaves_chars_iff.mp (leaves_map_iff.mp hblanks)]
    exact leaves_word_iff.mp hword
  rcases hlist.leaves hinner hnumbers (next_of_cons hnext (by decide)) with
    ⟨hnumbers', houter, -⟩ | ⟨-, hused, -⟩
  · obtain ⟨rest', hclose', hrest⟩ := hback.leaves houter hclose
    exact ⟨rest', hsplit.mpr ⟨inner', _, hopen', hnumbers', hclose'⟩, hrest⟩
  · cases hnext.symm.trans hused

theorem leaves_maybe_bracket_join (h : GoesOn (',' :: more) s t)
    (hs : (maybe (ws >> bracket)).Leaves s rest) (hnext : Next (· ≠ '[') rest) :
    ∃ rest', (maybe (ws >> bracket)).Leaves t rest' ∧ GoesOn (',' :: more) rest rest' := by
  rcases leaves_maybe_iff.mp hs with hsome | ⟨-, rfl⟩
  · obtain ⟨rest', ht, hrest⟩ := leaves_bracket_join h hsome
    exact ⟨rest', leaves_maybe_iff.mpr (.inl ht), hrest⟩
  · have hrefuses : (ws >> bracket).Refuses t :=
      refuses_ws_then (by decide) (h.next hnext (by decide)) fun x hx => by
        simp [bracket, Ne.symm hx]
    exact ⟨t, leaves_maybe_iff.mpr (.inr ⟨hrefuses, rfl⟩), h⟩

theorem refuses_weekdayRange_iff : weekdayRange.Refuses s ↔ weekday.Refuses s :=
  refuses_then_iff (not_refuses_then (fun _ => not_refuses_maybe)
    (not_refuses_then (fun _ => not_refuses_maybe) fun _ => not_refuses_maybe))

theorem entry_weekdayRange : Entry (',' :: more) weekdayRange := by
  have hday : weekday.Respects (GoesOn (',' :: more)) := respects_comma (by decide)
  have hrun : (maybe (ws >> word "-" >> ws >> weekday)).Respects (GoesOn (',' :: more)) :=
    respects_comma (by decide)
  have hmoved : (maybe (ws >> dayOffset)).Respects (GoesOn (',' :: more)) :=
    respects_comma (by decide)
  constructor
  · intro s t h
    rw [refuses_weekdayRange_iff, refuses_weekdayRange_iff]
    exact hday.refuses_iff h
  · intro s t rest h hs hnext
    simp only [weekdayRange, leaves_then_iff] at hs
    obtain ⟨m, hm, n, hn, back, hnumbers, hback⟩ := hs
    obtain ⟨m', hm', hgoes⟩ := hday.leaves h hm
    obtain ⟨n', hn', hgoes⟩ := hrun.leaves hgoes hn
    have hbracket : Next (· ≠ '[') back := by
      refine next_of_past (p := dayOffset) (by decide) (by decide) ?_
      rwa [leaves_maybe_iff_past.mp hback]
    obtain ⟨back', hnumbers', hgoes⟩ := leaves_maybe_bracket_join hgoes hnumbers hbracket
    obtain ⟨rest', hback', hrest⟩ := hmoved.leaves hgoes hback
    refine ⟨rest', ?_, hrest⟩
    simp only [weekdayRange, leaves_then_iff]
    exact ⟨m', hm', n', hn', back', hnumbers', hback'⟩

theorem Entry.choice (hp : Entry tail p) (hq : Entry tail q) : Entry tail (p <|> q) := by
  refine ⟨fun h => ?_, fun h hs hnext => ?_⟩
  · rw [refuses_orElse_iff, refuses_orElse_iff]
    exact and_congr (hp.refuses h) (hq.refuses h)
  · rcases leaves_choice_iff.mp hs with hfirst | ⟨hnone, hsecond⟩
    · obtain ⟨rest', ht, hrest⟩ := hp.leaves h hfirst hnext
      exact ⟨rest', leaves_choice_iff.mpr (.inl ht), hrest⟩
    · obtain ⟨rest', ht, hrest⟩ := hq.leaves h hsecond hnext
      exact ⟨rest', leaves_choice_iff.mpr (.inr ⟨(hp.refuses h).mp hnone, ht⟩), hrest⟩

theorem joins_yearSelector : Joins more (more.dropWhile CharClass.blank.has) yearSelector :=
  (Joins.listOf (by decide) (.of_respects (respects_comma (by decide)))).mark

theorem joins_monthdaySelector : Joins more (more.dropWhile CharClass.blank.has) monthdaySelector :=
  (Joins.listOf (by decide) (.of_respects (respects_comma (by decide)))).mark

/-- Weeks are named once, in front of the list. -/
theorem joins_weekSelector : Joins more ("week".toList ++ more) weekSelector := by
  have hlist : Joins more _ (listOf weekRange) :=
    .listOf (by decide) (.of_respects (respects_comma (by decide)))
  have hblanks : ws.Leaves more (more.dropWhile CharClass.blank.has) :=
    leaves_iff_rest?.mpr rest?_ws
  exact (Joins.then (respects_comma (by decide)) (leaves_word_iff.mpr rfl)
    (hlist.then (respects_comma (by decide)) hblanks)).mark

theorem joins_weekdaySelector : Joins more (more.dropWhile CharClass.blank.has) weekdaySelector :=
  .listOf (by decide) (.choice (.of_respects (respects_comma (by decide))) entry_weekdayRange)

theorem joins_timeSelector : Joins more (more.dropWhile CharClass.blank.has) timeSelector :=
  .listOf (by decide) (.of_respects (respects_comma (by decide)))

theorem joins_colon : Joins more [] (word ":") := .of_respects (respects_comma (by decide)) rfl

theorem joins_modifierPart : Joins more [] modifierPart :=
  .of_respects (respects_comma (by decide)) rfl

theorem exists_joins (hp : p ∈ frontParts) (more : List Char) : ∃ c, Joins more c p := by
  simp only [frontParts, selectorParts, List.mem_append, List.mem_cons, List.not_mem_nil,
    or_false] at hp
  rcases hp with (rfl | rfl | rfl | rfl | rfl | rfl) | rfl
  · exact ⟨_, joins_yearSelector⟩
  · exact ⟨_, joins_monthdaySelector⟩
  · exact ⟨_, joins_weekSelector⟩
  · exact ⟨_, joins_colon⟩
  · exact ⟨_, joins_weekdaySelector⟩
  · exact ⟨_, joins_timeSelector⟩
  · exact ⟨_, joins_modifierPart⟩

theorem mayStart_of_mem : ∀ p ∈ frontParts, p.mayStart '[' = false := by decide

end Language

end OpeningHours
