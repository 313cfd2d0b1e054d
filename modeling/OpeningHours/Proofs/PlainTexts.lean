import OpeningHours.Proofs.Agreement

/-! Plain texts are weekly. What an expression of the wider language reads without finding a
construct, the weekly grammar reads too: days, clock times and rules. Only a word behind times or
behind `24/7` is no construct and still has no place in a weekly schedule. -/

namespace OpeningHours

open Peg

namespace Language

variable {p q : Scan} {t u rest : List Char} {cs : List Construct} {construct : Construct}

/-! ### Expressions that find nothing -/

theorem plain_then (h : (p >> q).Reads t [] rest) :
    ∃ u v, t = u ++ v ∧ p.Reads u [] (v ++ rest) ∧ q.Reads v [] rest := by
  obtain ⟨⟨a, b⟩, hnone, hseq⟩ := reads_map_iff.mp h
  obtain ⟨u, v, rfl, hp, hq⟩ := reads_seq_iff.mp hseq
  obtain ⟨rfl, rfl⟩ := List.append_eq_nil_iff.mp hnone
  exact ⟨u, v, rfl, hp, hq⟩

theorem eq_of_plain_word {w : String} (h : (word w).Reads t cs rest) : t = w.toList := by
  obtain ⟨⟨⟩, -, hword⟩ := reads_map_iff.mp h
  exact reads_literal_iff.mp hword

/-- The expression reads digits, as many as given. -/
def ReadsDigits (n : Nat) (p : Scan) : Prop :=
  ∀ t rest, p.Reads t [] rest → t.length = n ∧ Weekly.AllDigits t

namespace ReadsDigits

theorem one {c : CharClass} (hc : ∀ x, c.has x = true → CharClass.digit.has x = true) :
    ReadsDigits 1 (plain (char c)) := by
  intro t rest h
  obtain ⟨x, -, hchar⟩ := reads_map_iff.mp h
  obtain ⟨rfl, hx⟩ := reads_char_iff.mp hchar
  exact ⟨rfl, List.forall_mem_singleton.mpr (hc x hx)⟩

theorem oneOf {first last : Char} (h : '0' ≤ first ∧ last ≤ '9') :
    ReadsDigits 1 (oneOf first last) := by
  refine one fun x hx => ?_
  simp [CharClass.has, Char.le_def, UInt32.le_iff_toNat_le] at hx h ⊢
  omega

theorem word {w : String} (h : w.toList.all CharClass.digit.has = true) :
    ReadsDigits w.toList.length (word w) := by
  intro t rest hread
  obtain rfl := eq_of_plain_word hread
  exact ⟨rfl, List.all_eq_true.mp h⟩

theorem both {m n : Nat} (hp : ReadsDigits m p) (hq : ReadsDigits n q) :
    ReadsDigits (m + n) (p >> q) := by
  intro t rest h
  obtain ⟨u, v, rfl, hu, hv⟩ := plain_then h
  obtain ⟨hm, hudigits⟩ := hp _ _ hu
  obtain ⟨hn, hvdigits⟩ := hq _ _ hv
  refine ⟨by rw [List.length_append, hm, hn], fun x hx => ?_⟩
  exact (List.mem_append.mp hx).elim (hudigits x) (hvdigits x)

end ReadsDigits

end Language

end OpeningHours
