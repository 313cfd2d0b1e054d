/-! Decimal numbers as text. -/

namespace OpeningHours.Text

/-- The decimal digits of a number, none of them a leading zero but for the number 0. -/
def decimal (n : Nat) : List Char := Nat.toDigits 10 n

/-- A number with at least two digits: one digit has a zero in front. -/
def twoDigits (n : Nat) : List Char :=
  if n < 100 then [(n / 10).digitChar, (n % 10).digitChar] else decimal n

/-- A number with zeros in front up to a width. -/
def padded (width n : Nat) : List Char :=
  List.replicate (width - (decimal n).length) '0' ++ decimal n

/-- The number that a list of decimal digits writes. -/
def number (digits : List Char) : Nat :=
  digits.foldl (fun value digit => 10 * value + (digit.toNat - '0'.toNat)) 0

theorem number_twoDigits {n : Nat} (h : n < 100) : number (twoDigits n) = n := by
  revert n
  decide

end OpeningHours.Text
