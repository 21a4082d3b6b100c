import ReversePolish.Rounding

/-!
# Decimal text

Numbers in positional notation.  `fixed` writes a fraction with a given number of places, a half going to the
even neighbour; `positional` writes a natural number of units `10^exponent` without an exponent mark.
`ofDigits` reads a run of digits back.
-/

namespace ReversePolish

namespace Decimal

-- Powers are those of the natural numbers, whatever more general ones are around.
attribute [local instance (high)] instPowNat

/-- The digits of a natural number, at least one. -/
def digits (n : Nat) : List Char := Nat.toDigits 10 n

/-- The number that a run of digits denotes. -/
def ofDigits (cs : List Char) : Nat := Nat.ofDigitChars 10 cs 0

/-- The digits of a natural number, filled up with zeros to the given width. -/
def padded (width n : Nat) : List Char := (digits n).leftpad width '0'

/-- The text of `n / 10^places`, with exactly that many places. -/
def withPoint (places n : Nat) : List Char :=
  digits (n / 10 ^ places) ++ '.' :: padded places (n % 10 ^ places)

/-- The text of `num / den` rounded to the given number of places, a half to the even neighbour. -/
def fixed (places num den : Nat) : List Char :=
  withPoint places (roundHalfEven (num * 10 ^ places) den)

/-- The text of `n * 10^exponent`: a whole number without a point, and any other with as many places as the
exponent asks for. -/
def positional (n : Nat) : Int → List Char
  | .ofNat e => digits (n * 10 ^ e)
  | .negSucc e => withPoint (e + 1) n

theorem ofDigits_digits (n : Nat) : ofDigits (digits n) = n :=
  Nat.ofDigitChars_toDigits (by decide) (by decide)

theorem digits_ne_nil (n : Nat) : digits n ≠ [] := Nat.toDigits_ne_nil

theorem isDigit_of_mem_digits {n : Nat} {c : Char} (h : c ∈ digits n) : c.isDigit :=
  Nat.isDigit_of_mem_toDigits (by decide) (by decide) h

end Decimal

end ReversePolish
