import ReversePolish.Binary64
import ReversePolish.Decimal

/-!
# Numerals

The text of one real number: an optional sign, then `inf`, `infinity` or `nan` in any letter case, or decimal
digits with at most one point and an optional exponent.  `Numeral.parse?` accepts a text only as a whole and
keeps its exact value; `Numeral.toFloat` rounds that value to the nearest double.
-/

namespace ReversePolish

inductive Numeral where
  | nan
  | infinity (negative : Bool)
  /-- The number `digits * 10^exponent`, with a sign. -/
  | decimal (negative : Bool) (digits : Nat) (exponent : Int)
deriving DecidableEq

namespace Numeral

/-- The double nearest to a number.  A sign is kept by zeros too. -/
def toFloat : Numeral → Float
  | nan => Binary64.ofValue .nan
  | infinity negative => Binary64.ofValue (.infinity negative)
  | decimal negative digits exponent => Binary64.ofMagnitude negative (Binary64.ofDecimal digits exponent)

/-! ### Reading -/

/-- A sign, if there is one, and what follows it. -/
def sign : List Char → Bool × List Char
  | '+' :: body => (false, body)
  | '-' :: body => (true, body)
  | body => (false, body)

/-- A number written in digits alone, of which there is at least one. -/
def natural? (cs : List Char) : Option Nat :=
  if cs ≠ [] ∧ cs.all Char.isDigit then some (Decimal.ofDigits cs) else none

/-- What may follow the digits: nothing, or a mark and the exponent. -/
def exponent? : List Char → Option Int
  | [] => some 0
  | mark :: tail =>
    if mark = 'e' ∨ mark = 'E' then
      (natural? (sign tail).2).map fun n => if (sign tail).1 then -(n : Int) else n
    else none

/-- The digits after the point, if there is a point, and what follows them. -/
def fraction : List Char → List Char × List Char
  | '.' :: tail => (tail.takeWhile Char.isDigit, tail.dropWhile Char.isDigit)
  | tail => ([], tail)

/-- A decimal number without its sign: its digits as one whole number, and the exponent that goes with it. -/
def unsigned? (cs : List Char) : Option (Nat × Int) :=
  let whole := cs.takeWhile Char.isDigit
  let (places, rest) := fraction (cs.dropWhile Char.isDigit)
  if whole = [] ∧ places = [] then none
  else (exponent? rest).map fun e => (Decimal.ofDigits (whole ++ places), e - places.length)

/-- The word for something that is not a finite number, in lower case letters. -/
def special? (negative : Bool) (word : List Char) : Option Numeral :=
  if word = ['n', 'a', 'n'] then some nan
  else if word = ['i', 'n', 'f'] ∨ word = ['i', 'n', 'f', 'i', 'n', 'i', 't', 'y'] then some (infinity negative)
  else none

def parse? (cs : List Char) : Option Numeral :=
  let (negative, body) := sign cs
  special? negative (body.map Char.toLower) <|> (unsigned? body).map fun (n, e) => decimal negative n e

/-- The double that a text denotes. -/
def read? (cs : List Char) : Option Float := (parse? cs).map toFloat

end Numeral

end ReversePolish
