import ReversePolish.Binary64
import ReversePolish.Decimal

/-!
# Shortest text of a double

A double is written with the fewest digits that read back as the same double, and of those with the digits
nearest to its value, a tie going up.  `shortest` looks for them on ever finer decimal grids: on each grid only
the two points around the value are tried, since any other point that reads back has one of these between itself
and the value.  The text is positional, has no exponent and no point without places after it.
-/

namespace ReversePolish

namespace Binary64

-- Powers are those of the natural numbers, whatever more general ones are around.
attribute [local instance (high)] instPowNat

/-- How many times `10^exponent` fits into the number of magnitude `b`. -/
def gridFloor (b : Nat) : Int → Nat
  | .ofNat e => units b / (unit * 10 ^ e)
  | .negSucc e => units b * 10 ^ (e + 1) / unit

/-- Whether the grid point `n + 1` is at least as near to the number of magnitude `b` as the point `n` is. -/
def nearerAbove (b n : Nat) : Int → Bool
  | .ofNat e => decide ((2 * n + 1) * (unit * 10 ^ e) ≤ 2 * units b)
  | .negSucc e => decide ((2 * n + 1) * unit ≤ 2 * (units b * 10 ^ (e + 1)))

/-- The point of the grid of step `10^exponent` that is nearest to magnitude `b` among those reading back as
`b`. -/
def onGrid? (b : Nat) (exponent : Int) : Option Nat :=
  let n := gridFloor b exponent
  let below := ofDecimal n exponent = b
  let above := ofDecimal (n + 1) exponent = b
  if above ∧ (¬ below ∨ nearerAbove b n exponent) then some (n + 1)
  else if below then some n
  else none

/-- A decimal exponent whose power of ten is larger than the number of magnitude `b`; `30103 / 100000` is the
logarithm of two to five places. -/
def coarsest (b : Nat) : Int := (((units b).log2 : Int) - 1074) * 30103 / 100000 + 2

/-- The digits and the exponent of the shortest decimal that reads back as magnitude `b`, on one of `tries`
grids from the given one on.  After them all digits of the number are given. -/
def shortestFrom (b : Nat) : (tries : Nat) → (exponent : Int) → Nat × Int
  | 0, _ => (units b * 5 ^ (1074 : Nat), -1074)
  | tries + 1, exponent =>
    match onGrid? b exponent with
    | some n => (n, exponent)
    | none => shortestFrom b tries (exponent - 1)

/-- The shortest decimal that reads back as the finite magnitude `b`.  A double never needs more than 17 digits,
and the first grids are coarser than its first digit. -/
def shortest (b : Nat) : Nat × Int :=
  if b = 0 then (0, 0) else shortestFrom b 20 (coarsest b)

def chars (x : Float) : List Char :=
  match value x with
  | .nan => ['N', 'a', 'N']
  | .infinity negative => (if negative then ['-'] else []) ++ ['i', 'n', 'f']
  | .finite negative b => (if negative then ['-'] else []) ++ Decimal.positional (shortest b).1 (shortest b).2

end Binary64

end ReversePolish
