import ReversePolish.Binary64

/-!
# Real functions

The calculator takes its real functions as given: they are one value of `RealFunctions`, and everything above
them holds for any such value.  `RealFunctions.standard` is the one a program runs with.  Its `hypot` is
computed exactly and rounded once; the others come from the machine.
-/

namespace ReversePolish

namespace Binary64

/-- The distance of `(x, y)` from the origin, correctly rounded.  An infinite coordinate outweighs one that is
not a number.  The root is taken of sixteen times the square, in quarter units, and half a quarter is added
unless it is exact: no tie of the final rounding then lies between the root and its replacement. -/
def hypot (x y : Float) : Float :=
  if magnitude x = infinite ∨ magnitude y = infinite then infinity
  else if infinite < magnitude x ∨ infinite < magnitude y then nan
  else
    let square := 16 * (units (magnitude x) * units (magnitude x) + units (magnitude y) * units (magnitude y))
    let root := square.sqrt
    ofMagnitude false (nearest (2 * root + if root * root = square then 0 else 1) 8)

end Binary64

/-- The real functions that complex arithmetic is built from. -/
structure RealFunctions where
  hypot : Float → Float → Float
  /-- The angle of the point with the second argument as abscissa and the first as ordinate. -/
  atan2 : Float → Float → Float
  pow : Float → Float → Float
  exp : Float → Float
  log : Float → Float
  sin : Float → Float
  cos : Float → Float
  sinh : Float → Float
  cosh : Float → Float

def RealFunctions.standard : RealFunctions where
  hypot := Binary64.hypot
  atan2 := Float.atan2
  pow := Float.pow
  exp := Float.exp
  log := Float.log
  sin := Float.sin
  cos := Float.cos
  sinh := Float.sinh
  cosh := Float.cosh

end ReversePolish
