import ReversePolish.Rounding

/-!
# Doubles as exact numbers

A double is a sign and a magnitude.  The magnitude is the bit pattern without its sign bit: it orders the
non-negative doubles, and `infinite` is the magnitude of the infinities.  A finite magnitude `b` stands for the
number `units b / 2^1074`, so every exact statement about doubles is one about natural numbers.  `nearest`
is the way back: the magnitude closest to a fraction of units, ties to the even one.
-/

namespace ReversePolish

namespace Binary64

-- Powers are those of the natural numbers, whatever more general ones are around.
attribute [local instance (high)] instPowNat

/-! ### Sign and magnitude -/

/-- How many magnitudes there are from one power of two to the next. -/
def span : Nat := 2 ^ (52 : Nat)

/-- The magnitude of the infinities; larger magnitudes are not numbers. -/
def infinite : Nat := 2047 * span

/-- The weight of the sign in a bit pattern. -/
def signBit : Nat := 2 ^ (63 : Nat)

def magnitude (x : Float) : Nat := x.toBits.toNat % signBit

/-- The sign bit, which zeros have as well. -/
def isNegative (x : Float) : Bool := decide (signBit ≤ x.toBits.toNat)

/-- The double with the given sign bit and magnitude. -/
def ofMagnitude (negative : Bool) (b : Nat) : Float :=
  Float.ofBits (UInt64.ofNat (b + if negative then signBit else 0))

/-- What a double stands for. -/
inductive Value where
  | nan
  | infinity (negative : Bool)
  | finite (negative : Bool) (magnitude : Nat)
deriving DecidableEq

def value (x : Float) : Value :=
  if infinite < magnitude x then .nan
  else if magnitude x = infinite then .infinity (isNegative x)
  else .finite (isNegative x) (magnitude x)

def ofValue : Value → Float
  | .nan => ofMagnitude false (infinite + span / 2)
  | .infinity negative => ofMagnitude negative infinite
  | .finite negative b => ofMagnitude negative b

def zero : Float := ofMagnitude false 0

def one : Float := ofMagnitude false (1023 * span)

def two : Float := ofMagnitude false (1024 * span)

def infinity : Float := ofValue (.infinity false)

def nan : Float := ofValue .nan

def abs (x : Float) : Float := ofMagnitude false (magnitude x)

/-! ### The number a magnitude stands for -/

/-- How often the spacing of the doubles has doubled below `b`. -/
def octave (b : Nat) : Nat := b / span - 1

/-- The number that the finite magnitude `b` stands for, in units of `2^-1074`. -/
def units (b : Nat) : Nat := (b - octave b * span) * 2 ^ octave b

/-- How many units make one. -/
def unit : Nat := 2 ^ (1074 : Nat)

/-! ### Rounding -/

/-- The magnitude nearest to `num / den` units, ties to the even magnitude.  The octave is chosen so that the
quotient keeps 53 bits; rounding up to the next octave carries into the exponent by itself, and what lies past
the largest finite magnitude is infinite. -/
def nearest (num den : Nat) : Nat :=
  let octave := (num / den).log2 - 52
  min (octave * span + roundHalfEven num (den * 2 ^ octave)) infinite

/-- The magnitude nearest to `digits * 10^exponent`.  Exponents far outside the range of the doubles are
answered without the power of ten: from `10^401` on everything is infinite, and below `10^-400` everything
rounds to zero. -/
def ofDecimal (digits : Nat) (exponent : Int) : Nat :=
  if digits = 0 then 0
  else if 400 < exponent then infinite
  else if exponent + digits.log2 + 1 < -400 then 0
  else match exponent with
    | .ofNat e => nearest (digits * 10 ^ e * unit) 1
    | .negSucc e => nearest (digits * unit) (10 ^ (e + 1))

/-- The double nearest to a natural number. -/
def ofNat (n : Nat) : Float := ofMagnitude false (ofDecimal n 0)

end Binary64

end ReversePolish
