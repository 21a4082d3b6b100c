import ReversePolish.RealFunctions
import ReversePolish.Binary64.Shortest

/-!
# Complex numbers

Pairs of doubles.  The four operations are the schoolbook formulas in plain floating-point arithmetic, with no
special treatment of infinities; the functions are built from the real functions handed to them.  Equality `=`
is equality of both doubles, `agrees` is numerical equality.
-/

namespace ReversePolish

open Binary64 (zero one two)

structure Complex where
  re : Float
  im : Float
deriving DecidableEq

namespace Complex

def ofReal (x : Float) : Complex := ⟨x, zero⟩

def ofImaginary (y : Float) : Complex := ⟨zero, y⟩

/-- Numerical equality: a number that is not a number differs from itself, and zeros of both signs are equal. -/
def agrees (z w : Complex) : Bool := z.re == w.re && z.im == w.im

/-! ### Arithmetic -/

instance : Add Complex := ⟨fun z w => ⟨z.re + w.re, z.im + w.im⟩⟩

instance : Sub Complex := ⟨fun z w => ⟨z.re - w.re, z.im - w.im⟩⟩

instance : Neg Complex := ⟨fun z => ⟨-z.re, -z.im⟩⟩

instance : Mul Complex := ⟨fun z w => ⟨z.re * w.re - z.im * w.im, z.re * w.im + z.im * w.re⟩⟩

instance : Div Complex := ⟨fun z w =>
  let n := w.re * w.re + w.im * w.im
  ⟨(z.re * w.re + z.im * w.im) / n, (z.im * w.re - z.re * w.im) / n⟩⟩

def unit : Complex := ofReal one

def i : Complex := ofImaginary one

/-- The sum of a list, from its first element on. -/
def sum (zs : List Complex) : Complex := zs.foldl (· + ·) (ofReal zero)

/-! ### Polar form -/

def norm (real : RealFunctions) (z : Complex) : Float := real.hypot z.re z.im

def arg (real : RealFunctions) (z : Complex) : Float := real.atan2 z.im z.re

def ofPolar (real : RealFunctions) (r θ : Float) : Complex := ⟨r * real.cos θ, r * real.sin θ⟩

/-! ### Powers -/

/-- The exponential function.  At infinite real parts the angle must not turn the modulus into something that is
not a number. -/
def exp (real : RealFunctions) (z : Complex) : Complex :=
  if z.re.isInf && z.re < zero && !z.im.isFinite then ofReal zero
  else if z.re.isInf && !(z.re < zero) && (z.im == zero || !z.im.isFinite) then
    ⟨z.re, if z.im.isInf then Binary64.nan else z.im⟩
  else if z.re.isNaN && z.im == zero then z
  else ofPolar real (real.exp z.re) z.im

def log (real : RealFunctions) (z : Complex) : Complex := ⟨real.log (norm real z), arg real z⟩

/-- The principal square root.  On the axes it is taken of the component alone, and the sign of a zero imaginary
part tells the sides of the cut apart. -/
def sqrt (real : RealFunctions) (z : Complex) : Complex :=
  if z.im == zero then
    if !Binary64.isNegative z.re then ⟨z.re.sqrt, z.im⟩
    else if !Binary64.isNegative z.im then ofImaginary (-z.re).sqrt
    else ofImaginary (-(-z.re).sqrt)
  else if z.re == zero then
    let x := (Binary64.abs z.im / two).sqrt
    ⟨x, if !Binary64.isNegative z.im then x else -x⟩
  else ofPolar real (norm real z).sqrt (arg real z / two)

/-- A power of zero, when neither part of the exponent is in doubt. -/
def powZero (w : Complex) : Complex :=
  if w.re.isNaN || w.im.isNaN then ⟨Binary64.nan, Binary64.nan⟩
  else if w.re == zero then unit
  else if w.re < zero then ⟨Binary64.infinity, if w.im == zero then zero else Binary64.infinity⟩
  else ofReal zero

/-- The power `z^w`, computed in polar form, so that real powers of real bases stay exact. -/
def pow (real : RealFunctions) (z w : Complex) : Complex :=
  if z.re == zero && z.im == zero then powZero w
  else
    let modulus := norm real z
    let angle := arg real z
    let r := real.pow modulus w.re
    let θ := w.re * angle
    if w.im == zero then ofPolar real r θ
    else ofPolar real (r * real.exp (-w.im * angle)) (θ + w.im * real.log modulus)

/-! ### Trigonometry -/

def sin (real : RealFunctions) (z : Complex) : Complex :=
  ⟨real.sin z.re * real.cosh z.im, real.cos z.re * real.sinh z.im⟩

def cos (real : RealFunctions) (z : Complex) : Complex :=
  ⟨real.cos z.re * real.cosh z.im, -real.sin z.re * real.sinh z.im⟩

def tan (real : RealFunctions) (z : Complex) : Complex :=
  let a := z.re + z.re
  let b := z.im + z.im
  let n := real.cos a + real.cosh b
  ⟨real.sin a / n, real.sinh b / n⟩

def asin (real : RealFunctions) (z : Complex) : Complex :=
  -i * log real (sqrt real (unit - z * z) + i * z)

def acos (real : RealFunctions) (z : Complex) : Complex :=
  -i * log real (i * sqrt real (unit - z * z) + z)

/-- The inverse tangent, infinite at its two poles. -/
def atan (real : RealFunctions) (z : Complex) : Complex :=
  if agrees z i then ofImaginary Binary64.infinity
  else if agrees z (-i) then ofImaginary (-Binary64.infinity)
  else (log real (unit + i * z) - log real (unit - i * z)) / ((unit + unit) * i)

/-! ### Text -/

/-- The text of a complex number: the real part, a sign, the size of the imaginary part and `i`.  The sign is
minus exactly if the imaginary part is below zero, so a negative zero shows after a plus. -/
def chars (z : Complex) : List Char :=
  Binary64.chars z.re ++
    (if z.im < zero then '-' :: Binary64.chars (zero - z.im) else '+' :: Binary64.chars z.im) ++ ['i']

def text (z : Complex) : String := String.ofList (chars z)

end Complex

end ReversePolish
