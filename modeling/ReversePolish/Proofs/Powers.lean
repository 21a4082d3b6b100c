import ReversePolish.Binary64.Product
import ReversePolish.Proofs.Typing

/-!
# Powers of positive reals

On the positive real axis the polar form has the angle zero, so a power with a real exponent is the power of the doubles
times the cosine and the sine of a zero (`Complex.pow_ofReal`).  Its real part is that power, and its imaginary part a zero
unless the power overflows: an infinity times a zero is not a number.  So what is printed of a power of reals has an
imaginary part exactly if the power of the doubles is not finite (`steps_power`).
-/

namespace ReversePolish

open Binary64 (zero one two ofMagnitude isNegative)

/-! ### Real functions on the axis -/

namespace Binary64

theorem abs_of_pos {x : Float} (h : zero < x) : abs x = x := by
  obtain ⟨hnegative, -, hle⟩ := zero_lt_iff.1 h
  have hx := ofMagnitude_magnitude hle
  rwa [hnegative] at hx

/-- On the real axis the distance from the origin is exact. -/
theorem hypot_zero {x : Float} (h : x.isFinite = true) : hypot x zero = abs x := by
  have hlt := isFinite_iff.1 h
  have hzero : magnitude zero = 0 := magnitude_ofMagnitude false (Nat.zero_le _)
  have hinfinite : 0 < infinite := by decide
  rw [hypot, hzero, if_neg (by omega), if_neg (by omega), units_zero]
  dsimp only
  -- sixteen times the square is the square of the number in quarter units, so the root is exact
  have hsquare : 16 * (units (magnitude x) * units (magnitude x) + 0 * 0) =
      4 * units (magnitude x) * (4 * units (magnitude x)) := by ring
  have hroot : (16 * (units (magnitude x) * units (magnitude x) + 0 * 0)).sqrt = 4 * units (magnitude x) := by
    rw [hsquare, Nat.sqrt_eq]
  have hdouble : 2 * (4 * units (magnitude x)) = 8 * units (magnitude x) := by ring
  rw [hroot, if_pos hsquare.symm, Nat.add_zero, hdouble, nearest_units hlt.le (by decide), abs]

end Binary64

namespace RealFunctions

/-- What the real functions are on the positive real axis and at the zeros. -/
structure ExactOnAxis (real : RealFunctions) : Prop where
  hypot_zero : ∀ {x : Float}, x.isFinite = true → zero < x → real.hypot x zero = x
  atan2_zero : ∀ {x : Float}, x.isFinite = true → zero < x → real.atan2 zero x = zero
  sin_zero : ∀ negative, real.sin (ofMagnitude negative 0) = ofMagnitude negative 0
  cos_zero : ∀ negative, real.cos (ofMagnitude negative 0) = one

/-- Real functions with these values, whose powers are right at the exponents two and minus two. -/
def squaring : RealFunctions where
  hypot := Binary64.hypot
  atan2 := fun y _ => y
  pow := fun x y => if y < zero then one / (x * x) else x * x
  exp := fun _ => one
  log := fun _ => zero
  sin := id
  cos := fun _ => one
  sinh := id
  cosh := fun _ => one

theorem exactOnAxis_squaring : squaring.ExactOnAxis where
  hypot_zero h hpos := (Binary64.hypot_zero h).trans (Binary64.abs_of_pos hpos)
  atan2_zero _ _ := rfl
  sin_zero _ := rfl
  cos_zero _ := rfl

end RealFunctions

/-! ### Powers -/

namespace Complex

/-- A power of a positive real to a real exponent is the power of the doubles, times one and times a zero with the sign of
the exponent. -/
theorem pow_ofReal {real : RealFunctions} (h : real.ExactOnAxis) {a b : Float} (ha : a.isFinite = true) (hpos : zero < a)
    (hb : b.isFinite = true) :
    pow real (ofReal a) (ofReal b) = ⟨real.pow a b, real.pow a b * ofMagnitude (isNegative b) 0⟩ := by
  have hbase : ¬ ((ofReal a).re == zero && (ofReal a).im == zero) = true := by
    rw [Bool.and_eq_true, Binary64.beq_zero_iff]
    have hmagnitude := (Binary64.zero_lt_iff.1 hpos).2.1
    exact fun hzero => hmagnitude.ne' hzero.1
  have hmodulus : norm real (ofReal a) = a := h.hypot_zero ha hpos
  have hangle : arg real (ofReal a) = zero := h.atan2_zero ha hpos
  -- the angle is a zero, which keeps the sign of the exponent
  have hθ : b * zero = ofMagnitude (isNegative b) 0 := by
    rw [zero, Binary64.mul_zero_of_isFinite hb, Bool.xor_false]
  have hexponent : ((ofReal b).im == zero) = true := Binary64.zero_beq_zero
  rw [pow, if_neg hbase]
  dsimp only
  rw [if_pos hexponent, hmodulus, hangle]
  show ofPolar real (real.pow a b) (b * zero) = _
  rw [hθ, ofPolar, h.cos_zero, h.sin_zero, Binary64.mul_one]

end Complex

/-! ### Steps -/

/-- What is printed of a double with a multiple of a zero as imaginary part. -/
theorem Report.top_mul_zero (x : Float) (negative : Bool) : top (some ⟨x, x * ofMagnitude negative 0⟩) =
    "(" ++ fixed x ++ (if x.isFinite then "" else "+iNaN") ++ ")" := by
  by_cases h : x.isFinite = true
  · rw [top_of_real (Binary64.mul_zero_beq_zero_iff.2 h), if_pos h, String.append_empty]
  · have hnan : fixedChars Binary64.nan = ['N', 'a', 'N'] := by decide
    rw [top_of_complex (mt Binary64.mul_zero_beq_zero_iff.1 h), Binary64.mul_zero_of_not_isFinite h, if_neg h, hnan,
      String.ofList_append, String.append_assoc, String.append_assoc, String.append_assoc]
    rfl

namespace Calculator

open RealFunctions (squaring exactOnAxis_squaring)

/-- Two literals and `^` leave the power of what they say. -/
theorem leaves_power {u v : String} {z w : Complex} (hu : Literal.parse? u.toList = some z)
    (hv : Literal.parse? v.toList = some w) (m : Machine) (s : Stack) : Leaves m s [u, v, "^"] (s.push (z.pow m.real w)) :=
  (leaves_of_parse? hu m s).cons ((leaves_of_parse? hv m _).cons
    (leaves_token m (.binary .power) (by simp [Operator.arity, Arity.satisfiedBy])))

/-- A power of a positive real to a real exponent has the power of the doubles as its real part.  It is real exactly if
that power is finite: then its imaginary part is a zero with the sign of the product, and else it is not a number.  So
typing the two reals, `^` and `.` prints one component exactly if the power of the doubles is finite. -/
theorem steps_power (m : Machine) (h : m.real.ExactOnAxis) {a b : Float} (ha : a.isFinite = true) (hpos : zero < a)
    (hb : b.isFinite = true) :
    let p := m.real.pow a b
    let z := Complex.pow m.real (.ofReal a) (.ofReal b)
    z.re = p ∧
    ((z.im == zero) = true ↔ p.isFinite = true) ∧
    (p.isFinite = true → z.im = ofMagnitude (isNegative p ^^ isNegative b) 0) ∧
    (¬ p.isFinite = true → z.im = Binary64.nan) ∧
    ∀ (s : Stack) (u v : String), Literal.parse? u.toList = some (.ofReal a) →
      Literal.parse? v.toList = some (.ofReal b) →
      stackAfter m s [u, v, "^", "."] = s.push z ∧
      (steps m s [u, v, "^", "."]).map Step.text =
        ["", "", "", "(" ++ Report.fixed p ++ (if p.isFinite then "" else "+iNaN") ++ ")" ++ "\n"] := by
  intro p z
  have hz : z = ⟨p, p * ofMagnitude (isNegative b) 0⟩ := Complex.pow_ofReal h ha hpos hb
  rw [hz]
  refine ⟨rfl, Binary64.mul_zero_beq_zero_iff, fun hp => Binary64.mul_zero_of_isFinite hp _,
    fun hp => Binary64.mul_zero_of_not_isFinite hp _, fun s u v hu hv => ?_⟩
  obtain ⟨hstack, htexts⟩ := (leaves_power hu hv m s).print
  refine ⟨hstack.trans (congrArg s.push hz), htexts.trans ?_⟩
  show ["", "", "", Report.top (some z) ++ "\n"] = _
  rw [hz, Report.top_mul_zero]

/-- One half to the power of minus two, where the angle is a negative zero. -/
theorem steps_power_half :
    let m : Machine := ⟨squaring, .ofReal zero⟩
    let a := ofMagnitude false (1022 * Binary64.span)
    let b := ofMagnitude true (1024 * Binary64.span)
    m.real.ExactOnAxis ∧ a.isFinite = true ∧ zero < a ∧ b.isFinite = true ∧
      Literal.parse? "0.5".toList = some (.ofReal a) ∧ Literal.parse? "-2".toList = some (.ofReal b) ∧
      (Complex.pow m.real (.ofReal a) (.ofReal b)).im = ofMagnitude true 0 ∧
      (steps m .empty ["0.5", "-2", "^", "."]).map Step.text = ["", "", "", "(4.000000)\n"] := by
  intro m a b
  have ha : a.isFinite = true := by decide
  have hpos : zero < a := by decide
  have hb : b.isFinite = true := by decide
  have hu : Literal.parse? "0.5".toList = some (.ofReal a) := by decide +kernel
  have hv : Literal.parse? "-2".toList = some (.ofReal b) := by decide +kernel
  have hp : m.real.pow a b = ofMagnitude false (1025 * Binary64.span) := by decide
  obtain ⟨-, -, him, -, hsteps⟩ := steps_power m exactOnAxis_squaring ha hpos hb
  obtain ⟨-, htexts⟩ := hsteps .empty "0.5" "-2" hu hv
  rw [hp] at him htexts
  exact ⟨exactOnAxis_squaring, ha, hpos, hb, hu, hv, him (by decide), htexts.trans (by decide +kernel)⟩

/-- The square of `1e308` overflows, and is printed with an imaginary part. -/
theorem steps_power_overflow :
    let m : Machine := ⟨squaring, .ofReal zero⟩
    let a := ofMagnitude false (Binary64.ofDecimal 1 308)
    m.real.ExactOnAxis ∧ a.isFinite = true ∧ zero < a ∧ two.isFinite = true ∧ m.real.pow a two = Binary64.infinity ∧
      Complex.pow m.real (.ofReal a) (.ofReal two) = ⟨Binary64.infinity, Binary64.nan⟩ ∧
      (steps m .empty ["1e308", "2", "^", "."]).map Step.text = ["", "", "", "(+Inf+iNaN)\n"] ∧
      ¬ ∀ real : RealFunctions, real.ExactOnAxis → ∀ a b : Float, a.isFinite = true → zero < a → b.isFinite = true →
        ((Complex.pow real (.ofReal a) (.ofReal b)).im == zero) = true := by
  intro m a
  have ha : a.isFinite = true := by decide +kernel
  have hpos : zero < a := by decide +kernel
  have htwo : two.isFinite = true := by decide
  have hu : Literal.parse? "1e308".toList = some (.ofReal a) := rfl
  have hv : Literal.parse? "2".toList = some (.ofReal two) := by decide +kernel
  have hp : m.real.pow a two = Binary64.infinity := by decide +kernel
  have hz : Complex.pow m.real (.ofReal a) (.ofReal two) = ⟨Binary64.infinity, Binary64.nan⟩ := by
    rw [Complex.pow_ofReal exactOnAxis_squaring ha hpos htwo, hp]
    decide
  refine ⟨exactOnAxis_squaring, ha, hpos, htwo, hp, hz, ?_, fun hreal => ?_⟩
  · refine (leaves_power hu hv m .empty).print.2.trans ?_
    show ["", "", "", Report.top (some (Complex.pow m.real (.ofReal a) (.ofReal two))) ++ "\n"] = _
    rw [hz]
    decide
  · have him := hreal squaring exactOnAxis_squaring a two ha hpos htwo
    rw [show Complex.pow squaring (.ofReal a) (.ofReal two) = _ from hz] at him
    exact absurd him (by decide)

end Calculator

end ReversePolish
