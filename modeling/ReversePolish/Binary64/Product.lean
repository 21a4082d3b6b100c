import ReversePolish.Binary64.Bits

/-!
# Products with one and with zeros

In a product with one or with a zero nothing has to be rounded.  One leaves every double as it is (`mul_one`), since a
mantissa that fits is not changed by rounding it with zeros appended (`Fits.round`).  A zero turns a finite double into the
zero with the sign of the product (`mul_zero_of_isFinite`) and anything else into what is not a number
(`mul_zero_of_not_isFinite`), so the product with a zero tells whether a double is finite (`mul_zero_beq_zero_iff`).
-/

namespace ReversePolish

namespace Binary64

open Float.Model Float.Model.UnpackedFloat

/-! ### Rounding what fits -/

/-- Shifting out zeros is exact. -/
private theorem shiftRight_exact (m shift : Nat) :
    ExtendedMantissa.ofMantissaAndAccuracy (m * 2 ^ shift) .exact >>> shift = .ofMantissaAndAccuracy m .exact := by
  induction shift generalizing m with
  | zero => rw [pow_zero, Nat.mul_one]; rfl
  | succ shift ih =>
    have hsplit : m * 2 ^ (shift + 1) = m * 2 * 2 ^ shift := by ring
    show ExtendedMantissa.shiftRightOne (ExtendedMantissa.ofMantissaAndAccuracy (m * 2 ^ (shift + 1)) .exact >>> shift) = _
    rw [hsplit, ih]
    simp [ExtendedMantissa.shiftRightOne, ExtendedMantissa.ofMantissaAndAccuracy]

private theorem log2_mul_pow {m : Nat} (h : m ≠ 0) (shift : Nat) : (m * 2 ^ shift).log2 = m.log2 + shift := by
  induction shift with
  | zero => simp
  | succ shift ih =>
    have hsplit : m * 2 ^ (shift + 1) = 2 * (m * 2 ^ shift) := by ring
    rw [hsplit, Nat.log2_two_mul (by positivity), ih, Nat.add_assoc]

/-- What fits has the exponent that rounding aims at. -/
theorem Fits.targetExponent {m : Nat} {e : Int} (h : Fits m e) :
    Format.binary64.targetExponent (totalExponent m e) = e := by
  obtain ⟨hpos, hlt, hle, hfull⟩ := h
  have hupper : m.log2 < 53 := (Nat.log2_lt hpos.ne').2 hlt
  have hbits : (Format.binary64.mantissaBits : Int) = 53 := rfl
  have hleast : Format.binary64.minExponent = -1074 := rfl
  rw [Format.targetExponent, totalExponent, hbits, hleast]
  rcases hfull with hspan | rfl
  · have hlower : 52 ≤ m.log2 := (Nat.le_log2 hpos.ne').2 hspan
    omega
  · omega

/-- What fits is not changed by rounding, however many zeros are appended to it. -/
theorem Fits.round {m : Nat} {e : Int} (h : Fits m e) (s : Sign) (shift : Nat) :
    roundWithAccuracy Format.binary64 s (m * 2 ^ shift) (e - shift) .exact = .finite s m e h.pos := by
  have htotal : totalExponent (m * 2 ^ shift) (e - shift) = totalExponent m e := by
    rw [totalExponent, totalExponent, log2_mul_pow h.pos.ne']
    push_cast
    ring
  have hfirst : shiftToTargetExponent Format.binary64 (m * 2 ^ shift) (e - shift) .exact =
      (.ofMantissaAndAccuracy m .exact, e) := by
    have hshift : (e - (e - shift)).toNat = shift := by omega
    rw [shiftToTargetExponent, htotal, h.targetExponent, shiftToExponent, hshift, shiftRight_exact, sub_add_cancel]
  have hsecond : shiftToTargetExponent Format.binary64 m e .exact = (.ofMantissaAndAccuracy m .exact, e) := by
    rw [shiftToTargetExponent, h.targetExponent, shiftToExponent, sub_self, Int.toNat_zero, Nat.cast_zero, add_zero]
    rfl
  have hrounded : (ExtendedMantissa.ofMantissaAndAccuracy m .exact).roundedMantissa = m := rfl
  unfold roundWithAccuracy
  simp only [hfirst, hrounded, hsecond]
  exact dif_neg h.pos.ne'

/-! ### Products -/

private theorem mul_eq (x y : Float) :
    x * y = .ofModel (.pack (UnpackedFloat.mul Format.binary64 x.toModel.unpack y.toModel.unpack)) := rfl

protected theorem mul_one (x : Float) : x * one = x := by
  have hone : one.toModel.unpack = .finite .positive (2 ^ 52) (-52) (by decide) := rfl
  have hsign (s : Sign) : s * .positive = s := by cases s <;> rfl
  have hproduct : UnpackedFloat.mul Format.binary64 x.toModel.unpack one.toModel.unpack = x.toModel.unpack := by
    rw [hone]
    rcases unpack_cases x with ⟨-, hx⟩ | ⟨-, hx⟩ | ⟨-, hx⟩ | ⟨-, -, m, e, hfits, hx⟩ <;> rw [hx]
    · rfl
    · exact congrArg UnpackedFloat.infinity (hsign _)
    · exact congrArg UnpackedFloat.zero (hsign _)
    · show roundWithAccuracy Format.binary64 _ (m * 2 ^ 52) (e - 52) .exact = _
      rw [hsign]
      exact hfits.round _ 52
  rw [mul_eq, hproduct, ofModel_pack_unpack]

private theorem unpack_zero (negative : Bool) : (ofMagnitude negative 0).toModel.unpack = .zero (signOf negative) := by
  cases negative <;> rfl

/-- The product of the zeros with two signs. -/
private theorem ofModel_pack_zero (negative negative' : Bool) :
    Float.ofModel (.pack (.zero (signOf negative * signOf negative'))) = ofMagnitude (negative ^^ negative') 0 := by
  have hsign : signOf negative * signOf negative' = signOf (negative ^^ negative') := by
    cases negative <;> cases negative' <;> rfl
  rw [hsign, ← unpack_zero, ofModel_pack_unpack]

theorem mul_zero_of_isFinite {x : Float} (h : x.isFinite = true) (negative : Bool) :
    x * ofMagnitude negative 0 = ofMagnitude (isNegative x ^^ negative) 0 := by
  rw [isFinite_iff] at h
  rw [mul_eq, unpack_zero, ← ofModel_pack_zero]
  obtain ⟨hx, -⟩ | ⟨hx, -⟩ | ⟨-, hx⟩ | ⟨-, -, m, e, hfits, hx⟩ := unpack_cases x
  · omega
  · omega
  · rw [hx]; rfl
  · rw [hx]; rfl

theorem mul_zero_of_not_isFinite {x : Float} (h : ¬ x.isFinite = true) (negative : Bool) :
    x * ofMagnitude negative 0 = nan := by
  have hinfinite : 0 < infinite := by decide
  rw [isFinite_iff] at h
  rw [mul_eq, unpack_zero]
  obtain ⟨-, hx⟩ | ⟨-, hx⟩ | ⟨hx, -⟩ | ⟨-, hx, -⟩ := unpack_cases x
  · rw [hx]; rfl
  · rw [hx]; rfl
  · omega
  · omega

/-- A product with a zero is a zero exactly if the other factor is finite. -/
theorem mul_zero_beq_zero_iff {x : Float} {negative : Bool} :
    (x * ofMagnitude negative 0 == zero) = true ↔ x.isFinite = true := by
  have hnan : ¬ (nan == zero) = true := by rw [beq_zero_iff]; decide
  by_cases h : x.isFinite = true
  · rw [mul_zero_of_isFinite h]
    exact iff_of_true (beq_zero_iff.2 (magnitude_ofMagnitude _ (Nat.zero_le _))) h
  · rw [mul_zero_of_not_isFinite h]
    exact iff_of_false hnan h

end Binary64

end ReversePolish
