import Mathlib
import ReversePolish.Binary64.Bits
import ReversePolish.Proofs.Literals
import ReversePolish.Proofs.Nearest
import ReversePolish.Report

/-!
# What is printed can be typed in

The text of a double is a numeral, `said x`, and reading it gives a double that may differ from `x` but is printed in
the same way (`fixedChars_reread`).  Of the two roundings that lie between, to six places and back to a double, the second
cannot lead away from the first: the decimal is no further from the new double than from the old one, and where it is
half a place away from both, it is even.  So the text of a value is a literal and prints as it was, except that an
imaginary part too small for six places is lost (`parse?_top`).
-/

namespace ReversePolish

/-! ### Decimal texts -/

namespace Decimal

theorem ofDigits_append (cs ds : List Char) : ofDigits (cs ++ ds) = ofDigits cs * 10 ^ ds.length + ofDigits ds := by
  rw [ofDigits, Nat.ofDigitChars_append, Nat.ofDigitChars_eq_ofDigitChars_zero, Nat.mul_comm]
  rfl

theorem ofDigits_padded (width n : Nat) : ofDigits (padded width n) = n := by
  rw [padded, List.leftpad, ofDigits_append, ofDigits_digits, ofDigits, Nat.ofDigitChars_replicate_zero]
  simp

theorem length_padded {width n : Nat} (hwidth : 0 < width) (h : n < 10 ^ width) : (padded width n).length = width := by
  have hdigits : (digits n).length ≤ width := (Nat.length_toDigits_le_iff (by decide) hwidth).2 h
  rw [padded, List.length_leftpad]
  omega

theorem isDigit_of_mem_padded {width n : Nat} {c : Char} (h : c ∈ padded width n) : c.isDigit := by
  rw [padded, List.leftpad, List.mem_append] at h
  rcases h with h | h
  · rw [List.eq_of_mem_replicate h]
    decide
  · exact isDigit_of_mem_digits h

theorem length_fraction {places : Nat} (hplaces : 0 < places) (n : Nat) :
    (padded places (n % 10 ^ places)).length = places :=
  length_padded hplaces (Nat.mod_lt _ (by positivity))

theorem ofDigits_point {places : Nat} (hplaces : 0 < places) (n : Nat) :
    ofDigits (digits (n / 10 ^ places) ++ padded places (n % 10 ^ places)) = n := by
  rw [ofDigits_append, ofDigits_digits, ofDigits_padded, length_fraction hplaces]
  exact Nat.div_add_mod' n (10 ^ places)

end Decimal

namespace Numeral

theorem unsignedText_withPoint {places : Nat} (hplaces : 0 < places) (n : Nat) :
    UnsignedText (Decimal.withPoint places n) n (-places) := by
  have hwhole : Digits (Decimal.digits (n / 10 ^ places)) := fun _ => Decimal.isDigit_of_mem_digits
  have hfraction : Digits (Decimal.padded places (n % 10 ^ places)) := fun _ => Decimal.isDigit_of_mem_padded
  have := UnsignedText.point hwhole hfraction (by simp [Decimal.digits_ne_nil]) ExponentText.none
  rw [Decimal.ofDigits_point hplaces, Decimal.length_fraction hplaces] at this
  simpa [Decimal.withPoint] using this

end Numeral

/-! ### Rounding to places and back -/

namespace Binary64

attribute [local irreducible] unit

/-- The double nearest to a rounded double is rounded to the same decimal. -/
theorem roundHalfEven_ofDecimal {b n places : Nat} (hb : b < infinite)
    (hn : roundHalfEven (units b * 10 ^ places) unit = n) :
    ofDecimal n (-places) < infinite ∧ roundHalfEven (units (ofDecimal n (-places)) * 10 ^ places) unit = n := by
  have hunit := cast_unit_pos
  have hnearest := isNearest_ofDecimal n (-places)
  generalize ofDecimal n (-places) = c at hnearest ⊢
  rw [zpow_neg, zpow_natCast] at hnearest
  set q : ℚ := n * (10 ^ places)⁻¹ * unit with hq
  -- distances in units, as multiples of the last place
  have hscale (d : Nat) :
      |(n : ℚ) - (units d * 10 ^ places : Nat) / unit| = |(units d : ℚ) - q| * (10 ^ places / unit) := by
    have hpos : (0 : ℚ) < 10 ^ places / unit := by positivity
    have hmul : ((units d * 10 ^ places : Nat) : ℚ) / unit - n = (units d - q) * (10 ^ places / unit) := by
      rw [hq]
      push_cast
      field_simp
    rw [abs_sub_comm, hmul, abs_mul, abs_of_pos hpos]
  have hround := (roundHalfEven_eq_iff (by exact_mod_cast hunit)).1 hn
  have hclosest := mul_le_mul_of_nonneg_right (hnearest.closest b hb.le)
    (show (0 : ℚ) ≤ 10 ^ places / unit by positivity)
  rw [← hscale, ← hscale] at hclosest
  constructor
  · refine hnearest.lt_infinite_of_near hb ?_
    have hhalf : |(units b : ℚ) - q| * (10 ^ places / unit) ≤ 1 := by
      rw [← hscale]
      rcases hround with h | ⟨h, -⟩ <;> linarith
    have hplace : (1 : ℚ) ≤ 10 ^ places := one_le_pow₀ (by norm_num)
    rw [← mul_div_assoc, div_le_one hunit] at hhalf
    exact (le_mul_of_one_le_right (abs_nonneg _) hplace).trans hhalf
  · rw [roundHalfEven_eq_iff (by exact_mod_cast hunit)]
    rcases hround with h | ⟨h, heven⟩
    · exact .inl (hclosest.trans_lt h)
    · exact (hclosest.trans h.le).lt_or_eq.imp_right fun htie => ⟨htie, heven⟩

/-- With so few places only zero is read as zero. -/
theorem ofDecimal_eq_zero_iff {n places : Nat} (hplaces : (10 ^ places : ℚ) ≤ unit) :
    ofDecimal n (-places) = 0 ↔ n = 0 := by
  constructor
  · intro h
    by_contra hn
    have hnearest := isNearest_ofDecimal n (-places)
    rw [h, zpow_neg, zpow_natCast, mul_assoc, inv_mul_eq_div] at hnearest
    refine (hnearest.pos ?_).ne rfl
    have hone : (1 : ℚ) ≤ n := by exact_mod_cast Nat.one_le_iff_ne_zero.2 hn
    have hunit : (1 : ℚ) ≤ unit / 10 ^ places := (one_le_div (by positivity)).2 hplaces
    exact one_le_mul_of_one_le_of_one_le hone hunit
  · rintro rfl
    rfl

end Binary64

/-! ### Doubles -/

namespace Report

open Binary64 (units unit value)

/-- What the text of a double says. -/
def said (x : Float) : Numeral :=
  match value x with
  | .nan => .nan
  | .infinity negative => .infinity negative
  | .finite negative b => .decimal negative (roundHalfEven (units b * 10 ^ places) unit) (-places)

/-- The text of a numeral, with its digits as they stand. -/
def saying : Numeral → List Char
  | .nan => ['N', 'a', 'N']
  | .infinity negative => (if negative then '-' else '+') :: ['I', 'n', 'f']
  | .decimal negative digits _ => (if negative then ['-'] else []) ++ Decimal.withPoint places digits

theorem fixedChars_eq (x : Float) : fixedChars x = saying (said x) := by
  unfold fixedChars said
  cases value x <;> rfl

theorem signText_minus (negative : Bool) : Numeral.SignText (if negative then ['-'] else []) negative := by
  cases negative
  · exact .none
  · exact .minus

theorem written_said (x : Float) : Numeral.Written (fixedChars x) (said x) := by
  rw [fixedChars_eq]
  unfold said
  cases value x with
  | nan => exact .nan .none (by decide)
  | infinity negative =>
    cases negative
    · exact .infinity .plus (.inl (by decide))
    · exact .infinity .minus (.inl (by decide))
  | finite negative b => exact .decimal (signText_minus negative) (Numeral.unsignedText_withPoint (by decide) _)

theorem not_mem_i_fixedChars (x : Float) : 'i' ∉ fixedChars x := by
  rw [fixedChars_eq]
  unfold said
  cases value x with
  | nan => decide
  | infinity negative => cases negative <;> decide
  | finite negative b =>
    have hsign : 'i' ∉ (if negative then ['-'] else []) := by cases negative <;> decide
    have hbody := (Numeral.unsignedText_withPoint (show 0 < places by decide)
      (roundHalfEven (units b * 10 ^ places) unit)).not_mem_i
    simp [saying, hsign, hbody]

/-- The double that the text of a double denotes. -/
def reread (x : Float) : Float := (said x).toFloat

theorem text_fixedChars (x : Float) : Literal.Text (fixedChars x) (reread x) := ⟨said x, written_said x, rfl⟩

/-- How a double of each kind comes back. -/
theorem value_reread (x : Float) : value (reread x) =
    match value x with
    | .nan => .nan
    | .infinity negative => .infinity negative
    | .finite negative b =>
      .finite negative (Binary64.ofDecimal (roundHalfEven (units b * 10 ^ places) unit) (-places)) := by
  unfold reread said
  cases hx : value x with
  | nan => exact Binary64.value_nan
  | infinity negative => exact Binary64.value_ofMagnitude_infinite negative
  | finite negative b =>
    exact Binary64.value_ofMagnitude negative
      (Binary64.roundHalfEven_ofDecimal (Binary64.lt_infinite_of_value hx) rfl).1

/-- Reading a text and printing what was read gives the text again. -/
theorem fixedChars_reread (x : Float) : fixedChars (reread x) = fixedChars x := by
  rw [fixedChars_eq, fixedChars_eq]
  congr 1
  unfold said
  rw [value_reread]
  cases hx : value x with
  | nan => rfl
  | infinity negative => rfl
  | finite negative b =>
    exact congrArg (Numeral.decimal negative · (-places))
      (Binary64.roundHalfEven_ofDecimal (Binary64.lt_infinite_of_value hx) rfl).2

private theorem fixed_eq_iff {x : Float} {text : String} : fixed x = text ↔ fixedChars x = text.toList := by
  rw [fixed, ← String.toList_inj, String.toList_ofList]

/-- The two texts of zero. -/
theorem fixed_zero_iff (x : Float) :
    fixed x = "0.000000" ∨ fixed x = "-0.000000" ↔ ∃ negative, said x = .decimal negative 0 (-places) := by
  have hsaid {cs : List Char} {n : Numeral} (h : fixedChars x = cs) (hn : Numeral.parse? cs = some n) : said x = n := by
    have := Numeral.parse?_eq_some_iff.2 (written_said x)
    rw [h, hn] at this
    exact (Option.some.inj this).symm
  rw [fixed_eq_iff, fixed_eq_iff]
  constructor
  · rintro (h | h)
    · exact ⟨false, hsaid h rfl⟩
    · exact ⟨true, hsaid h rfl⟩
  · rintro ⟨negative, h⟩
    rw [fixedChars_eq, h]
    cases negative
    · exact .inl rfl
    · exact .inr rfl

private theorem pow_places_le : (10 ^ places : ℚ) ≤ unit := by
  rw [Binary64.cast_unit]
  calc (10 ^ places : ℚ) ≤ 2 ^ 20 := by norm_num [places]
    _ ≤ 2 ^ 1074 := pow_le_pow_right₀ (by norm_num) (by norm_num)

/-- What is read is zero exactly if the text is one of zero. -/
theorem reread_beq_zero_iff (x : Float) :
    (reread x == Binary64.zero) = true ↔ fixed x = "0.000000" ∨ fixed x = "-0.000000" := by
  rw [fixed_zero_iff, Binary64.beq_zero_iff, Binary64.magnitude_eq_zero_iff, value_reread, said]
  cases value x with
  | nan => simp
  | infinity negative => simp
  | finite negative b => simp [Binary64.ofDecimal_eq_zero_iff pow_places_le]

/-! ### Values -/

theorem parse?_fixedChars (x : Float) : Literal.parse? (fixedChars x) = some (.ofReal (reread x)) :=
  Literal.parse?_real (text_fixedChars x) (not_mem_i_fixedChars x)

theorem parse?_fixedChars_append (x y : Float) :
    Literal.parse? (fixedChars x ++ '+' :: 'i' :: fixedChars y) = some ⟨reread x, reread y⟩ :=
  Literal.parse?_combined (text_fixedChars x) (not_mem_i_fixedChars x) (text_fixedChars y)

/-- A double that is no number comes back as one, and an infinite one with its sign. -/
def KeepsKind (x y : Float) : Prop :=
  (value x = .nan → value y = .nan) ∧ ∀ negative, value x = .infinity negative → value y = .infinity negative

theorem keepsKind_reread (x : Float) : KeepsKind x (reread x) := by
  rw [KeepsKind, value_reread]
  cases value x <;> simp

/-- An imaginary part that is not zero but printed as if it were. -/
def Vanishes (y : Float) : Prop := (y == Binary64.zero) = false ∧ (fixed y = "0.000000" ∨ fixed y = "-0.000000")

theorem top_of_real {x y : Float} (h : (y == Binary64.zero) = true) : top (some ⟨x, y⟩) = "(" ++ fixed x ++ ")" := by
  rw [top, valueChars, if_pos h, fixed]

theorem top_of_complex {x y : Float} (h : ¬ (y == Binary64.zero) = true) :
    top (some ⟨x, y⟩) = "(" ++ String.ofList (fixedChars x ++ '+' :: 'i' :: fixedChars y) ++ ")" := by
  rw [top, valueChars, if_neg h]

theorem fixed_reread (x : Float) : fixed (reread x) = fixed x := by rw [fixed, fixedChars_reread, fixed]

/-- The decimal that is shown of a double is the nearest one with so many places, and the even one of two. -/
theorem fixedChars_isRounding {x : Float} {negative : Bool} {b : Nat} (hx : value x = .finite negative b) :
    ∃ n, fixedChars x = (if negative then ['-'] else []) ++ Decimal.withPoint places n ∧
      IsRounding (units b / unit * 10 ^ places) n := by
  have hunit : 0 < unit := by exact_mod_cast Binary64.cast_unit_pos
  have hround := isRounding_roundHalfEven (units b * 10 ^ places) hunit
  refine ⟨roundHalfEven (units b * 10 ^ places) unit, by rw [fixedChars, hx]; rfl, ?_⟩
  rwa [Nat.cast_mul, Nat.cast_pow, Nat.cast_ofNat, mul_div_right_comm] at hround

/-- What is read of a decimal is the nearest double, and the even one of two. -/
theorem read?_isNearest {cs : List Char} {negative : Bool} {digits : Nat} {exponent : Int}
    (h : Numeral.Written cs (.decimal negative digits exponent)) :
    ∃ b, Numeral.read? cs = some (Binary64.ofMagnitude negative b) ∧
      Binary64.IsNearest (digits * 10 ^ exponent * unit) b :=
  ⟨_, Literal.read?_eq_some_iff.2 ⟨_, h, rfl⟩, Binary64.isNearest_ofDecimal digits exponent⟩

/-- What is printed of a value, without the parentheses, can be typed in.  It gives a value that is printed with the
same text, unless the imaginary part vanishes: then the real part is printed alone.  And the text of a double, read
and printed again, is the same text, although both printing and reading round to the nearest. -/
theorem parse?_top (z : Complex) :
    (∃ cs z', top (some z) = "(" ++ String.ofList cs ++ ")" ∧ Literal.parse? cs = some z' ∧
      KeepsKind z.re z'.re ∧ KeepsKind z.im z'.im ∧
      (¬ Vanishes z.im → top (some z') = top (some z)) ∧
      (Vanishes z.im → top (some z') = "(" ++ fixed z.re ++ ")")) ∧
    (∀ x, ∃ y, Numeral.read? (fixed x).toList = some y ∧ fixed y = fixed x) ∧
    (∀ x negative b, value x = .finite negative b →
      ∃ n, fixedChars x = (if negative then ['-'] else []) ++ Decimal.withPoint places n ∧
        IsRounding (units b / unit * 10 ^ places) n) ∧
    (∀ cs negative digits exponent, Numeral.Written cs (.decimal negative digits exponent) →
      ∃ b, Numeral.read? cs = some (Binary64.ofMagnitude negative b) ∧
        Binary64.IsNearest (digits * 10 ^ exponent * unit) b) := by
  refine ⟨?_, ?_, fun _ _ _ => fixedChars_isRounding, fun _ _ _ _ => read?_isNearest⟩
  · obtain ⟨x, y⟩ := z
    by_cases hy : (y == Binary64.zero) = true
    · have hreal : top (some (.ofReal (reread x))) = "(" ++ fixed x ++ ")" :=
        (top_of_real Binary64.zero_beq_zero).trans (by rw [fixed_reread])
      refine ⟨fixedChars x, _, top_of_real hy, parse?_fixedChars x, keepsKind_reread x, ?_, fun _ => ?_, fun _ => hreal⟩
      · obtain ⟨negative, hy⟩ := Binary64.magnitude_eq_zero_iff.1 (Binary64.beq_zero_iff.1 hy)
        simp [KeepsKind, hy]
      · rw [hreal, top_of_real hy]
    · refine ⟨fixedChars x ++ '+' :: 'i' :: fixedChars y, _, top_of_complex hy, parse?_fixedChars_append x y,
        keepsKind_reread x, keepsKind_reread y, fun hv => ?_, fun hv => ?_⟩
      · have hreread : ¬ (reread y == Binary64.zero) = true := by
          rw [reread_beq_zero_iff]
          exact fun h => hv ⟨eq_false_of_ne_true hy, h⟩
        refine (top_of_complex hreread).trans ?_
        rw [fixedChars_reread, fixedChars_reread, top_of_complex hy]
      · refine (top_of_real ((reread_beq_zero_iff y).2 hv.2)).trans ?_
        rw [fixed_reread]
  · intro x
    refine ⟨reread x, ?_, fixed_reread x⟩
    rw [fixed, String.toList_ofList]
    exact Literal.read?_eq_some_iff.2 (text_fixedChars x)

end Report

end ReversePolish
