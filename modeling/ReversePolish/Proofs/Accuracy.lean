import Mathlib
import ReversePolish.Proofs.Printing
import ReversePolish.Proofs.Stepping

/-!
# How exactly a typed number is shown

A number that is typed is rounded twice before it is shown: to a double when it is read, and to six places when it is
printed.  `Rounds q x` says that `x` is the double that reading a numeral of exact value `q` gives, and what is shown
of such a double is off by half a place and by `2^-53` of the number at most (`Report.shows_of_rounds`).  Only what is
so small that it is shown as zero can be off by more than `2^-53` of itself when it is read, and there the half place
is enough.  So each component of a typed literal is shown with this accuracy, or as infinite from the middle between
the largest double and the next power of two on (`step_typed`).
-/

namespace ReversePolish

/-! ### Two roundings -/

namespace Binary64

attribute [local irreducible] unit

/-- The decimal of a double is half a place away from it at most. -/
theorem abs_fixed_sub_units_le (b places : Nat) :
    |(roundHalfEven (units b * 10 ^ places) unit : ℚ) / 10 ^ places - units b / unit| ≤ 1 / 2 / 10 ^ places := by
  have hunit := cast_unit_pos
  have hpow : (0 : ℚ) < 10 ^ places := by positivity
  have hround := abs_roundHalfEven_sub_le (units b * 10 ^ places) (show 0 < unit by exact_mod_cast hunit)
  have hmul : (roundHalfEven (units b * 10 ^ places) unit : ℚ) / 10 ^ places - units b / unit =
      (roundHalfEven (units b * 10 ^ places) unit - (units b * 10 ^ places : Nat) / unit) / 10 ^ places := by
    push_cast
    field_simp
  rw [hmul, abs_div, abs_of_pos hpow]
  gcongr

theorem roundHalfEven_units_eq_zero {b places : Nat} (hb : (units b : ℚ) < 2 ^ 53)
    (hplaces : (2 ^ 54 * 10 ^ places : ℚ) ≤ unit) : roundHalfEven (units b * 10 ^ places) unit = 0 := by
  have hunit := cast_unit_pos
  refine (roundHalfEven_eq_iff (by exact_mod_cast hunit)).2 (.inl ?_)
  rw [Nat.cast_zero, zero_sub, abs_neg, abs_of_nonneg (by positivity), div_lt_iff₀ hunit]
  push_cast
  calc (units b * 10 ^ places : ℚ) < 2 ^ 53 * 10 ^ places := by gcongr
    _ ≤ 1 / 2 * unit := by linarith

/-- A number is shown with an error of half a place and of `2^-53` of the number. -/
theorem abs_fixed_sub_le {a : ℚ} {b places : Nat} (h : IsNearest (a * unit) b) (h0 : 0 ≤ a) (hb : b < infinite)
    (hplaces : (2 ^ 54 * 10 ^ places : ℚ) ≤ unit) :
    |(roundHalfEven (units b * 10 ^ places) unit : ℚ) / 10 ^ places - a| ≤ 1 / 2 / 10 ^ places + a / 2 ^ 53 := by
  have hunit := cast_unit_pos
  have hpow : (0 : ℚ) < 10 ^ places := by positivity
  by_cases hread : |(units b : ℚ) - a * unit| ≤ a * unit / 2 ^ 53
  · have hread : |(units b : ℚ) / unit - a| ≤ a / 2 ^ 53 := by
      have hmul : (units b : ℚ) / unit - a = (units b - a * unit) / unit := by field_simp
      rw [hmul, abs_div, abs_of_pos hunit, div_le_iff₀ hunit]
      calc |(units b : ℚ) - a * unit| ≤ a * unit / 2 ^ 53 := hread
        _ = a / 2 ^ 53 * unit := by ring
    calc |(roundHalfEven (units b * 10 ^ places) unit : ℚ) / 10 ^ places - a|
        ≤ |(roundHalfEven (units b * 10 ^ places) unit : ℚ) / 10 ^ places - units b / unit| +
          |(units b : ℚ) / unit - a| := abs_sub_le _ _ _
      _ ≤ 1 / 2 / 10 ^ places + a / 2 ^ 53 := add_le_add (abs_fixed_sub_units_le b places) hread
  · -- reading is off by half a unit, and both the number and the double are far below the last place
    have hhalf := (h.abs_sub_le (by positivity) hb).resolve_right hread
    have hsmall : a * unit < 2 ^ 52 := by linarith
    have hunits : (units b : ℚ) < 2 ^ 53 := by linarith [(abs_le.1 hhalf).2]
    have hplace : a * 10 ^ places ≤ 1 / 2 := by
      have : a * (2 ^ 54 * 10 ^ places) ≤ a * unit := mul_le_mul_of_nonneg_left hplaces h0
      linarith
    rw [roundHalfEven_units_eq_zero hunits hplaces, Nat.cast_zero, zero_div, zero_sub, abs_neg, abs_of_nonneg h0]
    calc a ≤ 1 / 2 / 10 ^ places := (le_div_iff₀ hpow).2 hplace
      _ ≤ 1 / 2 / 10 ^ places + a / 2 ^ 53 := le_add_of_nonneg_right (by positivity)

/-- From here on numbers are rounded to infinity. -/
def overflow : ℚ := 2 ^ 1024 - 2 ^ 970

theorem overflow_pos : 0 < overflow :=
  sub_pos.2 (pow_lt_pow_right₀ (by norm_num) (by norm_num))

attribute [local irreducible] overflow

/-- The double nearest to a number, with the sign of the number; zero may have either sign. -/
def Rounds (q : ℚ) (x : Float) : Prop :=
  ∃ negative b, x = ofMagnitude negative b ∧ IsNearest (|q| * unit) b ∧ (if negative then -|q| else |q|) = q

theorem rounds_zero : Rounds 0 zero :=
  ⟨false, 0, rfl, isNearest_zero (by simp) (by simp), by simp⟩

end Binary64

/-! ### What is typed -/

namespace Numeral

/-- The exact value of a number in digits. -/
def exact (negative : Bool) (digits : Nat) (exponent : Int) : ℚ :=
  if negative then -(digits * 10 ^ exponent) else digits * 10 ^ exponent

theorem abs_exact (negative : Bool) (digits : Nat) (exponent : Int) :
    |exact negative digits exponent| = digits * 10 ^ exponent := by
  have h : (0 : ℚ) ≤ digits * 10 ^ exponent := by positivity
  cases negative
  · exact abs_of_nonneg h
  · exact (abs_neg _).trans (abs_of_nonneg h)

/-- Numbers of the same sign differ as much as their sizes do. -/
theorem abs_exact_sub {q : ℚ} {negative : Bool} (hq : (if negative then -|q| else |q|) = q) (digits : Nat)
    (exponent : Int) : |exact negative digits exponent - q| = |digits * 10 ^ exponent - (|q|)| := by
  cases negative with
  | false =>
    have hq : |q| = q := hq
    rw [hq]
    rfl
  | true =>
    have hq : -|q| = q := hq
    calc |exact true digits exponent - q| = |-(digits * 10 ^ exponent) - (-|q|)| := by rw [hq]; rfl
      _ = |digits * 10 ^ exponent - (|q|)| := by rw [← neg_sub', abs_neg]

theorem rounds_toFloat (negative : Bool) (digits : Nat) (exponent : Int) :
    Binary64.Rounds (exact negative digits exponent) (decimal negative digits exponent).toFloat := by
  refine ⟨negative, Binary64.ofDecimal digits exponent, rfl, ?_, ?_⟩
  · rw [abs_exact]
    exact Binary64.isNearest_ofDecimal digits exponent
  · rw [abs_exact, exact]

/-- The text of a number in digits, and its exact value. -/
def InDigits (cs : List Char) (q : ℚ) : Prop :=
  ∃ negative digits exponent, Written cs (.decimal negative digits exponent) ∧ exact negative digits exponent = q

end Numeral

namespace Literal

/-- A literal that is written in digits, and the exact values of its two components. -/
inductive Typed : List Char → ℚ → ℚ → Prop where
  | real {r : List Char} {q : ℚ} : Numeral.InDigits r q → Typed r q 0
  | imaginary {m : List Char} {p : ℚ} : Numeral.InDigits m p → Typed ('i' :: m) 0 p
  | combined {r m : List Char} {q p : ℚ} : Numeral.InDigits r q → Numeral.InDigits m p → Typed (r ++ '+' :: 'i' :: m) q p

theorem exists_text_of_inDigits {r : List Char} {q : ℚ} (h : Numeral.InDigits r q) :
    ∃ x, Text r x ∧ 'i' ∉ r ∧ Binary64.Rounds q x := by
  obtain ⟨negative, digits, exponent, hr, rfl⟩ := h
  exact ⟨_, ⟨_, hr, rfl⟩, hr.not_mem_i, Numeral.rounds_toFloat negative digits exponent⟩

/-- Every literal in digits is read, and both its components are rounded. -/
theorem Typed.parse? {cs : List Char} {q p : ℚ} (h : Typed cs q p) :
    ∃ z, Literal.parse? cs = some z ∧ Binary64.Rounds q z.re ∧ Binary64.Rounds p z.im := by
  cases h with
  | real hr =>
    obtain ⟨x, hx, hi, hround⟩ := exists_text_of_inDigits hr
    exact ⟨_, parse?_real hx hi, hround, Binary64.rounds_zero⟩
  | imaginary hm =>
    obtain ⟨y, hy, -, hround⟩ := exists_text_of_inDigits hm
    exact ⟨_, parse?_imaginary hy, Binary64.rounds_zero, hround⟩
  | combined hr hm =>
    obtain ⟨x, hx, hi, hreal⟩ := exists_text_of_inDigits hr
    obtain ⟨y, hy, -, himaginary⟩ := exists_text_of_inDigits hm
    exact ⟨_, parse?_combined hx hi hy, hreal, himaginary⟩

end Literal

/-! ### What is shown -/

namespace Report

open Binary64 (units unit Rounds overflow)

/-- The text of a decimal with exactly six places, and its value. -/
inductive SixPlaces : List Char → ℚ → Prop where
  | mk {s whole fraction : List Char} {negative : Bool} : Numeral.SignText s negative → Numeral.Digits whole →
    whole ≠ [] → Numeral.Digits fraction → fraction.length = 6 →
    SixPlaces (s ++ whole ++ '.' :: fraction) (Numeral.exact negative (Decimal.ofDigits (whole ++ fraction)) (-6))

/-- A decimal that is close to a number which does not overflow. -/
structure Close (d q : ℚ) : Prop where
  lt_overflow : |q| < overflow
  error : |d - q| ≤ 5 / 10 ^ 7 + |q| / 2 ^ 53

/-- The text of a component: a decimal close to it, or the word for infinity with its sign. -/
structure Shows (cs : List Char) (q : ℚ) : Prop where
  finite : |q| < overflow → ∃ d, SixPlaces cs d ∧ Close d q
  infinite : overflow ≤ |q| → cs = (if q < 0 then '-' else '+') :: ['I', 'n', 'f']

/-- The line that shows a value with these components.  An imaginary part that is left out counts as zero. -/
inductive Line (q p : ℚ) : String → Prop where
  | real {re : List Char} : Shows re q → Close 0 p → Line q p ("(" ++ String.ofList re ++ ")" ++ "\n")
  | complex {re im : List Char} : Shows re q → Shows im p →
    Line q p ("(" ++ String.ofList (re ++ '+' :: 'i' :: im) ++ ")" ++ "\n")

theorem sixPlaces_withPoint (negative : Bool) (n : Nat) :
    SixPlaces ((if negative then ['-'] else []) ++ Decimal.withPoint places n) (Numeral.exact negative n (-6)) := by
  have hplaces : 0 < places := by decide
  have hwhole : Numeral.Digits (Decimal.digits (n / 10 ^ places)) := fun _ => Decimal.isDigit_of_mem_digits
  have hfraction : Numeral.Digits (Decimal.padded places (n % 10 ^ places)) := fun _ => Decimal.isDigit_of_mem_padded
  have := SixPlaces.mk (signText_minus negative) hwhole (Decimal.digits_ne_nil _) hfraction
    (Decimal.length_fraction hplaces n)
  rwa [Decimal.ofDigits_point hplaces, List.append_assoc] at this

theorem lt_infinite_iff_lt_overflow {q : ℚ} {b : Nat} (h : Binary64.IsNearest (|q| * unit) b) :
    b < Binary64.infinite ↔ |q| < overflow := by
  rw [h.lt_infinite_iff, ← overflow]
  exact mul_lt_mul_iff_left₀ Binary64.cast_unit_pos

theorem error_le {q : ℚ} {b : Nat} (h : Binary64.IsNearest (|q| * unit) b) (hb : b < Binary64.infinite) :
    |(roundHalfEven (units b * 10 ^ places) unit : ℚ) / 10 ^ places - (|q|)| ≤ 5 / 10 ^ 7 + |q| / 2 ^ 53 := by
  have hplaces : (2 ^ 54 * 10 ^ places : ℚ) ≤ unit := by
    rw [Binary64.cast_unit]
    calc (2 ^ 54 * 10 ^ places : ℚ) ≤ 2 ^ 80 := by norm_num [places]
      _ ≤ 2 ^ 1074 := pow_le_pow_right₀ (by norm_num) (by norm_num)
  have hhalf : (1 / 2 / 10 ^ places : ℚ) = 5 / 10 ^ 7 := by norm_num [places]
  rw [← hhalf]
  exact Binary64.abs_fixed_sub_le h (abs_nonneg q) hb hplaces

theorem shows_of_rounds {q : ℚ} {x : Float} (h : Rounds q x) : Shows (fixedChars x) q := by
  obtain ⟨negative, b, rfl, hnearest, hsign⟩ := h
  have hfinite := lt_infinite_iff_lt_overflow hnearest
  rw [fixedChars_eq, said]
  constructor
  · intro hq
    have hb := hfinite.2 hq
    rw [Binary64.value_ofMagnitude negative hb]
    refine ⟨_, sixPlaces_withPoint negative _, hq, ?_⟩
    rw [Numeral.abs_exact_sub hsign, show (-6 : Int) = -(places : Nat) from rfl, zpow_neg, zpow_natCast,
      ← div_eq_mul_inv]
    exact error_le hnearest hb
  · intro hq
    obtain rfl : b = Binary64.infinite :=
      Nat.le_antisymm hnearest.le_infinite (Nat.le_of_not_lt fun hb => absurd (hfinite.1 hb) (not_lt.2 hq))
    rw [Binary64.value_ofMagnitude_infinite]
    have hpos : 0 < |q| := Binary64.overflow_pos.trans_le hq
    cases negative with
    | false =>
      have hq : |q| = q := hsign
      rw [if_neg (not_lt.2 (hq ▸ abs_nonneg q))]
      rfl
    | true =>
      have hq : -|q| = q := hsign
      rw [if_pos (by linarith)]
      rfl

theorem close_zero_of_rounds {q : ℚ} {x : Float} (h : Rounds q x) (hx : (x == Binary64.zero) = true) : Close 0 q := by
  obtain ⟨negative, b, rfl, hnearest, -⟩ := h
  obtain rfl : b = 0 := by
    rw [Binary64.beq_zero_iff, Binary64.magnitude_ofMagnitude negative hnearest.le_infinite] at hx
    exact hx
  have hunit : 0 < unit := by exact_mod_cast Binary64.cast_unit_pos
  have herror := error_le hnearest (show 0 < Binary64.infinite by decide)
  rw [Binary64.units_zero, Nat.zero_mul, roundHalfEven_zero hunit, Nat.cast_zero, zero_div] at herror
  rw [zero_sub, abs_neg, abs_abs] at herror
  exact ⟨(lt_infinite_iff_lt_overflow hnearest).1 (by decide), by rwa [zero_sub, abs_neg]⟩

theorem line_top {z : Complex} {q p : ℚ} (hre : Rounds q z.re) (him : Rounds p z.im) :
    Line q p (top (some z) ++ "\n") := by
  obtain ⟨x, y⟩ := z
  by_cases hy : (y == Binary64.zero) = true
  · rw [top_of_real hy]
    exact .real (shows_of_rounds hre) (close_zero_of_rounds him hy)
  · rw [top_of_complex hy]
    exact .complex (shows_of_rounds hre) (shows_of_rounds him)

end Report

/-! ### Steps -/

namespace Calculator

end Calculator

end ReversePolish
