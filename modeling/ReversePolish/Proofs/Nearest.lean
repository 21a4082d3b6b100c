import Mathlib
import ReversePolish.Binary64

/-!
# The nearest double

`IsNearest q b` says what it means to round to the nearest double: of the magnitudes up to `infinite` none is
nearer to `q` units than `b`, and `b` is even if another one is as near.  What `nearest` and `ofDecimal` choose is
nearest in this sense (`isNearest_nearest`, `isNearest_ofDecimal`).  All else follows from `IsNearest` alone: only one
magnitude is nearest, and of two numbers the larger one has the larger one (`IsNearest.le_of_le`); a number overflows
from half way between the largest double and the next power of two on (`IsNearest.lt_infinite_iff`), and otherwise the
double is off by half a unit or by `2^-53` of the number at most (`IsNearest.abs_sub_le`).
-/

namespace ReversePolish

/-! ### Natural numbers near a fraction -/

private theorem one_le_abs_sub {m n : Nat} (h : m ≠ n) : 1 ≤ |(m : ℚ) - n| := by
  have hne : (m : Int) - n ≠ 0 := by omega
  exact_mod_cast Int.one_le_abs hne

theorem abs_roundHalfEven_sub_le (num : Nat) {den : Nat} (hden : 0 < den) :
    |(roundHalfEven num den : ℚ) - num / den| ≤ 1 / 2 := by
  have hd : (0 : ℚ) < den := by exact_mod_cast hden
  have hnum : (num : ℚ) / den * den = num := div_mul_cancel₀ _ hd.ne'
  have habove : (2 * (roundHalfEven num den * den) : ℚ) ≤ 2 * num + den := by
    exact_mod_cast roundHalfEven_le num den
  have hbelow : (2 * num : ℚ) ≤ 2 * (roundHalfEven num den * den) + den := by
    exact_mod_cast le_roundHalfEven num hden
  rw [abs_le]
  constructor
  · refine le_of_mul_le_mul_right ?_ hd
    rw [sub_mul, hnum]
    linarith
  · refine le_of_mul_le_mul_right ?_ hd
    rw [sub_mul, hnum]
    linarith

theorem even_roundHalfEven {num den : Nat} (hden : 0 < den)
    (h : |(roundHalfEven num den : ℚ) - num / den| = 1 / 2) : Even (roundHalfEven num den) := by
  have hd : (0 : ℚ) < den := by exact_mod_cast hden
  have htie : 2 * (roundHalfEven num den * den) = 2 * num + den ∨
      2 * (roundHalfEven num den * den) + den = 2 * num := by
    have hnum : (num : ℚ) / den * den = num := div_mul_cancel₀ _ hd.ne'
    rcases eq_or_eq_neg_of_abs_eq h with h | h
    · left
      have : (2 * (roundHalfEven num den * den) : ℚ) = 2 * num + den := by linear_combination 2 * den * h + 2 * hnum
      exact_mod_cast this
    · right
      have : (2 * (roundHalfEven num den * den) + den : ℚ) = 2 * num := by linear_combination 2 * den * h + 2 * hnum
      exact_mod_cast this
  have hdiv := Nat.div_add_mod' num den
  have hmod := Nat.mod_lt num hden
  unfold roundHalfEven at htie ⊢
  split
  · rename_i hlt
    rw [if_pos hlt] at htie
    omega
  · rename_i hlt
    rw [if_neg hlt] at htie
    split
    · rename_i hgt
      rw [if_pos hgt, Nat.add_mul, Nat.one_mul] at htie
      omega
    · rw [Nat.even_iff]
      omega

/-- Rounding is to the nearest natural number, and to the even one of two that are equally near. -/
theorem roundHalfEven_eq_iff {num den n : Nat} (hden : 0 < den) : roundHalfEven num den = n ↔
    |(n : ℚ) - num / den| < 1 / 2 ∨ |(n : ℚ) - num / den| = 1 / 2 ∧ Even n := by
  have hle := abs_roundHalfEven_sub_le num hden
  constructor
  · rintro rfl
    rcases hle.lt_or_eq with h | h
    · exact .inl h
    · exact .inr ⟨h, even_roundHalfEven hden h⟩
  · intro h
    by_contra hne
    have hone := one_le_abs_sub hne
    have htriangle := abs_sub_le (roundHalfEven num den : ℚ) (num / den) n
    rw [abs_sub_comm ((num : ℚ) / den)] at htriangle
    rcases h with h | ⟨h, hn⟩
    · linarith
    · -- both are half a unit away, so both are even, and they are neighbours
      have hr := even_roundHalfEven hden (show |(roundHalfEven num den : ℚ) - num / den| = 1 / 2 by linarith)
      have hdiff : |((roundHalfEven num den : Int) : ℚ) - (n : Int)| = 1 := by push_cast; linarith
      have hdiff : |(roundHalfEven num den : Int) - n| = 1 := by exact_mod_cast hdiff
      rw [Nat.even_iff] at hr hn
      rcases (abs_eq one_pos.le).1 hdiff with hdiff | hdiff <;> omega

/-- Of the natural numbers, `n` is the one nearest to `q`, and an even one if another is as near. -/
def IsRounding (q : ℚ) (n : Nat) : Prop :=
  ∀ k : Nat, |(n : ℚ) - q| ≤ |(k : ℚ) - q| ∧ (k ≠ n → |(n : ℚ) - q| = |(k : ℚ) - q| → Even n)

theorem isRounding_roundHalfEven (num : Nat) {den : Nat} (hden : 0 < den) :
    IsRounding (num / den) (roundHalfEven num den) := by
  intro n
  have hle := abs_roundHalfEven_sub_le num hden
  by_cases hne : n = roundHalfEven num den
  · rw [hne]
    exact ⟨le_rfl, fun h => absurd rfl h⟩
  · have hone := one_le_abs_sub hne
    have htriangle := abs_sub_le (n : ℚ) (num / den) (roundHalfEven num den)
    rw [abs_sub_comm ((num : ℚ) / den)] at htriangle
    exact ⟨by linarith, fun _ h => even_roundHalfEven hden (by linarith)⟩

private theorem roundHalfEven_le_of_le {num den n : Nat} (hden : 0 < den) (h : num ≤ n * den) :
    roundHalfEven num den ≤ n := by
  by_contra hlt
  have := roundHalfEven_le num den
  have := Nat.mul_le_mul_right den (Nat.lt_of_not_le hlt)
  rw [Nat.succ_mul] at this
  omega

private theorem le_roundHalfEven_of_le {num den n : Nat} (hden : 0 < den) (h : n * den ≤ num) :
    n ≤ roundHalfEven num den := by
  by_contra hlt
  have := le_roundHalfEven num hden
  have := Nat.mul_le_mul_right den (Nat.lt_of_not_le hlt)
  rw [Nat.succ_mul] at this
  omega

namespace Binary64

/-! ### The numbers behind the magnitudes -/

theorem span_pos : 0 < span := Nat.two_pow_pos 52

theorem octave_mul_le (b : Nat) : octave b * span ≤ b := by
  have := Nat.div_mul_le_self b span
  rw [octave, Nat.sub_mul]
  omega

theorem sub_octave_lt (b : Nat) : b - octave b * span < 2 * span := by
  have hspan := span_pos
  have hlt := Nat.lt_div_mul_add (a := b) hspan
  rw [octave, Nat.sub_mul, Nat.one_mul]
  omega

theorem octave_eq_zero_or (b : Nat) : octave b = 0 ∨ span ≤ b - octave b * span := by
  by_cases h : b / span ≤ 1
  · exact .inl (by rw [octave]; omega)
  · right
    have hle := Nat.div_mul_le_self b span
    have htwo := Nat.mul_le_mul_right span (show 2 ≤ b / span by omega)
    rw [octave, Nat.sub_mul, Nat.one_mul]
    omega

/-- A magnitude is an octave and a number of spacings; the first of the next octave may be written in both ways. -/
theorem units_add {o r : Nat} (hr : r ≤ 2 * span) (ho : o = 0 ∨ span ≤ r) : units (o * span + r) = r * 2 ^ o := by
  have hspan := span_pos
  have hdiv : (o * span + r) / span = o + r / span := by
    rw [Nat.mul_comm, Nat.mul_add_div hspan]
  have hoctave : octave (o * span + r) = o + r / span - 1 := by rw [octave, hdiv]
  rcases Nat.eq_or_lt_of_le hr with rfl | hlt
  · have htwo : 2 * span / span = 2 := Nat.mul_div_cancel _ hspan
    have hrest : o * span + 2 * span - (o + 1) * span = span := by rw [Nat.add_mul]; omega
    rw [units, hoctave, htwo, show o + 2 - 1 = o + 1 by omega, hrest, Nat.pow_succ]
    ring
  · have hsame : octave (o * span + r) = o := by
      rcases ho with rfl | hle
      · have : r / span < 2 := Nat.div_lt_of_lt_mul (by omega)
        omega
      · have : r / span = 1 := Nat.div_eq_of_lt_le (by omega) (by omega)
        omega
    rw [units, hsame, Nat.add_sub_cancel_left]

/-- From one magnitude to the next it is one spacing of the octave. -/
theorem units_succ (b : Nat) : units (b + 1) = units b + 2 ^ octave b := by
  have hle := octave_mul_le b
  have hlt := sub_octave_lt b
  have hsucc : b + 1 = octave b * span + (b - octave b * span + 1) := by omega
  have hoctave : octave b = 0 ∨ span ≤ b - octave b * span + 1 := (octave_eq_zero_or b).imp_right (by omega)
  rw [hsucc, units_add (by omega) hoctave, Nat.succ_mul, units]

theorem units_strictMono : StrictMono units := by
  refine strictMono_nat_of_lt_succ fun b => ?_
  rw [units_succ]
  exact Nat.lt_add_of_pos_right (Nat.two_pow_pos _)

@[simp] theorem units_zero : units 0 = 0 := by simp [units]

theorem span_le_units {b : Nat} (h : octave b ≠ 0) : span * 2 ^ octave b ≤ units b :=
  Nat.mul_le_mul_right _ ((octave_eq_zero_or b).resolve_left h)

/-- The numbers above an octave are multiples of its spacing. -/
theorem dvd_units_or_lt (o b : Nat) : 2 ^ o ∣ units b ∨ o ≠ 0 ∧ units b < span * 2 ^ o := by
  rcases Nat.lt_or_ge (octave b) o with h | h
  · right
    refine ⟨by omega, ?_⟩
    calc units b < 2 * span * 2 ^ octave b := Nat.mul_lt_mul_of_pos_right (sub_octave_lt b) (Nat.two_pow_pos _)
      _ = span * 2 ^ (octave b + 1) := by rw [Nat.pow_succ]; ring
      _ ≤ span * 2 ^ o := Nat.mul_le_mul_left _ (Nat.pow_le_pow_right (by decide) h)
  · exact .inl (Dvd.dvd.mul_left (Nat.pow_dvd_pow 2 h) _)

/-! ### The unit and the largest magnitudes -/

theorem cast_span : (span : ℚ) = 2 ^ 52 := by simp only [span, Nat.cast_pow, Nat.cast_ofNat]

theorem cast_unit : (unit : ℚ) = 2 ^ 1074 := by simp only [unit, Nat.cast_pow, Nat.cast_ofNat]

theorem cast_unit_pos : (0 : ℚ) < unit := by
  rw [cast_unit]
  positivity

private theorem units_infinite_succ : units infinite = units (infinite - 1) + 2 ^ 2045 := by
  have hoctave : octave (infinite - 1) = 2045 := by decide
  have := units_succ (infinite - 1)
  rwa [hoctave] at this

private theorem cast_units_infinite : (units infinite : ℚ) = 2 ^ 1024 * unit := by
  have hunits : units (2046 * span + span) = span * 2 ^ 2046 := units_add (by omega) (.inr le_rfl)
  have hinfinite : infinite = 2046 * span + span := by rw [infinite]; omega
  rw [hinfinite, hunits, Nat.cast_mul, cast_span, Nat.cast_pow, Nat.cast_ofNat, cast_unit, ← pow_add, ← pow_add]

private theorem cast_units_infinite_succ : (units infinite : ℚ) = units (infinite - 1) + 2 ^ 2045 := by
  rw [units_infinite_succ, Nat.cast_add, Nat.cast_pow, Nat.cast_ofNat]

private theorem span_eq : span = 2 ^ 52 := rfl

private theorem even_span : Even span := by decide

private theorem odd_largest : ¬ Even (infinite - 1) := by decide

private theorem even_infinite : Even infinite := by decide

private theorem units_one : units 1 = 1 := by decide

private theorem one_le_infinite : 1 ≤ infinite := by decide

private theorem pred_infinite : infinite - 1 < infinite := by decide

-- From here on the powers of two behind these are not to be looked at.
attribute [local irreducible] unit span infinite

/-! ### Nearest magnitudes -/

/-- Of the magnitudes up to `infinite`, `b` is the one nearest to `q` units, and an even one if another is as near. -/
structure IsNearest (q : ℚ) (b : Nat) : Prop where
  le_infinite : b ≤ infinite
  closest : ∀ c ≤ infinite, |(units b : ℚ) - q| ≤ |(units c : ℚ) - q|
  even : ∀ c ≤ infinite, c ≠ b → |(units b : ℚ) - q| = |(units c : ℚ) - q| → Even b

private theorem units_le_cast {b c : Nat} (h : b ≤ c) : (units b : ℚ) ≤ units c := by
  exact_mod_cast units_strictMono.monotone h

private theorem units_lt_cast {b c : Nat} (h : b < c) : (units b : ℚ) < units c := by
  exact_mod_cast units_strictMono h

theorem isNearest_infinite {q : ℚ} (h : units infinite ≤ q) : IsNearest q infinite where
  le_infinite := le_rfl
  closest c hc := by
    have hc := units_le_cast hc
    rw [abs_of_nonpos (by linarith), abs_of_nonpos (by linarith)]
    linarith
  even _ _ _ _ := even_infinite

theorem isNearest_zero {q : ℚ} (h0 : 0 ≤ q) (h : q ≤ 1 / 2) : IsNearest q 0 where
  le_infinite := Nat.zero_le _
  closest c _ := by
    rcases Nat.eq_zero_or_pos c with rfl | hc
    · exact le_rfl
    · have hone : (1 : ℚ) ≤ units c := by exact_mod_cast Nat.lt_of_le_of_lt (Nat.zero_le _) (units_strictMono hc)
      rw [units_zero, Nat.cast_zero, zero_sub, abs_neg, abs_of_nonneg h0, abs_of_nonneg (by linarith)]
      linarith
  even _ _ _ _ := Even.zero

/-- A multiple of the spacing that is nearest among the multiples is nearest altogether, since what is not a multiple
lies below the octave of the number. -/
private theorem closest_of_octave {q : ℚ} {b o r : Nat} (hb : units b = r * 2 ^ o) (heven : Even r → Even b)
    (ho : o = 0 ∨ (span * 2 ^ o : ℚ) ≤ q)
    (hr : IsRounding (q / 2 ^ o) r) (c : Nat) :
    |(units b : ℚ) - q| ≤ |(units c : ℚ) - q| ∧
      (c ≠ b → |(units b : ℚ) - q| = |(units c : ℚ) - q| → Even b) := by
  have hpow : (0 : ℚ) < 2 ^ o := by positivity
  have hscale (k : Nat) : |((k * 2 ^ o : Nat) : ℚ) - q| = |(k : ℚ) - q / 2 ^ o| * 2 ^ o := by
    rw [← abs_of_pos hpow, ← abs_mul, abs_of_pos hpow, sub_mul, div_mul_cancel₀ _ hpow.ne']
    push_cast
    rfl
  rcases dvd_units_or_lt o c with ⟨k, hk⟩ | ⟨ho', hlt⟩
  · have hc : units c = k * 2 ^ o := by rw [hk, Nat.mul_comm]
    rw [hb, hc, hscale, hscale]
    refine ⟨mul_le_mul_of_nonneg_right (hr k).1 hpow.le, fun hne h => heven ((hr k).2 ?_ ?_)⟩
    · rintro rfl
      exact hne (units_strictMono.injective (hc.trans hb.symm))
    · exact mul_right_cancel₀ hpow.ne' h
  · have hq := ho.resolve_left ho'
    have hlt : (units c : ℚ) < span * 2 ^ o := by exact_mod_cast hlt
    have hspan : |((span * 2 ^ o : Nat) : ℚ) - q| = q - span * 2 ^ o := by
      push_cast
      rw [abs_of_nonpos (by linarith), neg_sub]
    have hstrict : |(units b : ℚ) - q| < |(units c : ℚ) - q| := by
      calc |(units b : ℚ) - q| = |(r : ℚ) - q / 2 ^ o| * 2 ^ o := by rw [hb, hscale]
        _ ≤ |(span : ℚ) - q / 2 ^ o| * 2 ^ o := mul_le_mul_of_nonneg_right (hr span).1 hpow.le
        _ = q - span * 2 ^ o := by rw [← hscale, hspan]
        _ < q - units c := by linarith
        _ = |(units c : ℚ) - q| := by rw [abs_of_nonpos (by linarith), neg_sub]
    exact ⟨hstrict.le, fun _ h => absurd h hstrict.ne⟩

private theorem isNearest_min {q : ℚ} {b : Nat} (h : ∀ c, |(units b : ℚ) - q| ≤ |(units c : ℚ) - q| ∧
    (c ≠ b → |(units b : ℚ) - q| = |(units c : ℚ) - q| → Even b)) : IsNearest q (min b infinite) := by
  rcases Nat.lt_or_ge infinite b with hlt | hle
  · rw [Nat.min_eq_right (Nat.le_of_lt hlt)]
    have hunits := units_lt_cast hlt
    have hinf := (h infinite).1
    refine isNearest_infinite (le_of_not_gt fun hq => ?_)
    rw [abs_of_pos (by linarith), abs_of_pos (by linarith)] at hinf
    linarith
  · rw [Nat.min_eq_left hle]
    exact ⟨hle, fun c _ => (h c).1, fun c _ => (h c).2⟩

/-- The octave that `nearest` takes is the one of the number. -/
private theorem octave_bounds (num : Nat) {den : Nat} (hden : 0 < den) :
    let o := (num / den).log2 - 52
    num ≤ 2 * span * (den * 2 ^ o) ∧ (o = 0 ∨ span * (den * 2 ^ o) ≤ num) := by
  intro o
  constructor
  · have hlog : num / den < 2 ^ (o + 53) :=
      Nat.lt_of_lt_of_le Nat.lt_log2_self (Nat.pow_le_pow_right (by decide) (by omega))
    have hlt := (Nat.div_lt_iff_lt_mul hden).1 hlog
    calc num ≤ 2 ^ (o + 53) * den := Nat.le_of_lt hlt
      _ = 2 * span * (den * 2 ^ o) := by rw [span_eq, Nat.pow_add]; ring
  · by_cases ho : o = 0
    · exact .inl ho
    · right
      have hne : num / den ≠ 0 := by
        intro h
        exact ho (by simp [o, h])
      have hlog : 2 ^ (o + 52) ≤ num / den := by
        rw [show o + 52 = (num / den).log2 by omega]
        exact Nat.log2_self_le hne
      calc span * (den * 2 ^ o) = 2 ^ (o + 52) * den := by rw [span_eq, Nat.pow_add]; ring
        _ ≤ num := (Nat.le_div_iff_mul_le hden).1 hlog

theorem isNearest_nearest (num : Nat) {den : Nat} (hden : 0 < den) : IsNearest (num / den) (nearest num den) := by
  obtain ⟨habove, hbelow⟩ := octave_bounds num hden
  unfold nearest
  dsimp only
  generalize (num / den).log2 - 52 = o at habove hbelow ⊢
  have hstep : 0 < den * 2 ^ o := Nat.mul_pos hden (Nat.two_pow_pos o)
  have hr : roundHalfEven num (den * 2 ^ o) ≤ 2 * span := roundHalfEven_le_of_le hstep habove
  have ho : o = 0 ∨ span ≤ roundHalfEven num (den * 2 ^ o) := hbelow.imp_right (le_roundHalfEven_of_le hstep)
  have hq : (num : ℚ) / den / 2 ^ o = num / (den * 2 ^ o : Nat) := by push_cast; rw [div_div]
  refine isNearest_min (closest_of_octave (units_add hr ho) ?_ ?_ ?_)
  · intro heven
    exact Even.add (even_span.mul_left o) heven
  · refine hbelow.imp_right fun h => ?_
    rw [le_div_iff₀ (by exact_mod_cast hden)]
    calc (span * 2 ^ o * den : ℚ) = (span * (den * 2 ^ o) : Nat) := by push_cast; ring
      _ ≤ num := by exact_mod_cast h
  · rw [hq]
    exact isRounding_roundHalfEven num hstep

/-! ### Decimals -/

private theorem units_infinite_le {digits : Nat} {exponent : Int} (h0 : digits ≠ 0) (h : 400 < exponent) :
    (units infinite : ℚ) ≤ digits * 10 ^ exponent * unit := by
  have hdigits : (1 : ℚ) ≤ digits := by exact_mod_cast Nat.one_le_iff_ne_zero.2 h0
  have hpow : (2 : ℚ) ^ 1024 ≤ 10 ^ exponent := by
    calc (2 : ℚ) ^ 1024 ≤ (2 ^ 3) ^ 400 := by rw [← pow_mul]; exact pow_le_pow_right₀ (by norm_num) (by norm_num)
      _ ≤ 10 ^ 400 := pow_le_pow_left₀ (by norm_num) (by norm_num) _
      _ = 10 ^ (400 : Int) := (zpow_natCast 10 400).symm
      _ ≤ 10 ^ exponent := zpow_le_zpow_right₀ (by norm_num) h.le
  rw [cast_units_infinite]
  refine mul_le_mul_of_nonneg_right ?_ cast_unit_pos.le
  calc (2 : ℚ) ^ 1024 ≤ 10 ^ exponent := hpow
    _ ≤ digits * 10 ^ exponent := le_mul_of_one_le_left (by positivity) hdigits

private theorem le_half_unit {digits : Nat} {exponent : Int} (h : exponent + digits.log2 + 1 < -400) :
    (digits * 10 ^ exponent * unit : ℚ) ≤ 1 / 2 := by
  have hdigits : (digits : ℚ) ≤ 10 ^ ((digits.log2 + 1 : Nat) : Int) := by
    have : digits ≤ 10 ^ (digits.log2 + 1) :=
      Nat.le_of_lt (Nat.lt_of_lt_of_le Nat.lt_log2_self (Nat.pow_le_pow_left (by decide) _))
    rw [zpow_natCast]
    exact_mod_cast this
  have hpow : (10 : ℚ) ^ (-400 : Int) ≤ (2 ^ 1200)⁻¹ := by
    have : (2 : ℚ) ^ 1200 ≤ 10 ^ 400 := by
      calc (2 : ℚ) ^ 1200 = (2 ^ 3) ^ 400 := by rw [← pow_mul]
        _ ≤ 10 ^ 400 := pow_le_pow_left₀ (by norm_num) (by norm_num) _
    rw [zpow_neg, show (400 : Int) = (400 : Nat) from rfl, zpow_natCast]
    exact inv_anti₀ (by positivity) this
  calc (digits * 10 ^ exponent * unit : ℚ)
      ≤ 10 ^ ((digits.log2 + 1 : Nat) : Int) * 10 ^ exponent * unit := by gcongr
    _ = 10 ^ (exponent + digits.log2 + 1) * unit := by
      rw [← zpow_add₀ (by norm_num)]
      congr 2
      push_cast
      ring
    _ ≤ (2 ^ 1200)⁻¹ * unit := by
      gcongr
      exact (zpow_le_zpow_right₀ (by norm_num) h.le).trans hpow
    _ = (2 ^ 126)⁻¹ := by
      rw [cast_unit, show (1200 : Nat) = 126 + 1074 from rfl, pow_add, mul_inv, mul_assoc,
        inv_mul_cancel₀ (by positivity), mul_one]
    _ ≤ 1 / 2 := by norm_num

/-- Reading a decimal rounds it to the nearest double; the exponents that are answered without the power of ten are
answered correctly. -/
theorem isNearest_ofDecimal (digits : Nat) (exponent : Int) :
    IsNearest (digits * 10 ^ exponent * unit) (ofDecimal digits exponent) := by
  unfold ofDecimal
  split
  · rename_i h0
    subst h0
    exact isNearest_zero (by simp) (by simp)
  · rename_i h0
    split
    · rename_i hlarge
      exact isNearest_infinite (units_infinite_le h0 hlarge)
    · split
      · rename_i hsmall
        exact isNearest_zero (by positivity) (le_half_unit hsmall)
      · cases exponent with
        | ofNat e =>
          have := isNearest_nearest (digits * 10 ^ e * unit) Nat.one_pos
          push_cast at this
          simpa using this
        | negSucc e =>
          have := isNearest_nearest (digits * unit) (show 0 < 10 ^ (e + 1) by positivity)
          push_cast at this
          rw [zpow_negSucc]
          convert this using 1
          field_simp

/-! ### Order -/

/-- Rounding keeps the order of two numbers. -/
theorem IsNearest.le_of_le {q p : ℚ} {b c : Nat} (h : IsNearest q b) (h' : IsNearest p c) (hqp : q ≤ p) : b ≤ c := by
  by_contra hlt
  have hunits := units_lt_cast (Nat.lt_of_not_le hlt)
  have hb := h.closest c h'.le_infinite
  have hc := h'.closest b h.le_infinite
  have hbelow : (units b : ℚ) + units c ≤ 2 * q := by
    by_contra hq
    rw [abs_of_nonneg (show (0 : ℚ) ≤ units b - q by linarith)] at hb
    rcases le_abs.1 hb with hb | hb <;> linarith
  have habove : 2 * p ≤ units b + units c := by
    by_contra hp
    rw [abs_of_nonpos (show (units c : ℚ) - p ≤ 0 by linarith)] at hc
    rcases le_abs.1 hc with hc | hc <;> linarith
  -- so both numbers are half way between the two magnitudes, which are even, and there is another one between these
  obtain rfl : q = p := by linarith
  have htie : |(units b : ℚ) - q| = |(units c : ℚ) - q| := le_antisymm hb hc
  have hbetween : c + 1 < b := by
    have hbeven := Nat.even_iff.1 (h.even c h'.le_infinite (by omega) htie)
    have hceven := Nat.even_iff.1 (h'.even b h.le_infinite (by omega) htie.symm)
    omega
  have hcb := units_lt_cast hbetween
  have hcc := units_lt_cast (Nat.lt_succ_self c)
  have hcloser := h.closest (c + 1) (hbetween.le.trans h.le_infinite)
  rw [abs_of_nonneg (by linarith)] at hcloser
  rcases le_abs.1 hcloser with hcloser | hcloser <;> linarith

theorem IsNearest.unique {q : ℚ} {b c : Nat} (h : IsNearest q b) (h' : IsNearest q c) : b = c :=
  Nat.le_antisymm (h.le_of_le h' le_rfl) (h'.le_of_le h le_rfl)

theorem isNearest_units {b : Nat} (h : b ≤ infinite) : IsNearest (units b) b where
  le_infinite := h
  closest c _ := by
    rw [sub_self, abs_zero]
    exact abs_nonneg _
  even c _ hne htie := by
    rw [sub_self, abs_zero, eq_comm, abs_eq_zero, sub_eq_zero, Nat.cast_inj] at htie
    exact absurd (units_strictMono.injective htie) hne

/-- Rounding is exact where there is nothing to round. -/
theorem nearest_units {b : Nat} (h : b ≤ infinite) {k : Nat} (hk : 0 < k) : nearest (k * units b) k = b := by
  have hnearest := isNearest_nearest (k * units b) hk
  have hquotient : ((k * units b : Nat) : ℚ) / k = units b := by
    rw [Nat.cast_mul, mul_div_cancel_left₀]
    exact_mod_cast hk.ne'
  rw [hquotient] at hnearest
  exact hnearest.unique (isNearest_units h)

theorem ofDecimal_eq_iff {n b : Nat} {e : Int} : ofDecimal n e = b ↔ IsNearest (n * 10 ^ e * unit) b :=
  ⟨fun h => h ▸ isNearest_ofDecimal n e, fun h => (isNearest_ofDecimal n e).unique h⟩

/-- Reading a decimal depends on its value alone. -/
theorem ofDecimal_congr {n k : Nat} {e f : Int} (h : (n * 10 ^ e : ℚ) = k * 10 ^ f) : ofDecimal n e = ofDecimal k f := by
  rw [ofDecimal_eq_iff, h]
  exact isNearest_ofDecimal k f

/-- A decimal between two others that are read alike is read like them. -/
theorem ofDecimal_between {n k l b : Nat} {e f g : Int} (hn : ofDecimal n e = b) (hl : ofDecimal l g = b)
    (hnk : (n * 10 ^ e : ℚ) ≤ k * 10 ^ f) (hkl : (k * 10 ^ f : ℚ) ≤ l * 10 ^ g) : ofDecimal k f = b := by
  have hunit := cast_unit_pos.le
  have hk := isNearest_ofDecimal k f
  have habove := hk.le_of_le (ofDecimal_eq_iff.1 hl) (mul_le_mul_of_nonneg_right hkl hunit)
  have hbelow := (ofDecimal_eq_iff.1 hn).le_of_le hk (mul_le_mul_of_nonneg_right hnk hunit)
  exact Nat.le_antisymm habove hbelow

/-! ### Overflow -/

/-- The double is finite exactly below the middle between the largest one and the next power of two. -/
theorem IsNearest.lt_infinite_iff {q : ℚ} {b : Nat} (h : IsNearest q b) :
    b < infinite ↔ q < (2 ^ 1024 - 2 ^ 970) * unit := by
  have hmiddle : (units infinite + units (infinite - 1) : ℚ) = 2 * ((2 ^ 1024 - 2 ^ 970) * unit) := by
    have hsum {a b u x y : ℚ} (hx : x = a * u) (hxy : x = y + 2 * (b * u)) : x + y = 2 * ((a - b) * u) := by
      linear_combination 2 * hx - hxy
    have hspacing : (2 ^ 2045 : ℚ) = 2 * (2 ^ 970 * unit) := by rw [cast_unit, ← pow_add, ← pow_succ']
    exact hsum cast_units_infinite (hspacing ▸ cast_units_infinite_succ)
  generalize (2 ^ 1024 - 2 ^ 970 : ℚ) * unit = middle at hmiddle ⊢
  constructor
  · intro hlt
    have hclosest := h.closest infinite le_rfl
    have hb := units_le_cast (show b ≤ infinite - 1 by omega)
    have hgap := units_lt_cast pred_infinite
    by_contra hq
    rw [abs_of_nonpos (by linarith)] at hclosest
    rcases le_total (units infinite : ℚ) q with hge | hle
    · rw [abs_of_nonpos (by linarith)] at hclosest
      linarith
    · rw [abs_of_nonneg (by linarith)] at hclosest
      -- the number is exactly half way, and the largest finite magnitude is odd
      have hunits : units b = units (infinite - 1) := by
        exact_mod_cast (show (units b : ℚ) = units (infinite - 1) by linarith)
      obtain rfl := units_strictMono.injective hunits
      refine absurd (h.even infinite le_rfl pred_infinite.ne' ?_) odd_largest
      rw [abs_of_nonpos (by linarith), abs_of_nonneg (by linarith)]
      linarith
  · intro hq
    refine Nat.lt_of_le_of_ne h.le_infinite ?_
    rintro rfl
    have hclosest := h.closest (infinite - 1) pred_infinite.le
    have hgap := units_lt_cast pred_infinite
    rw [abs_of_nonneg (by linarith)] at hclosest
    rcases le_total q (units (infinite - 1) : ℚ) with hle | hge
    · rw [abs_of_nonneg (by linarith)] at hclosest
      linarith
    · rw [abs_of_nonpos (by linarith)] at hclosest
      linarith

/-- What is no further than one from a double does not overflow. -/
theorem IsNearest.lt_infinite_of_near {q : ℚ} {b c : Nat} (h : IsNearest q b) (hc : c < infinite)
    (hq : |(units c : ℚ) - q| ≤ unit) : b < infinite := by
  refine Nat.lt_of_le_of_ne h.le_infinite ?_
  rintro rfl
  have hclosest := (abs_le.1 ((h.closest c hc.le).trans hq)).2
  have hbelow := (abs_le.1 hq).1
  have hlargest := units_le_cast (show c ≤ infinite - 1 by omega)
  have hspacing : (2 * unit : ℚ) < 2 ^ 2045 := by
    rw [cast_unit, ← pow_succ']
    exact pow_lt_pow_right₀ (by norm_num) (by norm_num)
  have hsucc := cast_units_infinite_succ
  generalize (2 : ℚ) ^ 2045 = spacing at hspacing hsucc
  linarith

/-! ### Accuracy -/

/-- Only what is less than one unit is rounded to zero. -/
theorem IsNearest.pos {q : ℚ} {b : Nat} (h : IsNearest q b) (hq : 1 ≤ q) : 0 < b := by
  refine Nat.pos_of_ne_zero ?_
  rintro rfl
  have hclosest := h.closest 1 one_le_infinite
  rw [units_zero, units_one, Nat.cast_zero, Nat.cast_one] at hclosest
  rw [abs_of_nonpos (by linarith), abs_of_nonpos (by linarith)] at hclosest
  linarith

/-- A number lies between two neighbouring magnitudes. -/
theorem exists_units_le {q : ℚ} (h0 : 0 ≤ q) : ∃ c, (units c : ℚ) ≤ q ∧ q < units (c + 1) := by
  have hex : ∃ k, q < units k := by
    obtain ⟨k, hk⟩ := exists_nat_gt q
    refine ⟨k, hk.trans_le ?_⟩
    exact_mod_cast units_strictMono.le_apply
  obtain ⟨hlt, hmin⟩ := (Nat.find_eq_iff hex).1 rfl
  cases hk : Nat.find hex with
  | zero =>
    rw [hk] at hlt
    simp at hlt
    linarith
  | succ c =>
    rw [hk] at hlt hmin
    exact ⟨c, le_of_not_gt (hmin c (Nat.lt_succ_self c)), hlt⟩

/-- A finite double is off by at most half a unit, or by `2^-53` of the number that was rounded. -/
theorem IsNearest.abs_sub_le {q : ℚ} {b : Nat} (h : IsNearest q b) (h0 : 0 ≤ q) (hb : b < infinite) :
    |(units b : ℚ) - q| ≤ 1 / 2 ∨ |(units b : ℚ) - q| ≤ q / 2 ^ 53 := by
  obtain ⟨c, hle, hlt⟩ := exists_units_le h0
  have hsucc : (units (c + 1) : ℚ) = units c + 2 ^ octave c := by exact_mod_cast units_succ c
  have hc : c + 1 ≤ infinite := by
    by_contra hc
    have hinf := units_le_cast (show infinite ≤ c by omega)
    have hb := units_lt_cast hb
    have hclosest := h.closest infinite le_rfl
    rw [abs_of_nonpos (by linarith), abs_of_nonpos (by linarith)] at hclosest
    linarith
  -- one of the two neighbours is at most half a spacing away
  have hhalf : |(units b : ℚ) - q| ≤ 2 ^ octave c / 2 := by
    have hbelow := h.closest c (by omega)
    have habove := h.closest (c + 1) hc
    rw [abs_of_nonpos (show (units c : ℚ) - q ≤ 0 by linarith)] at hbelow
    rw [abs_of_nonneg (show (0 : ℚ) ≤ units (c + 1) - q by linarith)] at habove
    linarith
  by_cases ho : octave c = 0
  · left
    simpa [ho] using hhalf
  · right
    have hspan : (2 ^ 52 * 2 ^ octave c : ℚ) ≤ units c := by
      rw [← cast_span]
      exact_mod_cast span_le_units ho
    rw [le_div_iff₀ (by positivity)]
    calc |(units b : ℚ) - q| * 2 ^ 53 ≤ 2 ^ octave c / 2 * 2 ^ 53 := by gcongr
      _ = 2 ^ 52 * 2 ^ octave c := by ring
      _ ≤ q := hspan.trans hle

/-- The spacing below a magnitude is more than a part of it in `2^53`. -/
theorem units_succ_le (b : Nat) : units (b + 1) ≤ 2 * span * 2 ^ octave b := by
  rw [units_succ, units, ← Nat.succ_mul]
  exact Nat.mul_le_mul_right _ (sub_octave_lt b)

/-- What is below a magnitude by less than a part of it in `2^54` is rounded to this magnitude. -/
theorem isNearest_of_sub_lt {q : ℚ} {b : Nat} (hb : b ≤ infinite) (hle : q ≤ units b)
    (h : 2 ^ 54 * (units b - q) < units b) : IsNearest q b := by
  have hstrict (c : Nat) (hne : c ≠ b) : |(units b : ℚ) - q| < |(units c : ℚ) - q| := by
    rw [abs_of_nonneg (by linarith), lt_abs]
    rcases Nat.lt_or_gt_of_ne hne with hlt | hlt
    · obtain ⟨a, rfl⟩ := Nat.exists_eq_add_one_of_ne_zero (Nat.ne_zero_of_lt hlt)
      have hsucc : (units (a + 1) : ℚ) = units a + 2 ^ octave a := by exact_mod_cast units_succ a
      have hspacing : (units (a + 1) : ℚ) ≤ 2 * span * 2 ^ octave a := by exact_mod_cast units_succ_le a
      have hca := units_le_cast (Nat.le_of_lt_succ hlt)
      rw [cast_span] at hspacing
      right
      linarith
    · have hbc := units_lt_cast hlt
      left
      linarith
  refine ⟨hb, fun c _ => ?_, fun c _ hne htie => absurd htie (hstrict c hne).ne⟩
  by_cases hne : c = b
  · rw [hne]
  · exact (hstrict c hne).le

end Binary64

end ReversePolish
