import ReversePolish.Binary64.Shortest
import ReversePolish.Proofs.Nearest

/-!
# The shortest text of a double

The decimal that `shortest` finds reads back as the double, and none that is nearer and has the same exponent does
(`reads_shortest`), nor one with fewer digits (`length_shortest_le`).  The numbers that are read as one magnitude have no
gaps, so of the points of a grid only the two around the magnitude have to be tried (`onGrid?_eq_none_iff`), and a grid
without such a point has no coarser one with it.  With a point of few digits the power of ten above it would read back
as well, which is a point of a coarser grid.  The search begins on a grid so coarse that only one of its points is in
question, and the last grid it may come to is fine enough for any magnitude (`ofDecimal_finest`): powers of two and of
ten are compared by the logarithm of two.
-/

namespace ReversePolish

namespace Binary64

attribute [local irreducible] unit span infinite

/-! ### All digits -/

/-- How far a decimal is from a magnitude. -/
def distance (b n : Nat) (e : Int) : ℚ := |(n * 10 ^ e : ℚ) - units b / unit|

theorem distance_nonneg (b n : Nat) (e : Int) : 0 ≤ distance b n e := abs_nonneg _

section

-- Powers are those of the natural numbers, as they are in the search.
attribute [local instance (high)] instPowNat

/-- A number of parts of a power of two has as many decimal places as the power. -/
theorem all_digits (n k : Nat) : ((n * 5 ^ k : Nat) * 10 ^ (-(k : Int)) : ℚ) = n / 2 ^ k := by
  have hten : (10 : ℚ) ^ k = 5 ^ k * 2 ^ k := by rw [← mul_pow]; norm_num
  rw [zpow_neg, zpow_natCast, hten]
  push_cast
  field_simp

/-- The number of a magnitude with all its digits. -/
theorem value_exact (b : Nat) : ((units b * 5 ^ (1074 : Nat) : Nat) * 10 ^ (-1074 : Int) : ℚ) = units b / unit := by
  rw [cast_unit]
  exact all_digits (units b) 1074

theorem ofDecimal_exact {b : Nat} (hb : b ≤ infinite) : ofDecimal (units b * 5 ^ (1074 : Nat)) (-1074) = b := by
  rw [ofDecimal_eq_iff, value_exact, div_mul_cancel₀ _ cast_unit_pos.ne']
  exact isNearest_units hb

theorem distance_exact (b : Nat) : distance b (units b * 5 ^ (1074 : Nat)) (-1074) = 0 := by
  rw [distance, value_exact, sub_self, abs_zero]

end

/-! ### Grids -/

/-- A magnitude lies between two neighbouring points of each grid. -/
theorem gridFloor_bounds (b : Nat) (e : Int) :
    (gridFloor b e * 10 ^ e : ℚ) ≤ units b / unit ∧ (units b / unit : ℚ) < (gridFloor b e + 1 : Nat) * 10 ^ e := by
  have hunit := cast_unit_pos
  have hpos : 0 < unit := by exact_mod_cast hunit
  rw [le_div_iff₀ hunit, div_lt_iff₀ hunit]
  cases e with
  | ofNat e =>
    have hstep : 0 < unit * 10 ^ e := by positivity
    have hle : (gridFloor b (.ofNat e) * (unit * 10 ^ e) : ℚ) ≤ units b := by
      exact_mod_cast Nat.div_mul_le_self (units b) (unit * 10 ^ e)
    have hlt : (units b : ℚ) < gridFloor b (.ofNat e) * (unit * 10 ^ e) + unit * 10 ^ e := by
      exact_mod_cast Nat.lt_div_mul_add (a := units b) hstep
    rw [Int.ofNat_eq_natCast, zpow_natCast] at *
    push_cast
    constructor <;> linarith
  | negSucc e =>
    have hpow : (0 : ℚ) < 10 ^ (e + 1) := by positivity
    have hle : (gridFloor b (.negSucc e) * unit : ℚ) ≤ units b * 10 ^ (e + 1) := by
      exact_mod_cast Nat.div_mul_le_self (units b * 10 ^ (e + 1)) unit
    have hlt : (units b * 10 ^ (e + 1) : ℚ) < gridFloor b (.negSucc e) * unit + unit := by
      exact_mod_cast Nat.lt_div_mul_add (a := units b * 10 ^ (e + 1)) hpos
    rw [zpow_negSucc, mul_right_comm, ← div_eq_mul_inv, div_le_iff₀ hpow, mul_right_comm, ← div_eq_mul_inv,
      lt_div_iff₀ hpow]
    push_cast
    constructor <;> linarith

/-- Whether the point above is the nearer one of the two is asked without fractions. -/
theorem nearerAbove_iff (b n : Nat) (e : Int) :
    nearerAbove b n e ↔ ((2 * n + 1) * 10 ^ e : ℚ) ≤ 2 * (units b / unit) := by
  have hunit := cast_unit_pos
  rw [← mul_div_assoc, le_div_iff₀ hunit]
  cases e with
  | ofNat e =>
    have hcast : ((2 * n + 1) * (unit * 10 ^ e) ≤ 2 * units b) ↔
        ((2 * n + 1) * (unit * 10 ^ e) : ℚ) ≤ 2 * units b := by exact_mod_cast Iff.rfl
    rw [nearerAbove, decide_eq_true_iff, hcast, Int.ofNat_eq_natCast, zpow_natCast, mul_assoc, mul_comm (10 ^ e : ℚ)]
  | negSucc e =>
    have hpow : (0 : ℚ) < 10 ^ (e + 1) := by positivity
    have hcast : ((2 * n + 1) * unit ≤ 2 * (units b * 10 ^ (e + 1))) ↔
        ((2 * n + 1) * unit : ℚ) ≤ 2 * (units b * 10 ^ (e + 1)) := by exact_mod_cast Iff.rfl
    rw [nearerAbove, decide_eq_true_iff, hcast, zpow_negSucc, mul_right_comm, ← div_eq_mul_inv, div_le_iff₀ hpow,
      mul_assoc 2]

/-- If a point up to the magnitude reads back, the nearest one below does. -/
theorem ofDecimal_gridFloor {b n : Nat} {e : Int} (hb : b ≤ infinite) (h : ofDecimal n e = b)
    (hn : n ≤ gridFloor b e) : ofDecimal (gridFloor b e) e = b := by
  obtain ⟨hfloor, -⟩ := gridFloor_bounds b e
  rw [← value_exact] at hfloor
  have hstep : (0 : ℚ) ≤ 10 ^ e := by positivity
  have hle : (n : ℚ) ≤ gridFloor b e := by exact_mod_cast hn
  exact ofDecimal_between h (ofDecimal_exact hb) (mul_le_mul_of_nonneg_right hle hstep) hfloor

/-- If a point above the magnitude reads back, the nearest one above does. -/
theorem ofDecimal_gridFloor_succ {b n : Nat} {e : Int} (hb : b ≤ infinite) (h : ofDecimal n e = b)
    (hn : gridFloor b e < n) : ofDecimal (gridFloor b e + 1) e = b := by
  obtain ⟨-, hceil⟩ := gridFloor_bounds b e
  rw [← value_exact] at hceil
  have hstep : (0 : ℚ) ≤ 10 ^ e := by positivity
  have hlt : ((gridFloor b e + 1 : Nat) : ℚ) ≤ n := by exact_mod_cast hn
  exact ofDecimal_between (ofDecimal_exact hb) h hceil.le (mul_le_mul_of_nonneg_right hlt hstep)

/-- What the two points around a magnitude come to. -/
inductive Around (b : Nat) (e : Int) : Option Nat → Prop where
  | above : ofDecimal (gridFloor b e + 1) e = b →
    (ofDecimal (gridFloor b e) e = b → nearerAbove b (gridFloor b e) e) → Around b e (some (gridFloor b e + 1))
  | below : ofDecimal (gridFloor b e) e = b →
    (ofDecimal (gridFloor b e + 1) e = b → ¬ nearerAbove b (gridFloor b e) e) → Around b e (some (gridFloor b e))
  | none : ofDecimal (gridFloor b e + 1) e ≠ b → ofDecimal (gridFloor b e) e ≠ b → Around b e none

theorem around_onGrid? (b : Nat) (e : Int) : Around b e (onGrid? b e) := by
  unfold onGrid?
  dsimp only
  split
  · rename_i habove
    exact .above habove.1 fun hbelow => habove.2.resolve_left fun hne => hne hbelow
  · rename_i habove
    split
    · rename_i hbelow
      exact .below hbelow fun hread hnearer => habove ⟨hread, .inr hnearer⟩
    · rename_i hbelow
      exact .none (fun hread => habove ⟨hread, .inl hbelow⟩) hbelow

/-- A point that is found reads back, and is one of the two around the magnitude. -/
theorem ofDecimal_of_onGrid? {b n : Nat} {e : Int} (h : onGrid? b e = some n) :
    ofDecimal n e = b ∧ n ≤ gridFloor b e + 1 := by
  have haround := around_onGrid? b e
  rw [h] at haround
  cases haround with
  | above habove _ => exact ⟨habove, le_rfl⟩
  | below hbelow _ => exact ⟨hbelow, Nat.le_succ _⟩

/-- Where these two do not read back, no point of the grid does. -/
theorem onGrid?_eq_none_iff {b : Nat} (hb : b ≤ infinite) {e : Int} :
    onGrid? b e = none ↔ ∀ n, ofDecimal n e ≠ b := by
  have haround := around_onGrid? b e
  constructor
  · intro hnone n hn
    rw [hnone] at haround
    cases haround with
    | none habove hbelow =>
      rcases Nat.lt_or_ge (gridFloor b e) n with hlt | hle
      · exact habove (ofDecimal_gridFloor_succ hb hn hlt)
      · exact hbelow (ofDecimal_gridFloor hb hn hle)
  · intro h
    generalize onGrid? b e = found at haround
    cases haround with
    | above habove _ => exact absurd habove (h _)
    | below hbelow _ => exact absurd hbelow (h _)
    | none => rfl

/-- Of the points of the grid that read back none is nearer than the one that is found. -/
theorem distance_of_onGrid?_le {b n : Nat} (hb : b ≤ infinite) {e : Int} (h : onGrid? b e = some n) {k : Nat}
    (hk : ofDecimal k e = b) : distance b n e ≤ distance b k e := by
  obtain ⟨hfloor, hceil⟩ := gridFloor_bounds b e
  have hstep : (0 : ℚ) ≤ 10 ^ e := by positivity
  have haround := around_onGrid? b e
  have hnearer := nearerAbove_iff b (gridFloor b e) e
  unfold distance
  rw [h] at haround
  rcases Nat.lt_or_ge (gridFloor b e) k with hlt | hle
  · have hread := ofDecimal_gridFloor_succ hb hk hlt
    have hlt : ((gridFloor b e + 1 : Nat) : ℚ) ≤ k := by exact_mod_cast hlt
    have hlt := mul_le_mul_of_nonneg_right hlt hstep
    rw [abs_of_nonneg (show 0 ≤ (k * 10 ^ e : ℚ) - units b / unit by linarith)]
    cases haround with
    | above _ _ =>
      rw [abs_of_nonneg (by linarith)]
      linarith
    | below _ hfar =>
      have hfar := hfar hread
      rw [hnearer, not_le] at hfar
      rw [abs_of_nonpos (by linarith)]
      push_cast at hlt
      linarith
  · have hread := ofDecimal_gridFloor hb hk hle
    have hle : (k : ℚ) ≤ gridFloor b e := by exact_mod_cast hle
    have hle := mul_le_mul_of_nonneg_right hle hstep
    rw [abs_of_nonpos (show (k * 10 ^ e : ℚ) - units b / unit ≤ 0 by linarith)]
    cases haround with
    | above _ hnear =>
      have hnear := hnear hread
      rw [hnearer] at hnear
      rw [abs_of_nonneg (by linarith)]
      push_cast
      linarith
    | below _ _ =>
      rw [abs_of_nonpos (by linarith)]
      linarith

/-- The points of a grid are points of each finer one. -/
theorem ofDecimal_finer {n b : Nat} {e f : Int} (hfe : f ≤ e) (h : ofDecimal n e = b) :
    ofDecimal (n * 10 ^ (e - f).toNat) f = b := by
  rw [← h]
  refine ofDecimal_congr ?_
  rw [Nat.cast_mul, Nat.cast_pow, Nat.cast_ofNat, mul_assoc, ← zpow_natCast, ← zpow_add₀ (by norm_num)]
  congr 2
  omega

/-! ### The search -/

/-- A decimal that reads back as a magnitude, and of those with its exponent the nearest one. -/
structure Reads (b n : Nat) (e : Int) : Prop where
  back : ofDecimal n e = b
  nearest : ∀ k : Nat, ofDecimal k e = b → distance b n e ≤ distance b k e

theorem reads_shortestFrom {b : Nat} (hb : b ≤ infinite) (tries : Nat) (e : Int) :
    Reads b (shortestFrom b tries e).1 (shortestFrom b tries e).2 := by
  induction tries generalizing e with
  | zero => exact ⟨ofDecimal_exact hb, fun k _ => (distance_exact b).trans_le (distance_nonneg b k _)⟩
  | succ tries ih =>
    rw [shortestFrom]
    cases h : onGrid? b e with
    | none => exact ih (e - 1)
    | some n => exact ⟨(ofDecimal_of_onGrid? h).1, fun k hk => distance_of_onGrid?_le hb h hk⟩

/-- The decimal that is written of a magnitude reads back as this magnitude. -/
theorem reads_shortest {b : Nat} (hb : b ≤ infinite) : Reads b (shortest b).1 (shortest b).2 := by
  by_cases h0 : b = 0
  · rw [h0]
    refine ⟨rfl, fun k _ => ?_⟩
    have hzero : distance 0 0 0 = 0 := by simp [distance]
    exact hzero.trans_le (distance_nonneg 0 k 0)
  · rw [shortest, if_neg h0]
    exact reads_shortestFrom hb 20 (coarsest b)

/-- No point of a grid is read as the magnitude. -/
def Misses (b : Nat) (e : Int) : Prop := ∀ n : Nat, ofDecimal n e ≠ b

theorem Misses.coarser {b : Nat} {e f : Int} (h : Misses b e) (hef : e ≤ f) : Misses b f := fun _ hn =>
  h _ (ofDecimal_finer hef hn)

/-- If one of the grids has a point that reads back, the search ends on the coarsest one of these. -/
theorem misses_of_shortestFrom_lt {b : Nat} (hb : b ≤ infinite) {tries : Nat} {e : Int} (h : Misses b (e + 1))
    (hread : ∃ k < tries, ¬ Misses b (e - k)) {f : Int} (hf : (shortestFrom b tries e).2 < f) : Misses b f := by
  induction tries generalizing e with
  | zero =>
    obtain ⟨k, hk, -⟩ := hread
    omega
  | succ tries ih =>
    rw [shortestFrom] at hf
    cases hgrid : onGrid? b e with
    | some n =>
      rw [hgrid] at hf
      exact h.coarser (by simpa using hf)
    | none =>
      rw [hgrid] at hf
      have hmiss : Misses b e := (onGrid?_eq_none_iff hb).1 hgrid
      obtain ⟨k, hk, hread⟩ := hread
      have hpos : k ≠ 0 := by
        rintro rfl
        exact hread (by simpa using hmiss)
      refine ih (by simpa using hmiss) ⟨k - 1, by omega, ?_⟩ hf
      rwa [show e - 1 - (k - 1 : Nat) = e - k by omega]

/-! ### The first grid and the last one -/

/-- Where a power of two and one of ten are almost the same, others compare as their exponents do. -/
theorem two_zpow_le_ten_zpow {p r : Nat} (hp : p ≠ 0) (hbelow : 2 ^ p ≤ 10 ^ r) (habove : 10 ^ r ≤ 2 ^ (p + 1))
    {x e : Int} (hx : -(p : Int) ≤ x) (h : r * x ≤ p * e) : (2 : ℚ) ^ (x - 1) ≤ 10 ^ e := by
  have hbelow : (2 : ℚ) ^ p ≤ 10 ^ r := by exact_mod_cast hbelow
  have habove : (10 : ℚ) ^ r ≤ 2 ^ (p + 1) := by exact_mod_cast habove
  have hpowers : (2 : ℚ) ^ ((x - 1) * p) ≤ (10 ^ r) ^ x := by
    rcases le_or_gt 0 x with hpos | hneg
    · calc (2 : ℚ) ^ ((x - 1) * p) ≤ 2 ^ (p * x) := zpow_le_zpow_right₀ (by norm_num) (by linarith)
        _ = (2 ^ p) ^ x := by rw [zpow_mul, zpow_natCast]
        _ ≤ (10 ^ r) ^ x := zpow_le_zpow_left₀ hpos (by positivity) hbelow
    · have hinv := zpow_le_zpow_left₀ (show 0 ≤ -x by omega) (by positivity) habove
      rw [zpow_neg, zpow_neg, inv_le_inv₀ (by positivity) (by positivity)] at hinv
      calc (2 : ℚ) ^ ((x - 1) * p) ≤ 2 ^ ((p + 1 : Nat) * x) :=
          zpow_le_zpow_right₀ (by norm_num) (by push_cast; linarith)
        _ = (2 ^ (p + 1)) ^ x := by rw [zpow_mul, zpow_natCast]
        _ ≤ (10 ^ r) ^ x := hinv
  refine le_of_pow_le_pow_left₀ hp (by positivity) ?_
  calc ((2 : ℚ) ^ (x - 1)) ^ p = 2 ^ ((x - 1) * p) := by rw [zpow_mul, zpow_natCast]
    _ ≤ (10 ^ r) ^ x := hpowers
    _ = 10 ^ (r * x) := by rw [zpow_mul, zpow_natCast]
    _ ≤ 10 ^ (p * e) := zpow_le_zpow_right₀ (by norm_num) h
    _ = (10 ^ e) ^ p := by rw [mul_comm, zpow_mul, zpow_natCast]

theorem ten_zpow_le_two_zpow {p r : Nat} (hp : p ≠ 0) (hbelow : 2 ^ p ≤ 10 ^ r) (habove : 10 ^ r ≤ 2 ^ (p + 1))
    {x e : Int} (hx : x ≤ p) (h : p * e ≤ r * x) : (10 : ℚ) ^ e ≤ 2 ^ (x + 1) := by
  have hinv := two_zpow_le_ten_zpow hp hbelow habove (x := -x) (e := -e) (by linarith) (by linarith)
  rw [show -x - 1 = -(x + 1) by ring, zpow_neg, zpow_neg] at hinv
  exact (inv_le_inv₀ (by positivity) (by positivity)).1 hinv

/-- The logarithm of two to five places. -/
theorem log_two : 2 ^ 100000 ≤ 10 ^ 30103 ∧ 10 ^ 30103 ≤ 2 ^ (100000 + 1) := by
  decide +kernel

theorem log2_units_le {b : Nat} (hb : b ≤ infinite) : (units b).log2 ≤ 2098 := by
  by_cases h0 : units b = 0
  · simp [h0]
  · have hoctave : octave b ≤ 2046 := by
      have hdiv := Nat.div_le_div_right (c := span) hb
      rw [infinite, Nat.mul_div_cancel _ span_pos] at hdiv
      rw [octave]
      omega
    have hlog : (units b).log2 < 53 + octave b := by
      refine (Nat.log2_lt h0).2 ?_
      calc units b < 2 * span * 2 ^ octave b := Nat.mul_lt_mul_of_pos_right (sub_octave_lt b) (Nat.two_pow_pos _)
        _ = 2 ^ (53 + octave b) := by rw [span, Nat.pow_add]
    omega

/-- A magnitude lies between two powers of two. -/
theorem log2_units_bounds {b : Nat} (h0 : b ≠ 0) :
    (2 : ℚ) ^ (((units b).log2 : Int) - 1074) ≤ units b / unit ∧
      (units b / unit : ℚ) < 2 ^ (((units b).log2 : Int) - 1074 + 1) := by
  have hunits : units b ≠ 0 := by
    rw [← units_zero]
    exact fun h => h0 (units_strictMono.injective h)
  have hle : (2 : ℚ) ^ (units b).log2 ≤ units b := by exact_mod_cast Nat.log2_self_le hunits
  have hlt : (units b : ℚ) < 2 ^ ((units b).log2 + 1) := by exact_mod_cast Nat.lt_log2_self
  have hunit : (unit : ℚ) = 2 ^ (1074 : Int) := cast_unit
  rw [le_div_iff₀ cast_unit_pos, div_lt_iff₀ cast_unit_pos, hunit, ← zpow_add₀ (by norm_num), ← zpow_add₀ (by norm_num)]
  constructor
  · rwa [sub_add_cancel, zpow_natCast]
  · rwa [show ((units b).log2 : Int) - 1074 + 1 + 1074 = ((units b).log2 + 1 : Nat) by push_cast; ring, zpow_natCast]

/-- The first grid is coarser than the magnitude, and the last one finer than half of the spacing around it. -/
theorem coarsest_bounds {b : Nat} (hb : b ≤ infinite) (h0 : b ≠ 0) :
    (units b / unit : ℚ) < 10 ^ coarsest b ∧ 2 ^ 54 * (10 : ℚ) ^ (coarsest b - 19) ≤ units b / unit := by
  obtain ⟨hle, hlt⟩ := log2_units_bounds h0
  have hlog := log2_units_le hb
  obtain ⟨hbelow, habove⟩ := log_two
  have hcoarsest : coarsest b = (((units b).log2 : Int) - 1074) * 30103 / 100000 + 2 := rfl
  have hx : ((units b).log2 : Int) - 1074 ≤ 1024 := by omega
  have hx' : -1074 ≤ ((units b).log2 : Int) - 1074 := by omega
  generalize ((units b).log2 : Int) - 1074 = x at *
  constructor
  · calc (units b / unit : ℚ) < 2 ^ (x + 1) := hlt
      _ = 2 ^ (x + 2 - 1) := by congr 1; ring
      _ ≤ 10 ^ coarsest b := two_zpow_le_ten_zpow (by decide) hbelow habove (by omega) (by omega)
  · have hten : (10 : ℚ) ^ (coarsest b - 19) ≤ 2 ^ (x - 55 + 1) :=
      ten_zpow_le_two_zpow (by decide) hbelow habove (by omega) (by omega)
    calc 2 ^ 54 * (10 : ℚ) ^ (coarsest b - 19) ≤ 2 ^ (54 : Int) * 2 ^ (x - 55 + 1) := by gcongr; norm_num
      _ = 2 ^ x := by rw [← zpow_add₀ (by norm_num)]; congr 1; ring
      _ ≤ units b / unit := hle

theorem gridFloor_coarsest {b : Nat} (hb : b ≤ infinite) (h0 : b ≠ 0) : gridFloor b (coarsest b) = 0 := by
  obtain ⟨hfirst, -⟩ := coarsest_bounds hb h0
  have hle := (gridFloor_bounds b (coarsest b)).1.trans_lt hfirst
  have hpow : (0 : ℚ) < 10 ^ coarsest b := by positivity
  have hlt : (gridFloor b (coarsest b) : ℚ) < 1 := lt_of_mul_lt_mul_right (by rwa [one_mul]) hpow.le
  exact Nat.lt_one_iff.1 (by exact_mod_cast hlt)

/-- On the last grid the point below the magnitude reads back. -/
theorem ofDecimal_finest {b : Nat} (hb : b ≤ infinite) (h0 : b ≠ 0) :
    ofDecimal (gridFloor b (coarsest b - 19)) (coarsest b - 19) = b := by
  have hunit := cast_unit_pos
  obtain ⟨hle, hlt⟩ := gridFloor_bounds b (coarsest b - 19)
  obtain ⟨-, hlast⟩ := coarsest_bounds hb h0
  rw [ofDecimal_eq_iff]
  generalize (10 : ℚ) ^ (coarsest b - 19) = step at *
  generalize gridFloor b (coarsest b - 19) = n at *
  rw [le_div_iff₀ hunit] at hle hlast
  rw [div_lt_iff₀ hunit] at hlt
  push_cast at hlt
  refine isNearest_of_sub_lt hb hle ?_
  linarith

/-! ### The fewest digits -/

/-- The search ends with a single digit on the first grid, or on the coarsest one that has a point which reads back. -/
theorem shortest_cases {b : Nat} (hb : b ≤ infinite) (h0 : b ≠ 0) :
    (shortest b).1 = 1 ∨ ∀ f > (shortest b).2, Misses b f := by
  rw [shortest, if_neg h0, shortestFrom]
  cases hgrid : onGrid? b (coarsest b) with
  | some n =>
    left
    obtain ⟨hread, hle⟩ := ofDecimal_of_onGrid? hgrid
    rw [gridFloor_coarsest hb h0] at hle
    have hne : n ≠ 0 := by
      rintro rfl
      exact h0 hread.symm
    show n = 1
    omega
  | none =>
    right
    intro f hf
    have hmiss : Misses b (coarsest b - 1 + 1) := by
      rw [sub_add_cancel]
      exact (onGrid?_eq_none_iff hb).1 hgrid
    refine misses_of_shortestFrom_lt hb hmiss ⟨18, by omega, fun h => ?_⟩ hf
    refine h _ (?_ : ofDecimal (gridFloor b (coarsest b - 19)) _ = b)
    rw [show coarsest b - 1 - (18 : Nat) = coarsest b - 19 by omega]
    exact ofDecimal_finest hb h0

/-- If two decimals read back and the first one has fewer digits, so does a power of ten between them. -/
theorem ofDecimal_power {n k width b : Nat} {e f : Int} (hn : ofDecimal n e = b) (hk : ofDecimal k f = b) (hef : e ≤ f)
    (hbelow : n < 10 ^ width) (habove : 10 ^ width ≤ k) : ofDecimal 1 (f + width) = b := by
  have hbelow : (n : ℚ) ≤ 10 ^ (width : Int) := by
    rw [zpow_natCast]
    exact_mod_cast hbelow.le
  have habove : (10 : ℚ) ^ (width : Int) ≤ k := by
    rw [zpow_natCast]
    exact_mod_cast habove
  have hpower : ((1 : Nat) * 10 ^ (f + width) : ℚ) = 10 ^ (width : Int) * 10 ^ f := by
    rw [Nat.cast_one, one_mul, add_comm, zpow_add₀ (by norm_num)]
  have hstep : (10 : ℚ) ^ e ≤ 10 ^ f := zpow_le_zpow_right₀ (by norm_num) hef
  refine ofDecimal_between hn hk ?_ ?_
  · rw [hpower]
    gcongr
  · rw [hpower]
    gcongr

/-- No decimal with fewer digits reads back as the magnitude. -/
theorem length_shortest_le {b : Nat} (hb : b ≤ infinite) {n : Nat} {e : Int} (h : ofDecimal n e = b) :
    (Decimal.digits (shortest b).1).length ≤ (Decimal.digits n).length := by
  have hpos : 0 < (Decimal.digits n).length := List.length_pos_iff.2 (Decimal.digits_ne_nil n)
  by_cases h0 : b = 0
  · rw [h0]
    exact hpos
  · obtain hone | hmiss := shortest_cases hb h0
    · rw [hone]
      exact hpos
    · have he : e ≤ (shortest b).2 := by
        by_contra he
        exact hmiss e (by omega) n h
      have hbelow : n < 10 ^ (Decimal.digits n).length := (Nat.length_toDigits_le_iff (by decide) hpos).1 le_rfl
      by_contra hlt
      -- there would be a coarser grid with a point that reads back
      have habove : 10 ^ (Decimal.digits n).length ≤ (shortest b).1 := by
        by_contra habove
        exact hlt ((Nat.length_toDigits_le_iff (by decide) hpos).2 (by omega))
      exact hmiss _ (by omega) 1 (ofDecimal_power h (reads_shortest hb).back he hbelow habove)

/-- A decimal that reads back as a magnitude with as few digits as any that does, and with the nearest ones. -/
structure IsShortest (b n : Nat) (e : Int) : Prop extends Reads b n e where
  fewest : ∀ (k : Nat) (f : Int), ofDecimal k f = b → (Decimal.digits n).length ≤ (Decimal.digits k).length

theorem isShortest_shortest {b : Nat} (hb : b ≤ infinite) : IsShortest b (shortest b).1 (shortest b).2 where
  toReads := reads_shortest hb
  fewest _ _ h := length_shortest_le hb h

end Binary64

end ReversePolish
