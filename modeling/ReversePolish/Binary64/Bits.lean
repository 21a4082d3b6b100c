import Mathlib
import ReversePolish.Binary64

/-!
# Doubles and their bit patterns

The type of doubles keeps one bit pattern for each value, a single one for all that is not a number.  So a
pattern of magnitude at most `infinite` comes back from a double unchanged (`toBits_ofBits`), and a double is
determined by its pattern.  Consequently the views of `Binary64` say all about a double: `magnitude_ofMagnitude`,
`isNegative_ofMagnitude`, `value_ofMagnitude` and `ofValue_value`.  What arithmetic works with is a double taken apart
into sign, mantissa and exponent (`unpack_cases`).  Numerical equality with zero is a matter of the magnitude alone
(`beq_zero_iff`), and a double below zero is subtracted from zero by clearing its sign (`zero_sub_of_lt`).
-/

namespace ReversePolish

namespace Binary64

open Float.Model Float.Model.UnpackedFloat

/-! ### Patterns -/

/-- A pattern comes back unless it is that of something that is not a number. -/
theorem toBits_ofBits {w : UInt64} (h : w.toNat % signBit ≤ infinite) : (Float.ofBits w).toBits = w := by
  have hnumber : ¬ @isNaNBits Format.binary64 w.toBitVec = true := by
    intro hnan
    rw [isNaNBits, decide_eq_true_iff] at hnan
    obtain ⟨hexponent, hmantissa⟩ := hnan
    apply hmantissa
    apply BitVec.eq_of_toNat_eq
    have hexponent := congrArg BitVec.toNat hexponent
    simp [unpackExponent, Nat.shiftRight_eq_div_pow] at hexponent
    simp [unpackMantissa, Nat.shiftRight_eq_div_pow]
    simp [infinite, signBit, span] at h
    omega
  show UInt64.ofBitVec (UnpackedFloat.pack Format.binary64 (UnpackedFloat.unpack Format.binary64 w.toBitVec)) = w
  rw [pack_unpack, if_neg hnumber]

private theorem toNat_toBits_ofMagnitude (negative : Bool) {b : Nat} (h : b ≤ infinite) :
    (ofMagnitude negative b).toBits.toNat = b + if negative then signBit else 0 := by
  have hlt : b + (if negative then signBit else 0) < 2 * signBit := by
    simp only [infinite, signBit, span] at *
    split <;> omega
  have hw : (UInt64.ofNat (b + if negative then signBit else 0)).toNat =
      b + if negative then signBit else 0 := by
    rw [UInt64.toNat_ofNat']
    exact Nat.mod_eq_of_lt hlt
  unfold ofMagnitude
  rw [toBits_ofBits, hw]
  rw [hw]
  simp only [infinite, signBit, span] at *
  split <;> omega

@[simp] theorem magnitude_ofMagnitude (negative : Bool) {b : Nat} (h : b ≤ infinite) :
    magnitude (ofMagnitude negative b) = b := by
  rw [magnitude, toNat_toBits_ofMagnitude negative h]
  simp only [infinite, signBit, span] at *
  split <;> omega

@[simp] theorem isNegative_ofMagnitude (negative : Bool) {b : Nat} (h : b ≤ infinite) :
    isNegative (ofMagnitude negative b) = negative := by
  rw [isNegative, toNat_toBits_ofMagnitude negative h]
  cases negative
  · simp only [infinite, signBit, span] at *; simp; omega
  · simp

theorem value_ofMagnitude (negative : Bool) {b : Nat} (h : b < infinite) :
    value (ofMagnitude negative b) = .finite negative b := by
  simp only [value, magnitude_ofMagnitude negative (Nat.le_of_lt h), isNegative_ofMagnitude negative (Nat.le_of_lt h)]
  rw [if_neg (by omega), if_neg (by omega)]

theorem value_ofMagnitude_infinite (negative : Bool) : value (ofMagnitude negative infinite) = .infinity negative := by
  simp only [value, magnitude_ofMagnitude negative (Nat.le_refl _), isNegative_ofMagnitude negative (Nat.le_refl _)]
  rw [if_neg (by omega), if_pos trivial]

theorem value_nan : value (ofValue .nan) = .nan := by decide

theorem lt_infinite_of_value {x : Float} {negative : Bool} {b : Nat} (h : value x = .finite negative b) :
    b < infinite := by
  unfold value at h
  split at h
  · cases h
  · split at h
    · cases h
    · cases h; omega

/-- A double is determined by its sign and its magnitude. -/
theorem ofMagnitude_magnitude {x : Float} (h : magnitude x ≤ infinite) :
    ofMagnitude (isNegative x) (magnitude x) = x := by
  apply Float.toBits_inj.1
  apply UInt64.toNat.inj
  rw [toNat_toBits_ofMagnitude _ h]
  have := x.toBits.toNat_lt
  simp only [isNegative, magnitude, infinite, signBit, span] at *
  by_cases hs : 2 ^ 63 ≤ x.toBits.toNat
  · simp only [hs, decide_true, ↓reduceIte]; omega
  · simp only [hs, decide_false, Bool.false_eq_true, ↓reduceIte]; omega

/-! ### The parts of a double -/

/-- The sign that a sign bit stands for. -/
def signOf (negative : Bool) : Sign := if negative then .negative else .positive

/-- The mantissa and the exponent of a finite double that is not a zero: 53 bits, or fewer at the least exponent. -/
structure Fits (m : Nat) (e : Int) : Prop where
  pos : 0 < m
  lt : m < 2 * span
  least_le : -1074 ≤ e
  full : span ≤ m ∨ e = -1074

/-- The pattern of a double, with its fields. -/
private theorem exists_pattern (x : Float) : ∃ b : BitVec Format.binary64.numBits,
    x.toModel.unpack = UnpackedFloat.unpack Format.binary64 b ∧
      Sign.ofBitVec (unpackSign b) = signOf (isNegative x) ∧
      magnitude x = (unpackExponent b).toNat * span + (unpackMantissa b).toNat := by
  refine ⟨x.toBits.toBitVec, rfl, ?_, ?_⟩
  · have hsign : @unpackSign Format.binary64 x.toBits.toBitVec = 0#1 ↔ x.toBits.toNat < signBit := by
      rw [← BitVec.toNat_inj]
      have := x.toBits.toNat_lt
      simp [unpackSign, Nat.shiftRight_eq_div_pow, signBit]
      omega
    rw [Sign.ofBitVec, signOf, isNegative]
    by_cases h : x.toBits.toNat < signBit
    · rw [if_pos (hsign.2 h), if_neg (by simpa using h)]
    · rw [if_neg (fun hc => h (hsign.1 hc)), if_pos (by simpa using h)]
  · simp [unpackExponent, unpackMantissa, Nat.shiftRight_eq_div_pow, magnitude, signBit, span]
    omega

private theorem toNat_one_append (m : BitVec 52) : (1#1 ++ m).toNat = span + m.toNat := by
  rw [BitVec.toNat_append, ← Nat.shiftLeft_add_eq_or_of_lt m.isLt]; rfl

/-- What a double is taken apart into, by its magnitude. -/
theorem unpack_cases (x : Float) :
    (infinite < magnitude x ∧ x.toModel.unpack = .notANumber) ∨
      (magnitude x = infinite ∧ x.toModel.unpack = .infinity (signOf (isNegative x))) ∨
      (magnitude x = 0 ∧ x.toModel.unpack = .zero (signOf (isNegative x))) ∨
      (0 < magnitude x ∧ magnitude x < infinite ∧
        ∃ m e, ∃ h : Fits m e, x.toModel.unpack = .finite (signOf (isNegative x)) m e h.pos) := by
  obtain ⟨b, hunpack, hsign, hmagnitude⟩ := exists_pattern x
  have hspan : 0 < span := by decide
  have hinfinite : infinite = 2047 * span := rfl
  have hbias : (Format.binary64.exponentBias : Int) = 1023 := rfl
  have hexponent : (unpackExponent b).toNat < 2048 := (unpackExponent b).isLt
  have hmantissa : (unpackMantissa b).toNat < span := (unpackMantissa b).isLt
  rw [hunpack, hmagnitude, hinfinite, UnpackedFloat.unpack]
  simp only [hsign]
  -- infinities have the last exponent field, and zeros the first one, as have the numbers without a leading bit
  split
  · rename_i hlast
    have hlast : (unpackExponent b).toNat = 2047 := congrArg BitVec.toNat hlast
    rw [hlast]
    split
    · rename_i hzero
      have hzero : (unpackMantissa b).toNat = 0 := congrArg BitVec.toNat hzero
      exact .inr (.inl ⟨by omega, rfl⟩)
    · rename_i hne
      have hne : (unpackMantissa b).toNat ≠ 0 := fun h => hne (BitVec.eq_of_toNat_eq h)
      exact .inl ⟨by omega, rfl⟩
  · rename_i hlast
    have hlast : (unpackExponent b).toNat ≠ 2047 := fun h => hlast (BitVec.eq_of_toNat_eq h)
    split
    · rename_i hfirst
      have hfirst : (unpackExponent b).toNat = 0 := congrArg BitVec.toNat hfirst
      rw [hfirst]
      split
      · rename_i hzero
        have hzero : (unpackMantissa b).toNat = 0 := congrArg BitVec.toNat hzero
        exact .inr (.inr (.inl ⟨by omega, rfl⟩))
      · rename_i hne
        have hne : (unpackMantissa b).toNat ≠ 0 := fun h => hne (BitVec.eq_of_toNat_eq h)
        refine .inr (.inr (.inr ⟨?_, ?_, _, _, ⟨?_, ?_, ?_, .inr ?_⟩, rfl⟩)) <;> omega
    · rename_i hfirst
      have hfirst : (unpackExponent b).toNat ≠ 0 := fun h => hfirst (BitVec.eq_of_toNat_eq h)
      have hone := toNat_one_append (unpackMantissa b)
      have hlower : 1 * span ≤ (unpackExponent b).toNat * span := Nat.mul_le_mul_right span (by omega)
      have hupper : (unpackExponent b).toNat * span ≤ 2046 * span := Nat.mul_le_mul_right span (by omega)
      refine .inr (.inr (.inr ⟨?_, ?_, _, _, ⟨?_, ?_, ?_, .inl ?_⟩, rfl⟩)) <;> omega

/-- A double is finite exactly if its magnitude is below that of the infinities. -/
theorem isFinite_iff {x : Float} : x.isFinite = true ↔ magnitude x < infinite := by
  have hfinite : x.isFinite = x.toModel.unpack.isFinite := rfl
  have hinfinite : 0 < infinite := by decide
  rw [hfinite]
  rcases unpack_cases x with ⟨h, hx⟩ | ⟨h, hx⟩ | ⟨h, hx⟩ | ⟨-, h, m, e, hfits, hx⟩ <;> rw [hx]
  · exact iff_of_false nofun (by omega)
  · exact iff_of_false nofun (by omega)
  · exact iff_of_true rfl (by omega)
  · exact iff_of_true rfl h

theorem ofModel_pack_unpack (x : Float) : Float.ofModel (.pack x.toModel.unpack) = x := x.ofBits_toBits

/-- All doubles that are not numbers are the same one. -/
theorem eq_nan {x : Float} (h : infinite < magnitude x) : x = nan := by
  obtain ⟨-, hx⟩ | ⟨hx, -⟩ | ⟨hx, -⟩ | ⟨-, hx, -⟩ := unpack_cases x
  · rw [← ofModel_pack_unpack x, hx]
    rfl
  all_goals omega

theorem ofValue_value (x : Float) : ofValue (value x) = x := by
  unfold value
  split
  · rename_i h; rw [eq_nan h]; rfl
  · split
    · rename_i h1 h2
      have := ofMagnitude_magnitude (x := x) (by omega)
      rw [h2] at this
      exact this
    · exact ofMagnitude_magnitude (by omega)

/-! ### Zeros -/

theorem magnitude_eq_zero_iff {x : Float} : magnitude x = 0 ↔ ∃ negative, value x = .finite negative 0 := by
  have hinfinite : 0 < infinite := by decide
  constructor
  · intro h
    refine ⟨isNegative x, ?_⟩
    rw [value, h, if_neg (by omega), if_neg (by omega)]
  · rintro ⟨negative, h⟩
    unfold value at h
    split at h
    · cases h
    · split at h
      · cases h
      · injection h

/-- The zeros of both signs, and only they, are numerically equal to zero. -/
theorem beq_zero_iff {x : Float} : (x == zero) = true ↔ magnitude x = 0 := by
  have hinfinite : 0 < infinite := by decide
  have hbeq : (x == zero) = (UnpackedFloat.compare x.toModel.unpack (.zero .positive) == some .eq) := rfl
  rw [hbeq]
  rcases unpack_cases x with ⟨h, hx⟩ | ⟨h, hx⟩ | ⟨h, hx⟩ | ⟨h, -, m, e, hfits, hx⟩ <;> rw [hx]
  · exact iff_of_false nofun (by omega)
  · cases isNegative x <;> exact iff_of_false nofun (by omega)
  · exact iff_of_true rfl h
  · cases isNegative x <;> exact iff_of_false nofun (by omega)

theorem zero_beq_zero : (zero == zero) = true := beq_zero_iff.2 (magnitude_ofMagnitude false (Nat.zero_le _))

/-! ### Numbers below zero and above -/

/-- A double below zero has its sign bit set, and subtracting it from zero changes only its sign. -/
private theorem sub_of_lt {x : Float} (h : x < zero) : isNegative x = true ∧ magnitude x ≤ infinite ∧
    UnpackedFloat.sub Format.binary64 (.zero .positive) x.toModel.unpack = x.toModel.unpack.neg := by
  have hcompare : UnpackedFloat.compare x.toModel.unpack (.zero .positive) = some .lt := by
    have h : decide ((UnpackedFloat.compare x.toModel.unpack (.zero .positive) == some .lt) = true) = true := h
    rwa [decide_eq_true_iff, beq_iff_eq] at h
  rcases unpack_cases x with ⟨-, hx⟩ | ⟨hle, hx⟩ | ⟨-, hx⟩ | ⟨-, hlt, m, e, hfits, hx⟩ <;> rw [hx] at hcompare ⊢
  · cases hcompare
  · cases hnegative : isNegative x with
    | true => exact ⟨rfl, hle.le, rfl⟩
    | false => rw [hnegative] at hcompare; cases hcompare
  · cases hcompare
  · cases hnegative : isNegative x with
    | true => exact ⟨rfl, hlt.le, rfl⟩
    | false => rw [hnegative] at hcompare; cases hcompare

/-- The numbers above zero are those without a sign bit that are not a zero. -/
theorem zero_lt_iff {x : Float} : zero < x ↔ isNegative x = false ∧ 0 < magnitude x ∧ magnitude x ≤ infinite := by
  have hinfinite : 0 < infinite := by decide
  have hlt : zero < x ↔
      decide ((UnpackedFloat.compare (.zero .positive) x.toModel.unpack == some .lt) = true) = true := Iff.rfl
  rw [hlt, decide_eq_true_iff, beq_iff_eq]
  rcases unpack_cases x with ⟨h, hx⟩ | ⟨h, hx⟩ | ⟨h, hx⟩ | ⟨hpos, h, m, e, hfits, hx⟩ <;> rw [hx]
  · exact iff_of_false nofun (by omega)
  · cases isNegative x with
    | true => exact iff_of_false nofun nofun
    | false => exact iff_of_true rfl ⟨rfl, by omega, h.le⟩
  · exact iff_of_false nofun (by omega)
  · cases isNegative x with
    | true => exact iff_of_false nofun nofun
    | false => exact iff_of_true rfl ⟨rfl, hpos, h.le⟩

/-- Patterns that differ in their sign alone stand for opposite numbers. -/
private theorem unpack_eq_neg {b : Nat} (h : b < signBit) {p q : BitVec Format.binary64.numBits}
    (hp : p.toNat = b + signBit) (hq : q.toNat = b) :
    UnpackedFloat.unpack Format.binary64 p = (UnpackedFloat.unpack Format.binary64 q).neg := by
  have hsign : unpackSign q = 0#1 := by
    apply BitVec.eq_of_toNat_eq
    simp [unpackSign, Nat.shiftRight_eq_div_pow, signBit] at hq h ⊢
    omega
  have hsign' : unpackSign p = 1#1 := by
    apply BitVec.eq_of_toNat_eq
    simp [unpackSign, Nat.shiftRight_eq_div_pow, signBit] at hp h ⊢
    omega
  have hexponent : unpackExponent p = unpackExponent q := by
    apply BitVec.eq_of_toNat_eq
    simp [unpackExponent, Nat.shiftRight_eq_div_pow, signBit] at hp ⊢
    omega
  have hmantissa : unpackMantissa p = unpackMantissa q := by
    apply BitVec.eq_of_toNat_eq
    simp [unpackMantissa, Nat.shiftRight_eq_div_pow, signBit] at hp ⊢
    omega
  unfold UnpackedFloat.unpack
  simp only [hexponent, hmantissa, hsign, hsign']
  split
  · split <;> rfl
  · split
    · split <;> rfl
    · rfl

/-- Doubles that differ in their sign alone are taken apart into opposite numbers. -/
private theorem unpack_ofMagnitude_true {b : Nat} (h : b ≤ infinite) :
    (ofMagnitude true b).toModel.unpack = (ofMagnitude false b).toModel.unpack.neg := by
  have hlt : b < signBit := by
    simp only [infinite, signBit, span] at *
    omega
  have htrue : (ofMagnitude true b).toBits.toNat = b + signBit := toNat_toBits_ofMagnitude true h
  have hfalse : (ofMagnitude false b).toBits.toNat = b := toNat_toBits_ofMagnitude false h
  generalize ofMagnitude true b = x at htrue ⊢
  generalize ofMagnitude false b = y at hfalse ⊢
  exact unpack_eq_neg hlt htrue hfalse

private theorem neg_neg_unpacked (u : UnpackedFloat) : u.neg.neg = u := by
  cases u with
  | notANumber => rfl
  | infinity s => cases s <;> rfl
  | zero s => cases s <;> rfl
  | finite s m e h => cases s <;> rfl

/-- A double below zero has its sign bit set, and zero minus this double has the same magnitude without the sign. -/
theorem zero_sub_of_lt {x : Float} (h : x < zero) :
    ∃ b ≤ infinite, x = ofMagnitude true b ∧ zero - x = ofMagnitude false b := by
  obtain ⟨hnegative, hle, hsub⟩ := sub_of_lt h
  have hx := ofMagnitude_magnitude hle
  rw [hnegative] at hx
  refine ⟨magnitude x, hle, hx.symm, ?_⟩
  have hdefinition : zero - x =
      Float.ofModel (.pack (UnpackedFloat.sub Format.binary64 (.zero .positive) x.toModel.unpack)) := rfl
  rw [hdefinition, hsub, ← hx, unpack_ofMagnitude_true hle, neg_neg_unpacked, magnitude_ofMagnitude true hle]
  exact ofModel_pack_unpack _

end Binary64

end ReversePolish
