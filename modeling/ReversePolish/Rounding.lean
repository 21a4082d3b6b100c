/-!
# Rounding a fraction to a natural number

`roundHalfEven` picks the nearest natural number, and of two equally near ones the even one.  The key facts:
the result is within half a unit (`roundHalfEven_le`, `le_roundHalfEven`), and a whole number is its own
rounding (`roundHalfEven_mul`).
-/

namespace ReversePolish

/-- The natural number nearest to `num / den`; a half goes to the even neighbour. -/
def roundHalfEven (num den : Nat) : Nat :=
  if 2 * (num % den) < den then num / den
  else if den < 2 * (num % den) then num / den + 1
  else num / den + num / den % 2

theorem roundHalfEven_cases (num den : Nat) :
    (roundHalfEven num den = num / den ∧ 2 * (num % den) ≤ den) ∨
      (roundHalfEven num den = num / den + 1 ∧ den ≤ 2 * (num % den)) := by
  unfold roundHalfEven
  split
  · omega
  · split
    · omega
    · rcases Nat.mod_two_eq_zero_or_one (num / den) with h | h <;> omega

theorem roundHalfEven_le (num den : Nat) : 2 * (roundHalfEven num den * den) ≤ 2 * num + den := by
  have h := Nat.div_add_mod' num den
  rcases roundHalfEven_cases num den with ⟨e, _⟩ | ⟨e, _⟩ <;> rw [e]
  · omega
  · rw [Nat.succ_mul (num / den)]; omega

theorem le_roundHalfEven (num : Nat) {den : Nat} (hden : 0 < den) :
    2 * num ≤ 2 * (roundHalfEven num den * den) + den := by
  have h := Nat.div_add_mod' num den
  have := Nat.mod_lt num hden
  rcases roundHalfEven_cases num den with ⟨e, _⟩ | ⟨e, _⟩ <;> rw [e]
  · omega
  · rw [Nat.succ_mul (num / den)]; omega

theorem roundHalfEven_mul (n : Nat) {den : Nat} (hden : 0 < den) : roundHalfEven (n * den) den = n := by
  unfold roundHalfEven
  simp [hden]

theorem roundHalfEven_zero {den : Nat} (hden : 0 < den) : roundHalfEven 0 den = 0 := by
  simpa using roundHalfEven_mul 0 hden

end ReversePolish
