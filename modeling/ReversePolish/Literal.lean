import ReversePolish.Complex
import ReversePolish.Numeral

/-!
# Literals

The text of a complex number as it is typed: `R`, `iI` or `R+iI`, where `R` and `I` are numerals.  The mark `+i`
that splits the combined form is always the first one, so `parse?` needs no backtracking.
-/

namespace ReversePolish

namespace Literal

/-- The texts before and after the first `+i`. -/
def splitMark? : List Char → Option (List Char × List Char)
  | [] => none
  | '+' :: 'i' :: tail => some ([], tail)
  | c :: tail => (splitMark? tail).map fun (head, rest) => (c :: head, rest)

/-- The form `R+iI`. -/
def combined? (cs : List Char) : Option Complex := do
  let (re, im) ← splitMark? cs
  return ⟨← Numeral.read? re, ← Numeral.read? im⟩

/-- The form `R`. -/
def real? (cs : List Char) : Option Complex := (Numeral.read? cs).map Complex.ofReal

/-- The form `iI`. -/
def imaginary? : List Char → Option Complex
  | 'i' :: tail => (Numeral.read? tail).map Complex.ofImaginary
  | _ => none

def parse? (cs : List Char) : Option Complex := combined? cs <|> real? cs <|> imaginary? cs

theorem splitMark?_eq_some {cs head rest : List Char} (h : splitMark? cs = some (head, rest)) :
    cs = head ++ '+' :: 'i' :: rest := by
  induction cs generalizing head with
  | nil => simp [splitMark?] at h
  | cons c cs ih =>
    unfold splitMark? at h
    split at h
    · simp at h
    · simp only [Option.some.injEq, Prod.mk.injEq] at h
      rename_i heq
      simp only [List.cons.injEq] at heq
      obtain ⟨rfl, rfl⟩ := h
      rw [heq.1, heq.2]; rfl
    · rename_i heq
      simp only [List.cons.injEq] at heq
      obtain ⟨rfl, rfl⟩ := heq
      obtain ⟨⟨head', rest'⟩, h1, h2⟩ := Option.map_eq_some_iff.1 h
      simp only [Prod.mk.injEq] at h2
      obtain ⟨rfl, rfl⟩ := h2
      rw [ih h1]; rfl

end Literal

end ReversePolish
