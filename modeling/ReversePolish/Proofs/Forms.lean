import ReversePolish.Proofs.Literals

/-!
# The forms of literals do not compete

A text that can be read in one of the forms `R+iI`, `R` and `iI` cannot be read in another one
(`Form.eq_of_read?`), although the mark `+i` and the letter `i` occur in numerals as well.  So it does not matter in
which order the forms are tried (`parse?_perm`).
-/

namespace ReversePolish

namespace Literal

/-- The form of a literal. -/
inductive Form where
  /-- The form `R+iI`. -/
  | combined
  /-- The form `R`. -/
  | real
  /-- The form `iI`. -/
  | imaginary
deriving DecidableEq

namespace Form

def all : List Form := [combined, real, imaginary]

/-- What a text says when it is read in one form. -/
def read? : Form → List Char → Option Complex
  | combined => combined?
  | real => real?
  | imaginary => imaginary?

/-- What a text says in the first form of some in which it can be read. -/
def first? (order : List Form) (cs : List Char) : Option Complex := order.findSome? fun f => f.read? cs

theorem mem_all (f : Form) : f ∈ all := by cases f <;> decide

/-! ### No text has two forms -/

theorem combined?_of_real? {cs : List Char} {z : Complex} (h : real? cs = some z) : combined? cs = none := by
  obtain ⟨x, hx, -⟩ := real?_eq_some_iff.1 h
  exact hx.combined?_eq_none

theorem combined?_of_imaginary? {cs : List Char} {z : Complex} (h : imaginary? cs = some z) : combined? cs = none := by
  obtain ⟨m, y, rfl, hy, -⟩ := imaginary?_eq_some_iff.1 h
  exact hy.combined?_cons_i

theorem real?_of_imaginary? {cs : List Char} {z : Complex} (h : imaginary? cs = some z) : real? cs = none := by
  obtain ⟨m, y, rfl, hy, -⟩ := imaginary?_eq_some_iff.1 h
  exact hy.real?_cons_i

/-- The form in which a text can be read is determined by the text. -/
theorem eq_of_read? {f g : Form} {cs : List Char} {z w : Complex} (hf : f.read? cs = some z)
    (hg : g.read? cs = some w) : f = g := by
  have clash {r : Option Complex} {z : Complex} (hnone : r = none) (hsome : r = some z) : False := by
    rw [hnone] at hsome
    cases hsome
  cases f with
  | combined =>
    cases g with
    | combined => rfl
    | real => exact (clash (combined?_of_real? hg) hf).elim
    | imaginary => exact (clash (combined?_of_imaginary? hg) hf).elim
  | real =>
    cases g with
    | combined => exact (clash (combined?_of_real? hf) hg).elim
    | real => rfl
    | imaginary => exact (clash (real?_of_imaginary? hg) hf).elim
  | imaginary =>
    cases g with
    | combined => exact (clash (combined?_of_imaginary? hf) hg).elim
    | real => exact (clash (real?_of_imaginary? hf) hg).elim
    | imaginary => rfl

theorem countP_read?_le_one (cs : List Char) : (all.countP fun f => (f.read? cs).isSome) ≤ 1 := by
  by_cases h : ∃ (f : Form) (z : Complex), f.read? cs = some z
  · obtain ⟨f, z, hz⟩ := h
    have hcongr : (all.countP fun g => (g.read? cs).isSome) = all.countP fun g => g = f := by
      refine List.countP_congr fun g _ => ?_
      rw [decide_eq_true_iff, Option.isSome_iff_exists]
      constructor
      · rintro ⟨w, hw⟩
        exact eq_of_read? hw hz
      · rintro rfl
        exact ⟨z, hz⟩
    rw [hcongr]
    cases f <;> decide
  · have hnone : (all.countP fun f => (f.read? cs).isSome) = 0 := by
      rw [List.countP_eq_zero]
      intro f _ hf
      exact h ⟨f, Option.isSome_iff_exists.1 hf⟩
    omega

/-! ### Trying the forms -/

/-- Since no other form is in its way, a form that reads the text is found wherever it stands. -/
theorem first?_eq_some_iff {order : List Form} {cs : List Char} {z : Complex} :
    first? order cs = some z ↔ ∃ f ∈ order, f.read? cs = some z := by
  constructor
  · exact List.exists_of_findSome?_eq_some
  · rintro ⟨f, hf, hz⟩
    have hsome : (first? order cs).isSome := by
      rw [first?, List.findSome?_isSome_iff]
      exact ⟨f, hf, by rw [hz]; rfl⟩
    obtain ⟨w, hw⟩ := Option.isSome_iff_exists.1 hsome
    obtain ⟨g, -, hg⟩ := List.exists_of_findSome?_eq_some hw
    obtain rfl := eq_of_read? hz hg
    rw [hw, ← hg, hz]

theorem first?_perm {order order' : List Form} (h : order.Perm order') (cs : List Char) :
    first? order cs = first? order' cs := by
  ext z
  simp only [first?_eq_some_iff, h.mem_iff]

end Form

theorem parse?_eq_first? (cs : List Char) : parse? cs = Form.first? Form.all cs := by
  simp only [parse?, Form.first?, Form.all, Form.read?, List.findSome?_cons, List.findSome?_nil]
  cases combined? cs with
  | some z => rfl
  | none =>
    cases real? cs with
    | some z => rfl
    | none => cases imaginary? cs <;> rfl

/-- At most one form reads a text.  So whatever order the forms are tried in, the answer is the same: that of the form
that reads the text, if there is one. -/
theorem parse?_perm (cs : List Char) :
    (Form.all.countP fun f => (f.read? cs).isSome) ≤ 1 ∧
      (∀ order : List Form, order.Perm Form.all → Form.first? order cs = parse? cs) ∧
      ∀ z, parse? cs = some z ↔ ∃ f : Form, f.read? cs = some z := by
  refine ⟨Form.countP_read?_le_one cs, fun order h => ?_, fun z => ?_⟩
  · rw [parse?_eq_first?, Form.first?_perm h]
  · rw [parse?_eq_first?, Form.first?_eq_some_iff]
    exact ⟨fun ⟨f, _, hz⟩ => ⟨f, hz⟩, fun ⟨f, hz⟩ => ⟨f, f.mem_all, hz⟩⟩

/-- Infinity behind the imaginary unit, with its plus sign, where the mark of the combined form stands as well. -/
theorem parse?_perm_i_plus_inf :
    let order : List Form := [.imaginary, .real, .combined]
    order.Perm Form.all ∧ Form.first? order "i+inf".toList = parse? "i+inf".toList ∧
      Form.imaginary.read? "i+inf".toList = some (.ofImaginary Binary64.infinity) ∧
      parse? "i+inf".toList = some (.ofImaginary Binary64.infinity) := by
  intro order
  have hperm : order.Perm Form.all := by decide
  have hread : Form.imaginary.read? "i+inf".toList = some (.ofImaginary Binary64.infinity) := rfl
  obtain ⟨-, horder, hparse⟩ := parse?_perm "i+inf".toList
  exact ⟨hperm, horder order hperm, hread, (hparse _).2 ⟨.imaginary, hread⟩⟩

end Literal

end ReversePolish
