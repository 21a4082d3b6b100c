import ReversePolish.Literal
import ReversePolish.Proofs.Numerals

/-!
# The grammar of literals

`Denotes` is the grammar `R`, `iI` and `R+iI` with its values.  `parse?` splits the combined form at the first
mark, and the real part may itself begin with one: `+inf+i5` is cut into the empty text and `nf+i5`, and is
rejected.  These texts are the `Hidden` ones, and they are the only ones where `parse?` and the grammar differ.
-/

namespace ReversePolish

namespace Literal

/-- The text of a real number, and the double nearest to it. -/
def Text (r : List Char) (x : Float) : Prop := ∃ n, Numeral.Written r n ∧ n.toFloat = x

/-- What a text says as a literal. -/
inductive Denotes : List Char → Complex → Prop where
  | real {r : List Char} {x : Float} : Text r x → Denotes r (Complex.ofReal x)
  | imaginary {m : List Char} {y : Float} : Text m y → Denotes ('i' :: m) (Complex.ofImaginary y)
  | combined {r m : List Char} {x y : Float} : Text r x → Text m y → Denotes (r ++ '+' :: 'i' :: m) ⟨x, y⟩

/-- A combined form whose real part is infinity, written with a plus sign and a small `i`. -/
def Hidden (cs : List Char) : Prop := ∃ w m y, cs = '+' :: 'i' :: (w ++ '+' :: 'i' :: m) ∧
  (w.map Char.toLower = ['n', 'f'] ∨ w.map Char.toLower = ['n', 'f', 'i', 'n', 'i', 't', 'y']) ∧ Text m y

/-! ### Texts of real numbers -/

theorem read?_eq_some_iff {r : List Char} {x : Float} : Numeral.read? r = some x ↔ Text r x := by
  simp only [Numeral.read?, Option.map_eq_some_iff, Numeral.parse?_eq_some_iff, Text]

/-- No text of a real number contains a mark behind its first character. -/
theorem Text.plus_i {a b : List Char} {x : Float} (h : Text (a ++ '+' :: 'i' :: b) x) : a = [] := by
  obtain ⟨n, hn, -⟩ := h
  exact hn.plus_i

theorem Text.not_cons_i {m : List Char} {x y : Float} (h : Text m y) : ¬ Text ('i' :: m) x := by
  rintro ⟨n, hn, -⟩
  obtain ⟨k, hk, -⟩ := h
  exact hk.not_cons_i hn

theorem not_text_nil {x : Float} : ¬ Text [] x := by
  rw [← read?_eq_some_iff]
  rintro ⟨⟩

theorem not_text_i {x : Float} : ¬ Text ['i'] x := by
  rw [← read?_eq_some_iff]
  rintro ⟨⟩

theorem Text.ascii {r : List Char} {x : Float} (h : Text r x) : Ascii r := by
  obtain ⟨n, hn, -⟩ := h
  exact hn.ascii

/-! ### The mark -/

theorem splitMark?_cons {c : Char} {cs : List Char} (h : ∀ rest, c = '+' → cs = 'i' :: rest → False) :
    splitMark? (c :: cs) = (splitMark? cs).map fun (head, rest) => (c :: head, rest) :=
  splitMark?.eq_3 c cs h

theorem splitMark?_append {r : List Char} (h : splitMark? r = none) (m : List Char) :
    splitMark? (r ++ '+' :: 'i' :: m) = some (r, m) := by
  induction r using splitMark?.induct with
  | case1 => rfl
  | case2 tail => cases h
  | case3 c tail hmark ih =>
    rw [splitMark?_cons hmark, Option.map_eq_none_iff] at h
    -- the mark that follows makes no new one together with `c`, whether `tail` is empty or not
    have hmark' : ∀ rest, c = '+' → tail ++ '+' :: 'i' :: m = 'i' :: rest → False := by
      intro rest hc hrest
      cases tail with
      | nil => cases hrest
      | cons d tail => exact hmark tail hc (by rw [(List.cons.inj hrest).1])
    rw [List.cons_append, splitMark?_cons hmark', ih h]
    rfl

theorem splitMark?_eq_none {r : List Char} (h : 'i' ∉ r) : splitMark? r = none := by
  refine Option.eq_none_iff_forall_ne_some.2 fun ⟨head, rest⟩ hmark => h ?_
  rw [splitMark?_eq_some hmark]
  simp

theorem combined?_eq_some_iff {cs : List Char} {z : Complex} : combined? cs = some z ↔
    ∃ r m, splitMark? cs = some (r, m) ∧ Text r z.re ∧ Text m z.im := by
  simp only [combined?, Option.bind_eq_bind, Option.bind_eq_some_iff, Prod.exists, read?_eq_some_iff]
  constructor
  · rintro ⟨r, m, hmark, x, hx, y, hy, ⟨⟩⟩
    exact ⟨r, m, hmark, hx, hy⟩
  · rintro ⟨r, m, hmark, hx, hy⟩
    exact ⟨r, m, hmark, z.re, hx, z.im, hy, rfl⟩

theorem combined?_eq_none {cs : List Char} (h : ∀ a b, cs = a ++ '+' :: 'i' :: b → ∀ x, ¬ Text a x) :
    combined? cs = none := by
  refine Option.eq_none_iff_forall_ne_some.2 fun z hz => ?_
  obtain ⟨a, b, hab, ha, -⟩ := combined?_eq_some_iff.1 hz
  exact h a b (splitMark?_eq_some hab) z.re ha

theorem Text.combined?_eq_none {r : List Char} {x : Float} (h : Text r x) : combined? r = none := by
  refine Literal.combined?_eq_none ?_
  rintro a b rfl y
  rw [h.plus_i]
  exact not_text_nil

theorem Text.combined?_cons_i {m : List Char} {y : Float} (h : Text m y) : combined? ('i' :: m) = none := by
  refine Literal.combined?_eq_none fun a b hab x => ?_
  cases a with
  | nil => cases hab
  | cons c a =>
    obtain ⟨rfl, rfl⟩ := List.cons.inj hab
    rw [h.plus_i]
    exact not_text_i

theorem real?_eq_some_iff {cs : List Char} {z : Complex} :
    real? cs = some z ↔ ∃ x, Text cs x ∧ Complex.ofReal x = z := by
  simp only [real?, Option.map_eq_some_iff, read?_eq_some_iff]

theorem Text.real?_cons_i {m : List Char} {y : Float} (h : Text m y) : real? ('i' :: m) = none := by
  refine Option.eq_none_iff_forall_ne_some.2 fun z hz => ?_
  obtain ⟨x, hx, -⟩ := real?_eq_some_iff.1 hz
  exact h.not_cons_i hx

theorem imaginary?_eq_some_iff {cs : List Char} {z : Complex} :
    imaginary? cs = some z ↔ ∃ m y, cs = 'i' :: m ∧ Text m y ∧ Complex.ofImaginary y = z := by
  constructor
  · intro h
    unfold imaginary? at h
    split at h
    · rename_i tail
      obtain ⟨y, hy, rfl⟩ := Option.map_eq_some_iff.1 h
      exact ⟨tail, y, rfl, read?_eq_some_iff.1 hy, rfl⟩
    · cases h
  · rintro ⟨m, y, rfl, hy, rfl⟩
    simp [imaginary?, read?_eq_some_iff.2 hy]

/-! ### Reading literals -/

private theorem parse?_eq (cs : List Char) : parse? cs = ((combined? cs).or (real? cs)).or (imaginary? cs) := by
  simp only [parse?, Option.orElse_eq_orElse, Option.orElse_eq_or, Option.or_assoc]

theorem denotes_of_parse? {cs : List Char} {z : Complex} (h : parse? cs = some z) : Denotes cs z := by
  rw [parse?_eq, Option.or_eq_some_iff, Option.or_eq_some_iff] at h
  obtain (h | ⟨-, h⟩) | ⟨-, h⟩ := h
  · obtain ⟨r, m, hmark, hr, hm⟩ := combined?_eq_some_iff.1 h
    rw [splitMark?_eq_some hmark]
    exact .combined hr hm
  · obtain ⟨x, hx, rfl⟩ := real?_eq_some_iff.1 h
    exact .real hx
  · obtain ⟨m, y, rfl, hy, rfl⟩ := imaginary?_eq_some_iff.1 h
    exact .imaginary hy

theorem Denotes.ascii {cs : List Char} {z : Complex} (h : Denotes cs z) : Ascii cs := by
  cases h with
  | real hr => exact hr.ascii
  | imaginary hm => exact .cons (by decide) hm.ascii
  | combined hr hm => exact hr.ascii.append (.cons (by decide) (.cons (by decide) hm.ascii))

theorem splitMark?_eq_none_or {r : List Char} {x : Float} (h : Text r x) : splitMark? r = none ∨
    ∃ w, r = '+' :: 'i' :: w ∧
      (w.map Char.toLower = ['n', 'f'] ∨ w.map Char.toLower = ['n', 'f', 'i', 'n', 'i', 't', 'y']) := by
  cases hmark : splitMark? r with
  | none => exact .inl rfl
  | some p =>
    obtain ⟨a, b⟩ := p
    obtain rfl := splitMark?_eq_some hmark
    obtain rfl := h.plus_i
    obtain ⟨n, hn, -⟩ := h
    exact .inr ⟨b, rfl, (Numeral.written_plus_i_iff.1 hn).2⟩

/-- The combined form is cut at its mark unless there is one in the real part. -/
theorem parse?_mark {r m : List Char} {x y : Float} (hr : Text r x) (hmark : splitMark? r = none) (hm : Text m y) :
    parse? (r ++ '+' :: 'i' :: m) = some ⟨x, y⟩ := by
  have hcombined := combined?_eq_some_iff (z := ⟨x, y⟩) |>.2 ⟨r, m, splitMark?_append hmark m, hr, hm⟩
  rw [parse?_eq, hcombined]
  rfl

theorem parse?_of_denotes {cs : List Char} {z : Complex} (h : Denotes cs z) (hcs : ¬ Hidden cs) :
    parse? cs = some z := by
  cases h with
  | real hr =>
    rw [parse?_eq, hr.combined?_eq_none, real?_eq_some_iff.2 ⟨_, hr, rfl⟩]
    rfl
  | imaginary hm =>
    rw [parse?_eq, hm.combined?_cons_i, hm.real?_cons_i, imaginary?_eq_some_iff.2 ⟨_, _, rfl, hm, rfl⟩]
    rfl
  | @combined r m x y hr hm =>
    obtain hmark | ⟨w, rfl, hw⟩ := splitMark?_eq_none_or hr
    · exact parse?_mark hr hmark hm
    · exact absurd ⟨w, m, y, rfl, hw, hm⟩ hcs

/-- Nothing is hidden behind a real part without an `i`. -/
theorem parse?_combined {r m : List Char} {x y : Float} (hr : Text r x) (hi : 'i' ∉ r) (hm : Text m y) :
    parse? (r ++ '+' :: 'i' :: m) = some ⟨x, y⟩ :=
  parse?_mark hr (splitMark?_eq_none hi) hm

theorem parse?_real {r : List Char} {x : Float} (hr : Text r x) (hi : 'i' ∉ r) : parse? r = some (.ofReal x) := by
  refine parse?_of_denotes (.real hr) ?_
  rintro ⟨w, m, y, rfl, -⟩
  exact hi (by simp)

theorem parse?_imaginary {m : List Char} {y : Float} (hm : Text m y) : parse? ('i' :: m) = some (.ofImaginary y) := by
  refine parse?_of_denotes (.imaginary hm) ?_
  rintro ⟨w, m, y, ⟨⟩, -⟩

theorem Hidden.exists_denotes {cs : List Char} (h : Hidden cs) : ∃ z, Denotes cs z := by
  obtain ⟨w, m, y, rfl, hw, hm⟩ := h
  have hr : Text ('+' :: 'i' :: w) (Numeral.infinity false).toFloat :=
    ⟨_, Numeral.written_plus_i_iff.2 ⟨rfl, hw⟩, rfl⟩
  exact ⟨_, .combined hr hm⟩

theorem parse?_of_hidden {cs : List Char} (h : Hidden cs) : parse? cs = none := by
  obtain ⟨w, m, y, rfl, hw, hm⟩ := h
  have hcombined : combined? ('+' :: 'i' :: (w ++ '+' :: 'i' :: m)) = none := by
    refine Option.eq_none_iff_forall_ne_some.2 fun z hz => ?_
    obtain ⟨a, b, ⟨⟩, ha, -⟩ := combined?_eq_some_iff.1 hz
    exact not_text_nil ha
  have hreal : real? ('+' :: 'i' :: (w ++ '+' :: 'i' :: m)) = none := by
    refine Option.eq_none_iff_forall_ne_some.2 fun z hz => ?_
    obtain ⟨x, hx, -⟩ := real?_eq_some_iff.1 hz
    exact absurd (Text.plus_i (a := '+' :: 'i' :: w) hx) (List.cons_ne_nil _ _)
  rw [parse?_eq, hcombined, hreal]
  rfl

/-- `parse?` reads a text as the grammar does unless the first mark of the text is inside its real part. -/
theorem parse?_eq_some_iff_denotes (cs : List Char) :
    (∀ z, parse? cs = some z ↔ Denotes cs z ∧ ¬ Hidden cs) ∧
      ((∀ z, parse? cs = some z ↔ Denotes cs z) ↔ ¬ Hidden cs) := by
  have key : ∀ z, parse? cs = some z ↔ Denotes cs z ∧ ¬ Hidden cs := by
    intro z
    constructor
    · intro h
      refine ⟨denotes_of_parse? h, fun hcs => ?_⟩
      rw [parse?_of_hidden hcs] at h
      cases h
    · rintro ⟨h, hcs⟩
      exact parse?_of_denotes h hcs
  refine ⟨key, ?_, fun hcs z => ?_⟩
  · intro h hcs
    obtain ⟨z, hz⟩ := hcs.exists_denotes
    exact ((key z).1 ((h z).2 hz)).2 hcs
  · rw [key z]
    simp [hcs]

/-- Infinity and five times the imaginary unit, both with their plus signs, are rejected. -/
theorem parse?_plus_inf_plus_i5 : Denotes "+inf+i5".toList ⟨Binary64.infinity, Binary64.ofNat 5⟩ ∧
    parse? "+inf+i5".toList = none ∧ ¬ ∀ cs z, parse? cs = some z ↔ Denotes cs z := by
  have hr : Text "+inf".toList Binary64.infinity := ⟨.infinity false, Numeral.parse?_eq_some_iff.1 rfl, rfl⟩
  have hm : Text "5".toList (Binary64.ofNat 5) := ⟨.decimal false 5 0, Numeral.parse?_eq_some_iff.1 rfl, rfl⟩
  have hdenotes : Denotes "+inf+i5".toList ⟨Binary64.infinity, Binary64.ofNat 5⟩ := .combined hr hm
  have hnone : parse? "+inf+i5".toList = none := parse?_of_hidden ⟨['n', 'f'], ['5'], _, rfl, .inl rfl, hm⟩
  refine ⟨hdenotes, hnone, fun h => ?_⟩
  have := (h _ _).2 hdenotes
  rw [hnone] at this
  cases this

end Literal

end ReversePolish
