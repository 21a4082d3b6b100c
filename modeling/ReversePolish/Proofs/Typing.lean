import ReversePolish.Proofs.Printing
import ReversePolish.Proofs.Shortest
import ReversePolish.Proofs.Stepping

/-!
# Any stack can be typed in

The text of a double with its shortest digits is a numeral of exactly this double (`Binary64.text_chars`), and has no
exponent (`Binary64.exists_isShortest`).  It never begins with a plus sign, so a text of two of them is cut between the
two, whatever they are (`Complex.parse?_literal`).  So a stack is built by typing one literal for each of its elements
(`steps_literals`).
-/

namespace ReversePolish

/-! ### Doubles -/

namespace Decimal

/-- In positional notation there is no exponent. -/
theorem isDigit_or_of_mem_positional {n : Nat} {e : Int} {c : Char} (h : c ∈ positional n e) : c.isDigit ∨ c = '.' := by
  cases e with
  | ofNat e => exact .inl (isDigit_of_mem_digits h)
  | negSucc e =>
    rcases List.mem_append.1 h with h | h
    · exact .inl (isDigit_of_mem_digits h)
    · rcases List.mem_cons.1 h with rfl | h
      · exact .inr rfl
      · exact .inl (isDigit_of_mem_padded h)

end Decimal

namespace Numeral

/-- The text of a decimal in positional notation, which may have got other digits than the decimal. -/
theorem unsignedText_positional (n : Nat) (e : Int) : ∃ k f, UnsignedText (Decimal.positional n e) k f ∧
    (k * 10 ^ f : ℚ) = n * 10 ^ e := by
  cases e with
  | ofNat e =>
    have hdigits : Digits (Decimal.digits (n * 10 ^ e)) := fun _ => Decimal.isDigit_of_mem_digits
    have htext := UnsignedText.whole hdigits (Decimal.digits_ne_nil _) .none
    rw [Decimal.ofDigits_digits, List.append_nil] at htext
    exact ⟨n * 10 ^ e, 0, htext, by simp⟩
  | negSucc e => exact ⟨n, _, unsignedText_withPoint (Nat.succ_pos e) n, rfl⟩

end Numeral

namespace Binary64

open Report (signText_minus)

/-- The text of a double with its shortest digits denotes this double. -/
theorem text_chars (x : Float) : Literal.Text (chars x) x := by
  have hx := ofValue_value x
  unfold chars
  cases hvalue : value x with
  | nan =>
    rw [hvalue] at hx
    exact ⟨.nan, .nan .none (by decide), hx⟩
  | infinity negative =>
    rw [hvalue] at hx
    exact ⟨.infinity negative, .infinity (signText_minus negative) (.inl (by decide)), hx⟩
  | finite negative b =>
    rw [hvalue] at hx
    obtain ⟨k, f, htext, hkf⟩ := Numeral.unsignedText_positional (shortest b).1 (shortest b).2
    have hread : ofDecimal k f = b :=
      (ofDecimal_congr hkf).trans (reads_shortest (lt_infinite_of_value hvalue).le).back
    refine ⟨.decimal negative k f, .decimal (signText_minus negative) htext, ?_⟩
    rw [Numeral.toFloat, hread]
    exact hx

theorem chars_ne_plus (x : Float) (cs : List Char) : chars x ≠ '+' :: cs := by
  unfold chars
  cases value x with
  | nan => exact nofun
  | infinity negative => cases negative <;> exact nofun
  | finite negative b =>
    cases negative with
    | true => exact nofun
    | false =>
      obtain ⟨k, f, htext, -⟩ := Numeral.unsignedText_positional (shortest b).1 (shortest b).2
      obtain ⟨c, tail, hhead, hc⟩ := htext.exists_head
      intro h
      have h : Decimal.positional (shortest b).1 (shortest b).2 = '+' :: cs := h
      rw [hhead] at h
      obtain ⟨rfl, -⟩ := List.cons.inj h
      exact absurd hc (by decide)

theorem splitMark?_chars (x : Float) : Literal.splitMark? (chars x) = none := by
  obtain hmark | ⟨w, hw, -⟩ := Literal.splitMark?_eq_none_or (text_chars x)
  · exact hmark
  · exact absurd hw (chars_ne_plus x _)

/-- The text of a finite double is its sign and a shortest decimal that reads back, without an exponent. -/
theorem exists_isShortest {x : Float} {negative : Bool} {b : Nat} (hx : value x = .finite negative b) :
    ∃ n e, IsShortest b n e ∧ chars x = (if negative then ['-'] else []) ++ Decimal.positional n e ∧
      ∀ c ∈ Decimal.positional n e, c.isDigit ∨ c = '.' := by
  refine ⟨_, _, isShortest_shortest (lt_infinite_of_value hx).le, ?_, fun _ => Decimal.isDigit_or_of_mem_positional⟩
  rw [chars, hx]

/-- A double as it is typed. -/
def literal (x : Float) : String := String.ofList (chars x)

theorem parse?_literal (x : Float) : Literal.parse? (literal x).toList = some (.ofReal x) := by
  rw [literal, String.toList_ofList]
  refine Literal.parse?_of_denotes (.real (text_chars x)) ?_
  rintro ⟨w, m, y, h, -⟩
  exact chars_ne_plus x _ h

end Binary64

/-! ### Steps -/

/-- A complex number as it is typed. -/
def Complex.literal (z : Complex) : String := String.ofList (Binary64.chars z.re ++ '+' :: 'i' :: Binary64.chars z.im)

theorem Complex.parse?_literal (z : Complex) : Literal.parse? z.literal.toList = some z := by
  rw [literal, String.toList_ofList]
  exact Literal.parse?_mark (Binary64.text_chars z.re) (Binary64.splitMark?_chars z.re) (Binary64.text_chars z.im)

namespace Calculator

/-- Words that say numbers put them on the stack, one above the other. -/
theorem leaves_literals (m : Machine) (s : Stack) {words : List String} {zs : List Complex}
    (h : List.Forall₂ (fun word z => Literal.parse? word.toList = some z) words zs) :
    Leaves m s words (.ofList (s.toList ++ zs)) := by
  induction h generalizing s with
  | nil =>
    rw [List.append_nil, Stack.ofList_toList]
    exact .nil m s
  | @cons word z words zs hword _ ih =>
    have hrest := ih (s.push z)
    rw [Stack.toList_push, List.append_assoc] at hrest
    exact (leaves_of_parse? hword m s).cons hrest

theorem leaves_add (m : Machine) (s : Stack) (z w : Complex) : Leaves m ((s.push z).push w) ["+"] (s.push (z + w)) :=
  leaves_token m (.binary .add) (by simp [Operator.arity, Arity.satisfiedBy])

/-- Any stack can be typed in.  Stepping the literals of some values on a new calculator prints nothing and leaves exactly
these values; all doubles that are no numbers are the same one.  And stepping the literals of two doubles and `+` leaves
their sum above all that was there.  The text of a finite double in a literal is its sign and a shortest decimal that
reads back, without an exponent. -/
theorem steps_literals (m : Machine) :
    (∀ zs : List Complex, (∀ step ∈ steps m .empty (zs.map Complex.literal), step.text = "") ∧
      (stackAfter m .empty (zs.map Complex.literal)).toList = zs) ∧
    (∀ (base : Stack) (a b : Float), (stackAfter m base [Binary64.literal a, Binary64.literal b, "+"]).toList =
      base.toList ++ [.ofReal a + .ofReal b]) ∧
    ∀ x negative b, Binary64.value x = .finite negative b →
      ∃ n e, Binary64.IsShortest b n e ∧
        Binary64.chars x = (if negative then ['-'] else []) ++ Decimal.positional n e ∧
        ∀ c ∈ Decimal.positional n e, c.isDigit ∨ c = '.' := by
  refine ⟨?_, ?_, fun _ _ _ => Binary64.exists_isShortest⟩
  · intro zs
    have hsay : List.Forall₂ (fun word z => Literal.parse? word.toList = some z) (zs.map Complex.literal) zs := by
      rw [List.forall₂_map_left_iff, List.forall₂_same]
      exact fun z _ => z.parse?_literal
    obtain ⟨hstack, hsilent⟩ := leaves_literals m .empty hsay
    refine ⟨hsilent, ?_⟩
    rw [hstack, Stack.toList_ofList]
    rfl
  · intro base a b
    have ha := leaves_of_parse? (Binary64.parse?_literal a) m base
    have hb := leaves_of_parse? (Binary64.parse?_literal b) m (base.push (.ofReal a))
    rw [(ha.cons (hb.cons (leaves_add m base _ _))).stack]
    exact Stack.toList_push _ base

end Calculator

end ReversePolish
