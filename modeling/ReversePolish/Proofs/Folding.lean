import ReversePolish.Proofs.Typing

/-!
# Aggregates as programs

What `sum`, `mean` and `count` do in one step, a program of literals and the elementary operators does as well, with the
same operations on the same doubles (`steps_aggregates`).  Adding the elements one by one to a zero is the fold that
`sum` is, because the accumulated number lies below the new one and so is the first operand.
-/

namespace ReversePolish

/-- Reading the digits of a natural number gives the double nearest to it. -/
theorem Literal.parse?_repr (n : Nat) : parse? n.repr.toList = some (.ofReal (Binary64.ofNat n)) := by
  have hdigits : Numeral.Digits (Decimal.digits n) := fun _ => Decimal.isDigit_of_mem_digits
  have hwritten := Numeral.Written.decimal .none (.whole hdigits (Decimal.digits_ne_nil n) .none)
  rw [Decimal.ofDigits_digits, List.append_nil, List.nil_append] at hwritten
  have htext : Text (Decimal.digits n) (Binary64.ofNat n) := ⟨_, hwritten, rfl⟩
  rw [Nat.toList_repr]
  exact parse?_real htext fun hi => absurd (hdigits 'i' hi) (by decide)

/-- A whole number becomes the nearest double, and the even one of two. -/
theorem Binary64.isNearest_ofNat (n : Nat) : ∃ b, ofNat n = ofMagnitude false b ∧ IsNearest (n * unit) b := by
  have hnearest := isNearest_ofDecimal n 0
  rw [zpow_zero, mul_one] at hnearest
  exact ⟨ofDecimal n 0, rfl, hnearest⟩

namespace Calculator

/-- Adding numbers one after the other accumulates their sum. -/
theorem leaves_adds (m : Machine) (s : Stack) (total : Complex) {words : List String} {zs : List Complex}
    (h : List.Forall₂ (fun word z => Literal.parse? word.toList = some z) words zs) :
    Leaves m (s.push total) (words.flatMap fun word => [word, "+"]) (s.push (zs.foldl (· + ·) total)) := by
  induction h generalizing total with
  | nil => exact .nil m _
  | @cons word z words zs hword _ ih =>
    rw [List.flatMap_cons, List.foldl_cons]
    exact ((leaves_of_parse? hword m _).cons (leaves_add m s total z)).append (ih (total + z))

theorem leaves_sum (m : Machine) (s : Stack) : Leaves m s ["sum"] (.ofList [.sum s.toList]) :=
  leaves_token m .sum rfl

theorem leaves_divide (m : Machine) (s : Stack) (z w : Complex) :
    Leaves m ((s.push z).push w) ["/"] (s.push (z / w)) :=
  leaves_token m (.binary .divide) (by simp [Operator.arity, Arity.satisfiedBy])

theorem leaves_repr (m : Machine) (s : Stack) (n : Nat) :
    Leaves m s [n.repr] (s.push (.ofReal (Binary64.ofNat n))) :=
  leaves_of_parse? (Literal.parse?_repr n) m s

/-- The operators that look at the whole stack agree with programs of elementary ones, and none of these prints
anything.  Literals that are summed up from an empty stack leave what is left when they are added one by one to a zero.
On any stack, the empty one included, the mean is the sum divided by the number of elements as it is typed, and counting
the elements is typing their number; it is the nearest double, and the even one of two. -/
theorem steps_aggregates (m : Machine) {words : List String} {zs : List Complex}
    (hwords : List.Forall₂ (fun word z => Literal.parse? word.toList = some z) words zs) (s : Stack) :
    let total := Stack.ofList [.sum zs]
    let mean := Stack.ofList [.sum s.toList / .ofReal (Binary64.ofNat s.size)]
    let counted := s.push (.ofReal (Binary64.ofNat s.size))
    (Leaves m .empty (words ++ ["sum"]) total ∧
      Leaves m .empty ("0" :: words.flatMap fun word => [word, "+"]) total) ∧
    (Leaves m s ["mean"] mean ∧ Leaves m s ["sum", s.size.repr, "/"] mean) ∧
    (Leaves m s ["count"] counted ∧ Leaves m s [s.size.repr] counted) ∧
    ∃ b, Binary64.ofNat s.size = Binary64.ofMagnitude false b ∧ Binary64.IsNearest (s.size * Binary64.unit) b := by
  intro total mean counted
  refine ⟨⟨?_, ?_⟩, ⟨?_, ?_⟩, ⟨?_, ?_⟩, Binary64.isNearest_ofNat s.size⟩
  · have hsum := (leaves_literals m .empty hwords).append (leaves_sum m _)
    rwa [Stack.toList_ofList, Stack.toList_empty, List.nil_append] at hsum
  · exact (leaves_repr m .empty 0).cons (leaves_adds m .empty _ hwords)
  · exact leaves_token m .mean rfl
  · exact (leaves_sum m s).cons ((leaves_repr m _ s.size).cons (leaves_divide m .empty _ _))
  · exact leaves_token m .count rfl
  · exact leaves_repr m s s.size

/-- A negative zero, an infinity and a number of two parts are summed up; two numbers are counted. -/
theorem steps_aggregates_three_words :
    let words := ["-0", "i-inf", "1+i2"]
    let zs : List Complex :=
      [.ofReal (Binary64.ofMagnitude true 0), .ofImaginary (Binary64.ofValue (.infinity true)),
        ⟨Binary64.ofNat 1, Binary64.ofNat 2⟩]
    let s := Stack.ofList [Complex.unit, Complex.i]
    List.Forall₂ (fun word z => Literal.parse? word.toList = some z) words zs ∧
      Leaves .standard .empty ["-0", "i-inf", "1+i2", "sum"] (.ofList [.sum zs]) ∧
      Leaves .standard .empty ["0", "-0", "+", "i-inf", "+", "1+i2", "+"] (.ofList [.sum zs]) ∧
      Leaves .standard s ["count"] (.ofList [Complex.unit, Complex.i, .ofReal (Binary64.ofNat 2)]) ∧
      Leaves .standard s ["2"] (.ofList [Complex.unit, Complex.i, .ofReal (Binary64.ofNat 2)]) := by
  intro words zs s
  have hwords : List.Forall₂ (fun word z => Literal.parse? word.toList = some z) words zs :=
    .cons rfl (.cons rfl (.cons rfl .nil))
  have hrepr : s.size.repr = "2" := by decide
  obtain ⟨⟨hsum, hadds⟩, -, ⟨hcount, htyped⟩, -⟩ := steps_aggregates .standard hwords s
  rw [hrepr] at htyped
  exact ⟨hwords, hsum, hadds, hcount, htyped⟩

end Calculator

end ReversePolish
