import ReversePolish.Proofs.Stepping

/-!
# Programs on top of a stack

The words of a program look only at the top of the stack, as deep as their operators ask for.  What lies below is
neither read nor changed, so a program that finds all it needs on one stack does the same on top of any other
(`steps_onto`).  Only four operators look at the whole stack.  The bodies of the others work above the base
(`Operator.body_onto`) as soon as the stack satisfies their arity, and then so do steps (`Calculator.step_onto`).
-/

namespace ReversePolish

/-! ### Stacks on stacks -/

namespace Stack

theorem push_onto (z : Complex) (base s : Stack) : (base.onto s).push z = base.onto (s.push z) := rfl

theorem pop_onto (z : Complex) (base : Stack) {s : Stack} (h : 0 < s.size) :
    (base.onto s).pop z = ((s.pop z).1, base.onto (s.pop z).2) := by
  rcases s with ⟨_ | ⟨x, elements⟩⟩
  · exact absurd h (Nat.lt_irrefl 0)
  · rfl

theorem top?_onto (base : Stack) {s : Stack} (h : 0 < s.size) : (base.onto s).top? = s.top? := by
  rcases s with ⟨_ | ⟨x, elements⟩⟩
  · exact absurd h (Nat.lt_irrefl 0)
  · rfl

end Stack

/-! ### Operators -/

namespace Operator

/-- The operators that look at the whole stack. -/
def wholeStack : List Operator := [sum, mean, clear, count]

/-- What a body does above a base, when the stack satisfies the arity. -/
theorem body_onto (m : Machine) (base : Stack) {op : Operator} {s : Stack} (hop : op ∉ wholeStack)
    (h : op.arity.satisfiedBy s.size) :
    (op.body m (base.onto s)).1 = base.onto (op.body m s).1 := by
  cases op with
  | binary f =>
    have htwo : 2 ≤ s.size := Arity.satisfiedBy_exactly.1 h
    -- the second pop is above the base as well
    have hone : 0 < (s.pop m.emptyPop).2.size := by
      rw [Stack.size_pop]
      omega
    simp only [body, bodyWith, Machine.pop, pure_bind, Id.run_pure, Stack.pop_onto m.emptyPop base
      (show 0 < s.size by omega), Stack.pop_onto m.emptyPop base hone, Stack.push_onto]
  | unary f =>
    have hone : 1 ≤ s.size := Arity.satisfiedBy_exactly.1 h
    simp only [body, bodyWith, Machine.pop, pure_bind, Id.run_pure, Stack.pop_onto m.emptyPop base hone,
      Stack.push_onto]
  | pop =>
    have hone : 1 ≤ s.size := Arity.satisfiedBy_exactly.1 h
    simp only [body, bodyWith, Machine.pop, pure_bind, Id.run_pure, Stack.pop_onto m.emptyPop base hone]
  | sum => exact absurd (by decide) hop
  | mean => exact absurd (by decide) hop
  | clear => exact absurd (by decide) hop
  | count => exact absurd (by decide) hop

end Operator

/-! ### Steps -/

namespace Calculator

/-- A step that finds on its stack what it asks for: no operator is refused, and there is a value to print. -/
def Served (m : Machine) (s : Stack) (word : String) : Prop :=
  ¬ (step m s word).Reports .stackTooSmall ∧ (word = "." → s.isEmpty = false)

/-- What a step does above a base. -/
theorem step_onto (m : Machine) (base : Stack) {s : Stack} {word : String}
    (hword : ∀ op ∈ Operator.wholeStack, op.token ≠ word) (h : Served m s word) :
    (step m (base.onto s) word).flow = (step m s word).flow ∧ (step m (base.onto s) word).text = (step m s word).text ∧
      (step m (base.onto s) word).stack = base.onto (step m s word).stack := by
  obtain ⟨hreports, hprint⟩ := h
  rw [reports_stackTooSmall_iff] at hreports
  simp only [step_flow, step_text, step_stack]
  cases hcommand : Command.ofWord word with
  | print =>
    have hsize := Stack.isEmpty_eq_false_iff.1 (hprint (Command.ofWord_eq_print_iff.1 hcommand))
    refine ⟨rfl, ?_, rfl⟩
    simp only [execute, Stack.top?_onto base hsize]
  | quit => exact ⟨rfl, rfl, rfl⟩
  | help => exact ⟨rfl, rfl, rfl⟩
  | push z => exact ⟨rfl, rfl, rfl⟩
  | unrecognized w => exact ⟨rfl, rfl, rfl⟩
  | apply op =>
    have hop : op ∉ Operator.wholeStack := fun hmem => hword op hmem (Command.token_of_ofWord hcommand)
    have hdeep : op.arity.satisfiedBy s.size :=
      eq_true_of_ne_false fun hshallow => hreports ⟨op, hcommand, hshallow⟩
    -- on top of the base the stack is deeper still
    have hdeep' : op.arity.satisfiedBy (base.onto s).size :=
      Arity.satisfiedBy_mono (by rw [Stack.size_onto]; omega) hdeep
    refine ⟨rfl, ?_, ?_⟩
    · simp only [execute, Operator.apply_eq, if_pos hdeep, if_pos hdeep']
    · simp only [execute, Operator.apply_eq, if_pos hdeep, if_pos hdeep', Operator.body_onto m base hop hdeep]

/-! ### Programs -/

/-- Words that find what they ask for, each on the stack that the one before it left. -/
def SelfContained (m : Machine) (s : Stack) : List String → Prop
  | [] => True
  | word :: words => Served m s word ∧ SelfContained m (step m s word).stack words

/-- A program that finds on a stack all that it asks for, and does not look at the whole stack, does the same on top
of any other stack: it prints the same, goes on in the same way, and leaves what lies below as it was. -/
theorem steps_onto (m : Machine) (base s : Stack) (words : List String)
    (hwords : ∀ op ∈ Operator.wholeStack, op.token ∉ words) (h : SelfContained m s words) :
    (steps m (base.onto s) words).map Step.flow = (steps m s words).map Step.flow ∧
      (steps m (base.onto s) words).map Step.text = (steps m s words).map Step.text ∧
      (stackAfter m (base.onto s) words).toList = base.toList ++ (stackAfter m s words).toList := by
  induction words generalizing s with
  | nil => exact ⟨rfl, rfl, Stack.toList_onto base s⟩
  | cons word words ih =>
    have hword : ∀ op ∈ Operator.wholeStack, op.token ≠ word := by
      rintro op hop rfl
      exact hwords op hop (by simp)
    have hwords' : ∀ op ∈ Operator.wholeStack, op.token ∉ words :=
      fun op hop hmem => hwords op hop (List.mem_cons_of_mem word hmem)
    obtain ⟨hflow, htext, hstack⟩ := step_onto m base hword h.1
    obtain ⟨ihflow, ihtext, ihstack⟩ := ih (step m s word).stack hwords' h.2
    refine ⟨?_, ?_, ?_⟩
    · rw [steps, steps, List.map_cons, List.map_cons, hflow, hstack, ihflow]
    · rw [steps, steps, List.map_cons, List.map_cons, htext, hstack, ihtext]
    · rw [stackAfter, List.foldl_cons, hstack]
      exact ihstack

theorem steps_onto_four_words :
    let base := Stack.ofList [Complex.unit, Complex.i]
    let words := ["2", "i3", "+", "."]
    (∀ op ∈ Operator.wholeStack, op.token ∉ words) ∧ SelfContained .standard .empty words ∧
      (steps .standard (base.onto .empty) words).map Step.text = (steps .standard .empty words).map Step.text := by
  intro base words
  have hwords : ∀ op ∈ Operator.wholeStack, op.token ∉ words := by decide
  have hserved : SelfContained .standard .empty words := by
    obtain ⟨z, hz⟩ : ∃ z, Command.ofWord "2" = .push z := ⟨_, rfl⟩
    obtain ⟨w, hw⟩ : ∃ w, Command.ofWord "i3" = .push w := ⟨_, rfl⟩
    have hadd : Command.ofWord "+" = .apply (.binary .add) := rfl
    have hprint : Command.ofWord "." = .print := rfl
    simp [words, SelfContained, Served, reports_stackTooSmall_iff, hz, hw, hadd, hprint, execute, Operator.apply_eq,
      Operator.arity, Arity.satisfiedBy, Operator.body, Operator.bodyWith, Machine.pop, Stack.isEmpty_eq_false_iff]
  exact ⟨hwords, hserved, (steps_onto .standard base .empty words hwords hserved).2.1⟩

end Calculator

end ReversePolish
