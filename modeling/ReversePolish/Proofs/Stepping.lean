import Mathlib.Tactic.SplitIfs
import ReversePolish.Calculator

/-!
# What a word asks for and what its step reports

Meta-commands, literals and operators are spelled differently, so a word is a literal whenever it can be read as one
(`Command.ofWord_eq_push_iff`).  Of an operator without enough operands only a line of text tells.  Nothing else that a
step prints can be taken for that line, so it is there exactly if the word is an operator and the stack does not satisfy
its arity (`reports_stackTooSmall_iff`).
-/

namespace ReversePolish

/-! ### Words -/

namespace Command

theorem ofWord_eq_print_iff {word : String} : ofWord word = .print ↔ word = "." := by
  unfold ofWord
  split_ifs with h1 h2 h3
  · simp [h1]
  · simp [h1]
  · simp [h1]
  · cases Literal.parse? word.toList with
    | some z => simp [h1]
    | none => cases Operator.ofToken? word <;> simp [h1]

theorem ofWord_eq_push_iff {word : String} {z : Complex} :
    ofWord word = .push z ↔ Literal.parse? word.toList = some z := by
  unfold ofWord
  split_ifs with h1 h2 h3
  · rw [h1, show Literal.parse? ".".toList = none by rfl]
    simp
  · rw [h2, show Literal.parse? ".q".toList = none by rfl]
    simp
  · rcases h3 with h3 | h3
    · rw [h3, show Literal.parse? ".com".toList = none by rfl]
      simp
    · rw [h3, show Literal.parse? "?".toList = none by rfl]
      simp
  · cases Literal.parse? word.toList with
    | some w => simp
    | none => cases Operator.ofToken? word <;> simp

theorem token_of_ofWord {word : String} {op : Operator} (h : ofWord word = .apply op) : op.token = word := by
  unfold ofWord at h
  split_ifs at h
  cases hz : Literal.parse? word.toList with
  | some z => simp [hz] at h
  | none =>
    cases hop : Operator.ofToken? word with
    | none => simp [hz, hop] at h
    | some op' =>
      obtain rfl : op' = op := by simpa [hz, hop] using h
      exact Operator.ofToken?_eq_some_iff.1 hop

/-- No operator is spelled like a meta-command or a literal. -/
theorem ofWord_token (op : Operator) : ofWord op.token = .apply op := by
  rcases op with f | f | _ | _ | _ | _ | _ <;> (try cases f) <;> decide

end Command

/-! ### Texts -/

/-- The text of a step that tells of a failure. -/
def Step.Reports (step : Step) (f : Failure) : Prop := step.text = f.message ++ "\n"

/-- What is printed of a value is no message, since it begins with a parenthesis. -/
theorem Report.top_ne_message (f : Failure) (z? : Option Complex) : top z? ≠ f.message := by
  intro h
  have hhead : (top z?).toList.head? = some '(' := by
    cases z? with
    | none => rfl
    | some z => simp [top]
  rw [h] at hhead
  cases f <;> exact absurd hhead (by decide)

namespace Calculator

@[simp] theorem step_stack (m : Machine) (s : Stack) (word : String) :
    (step m s word).stack = (execute m s (Command.ofWord word)).stack := rfl

@[simp] theorem step_text (m : Machine) (s : Stack) (word : String) :
    (step m s word).text = (execute m s (Command.ofWord word)).text := rfl

@[simp] theorem step_flow (m : Machine) (s : Stack) (word : String) :
    (step m s word).flow = (execute m s (Command.ofWord word)).flow := rfl

/-- A step reports a stack that is too small exactly if its word is an operator that is refused. -/
theorem reports_stackTooSmall_iff (m : Machine) (s : Stack) (word : String) :
    (step m s word).Reports .stackTooSmall ↔
      ∃ op, Command.ofWord word = .apply op ∧ op.arity.satisfiedBy s.size = false := by
  rw [Step.Reports, step_text]
  cases Command.ofWord word with
  | print => simp [execute, Report.top_ne_message]
  | quit => simp [execute, Failure.message]
  | help => simpa [execute] using show Report.listing ≠ Failure.stackTooSmall.message ++ "\n" by decide
  | push z => simp [execute, Failure.message]
  | unrecognized w => simp [execute, Failure.message]
  | apply op =>
    cases h : op.arity.satisfiedBy s.size <;> simp [execute, Operator.apply_eq, h, Failure.message]

/-! ### Words one after the other -/

theorem stackAfter_cons (m : Machine) (s : Stack) (word : String) (words : List String) :
    stackAfter m s (word :: words) = stackAfter m (step m s word).stack words := rfl

theorem stackAfter_append (m : Machine) (s : Stack) (v w : List String) :
    stackAfter m s (v ++ w) = stackAfter m (stackAfter m s v) w := List.foldl_append

theorem steps_append (m : Machine) (s : Stack) (v w : List String) :
    steps m s (v ++ w) = steps m s v ++ steps m (stackAfter m s v) w := by
  induction v generalizing s with
  | nil => rfl
  | cons word v ih => exact congrArg (step m s word :: ·) (ih _)

theorem length_steps (m : Machine) (s : Stack) (words : List String) : (steps m s words).length = words.length := by
  induction words generalizing s with
  | nil => rfl
  | cons word words ih => exact congrArg (· + 1) (ih _)

/-- Evaluating some words on a stack prints nothing and leaves another stack. -/
structure Leaves (m : Machine) (s : Stack) (words : List String) (t : Stack) : Prop where
  stack : stackAfter m s words = t
  silent : ∀ step ∈ steps m s words, step.text = ""

namespace Leaves

theorem nil (m : Machine) (s : Stack) : Leaves m s [] s := ⟨rfl, by simp [steps]⟩

theorem single {m : Machine} {s t : Stack} {word : String} (hstack : (step m s word).stack = t)
    (htext : (step m s word).text = "") : Leaves m s [word] t := ⟨hstack, by simpa [steps] using htext⟩

theorem append {m : Machine} {s t u : Stack} {v w : List String} (hv : Leaves m s v t) (hw : Leaves m t w u) :
    Leaves m s (v ++ w) u := by
  obtain ⟨rfl, hv⟩ := hv
  obtain ⟨hstack, hw⟩ := hw
  refine ⟨by rw [stackAfter_append, hstack], fun step hstep => ?_⟩
  rw [steps_append] at hstep
  exact (List.mem_append.1 hstep).elim (hv step) (hw step)

theorem cons {m : Machine} {s t u : Stack} {word : String} {words : List String} (hword : Leaves m s [word] t)
    (hwords : Leaves m t words u) : Leaves m s (word :: words) u :=
  hword.append hwords

/-- Evaluating words that print nothing and then `.` prints the top of the stack that they leave. -/
theorem print {m : Machine} {s t : Stack} {words : List String} (h : Leaves m s words t) :
    stackAfter m s (words ++ ["."]) = t ∧
      (steps m s (words ++ ["."])).map Step.text = List.replicate words.length "" ++ [Report.top t.top? ++ "\n"] := by
  have hprint : Command.ofWord "." = .print := Command.ofWord_eq_print_iff.2 rfl
  have hsilent : (steps m s words).map Step.text = List.replicate words.length "" := by
    rw [List.eq_replicate_iff, List.length_map, length_steps]
    exact ⟨rfl, by simpa using h.silent⟩
  constructor
  · rw [stackAfter_append, h.stack, stackAfter_cons, step_stack, hprint]
    rfl
  · rw [steps_append, h.stack, List.map_append, hsilent, steps, List.map_cons, step_text, hprint]
    rfl

end Leaves

/-- A word that says a number pushes it. -/
theorem leaves_of_parse? {word : String} {z : Complex} (h : Literal.parse? word.toList = some z) (m : Machine)
    (s : Stack) : Leaves m s [word] (s.push z) := by
  refine .single ?_ ?_
  · rw [step_stack, Command.ofWord_eq_push_iff.2 h]
    rfl
  · rw [step_text, Command.ofWord_eq_push_iff.2 h]
    rfl

/-- An operator that finds what it needs leaves what its body does. -/
theorem leaves_token (m : Machine) (op : Operator) {s : Stack} (h : op.arity.satisfiedBy s.size) :
    Leaves m s [op.token] (op.body m s).1 := by
  refine .single ?_ ?_
  · rw [step_stack, Command.ofWord_token, execute, Operator.apply_eq, if_pos h]
  · rw [step_text, Command.ofWord_token, execute, Operator.apply_eq, if_pos h]
    rfl

end Calculator

end ReversePolish
