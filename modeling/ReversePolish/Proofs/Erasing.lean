import ReversePolish.Proofs.Stepping
import ReversePolish.Proofs.Walking

/-!
# Erasing harmless words

A word is harmless on a stack if it asks for no value and no operator, or for an operator that the stack is too small
for.  Harmless words leave the stack as it is (`stack_of_harmless`), and all others do their work in silence
(`silent_of_not_harmless`).  So what is left of a program without its harmless words does the same work and prints
nothing (`steps_effective`).
-/

namespace ReversePolish

/-- A step that prints nothing, tells of no failure, not even in the log, and goes on. -/
structure Step.Silent (step : Step) : Prop where
  text : step.text = ""
  reports : ∀ f, ¬ step.Reports f
  events : ∀ e ∈ step.events, e.level ≠ .warn
  flow : step.flow = .proceed

private theorem not_reports_of_text {step : Step} (h : step.text = "") (f : Failure) : ¬ step.Reports f := by
  rw [Step.Reports, h]
  cases f <;> decide

namespace Calculator

/-! ### Harmless words -/

/-- Whether a word is a meta-command, has no meaning, or is an operator that the stack is too small for. -/
def harmless (m : Machine) (s : Stack) (word : String) : Bool :=
  match Command.ofWord word with
  | .print | .quit | .help | .unrecognized _ => true
  | .push _ => false
  | .apply op => decide ((op.apply m s).failure? = some .stackTooSmall)

theorem stack_of_harmless {m : Machine} {s : Stack} {word : String} (h : harmless m s word) :
    (step m s word).stack = s := by
  rw [step_stack]
  unfold harmless at h
  cases hcommand : Command.ofWord word with
  | print => rfl
  | quit => rfl
  | help => rfl
  | unrecognized w => rfl
  | push z => simp [hcommand] at h
  | apply op =>
    obtain ⟨-, happly⟩ | ⟨-, happly⟩ := op.apply_cases m s
    · simp [hcommand, happly] at h
    · simp [execute, happly]

/-- What the body of an operator logs is no warning. -/
theorem level_of_mem_body {m : Machine} {op : Operator} {s : Stack} {e : Event} (h : e ∈ (op.body m s).2) :
    e.level = .trace := by
  cases op with
  | pop =>
    obtain rfl := List.mem_singleton.1 h
    rfl
  | _ => cases h

theorem silent_of_not_harmless {m : Machine} {s : Stack} {word : String} (h : ¬ harmless m s word) :
    (step m s word).Silent := by
  have key : (step m s word).text = "" ∧ (∀ e ∈ (step m s word).events, e.level ≠ .warn) ∧
      (step m s word).flow = .proceed := by
    unfold harmless at h
    unfold step
    cases hcommand : Command.ofWord word with
    | print => simp [hcommand] at h
    | quit => simp [hcommand] at h
    | help => simp [hcommand] at h
    | unrecognized w => simp [hcommand] at h
    | push z => simp [execute, Event.level]
    | apply op =>
      obtain ⟨-, happly⟩ | ⟨-, happly⟩ := op.apply_cases m s
      · have hbody : ∀ e ∈ (op.body m s).2, e.level ≠ .warn := fun e he => by simp [level_of_mem_body he]
        simpa [execute, happly, Event.level] using hbody
      · simp [hcommand, happly] at h
  exact ⟨key.1, not_reports_of_text key.1, key.2.1, key.2.2⟩

/-! ### Programs -/

/-- The words that are left of a program when the harmless ones are erased, each of them judged at its place in the
whole program. -/
def effective (m : Machine) (s : Stack) : List String → List String
  | [] => []
  | word :: words =>
    let rest := effective m (step m s word).stack words
    if harmless m s word then rest else word :: rest

theorem effective_cons_of_harmless {m : Machine} {s : Stack} {word : String} (h : harmless m s word)
    (words : List String) : effective m s (word :: words) = effective m s words := by
  rw [effective, if_pos h, stack_of_harmless h]

theorem effective_cons_of_not_harmless {m : Machine} {s : Stack} {word : String} (h : ¬ harmless m s word)
    (words : List String) : effective m s (word :: words) = word :: effective m (step m s word).stack words := by
  rw [effective, if_neg h]

theorem stackAfter_effective (m : Machine) (s : Stack) (words : List String) :
    stackAfter m s (effective m s words) = stackAfter m s words := by
  induction words generalizing s with
  | nil => rfl
  | cons word words ih =>
    by_cases h : harmless m s word
    · rw [effective_cons_of_harmless h, stackAfter_cons, stack_of_harmless h]
      exact ih s
    · rw [effective_cons_of_not_harmless h]
      exact ih (step m s word).stack

/-- The words that are left find the same stacks as before, so they take the same steps. -/
theorem steps_effective_sublist (m : Machine) (s : Stack) (words : List String) :
    (steps m s (effective m s words)).Sublist (steps m s words) := by
  induction words generalizing s with
  | nil => exact .slnil
  | cons word words ih =>
    by_cases h : harmless m s word
    · rw [effective_cons_of_harmless h, steps, stack_of_harmless h]
      exact (ih s).cons _
    · rw [effective_cons_of_not_harmless h]
      exact (ih (step m s word).stack).cons_cons _

theorem silent_of_mem_steps_effective {m : Machine} {s : Stack} {words : List String} {step : Step}
    (h : step ∈ steps m s (effective m s words)) : step.Silent := by
  induction words generalizing s with
  | nil => cases h
  | cons word words ih =>
    by_cases hword : harmless m s word
    · rw [effective_cons_of_harmless hword] at h
      exact ih h
    · rw [effective_cons_of_not_harmless hword, steps] at h
      rcases List.mem_cons.1 h with rfl | h
      · exact silent_of_not_harmless hword
      · exact ih h

/-- An output without a limit takes what silent steps print, which is nothing. -/
theorem writeAll_of_silent {steps : List Step} (h : ∀ step ∈ steps, step.Silent) :
    (Sink.ofLimit none).writeAll (steps.map fun step => Utf8.encode step.text.toList) = (Sink.ofLimit none, true) := by
  have hnil : (steps.map fun step => Utf8.encode step.text.toList).flatten = [] := by
    rw [List.flatten_eq_nil_iff]
    intro part hpart
    obtain ⟨step, hstep, rfl⟩ := List.mem_map.1 hpart
    rw [(h step hstep).text]
    rfl
  rw [Sink.writeAll_eq_write rfl, hnil]
  rfl

/-- Erasing one harmless word erases its own step and nothing else. -/
theorem steps_erase_harmless {m : Machine} {s : Stack} {before after : List String} {word : String}
    (h : harmless m (stackAfter m s before) word) :
    (steps m s (before ++ word :: after)).eraseIdx before.length = steps m s (before ++ after) := by
  rw [steps_append, steps_append, ← length_steps m s before, List.eraseIdx_append_of_length_le (Nat.le_refl _),
    Nat.sub_self, steps, stack_of_harmless h]
  rfl

/-- What is left of a program without its harmless words takes the steps that it took before, all of them in silence,
and leaves the stack that the whole program leaves.  And whatever harmless word is erased, all other steps stay as they
were. -/
theorem steps_effective (m : Machine) (s : Stack) (words : List String) :
    let rest := effective m s words
    (∀ step ∈ steps m s rest, step.Silent) ∧
      (Sink.ofLimit none).writeAll ((steps m s rest).map fun step => Utf8.encode step.text.toList) =
        (Sink.ofLimit none, true) ∧
      stackAfter m s rest = stackAfter m s words ∧
      (steps m s rest).Sublist (steps m s words) ∧
      ∀ before word after, words = before ++ word :: after → harmless m (stackAfter m s before) word →
        (steps m s words).eraseIdx before.length = steps m s (before ++ after) := by
  intro rest
  have hsilent : ∀ step ∈ steps m s rest, step.Silent := fun step hstep => silent_of_mem_steps_effective hstep
  refine ⟨hsilent, writeAll_of_silent hsilent, stackAfter_effective m s words, steps_effective_sublist m s words, ?_⟩
  rintro before word after rfl h
  exact steps_erase_harmless h

example : effective .standard .empty ["1", "^", "xyz", ".", "2", ".q", "+", "+"] = ["1", "2", "+"] := rfl

end Calculator

end ReversePolish
