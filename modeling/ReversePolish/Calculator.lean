import ReversePolish.Command
import ReversePolish.Operator.Apply
import ReversePolish.Report

/-!
# One step of the calculator

`step` evaluates one word on a stack.  Its result says all that the step does: the new stack, the text that it
prints, what it logs, and whether it asks to quit.  No step fails: a refused operator or a word without meaning
is answered with a line of text.
-/

namespace ReversePolish

/-- Whether a session goes on after a step. -/
inductive Flow where
  | proceed
  | quit
deriving DecidableEq

structure Step where
  stack : Stack
  text : String
  events : List Event
  flow : Flow
deriving DecidableEq

namespace Calculator

/-- The effect of a command on a stack, not counting the record of the word itself. -/
def execute (m : Machine) (s : Stack) : Command → Step
  | .print => ⟨s, Report.top s.top? ++ "\n", [], .proceed⟩
  | .quit => ⟨s, "", [], .quit⟩
  | .help => ⟨s, Report.listing, [], .proceed⟩
  | .push z => ⟨s.push z, "", [.push z], .proceed⟩
  | .apply op =>
    let outcome := op.apply m s
    ⟨outcome.stack, (outcome.failure?.map fun f => f.message ++ "\n").getD "", outcome.events, .proceed⟩
  | .unrecognized word => ⟨s, Failure.unrecognized.message ++ "\n", [.unrecognized word], .proceed⟩

def step (m : Machine) (s : Stack) (word : String) : Step :=
  let effect := execute m s (Command.ofWord word)
  { effect with events := .token word :: effect.events }

/-- Evaluates words one after the other, also after a request to quit. -/
def steps (m : Machine) (s : Stack) : List String → List Step
  | [] => []
  | word :: words => step m s word :: steps m (step m s word).stack words

/-- The stack that is left after some words. -/
def stackAfter (m : Machine) (s : Stack) (words : List String) : Stack :=
  words.foldl (fun s word => (step m s word).stack) s

end Calculator

end ReversePolish
