import ReversePolish.Operator
import ReversePolish.Stack

/-!
# The log

What a calculator reports about its own work, each as an event with a level, a target and a message.
-/

namespace ReversePolish

inductive Level where
  | warn | debug | trace
deriving DecidableEq

def Level.text : Level → String
  | warn => "WARN"
  | debug => "DEBUG"
  | trace => "TRACE"

/-- How much has to be asked for before records of a level are shown, when errors alone count as one. -/
def Level.verbosity : Level → Nat
  | warn => 2
  | debug => 4
  | trace => 5

inductive Event where
  | token (word : String)
  | push (z : Complex)
  | unrecognized (word : String)
  | quit
  /-- An operator was refused on a stack of the given depth. -/
  | refused (op : Operator) (depth : Nat)
  | applied (op : Operator) (stack : Stack)
  | discarded (z : Complex)
deriving DecidableEq

namespace Event

def level : Event → Level
  | unrecognized _ | refused _ _ => .warn
  | token _ | quit | applied _ _ => .debug
  | push _ | discarded _ => .trace

def target : Event → String
  | token _ | push _ | unrecognized _ | quit => "rpnc::evaluator"
  | refused _ _ | applied _ _ => "rpnc::operator"
  | discarded _ => "rpnc::operator::aggregate"

def message : Event → String
  | token word => "token: " ++ word
  | push z => "push: " ++ z.text
  | unrecognized word => "unrecognized: " ++ word
  | quit => "quit"
  | refused op depth => op.token ++ ": needs " ++ op.arity.text ++ ", stack depth is " ++ depth.repr
  | applied op stack => op.token ++ ": applied to " ++ stack.text
  | discarded z => "pop: discarding " ++ z.text

/-- The event as one line of the log. -/
def line (e : Event) : String := e.level.text ++ " " ++ e.target ++ ": " ++ e.message

end Event

end ReversePolish
