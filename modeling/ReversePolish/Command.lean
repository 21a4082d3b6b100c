import ReversePolish.Literal
import ReversePolish.Operator

/-!
# Commands

What a word asks for.  The meta-commands come first, then literals, then operators.
-/

namespace ReversePolish

inductive Command where
  | print
  | quit
  | help
  | push (z : Complex)
  | apply (op : Operator)
  | unrecognized (word : String)
deriving DecidableEq

/-- The command that a word stands for. -/
def Command.ofWord (word : String) : Command :=
  if word = "." then print
  else if word = ".q" then quit
  else if word = ".com" ∨ word = "?" then help
  else match Literal.parse? word.toList with
    | some z => push z
    | none => match Operator.ofToken? word with
      | some op => apply op
      | none => unrecognized word

end ReversePolish
