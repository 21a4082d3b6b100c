/-!
# The operators

The eighteen operators with their tokens, descriptions and arities, in the order in which they are listed.  A
token determines its operator (`ofToken?_eq_some_iff`).
-/

namespace ReversePolish

/-- What an operator asks of the stack. -/
inductive Arity where
  | exactly (n : Nat)
  | any
deriving DecidableEq

namespace Arity

/-- Whether a stack of the given depth is deep enough. -/
def satisfiedBy (depth : Nat) : Arity → Bool
  | exactly n => decide (n ≤ depth)
  | any => true

def text : Arity → String
  | exactly n => "Exactly(" ++ n.repr ++ ")"
  | any => "Any"

theorem satisfiedBy_exactly {n depth : Nat} : (exactly n).satisfiedBy depth ↔ n ≤ depth := decide_eq_true_iff

theorem satisfiedBy_mono {arity : Arity} {depth depth' : Nat} (hle : depth ≤ depth')
    (h : arity.satisfiedBy depth) : arity.satisfiedBy depth' := by
  cases arity with
  | exactly n => exact satisfiedBy_exactly.2 (Nat.le_trans (satisfiedBy_exactly.1 h) hle)
  | any => rfl

end Arity

inductive BinaryFunction where
  | add | subtract | multiply | divide | power
deriving DecidableEq

inductive UnaryFunction where
  | exp | log | sin | cos | tan | asin | acos | atan
deriving DecidableEq

inductive Operator where
  | binary (f : BinaryFunction)
  | unary (f : UnaryFunction)
  | sum
  | mean
  | clear
  /-- Pushes the depth of the stack. -/
  | count
  | pop
deriving DecidableEq

namespace Operator

def token : Operator → String
  | binary .add => "+"
  | binary .subtract => "-"
  | binary .multiply => "*"
  | binary .divide => "/"
  | binary .power => "^"
  | unary .exp => "$"
  | unary .log => "log"
  | unary .sin => "sin"
  | unary .cos => "cos"
  | unary .tan => "tan"
  | unary .asin => "asin"
  | unary .acos => "acos"
  | unary .atan => "atan"
  | sum => "sum"
  | mean => "mean"
  | clear => "clear"
  | count => "count"
  | pop => "pop"

def description : Operator → String
  | binary .add => "(y+x) adds x and y on the stack"
  | binary .subtract => "(y-x) takes x from y on the stack"
  | binary .multiply => "(y*x) multiplies x with y on the stack"
  | binary .divide => "(y/x) divides y by x on the stack"
  | binary .power => "(y**x) raises y to the power of x on the stack"
  | unary .exp => "(e**x) raises e to the power of x on the stack"
  | unary .log => "(log x) logs x on the stack"
  | unary .sin => "(sin x) sins x on the stack"
  | unary .cos => "(cos x) coses x on the stack"
  | unary .tan => "(tan x) tans x on the stack"
  | unary .asin => "(asin x) asins x on the stack"
  | unary .acos => "(acos x) acoses x on the stack"
  | unary .atan => "(atan x) atans x on the stack"
  | sum => "sums all values on the stack"
  | mean => "takes the mean of all the values on the stack"
  | clear => "clears the stack"
  | count => "counts the number of values on the stack"
  | pop => "pops the element at the top of the stack"

def arity : Operator → Arity
  | binary _ => .exactly 2
  | unary _ => .exactly 1
  | sum => .any
  | mean => .any
  | clear => .any
  | count => .any
  | pop => .exactly 1

/-- All operators, in listing order. -/
def all : List Operator :=
  [binary .add, binary .subtract, binary .multiply, binary .divide, binary .power,
    unary .exp, unary .log, unary .sin, unary .cos, unary .tan, unary .asin, unary .acos, unary .atan,
    sum, mean, clear, count, pop]

def ofToken? (token : String) : Option Operator := all.find? fun op => decide (op.token = token)

/-- An operator with all that is known about it, on one line. -/
def summary (op : Operator) : String :=
  "Operator \x7b token: \"" ++ op.token ++ "\", description: \"" ++ op.description ++ "\", arity: " ++
    op.arity.text ++ ", inner: InnerOp \x7d"

theorem mem_all (op : Operator) : op ∈ all := by
  rcases op with f | f | _ | _ | _ | _ | _ <;> (try cases f) <;> decide

theorem token_injective {op op' : Operator} (h : op.token = op'.token) : op = op' := by
  rcases op with f | f | _ | _ | _ | _ | _ <;> rcases op' with g | g | _ | _ | _ | _ | _ <;>
    (try cases f) <;> (try cases g) <;> first | rfl | exact absurd h (by decide)

theorem ofToken?_eq_some_iff {token : String} {op : Operator} : ofToken? token = some op ↔ op.token = token := by
  constructor
  · intro h
    simpa using List.find?_some h
  · intro h
    have hs : (ofToken? token).isSome := by
      rw [ofToken?, List.find?_isSome]
      exact ⟨op, mem_all op, by simpa using h⟩
    obtain ⟨op', h'⟩ := Option.isSome_iff_exists.1 hs
    have : op'.token = token := by simpa using List.find?_some h'
    rw [h', token_injective (this.trans h.symm)]

end Operator

end ReversePolish
