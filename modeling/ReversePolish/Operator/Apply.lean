import ReversePolish.Event
import ReversePolish.Failure

/-!
# Applying operators

`apply` refuses an operator whose arity the stack does not satisfy and leaves the stack as it is; otherwise the
body of the operator runs.  What a body works with is a `Machine`: the real functions, and what popping an empty
stack yields.  The bodies are written for any way to pop, `apply` pops as the machine does.
-/

namespace ReversePolish

/-- What the operators take as given. -/
structure Machine where
  real : RealFunctions
  /-- What popping an empty stack yields. -/
  emptyPop : Complex

/-- The machine that programs run on, where an empty stack yields zero. -/
def Machine.standard : Machine := ⟨.standard, .ofReal Binary64.zero⟩

/-- The way to pop that never fails. -/
def Machine.pop (m : Machine) (s : Stack) : Id (Complex × Stack) := return s.pop m.emptyPop

def BinaryFunction.eval (real : RealFunctions) : BinaryFunction → Complex → Complex → Complex
  | add, y, x => y + x
  | subtract, y, x => y - x
  | multiply, y, x => y * x
  | divide, y, x => y / x
  | power, y, x => y.pow real x

def UnaryFunction.eval (real : RealFunctions) : UnaryFunction → Complex → Complex
  | exp => Complex.exp real
  | log => Complex.log real
  | sin => Complex.sin real
  | cos => Complex.cos real
  | tan => Complex.tan real
  | asin => Complex.asin real
  | acos => Complex.acos real
  | atan => Complex.atan real

namespace Operator

/-- What comes of applying an operator. -/
structure Outcome where
  stack : Stack
  failure? : Option Failure
  events : List Event
deriving DecidableEq

section

variable {M : Type → Type} [Monad M] (take : Stack → M (Complex × Stack)) (real : RealFunctions)

/-- The body of an operator, which pops with `take`: the stack that it leaves and what it logs.  The last element
pushed is the second operand of a binary function. -/
def bodyWith (op : Operator) (s : Stack) : M (Stack × List Event) :=
  match op with
  | binary f => do
    let (x, s) ← take s
    let (y, s) ← take s
    return (s.push (f.eval real y x), [])
  | unary f => do
    let (x, s) ← take s
    return (s.push (f.eval real x), [])
  | sum => return (.ofList [.sum s.toList], [])
  | mean => return (.ofList [.sum s.toList / .ofReal (Binary64.ofNat s.size)], [])
  | clear => return (.empty, [])
  | count => return (s.push (.ofReal (Binary64.ofNat s.size)), [])
  | pop => do
    let (x, s) ← take s
    return (s, [.discarded x])

/-- What comes of applying an operator, whose body pops with `take`. -/
def applyWith (op : Operator) (s : Stack) : M Outcome :=
  if op.arity.satisfiedBy s.size then do
    let (s', events) ← op.bodyWith take real s
    return ⟨s', none, .applied op s :: events⟩
  else return ⟨s, some .stackTooSmall, [.refused op s.size]⟩

end

/-- The body of an operator on a machine. -/
def body (m : Machine) (op : Operator) (s : Stack) : Stack × List Event := (op.bodyWith m.pop m.real s).run

def apply (m : Machine) (op : Operator) (s : Stack) : Outcome := (op.applyWith m.pop m.real s).run

theorem apply_eq (m : Machine) (op : Operator) (s : Stack) :
    op.apply m s =
      if op.arity.satisfiedBy s.size then ⟨(op.body m s).1, none, .applied op s :: (op.body m s).2⟩
      else ⟨s, some .stackTooSmall, [.refused op s.size]⟩ := by
  unfold apply applyWith
  split <;> rfl

/-- An operator does its work or is refused. -/
theorem apply_cases (m : Machine) (op : Operator) (s : Stack) :
    (op.arity.satisfiedBy s.size = true ∧
        op.apply m s = ⟨(op.body m s).1, none, .applied op s :: (op.body m s).2⟩) ∨
      (op.arity.satisfiedBy s.size = false ∧ op.apply m s = ⟨s, some .stackTooSmall, [.refused op s.size]⟩) := by
  cases h : op.arity.satisfiedBy s.size with
  | true => exact .inl ⟨rfl, by rw [apply_eq, if_pos h]⟩
  | false => exact .inr ⟨rfl, by rw [apply_eq, if_neg (by simp [h])]⟩

end Operator

end ReversePolish
