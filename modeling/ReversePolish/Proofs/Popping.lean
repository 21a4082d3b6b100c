import ReversePolish.Session

/-!
# What an empty stack yields

Popping never fails, and what it yields on the empty stack is up to the machine.  To see that nothing hangs on it, the
operators are run with another way to pop, one that fails on the empty stack.  Their bodies get through exactly on the
stacks that satisfy their arities (`isSome_body?_iff`), since a body pops as many elements as its arity says
(`pops_eq`).  The arity is checked first, so an operator that is applied never fails in this way
(`applyWith_pop?`), and no operator, program or session shows what an empty stack yields (`steps_emptyPop`).
-/

namespace ReversePolish

/-! ### Popping that fails -/

namespace Stack

/-- The top element and the stack without it, or a failure on the empty stack. -/
def pop? (s : Stack) : Option (Complex × Stack) :=
  match s.elements with
  | [] => none
  | z :: elements => some (z, ⟨elements⟩)

theorem pop?_of_pos {s : Stack} (h : 0 < s.size) (default : Complex) : s.pop? = some (s.pop default) := by
  rcases s with ⟨_ | ⟨z, elements⟩⟩
  · exact absurd h (Nat.lt_irrefl 0)
  · rfl

theorem pop?_of_size {s : Stack} (h : s.size = 0) : s.pop? = none := by
  rcases s with ⟨_ | ⟨z, elements⟩⟩
  · rfl
  · cases h

end Stack

/-- The number of elements that an arity asks for. -/
def Arity.least : Arity → Nat
  | exactly n => n
  | any => 0

theorem Arity.satisfiedBy_iff {arity : Arity} {depth : Nat} : arity.satisfiedBy depth ↔ arity.least ≤ depth := by
  cases arity with
  | exactly n => exact satisfiedBy_exactly
  | any => exact ⟨fun _ => Nat.zero_le depth, fun _ => rfl⟩

/-! ### Operators -/

namespace Operator

theorem body?_of_satisfiedBy (m : Machine) {op : Operator} {s : Stack} (h : op.arity.satisfiedBy s.size) :
    op.bodyWith Stack.pop? m.real s = some (op.body m s) := by
  cases op with
  | binary f =>
    have htwo : 2 ≤ s.size := Arity.satisfiedBy_exactly.1 h
    -- one element is left for the second pop
    have hone : 0 < (s.pop m.emptyPop).2.size := by
      rw [Stack.size_pop]
      omega
    simp only [body, bodyWith, Machine.pop, pure_bind, Id.run_pure, Option.bind_eq_bind, Option.bind_some,
      Stack.pop?_of_pos (show 0 < s.size by omega) m.emptyPop, Stack.pop?_of_pos hone m.emptyPop, Option.pure_def]
  | unary f =>
    have hone : 1 ≤ s.size := Arity.satisfiedBy_exactly.1 h
    simp only [body, bodyWith, Machine.pop, pure_bind, Id.run_pure, Option.bind_eq_bind, Option.bind_some,
      Stack.pop?_of_pos hone m.emptyPop, Option.pure_def]
  | pop =>
    have hone : 1 ≤ s.size := Arity.satisfiedBy_exactly.1 h
    simp only [body, bodyWith, Machine.pop, pure_bind, Id.run_pure, Option.bind_eq_bind, Option.bind_some,
      Stack.pop?_of_pos hone m.emptyPop, Option.pure_def]
  | sum => rfl
  | mean => rfl
  | clear => rfl
  | count => rfl

theorem body?_of_not_satisfiedBy (real : RealFunctions) {op : Operator} {s : Stack}
    (h : op.arity.satisfiedBy s.size = false) : op.bodyWith Stack.pop? real s = none := by
  have hlt : s.size < op.arity.least := Nat.lt_of_not_le fun hle => by simp [Arity.satisfiedBy_iff.2 hle] at h
  cases op with
  | binary f =>
    by_cases hsize : s.size = 0
    · simp only [bodyWith, Stack.pop?_of_size hsize, Option.bind_eq_bind, Option.bind_none]
    · -- the first pop takes the only element
      have hone : (s.pop .unit).2.size = 0 := by
        rw [Stack.size_pop]
        exact Nat.sub_eq_zero_of_le (Nat.le_of_lt_succ hlt)
      simp only [bodyWith, Stack.pop?_of_pos (Nat.pos_of_ne_zero hsize) .unit, Stack.pop?_of_size hone,
        Option.bind_eq_bind, Option.bind_some, Option.bind_none]
  | unary f =>
    have hsize : s.size = 0 := Nat.lt_one_iff.1 hlt
    simp only [bodyWith, Stack.pop?_of_size hsize, Option.bind_eq_bind, Option.bind_none]
  | pop =>
    have hsize : s.size = 0 := Nat.lt_one_iff.1 hlt
    simp only [bodyWith, Stack.pop?_of_size hsize, Option.bind_eq_bind, Option.bind_none]
  | sum => exact absurd hlt (Nat.not_lt_zero _)
  | mean => exact absurd hlt (Nat.not_lt_zero _)
  | clear => exact absurd hlt (Nat.not_lt_zero _)
  | count => exact absurd hlt (Nat.not_lt_zero _)

/-- A body gets through without popping an empty stack exactly if the stack satisfies the arity. -/
theorem isSome_body?_iff (real : RealFunctions) (op : Operator) (s : Stack) :
    (op.bodyWith Stack.pop? real s).isSome ↔ op.arity.satisfiedBy s.size := by
  cases h : op.arity.satisfiedBy s.size with
  | true => simp [body?_of_satisfiedBy ⟨real, .unit⟩ h]
  | false => simp [body?_of_not_satisfiedBy real h]

/-- An operator that is applied pops no empty stack, whatever the stack is that it is applied to. -/
theorem applyWith_pop? (m : Machine) (op : Operator) (s : Stack) :
    op.applyWith Stack.pop? m.real s = some (op.apply m s) := by
  rw [apply_eq, applyWith]
  split
  · rename_i h
    rw [body?_of_satisfiedBy m h]
    rfl
  · rfl

/-- How many elements a body pops. -/
def pops (m : Machine) (op : Operator) (s : Stack) : Nat :=
  let take (s : Stack) : StateM Nat (Complex × Stack) := do
    modify (· + 1)
    return s.pop m.emptyPop
  ((op.bodyWith take m.real s).run 0).2

theorem pops_eq (m : Machine) (op : Operator) (s : Stack) : op.pops m s = op.arity.least := by
  cases op <;> rfl

/-- Two machines with the same real functions apply an operator in the same way: as the one does that cannot pop an
empty stack. -/
theorem apply_emptyPop (real : RealFunctions) (z w : Complex) (op : Operator) (s : Stack) :
    op.apply ⟨real, z⟩ s = op.apply ⟨real, w⟩ s := by
  have hz := applyWith_pop? ⟨real, z⟩ op s
  have hw := applyWith_pop? ⟨real, w⟩ op s
  exact Option.some.inj (hz.symm.trans hw)

end Operator

/-! ### Programs and sessions -/

namespace Calculator

theorem step_emptyPop (real : RealFunctions) (z w : Complex) (s : Stack) (word : String) :
    step ⟨real, z⟩ s word = step ⟨real, w⟩ s word := by
  have hexecute (command : Command) : execute ⟨real, z⟩ s command = execute ⟨real, w⟩ s command := by
    cases command with
    | apply op => simp only [execute, Operator.apply_emptyPop real z w]
    | _ => rfl
  rw [step, step, hexecute]

theorem steps_congr {m m' : Machine} (h : ∀ s word, step m s word = step m' s word) (s : Stack) (words : List String) :
    steps m s words = steps m' s words := by
  induction words generalizing s with
  | nil => rfl
  | cons word words ih => rw [steps, steps, h, ih]

end Calculator

namespace Session

theorem run_congr {m m' : Machine} (h : ∀ s word, Calculator.step m s word = Calculator.step m' s word)
    (s : Session) : s.run m = s.run m' := by
  have hadvance (s : Session) : s.advance m = s.advance m' := by
    unfold advance evaluate
    split
    · rfl
    · rfl
    · rw [h]
  fun_induction run m s with
  | case1 s s' ending hadv => rw [run_eq m' s, ← hadvance, hadv]
  | case2 s s' hadv ih => rw [ih, run_eq m' s, ← hadvance, hadv]

end Session

namespace Calculator

/-- What an empty stack yields shows nowhere: neither in what the words of a program do, nor in what comes of applying
an operator, nor in a session.  The reason is that no operator is ever applied in such a way that its body pops an empty
stack, because the bodies pop as many elements as their arities say. -/
theorem steps_emptyPop (real : RealFunctions) (z : Complex) (s : Stack) (words : List String) :
    let m : Machine := ⟨real, .ofReal Binary64.zero⟩
    let m' : Machine := ⟨real, z⟩
    steps m' s words = steps m s words ∧ (∀ session : Session, session.run m' = session.run m) ∧
      ∀ op : Operator, ∀ t : Stack, op.apply m' t = op.apply m t ∧
        op.applyWith Stack.pop? real t = some (op.apply m' t) ∧
        ((op.bodyWith Stack.pop? real t).isSome ↔ op.arity.satisfiedBy t.size) ∧ op.pops m' t = op.arity.least := by
  intro m m'
  have hstep : ∀ s word, step m' s word = step m s word := step_emptyPop real z (.ofReal Binary64.zero)
  refine ⟨steps_congr hstep s words, Session.run_congr hstep, fun op t => ⟨?_, ?_, ?_, ?_⟩⟩
  · exact Operator.apply_emptyPop real z _ op t
  · exact Operator.applyWith_pop? m' op t
  · exact Operator.isSome_body?_iff real op t
  · exact Operator.pops_eq m' op t

end Calculator

end ReversePolish
