import ReversePolish.Proofs.Stepping

/-!
# Outlines of programs

The outline of a word is its kind: what it asks for, without the value that it may stand for.  The kinds of the words
and the depth of the stack alone determine which steps are refused, how deep the stack is after each of them, and what
they print, except for the values that `.` shows (`step_outlined`).  So the values on the stack never steer a program:
two programs of the same outline go along in lockstep (`steps_lockstep`).
-/

namespace ReversePolish

/-! ### Kinds -/

/-- What a word asks for, whatever the value is that it may stand for. -/
inductive Kind where
  | print
  | quit
  | help
  | literal
  | operator (op : Operator)
  | unrecognized
deriving DecidableEq

def Command.kind : Command → Kind
  | print => .print
  | quit => .quit
  | help => .help
  | push _ => .literal
  | apply op => .operator op
  | unrecognized _ => .unrecognized

def Kind.ofWord (word : String) : Kind := (Command.ofWord word).kind

/-- The depth of a stack after an operator has been applied to it, or refused. -/
def Operator.depthAfter (depth : Nat) (op : Operator) : Nat :=
  match op.arity with
  | .exactly n => if depth < n then depth else if op = pop then depth - 1 else depth - n + 1
  | .any => if op = count then depth + 1 else if op = clear then 0 else 1

namespace Kind

def flow : Kind → Flow
  | quit => .quit
  | _ => .proceed

def depthAfter (depth : Nat) : Kind → Nat
  | literal => depth + 1
  | operator op => op.depthAfter depth
  | _ => depth

/-- Whether the stack is too small for what a word asks for. -/
def refused (depth : Nat) : Kind → Bool
  | operator op => !op.arity.satisfiedBy depth
  | _ => false

/-- What is printed, unless it is a value. -/
def text? (depth : Nat) : Kind → Option String
  | print => if depth = 0 then some (Report.nothing ++ "\n") else none
  | help => some Report.listing
  | operator op => some (if op.arity.satisfiedBy depth then "" else Failure.stackTooSmall.message ++ "\n")
  | unrecognized => some (Failure.unrecognized.message ++ "\n")
  | _ => some ""

theorem text?_eq_none_iff {k : Kind} {depth : Nat} : k.text? depth = none ↔ k = print ∧ 0 < depth := by
  cases k <;> simp [text?, Nat.pos_iff_ne_zero]

end Kind

/-! ### Single steps -/

namespace Operator

theorem size_body (m : Machine) {op : Operator} {s : Stack} (h : op.arity.satisfiedBy s.size) :
    (op.body m s).1.size = op.depthAfter s.size := by
  cases op with
  | binary f =>
    have htwo : 2 ≤ s.size := Arity.satisfiedBy_exactly.1 h
    calc ((binary f).body m s).1.size = s.size - 1 - 1 + 1 := by simp [body, bodyWith, Machine.pop]
      _ = s.size - 2 + 1 := by rw [Nat.sub_sub]
      _ = (binary f).depthAfter s.size := by simp [depthAfter, arity, Nat.not_lt.2 htwo]
  | unary f =>
    have hone : 1 ≤ s.size := Arity.satisfiedBy_exactly.1 h
    simp [body, bodyWith, Machine.pop, depthAfter, arity, Nat.not_lt.2 hone]
  | pop =>
    have hone : 1 ≤ s.size := Arity.satisfiedBy_exactly.1 h
    simp [body, bodyWith, Machine.pop, depthAfter, arity, Nat.not_lt.2 hone]
  | sum => rfl
  | mean => rfl
  | clear => rfl
  | count => rfl

theorem depthAfter_of_refused {op : Operator} {depth : Nat} (h : op.arity.satisfiedBy depth = false) :
    op.depthAfter depth = depth := by
  unfold depthAfter
  cases harity : op.arity with
  | exactly n =>
    have hlt : depth < n := by simpa [harity, Arity.satisfiedBy] using h
    exact if_pos hlt
  | any => simp [harity, Arity.satisfiedBy] at h

theorem size_apply (m : Machine) (op : Operator) (s : Stack) : (op.apply m s).stack.size = op.depthAfter s.size := by
  obtain ⟨hdeep, happly⟩ | ⟨hshallow, happly⟩ := op.apply_cases m s
  · rw [happly]
    exact size_body m hdeep
  · rw [happly]
    exact (depthAfter_of_refused hshallow).symm

end Operator

/-- A step as its kind and the depth of the stack foretell it. -/
structure Step.Outlined (k : Kind) (depth : Nat) (step : Step) : Prop where
  flow : step.flow = k.flow
  size : step.stack.size = k.depthAfter depth
  text : ∀ text, k.text? depth = some text → step.text = text
  shown : k.text? depth = none → ∃ z, step.text = Report.top (some z) ++ "\n"
  reports : step.Reports .stackTooSmall ↔ k.refused depth

theorem Command.refused_kind_iff {command : Command} {depth : Nat} :
    command.kind.refused depth ↔ ∃ op, command = .apply op ∧ op.arity.satisfiedBy depth = false := by
  cases command <;> simp [kind, Kind.refused]

namespace Calculator

theorem text_execute {m : Machine} {s : Stack} {command : Command} {text : String}
    (h : command.kind.text? s.size = some text) : (execute m s command).text = text := by
  cases command with
  | print =>
    rcases s with ⟨_ | ⟨z, elements⟩⟩
    · exact Option.some.inj h
    · cases h
  | apply op =>
    rw [← Option.some.inj h]
    cases hdeep : op.arity.satisfiedBy s.size <;> simp [execute, Operator.apply_eq, hdeep]
  | quit => exact Option.some.inj h
  | help => exact Option.some.inj h
  | push z => exact Option.some.inj h
  | unrecognized word => exact Option.some.inj h

theorem text_execute_shown (m : Machine) {s : Stack} {command : Command} (h : command.kind.text? s.size = none) :
    ∃ z, (execute m s command).text = Report.top (some z) ++ "\n" := by
  cases command with
  | print =>
    rcases s with ⟨_ | ⟨z, elements⟩⟩
    · cases h
    · exact ⟨z, rfl⟩
  | _ => cases h

theorem step_outlined (m : Machine) (s : Stack) (word : String) :
    (step m s word).Outlined (Kind.ofWord word) s.size where
  flow := by
    rw [step_flow, Kind.ofWord]
    cases Command.ofWord word <;> rfl
  size := by
    rw [step_stack, Kind.ofWord]
    cases Command.ofWord word with
    | apply op => exact Operator.size_apply m op s
    | _ => rfl
  text _ h := text_execute h
  shown h := text_execute_shown m h
  reports := by rw [reports_stackTooSmall_iff, Kind.ofWord, Command.refused_kind_iff]

end Calculator

/-! ### Programs -/

/-- Two steps that differ at most in the values they show. -/
structure Step.Alike (k : Kind) (depth : Nat) (a b : Step) : Prop where
  flow : a.flow = b.flow
  size : a.stack.size = k.depthAfter depth ∧ b.stack.size = k.depthAfter depth
  reports : (a.Reports .stackTooSmall ↔ k.refused depth) ∧ (b.Reports .stackTooSmall ↔ k.refused depth)
  text : a.text = b.text ∨ k = .print ∧ 0 < depth ∧
    ∃ z w, a.text = Report.top (some z) ++ "\n" ∧ b.text = Report.top (some w) ++ "\n"

theorem Step.Outlined.alike {k : Kind} {depth : Nat} {a b : Step} (ha : a.Outlined k depth)
    (hb : b.Outlined k depth) : Step.Alike k depth a b where
  flow := ha.flow.trans hb.flow.symm
  size := ⟨ha.size, hb.size⟩
  reports := ⟨ha.reports, hb.reports⟩
  text := by
    cases h : k.text? depth with
    | some text => exact .inl ((ha.text text h).trans (hb.text text h).symm)
    | none =>
      obtain ⟨hprint, hdepth⟩ := Kind.text?_eq_none_iff.1 h
      obtain ⟨z, hz⟩ := ha.shown h
      obtain ⟨w, hw⟩ := hb.shown h
      exact .inr ⟨hprint, hdepth, z, w, hz, hw⟩

/-- Two runs of which all steps are alike, from a depth on that the kinds of the words go on with. -/
inductive Lockstep : Nat → List Kind → List Step → List Step → Prop where
  | nil {depth : Nat} : Lockstep depth [] [] []
  | cons {depth : Nat} {k : Kind} {kinds : List Kind} {a b : Step} {as bs : List Step} : Step.Alike k depth a b →
    Lockstep (k.depthAfter depth) kinds as bs → Lockstep depth (k :: kinds) (a :: as) (b :: bs)

namespace Calculator

/-- Values never steer control: on stacks of the same depth, words of the same kinds do the same, except that `.` may
show different values. -/
theorem steps_lockstep (m m' : Machine) {s t : Stack} {v w : List String} (hsize : s.size = t.size)
    (hkinds : v.map Kind.ofWord = w.map Kind.ofWord) :
    Lockstep s.size (v.map Kind.ofWord) (steps m s v) (steps m' t w) := by
  induction v generalizing s t w with
  | nil =>
    obtain rfl : w = [] := List.map_eq_nil_iff.1 hkinds.symm
    exact .nil
  | cons word v ih =>
    cases w with
    | nil => cases hkinds
    | cons word' w =>
      obtain ⟨hkind, hkinds⟩ := List.cons.inj hkinds
      have ha := step_outlined m s word
      have hb := step_outlined m' t word'
      rw [← hkind, ← hsize] at hb
      refine .cons (ha.alike hb) ?_
      -- both depths are the one that the kind foretells, so they stay equal
      rw [← ha.size]
      exact ih (ha.size.trans hb.size.symm) hkinds

theorem steps_lockstep_three_words :
    let s := Stack.ofList [Complex.unit]
    let t := Stack.ofList [Complex.i]
    let v := ["2", "+", "."]
    let w := ["i-inf", "+", "."]
    s.size = t.size ∧ v.map Kind.ofWord = w.map Kind.ofWord ∧
      Lockstep 1 [.literal, .operator (.binary .add), .print] (steps .standard s v) (steps .standard t w) := by
  intro s t v w
  have hsize : s.size = t.size := rfl
  have hv : v.map Kind.ofWord = [.literal, .operator (.binary .add), .print] := rfl
  have hw : w.map Kind.ofWord = [.literal, .operator (.binary .add), .print] := rfl
  refine ⟨hsize, hv.trans hw.symm, ?_⟩
  rw [← hv]
  exact steps_lockstep .standard .standard hsize (hv.trans hw.symm)

end Calculator

end ReversePolish
