import ReversePolish.Calculator
import ReversePolish.Reader

/-!
# Sessions

A session feeds the words of an input to the calculator and writes what it prints to an output that may refuse
to take more than a given number of bytes.  It ends at the first of four things: the input is used up, a word
asks to quit, reading fails, or writing fails.  In the last case the step whose text did not fit has taken its
whole effect on the stack.
-/

namespace ReversePolish

structure Sink where
  /-- The bytes taken so far. -/
  written : Array UInt8
  /-- How many bytes it takes altogether, if that is limited. -/
  limit? : Option Nat
  /-- How many bytes had been taken when it was last flushed. -/
  flushed : Nat
deriving DecidableEq

namespace Sink

def ofLimit (limit? : Option Nat) : Sink := ⟨#[], limit?, 0⟩

/-- Takes as many of the bytes as there is room for, and says whether it was all of them. -/
def write (s : Sink) (bytes : List UInt8) : Sink × Bool :=
  match s.limit? with
  | none => ({ s with written := s.written ++ bytes }, true)
  | some limit =>
    ({ s with written := s.written ++ bytes.take (limit - s.written.size) },
      decide (s.written.size + bytes.length ≤ limit))

def flush (s : Sink) : Sink := { s with flushed := s.written.size }

end Sink

inductive Ending where
  /-- The input is used up. -/
  | exhausted
  | quit
  /-- Reading or writing failed. -/
  | broken
deriving DecidableEq

/-- The failure that a session is answered with. -/
def Ending.failure? : Ending → Option Failure
  | exhausted => none
  | quit => none
  | broken => some .io

structure Session where
  stack : Stack
  reader : Reader
  sink : Sink
  log : Array Event
deriving DecidableEq

namespace Session

def start (stack : Stack) (input : List Signal) (limit? : Option Nat) : Session :=
  ⟨stack, .ofSignals input, .ofLimit limit?, #[]⟩

/-- The session after evaluating a word that was read, when `reader` is left to read, and how it ends there, if
it does. -/
def evaluate (m : Machine) (s : Session) (reader : Reader) (word : String) : Session × Option Ending :=
  let step := Calculator.step m s.stack word
  let (sink, all) := s.sink.write (Utf8.encode step.text.toList)
  let log := s.log ++ step.events
  if all then
    match step.flow with
    | .proceed => (⟨step.stack, reader, sink.flush, log⟩, none)
    | .quit => (⟨step.stack, reader, sink.flush, log.push .quit⟩, some .quit)
  else (⟨step.stack, reader, sink, log⟩, some .broken)

theorem reader_evaluate (m : Machine) (s : Session) (reader : Reader) (word : String) :
    (s.evaluate m reader word).1.reader = reader := by
  unfold evaluate
  dsimp only
  split
  · split <;> rfl
  · rfl

/-- A session takes the next item, or all that is left of its input if there is none. -/
def advance (m : Machine) (s : Session) : Session × Option Ending :=
  match s.reader.next? with
  | none => ({ s with reader := .ofSignals [] }, some .exhausted)
  | some (.fault, reader) => ({ s with reader := reader }, some .broken)
  | some (.word word, reader) => s.evaluate m reader word

theorem advance_lt {m : Machine} {s s' : Session} (h : s.advance m = (s', none)) :
    s'.reader.input.length < s.reader.input.length ∨
      (s'.reader.input.length = s.reader.input.length ∧ s'.reader.pending.length < s.reader.pending.length) := by
  unfold advance at h
  split at h
  · simp at h
  · simp at h
  · rename_i word reader hr
    have := reader_evaluate m s reader word
    rw [h] at this
    rw [this]
    exact Reader.next?_lt hr

def run (m : Machine) (s : Session) : Session × Ending :=
  match _h : s.advance m with
  | (s', some ending) => (s', ending)
  | (s', none) => s'.run m
termination_by (s.reader.input.length, s.reader.pending.length)
decreasing_by
  rcases advance_lt _h with h | ⟨h, h'⟩
  · exact Prod.Lex.left _ _ h
  · rw [h]; exact Prod.Lex.right _ h'

theorem run_eq (m : Machine) (s : Session) :
    s.run m = match s.advance m with
      | (s', some ending) => (s', ending)
      | (s', none) => s'.run m := by
  rw [run]
  split <;> rename_i h <;> rw [h]

end Session

end ReversePolish
