import ReversePolish.Words

/-!
# Reading words

The input is a stream of bytes in which reading may fail at some places.  A `Reader` takes one line at a time and
hands out its words one by one, so it never reads further than the line of the word it hands out.  A fault costs
the line that it interrupts; reading goes on behind it.
-/

namespace ReversePolish

/-- What a stream has to offer when it is asked for more. -/
inductive Signal where
  | byte (b : UInt8)
  /-- Reading fails once. -/
  | fault
deriving DecidableEq

namespace Signal

/-- The stream of some bytes, the first of which has the given position.  Reading fails once for each of the
positions `faults`, when it has come that far and more is asked for. -/
def stream (position : Nat) (faults : List Nat) : List UInt8 → List Signal
  | [] => (faults.takeWhile (· ≤ position)).map fun _ => fault
  | b :: bs =>
    (faults.takeWhile (· ≤ position)).map (fun _ => fault) ++
      byte b :: stream (position + 1) (faults.dropWhile (· ≤ position)) bs

def ofBytes (bs : List UInt8) (faults : List Nat) : List Signal := stream 0 faults bs

def newline : UInt8 := 0x0A

/-- The next line with the newline that ends it, or without one if it is the last; `none` if a fault interrupts
it.  And what is left of the stream. -/
def takeLine : List Signal → Option (List UInt8) × List Signal
  | [] => (some [], [])
  | fault :: rest => (none, rest)
  | byte b :: rest =>
    if b = newline then (some [b], rest)
    else
      let (line, rest) := takeLine rest
      (line.map (b :: ·), rest)

theorem length_takeLine_le (stream : List Signal) : (takeLine stream).2.length ≤ stream.length := by
  induction stream with
  | nil => simp [takeLine]
  | cons x rest ih =>
    cases x with
    | fault => simp [takeLine]
    | byte b =>
      simp only [takeLine]
      split <;> simp only [List.length_cons] <;> omega

theorem length_takeLine_cons (x : Signal) (rest : List Signal) :
    (takeLine (x :: rest)).2.length < (x :: rest).length := by
  have := length_takeLine_le rest
  cases x with
  | fault => simp [takeLine]
  | byte b =>
    simp only [takeLine]
    split <;> simp only [List.length_cons] <;> omega

end Signal

inductive Item where
  | word (w : String)
  | fault
deriving DecidableEq

structure Reader where
  /-- The words of the current line that are still to be handed out. -/
  pending : List String
  input : List Signal
deriving DecidableEq

namespace Reader

def ofSignals (input : List Signal) : Reader := ⟨[], input⟩

/-- The next word or fault, over lines without words, if anything is left. -/
def next? (r : Reader) : Option (Item × Reader) :=
  match r with
  | ⟨w :: pending, input⟩ => some (.word w, ⟨pending, input⟩)
  | ⟨[], []⟩ => none
  | ⟨[], x :: rest⟩ =>
    match _h : Signal.takeLine (x :: rest) with
    | (none, input) => some (.fault, ⟨[], input⟩)
    | (some line, input) => next? ⟨Words.ofBytes line, input⟩
termination_by r.input.length
decreasing_by
  have := Signal.length_takeLine_cons x rest
  rw [_h] at this
  exact this

/-- Reading gets ahead: either words of the line are used up, or signals. -/
theorem next?_lt {r r' : Reader} {item : Item} (h : r.next? = some (item, r')) :
    r'.input.length < r.input.length ∨
      (r'.input.length = r.input.length ∧ r'.pending.length < r.pending.length) := by
  fun_induction next? r with
  | case1 w pending input =>
    simp only [Option.some.injEq, Prod.mk.injEq] at h
    obtain ⟨_, rfl⟩ := h
    right; simp
  | case2 => simp at h
  | case3 x rest input hl =>
    simp only [Option.some.injEq, Prod.mk.injEq] at h
    obtain ⟨_, rfl⟩ := h
    left
    have := Signal.length_takeLine_cons x rest
    rw [hl] at this
    exact this
  | case4 x rest line input hl ih =>
    left
    have := Signal.length_takeLine_cons x rest
    rw [hl] at this
    have := ih h
    simp only at *
    omega

/-- All words and faults, to the end. -/
def items (r : Reader) : List Item :=
  match _h : r.next? with
  | none => []
  | some (item, r') => item :: r'.items
termination_by (r.input.length, r.pending.length)
decreasing_by
  rcases next?_lt _h with h | ⟨h, h'⟩
  · exact Prod.Lex.left _ _ h
  · rw [h]; exact Prod.Lex.right _ h'

end Reader

end ReversePolish
