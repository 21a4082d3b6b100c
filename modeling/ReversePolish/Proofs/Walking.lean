import Mathlib
import ReversePolish.Proofs.Reading
import ReversePolish.Session

/-!
# Sessions as walks

A session reads lazily, writes to an output that may refuse bytes, and ends in the middle of all this.  `Walk.along`
does none of it: it goes through the items of an input that are all there, evaluates the words, collects what they
print, and stops at the first item where there is a reason to.  The two come to the same (`run_walk`), since the
bytes an output has taken are those printed so far as long as it has not refused any.
-/

namespace ReversePolish

/-! ### Quitting -/

namespace Calculator

/-- Only one word asks to quit, and it prints nothing. -/
theorem flow_eq_quit_iff (m : Machine) (s : Stack) (word : String) : (step m s word).flow = .quit ↔ word = ".q" := by
  unfold step Command.ofWord
  split_ifs with h1 h2 h3
  · simp [execute, h1]
  · simp [execute, h2]
  · simp [execute, h2]
  · cases Literal.parse? word.toList with
    | some z => simp [execute, h2]
    | none => cases Operator.ofToken? word <;> simp [execute, h2]

theorem text_quit (m : Machine) (s : Stack) : (step m s ".q").text = "" := by
  simp [step, Command.ofWord, execute]

end Calculator

/-! ### Walks -/

/-- Why a walk stops. -/
inductive Stop where
  /-- Reading fails. -/
  | fault
  /-- A word asks to quit. -/
  | quit
  /-- More has been printed than the output takes. -/
  | full
  /-- There are no items left. -/
  | exhausted
deriving DecidableEq

/-- How a session ends in such a place. -/
def Stop.ending : Stop → Ending
  | fault | full => .broken
  | quit => .quit
  | exhausted => .exhausted

/-- A walk that has stopped. -/
structure Walk where
  stack : Stack
  /-- The words that have been evaluated. -/
  words : List String
  /-- All that has been printed, whether or not the output takes it. -/
  text : List UInt8
  stop : Stop
  /-- The items behind the place where it stopped. -/
  rest : List Item

namespace Walk

/-- Whether a text is too long for an output. -/
def exceeds (limit? : Option Nat) (text : List UInt8) : Bool := limit?.any (· < text.length)

/-- What an output takes of a text. -/
def upTo (limit? : Option Nat) (text : List UInt8) : List UInt8 := limit?.elim text fun limit => text.take limit

private theorem upTo_of_not_exceeds {limit? : Option Nat} {text : List UInt8} (h : exceeds limit? text = false) :
    upTo limit? text = text := by
  cases limit? with
  | none => rfl
  | some limit => exact List.take_of_length_le (by simpa [exceeds] using h)

/-- Walks over some items, after the words `done` that have printed `text`. -/
def along (m : Machine) (limit? : Option Nat) (s : Stack) (done : List String) (text : List UInt8) : List Item → Walk
  | [] => ⟨s, done, text, .exhausted, []⟩
  | .fault :: rest => ⟨s, done, text, .fault, rest⟩
  | .word w :: rest =>
    let step := Calculator.step m s w
    let printed := text ++ Utf8.encode step.text.toList
    if step.flow = .quit then ⟨step.stack, done ++ [w], printed, .quit, rest⟩
    else if exceeds limit? printed then ⟨step.stack, done ++ [w], printed, .full, rest⟩
    else along m limit? step.stack (done ++ [w]) printed rest

/-- What some steps print, one after the other. -/
def printed (steps : List Step) : List UInt8 := steps.flatMap fun step => Utf8.encode step.text.toList

/-- A walk has evaluated the words up to the place where it stopped, each on the stack that the one before it left. -/
theorem along_words (m : Machine) (limit? : Option Nat) (s : Stack) (done : List String) (text : List UInt8)
    (items : List Item) :
    let w := along m limit? s done text items
    ∃ words, w.words = done ++ words ∧
      items = words.map .word ++ ((if w.stop = .fault then [.fault] else []) ++ w.rest) ∧
      w.stack = Calculator.stackAfter m s words ∧ w.text = text ++ printed (Calculator.steps m s words) ∧
      (w.stop = .quit ↔ ".q" ∈ words) := by
  induction items generalizing s done text with
  | nil => exact ⟨[], by simp [along, Calculator.stackAfter, Calculator.steps, printed]⟩
  | cons item rest ih =>
    cases item with
    | fault => exact ⟨[], by simp [along, Calculator.stackAfter, Calculator.steps, printed]⟩
    | word w =>
      have hquit := Calculator.flow_eq_quit_iff m s w
      rw [along]
      by_cases hq : (Calculator.step m s w).flow = .quit
      · have hw : ".q" = w := (hquit.1 hq).symm
        rw [if_pos hq]
        exact ⟨[w], by simp [Calculator.stackAfter, Calculator.steps, printed, hw]⟩
      · have hw : ¬ ".q" = w := fun h => hq (hquit.2 h.symm)
        rw [if_neg hq]
        by_cases hfull : exceeds limit? (text ++ Utf8.encode (Calculator.step m s w).text.toList)
        · rw [if_pos hfull]
          exact ⟨[w], by simp [Calculator.stackAfter, Calculator.steps, printed, hw]⟩
        · rw [if_neg hfull]
          obtain ⟨words, hwords, hitems, hstack, htext, hstop⟩ := ih (Calculator.step m s w).stack (done ++ [w])
            (text ++ Utf8.encode (Calculator.step m s w).text.toList)
          refine ⟨w :: words, ?_, ?_, hstack, ?_, ?_⟩
          · rw [hwords, List.append_assoc]; rfl
          · rw [List.map_cons, List.cons_append, ← hitems]
          · rw [htext, List.append_assoc]; rfl
          · rw [hstop, List.mem_cons]
            exact ⟨Or.inr, fun h => h.resolve_left hw⟩

end Walk

/-! ### Outputs -/

namespace Sink

open Walk

theorem limit?_write (s : Sink) (bytes : List UInt8) : (s.write bytes).1.limit? = s.limit? := by
  unfold write
  split <;> rfl

/-- As long as nothing has been refused, an output has taken what fits of all that was written. -/
theorem written_write {s : Sink} (h : exceeds s.limit? s.written.toList = false) (bytes : List UInt8) :
    (s.write bytes).1.written.toList = upTo s.limit? (s.written.toList ++ bytes) := by
  unfold write
  split <;> rename_i hl <;> rw [hl] at h ⊢
  · simp [upTo]
  · rename_i limit
    have hle : s.written.toList.length ≤ limit := by simpa [exceeds] using h
    simp [upTo, List.take_append, List.take_of_length_le hle]

/-- It refuses bytes exactly if not everything fits. -/
theorem all_write (s : Sink) (bytes : List UInt8) :
    (s.write bytes).2 = !exceeds s.limit? (s.written.toList ++ bytes) := by
  unfold write
  split <;> rename_i hl <;> rw [hl]
  · rfl
  · have := s.written.length_toList
    rw [exceeds, Option.any_some, ← decide_not, decide_eq_decide, List.length_append]
    omega

/-- Writing a text in two parts is writing it at once, unless the first part is refused already. -/
theorem write_append (s : Sink) (a b : List UInt8) :
    s.write (a ++ b) = if (s.write a).2 then (s.write a).1.write b else ((s.write a).1, false) := by
  have happend (bytes : List UInt8) : s.written ++ (a ++ bytes) = s.written ++ a ++ bytes :=
    Array.toList_inj.1 (by simp)
  have hsize : (s.written ++ a).size = s.written.size + a.length := by simp [← Array.length_toList]
  unfold write
  cases hl : s.limit? with
  | none => simp [happend]
  | some limit =>
    by_cases ha : s.written.size + a.length ≤ limit
    · have htake : a.take (limit - s.written.size) = a := List.take_of_length_le (by omega)
      simp [ha, htake, List.take_append, happend, hsize, Nat.sub_add_eq, Nat.add_assoc]
    · have hb : limit - s.written.size - a.length = 0 := by omega
      have hab : ¬ s.written.size + (a.length + b.length) ≤ limit := by omega
      simp [ha, hab, hb, List.take_append]

/-- Writes the parts of a text one after the other, up to the first that is refused. -/
def writeAll (s : Sink) : List (List UInt8) → Sink × Bool
  | [] => (s, true)
  | part :: parts => if (s.write part).2 then (s.write part).1.writeAll parts else ((s.write part).1, false)

/-- It makes no difference to an output into which parts a text is divided. -/
theorem writeAll_eq_write {s : Sink} (h : exceeds s.limit? s.written.toList = false) (parts : List (List UInt8)) :
    s.writeAll parts = s.write parts.flatten := by
  induction parts generalizing s with
  | nil =>
    have hnil : s.written ++ ([] : List UInt8) = s.written := Array.toList_inj.1 (by simp)
    rw [writeAll, List.flatten_nil, write]
    cases hl : s.limit? with
    | none => simp only [hnil, ← hl]
    | some limit =>
      have hle : s.written.size + ([] : List UInt8).length ≤ limit := by simpa [hl, exceeds] using h
      simp only [List.take_nil, hnil, decide_eq_true hle, ← hl]
  | cons part parts ih =>
    rw [writeAll, List.flatten_cons, write_append]
    by_cases hall : (s.write part).2
    · rw [if_pos hall, if_pos hall]
      rw [all_write, Bool.not_eq_true'] at hall
      refine ih ?_
      rw [limit?_write, written_write h, upTo_of_not_exceeds hall]
      exact hall
    · rw [if_neg hall, if_neg hall]

end Sink

/-! ### Sessions -/

namespace Session

open Walk

theorem items_of_next? {r r' : Reader} {item : Item} (h : r.next? = some (item, r')) :
    r.items = item :: r'.items := by
  rw [Reader.items_eq, h]

/-- The session after a word, and the ending there, when nothing has been refused before. -/
theorem evaluate_eq (m : Machine) {s : Session} (h : exceeds s.sink.limit? s.sink.written.toList = false)
    (reader : Reader) (word : String) {step : Step} (hstep : Calculator.step m s.stack word = step)
    {printed : List UInt8} (hprinted : s.sink.written.toList ++ Utf8.encode step.text.toList = printed) :
    (s.evaluate m reader word).1.stack = step.stack ∧
      (s.evaluate m reader word).1.reader = reader ∧
      (s.evaluate m reader word).1.sink.limit? = s.sink.limit? ∧
      (s.evaluate m reader word).1.sink.written.toList = upTo s.sink.limit? printed ∧
      (s.evaluate m reader word).2 =
        if exceeds s.sink.limit? printed then some .broken else if step.flow = .quit then some .quit else none := by
  have hlimit := s.sink.limit?_write (Utf8.encode step.text.toList)
  have hwritten := Sink.written_write h (Utf8.encode step.text.toList)
  have hall := s.sink.all_write (Utf8.encode step.text.toList)
  rw [hprinted] at hwritten hall
  unfold evaluate
  simp only [hstep, hall]
  cases exceeds s.sink.limit? printed with
  | true => exact ⟨rfl, rfl, hlimit, hwritten, rfl⟩
  | false => cases step.flow <;> exact ⟨rfl, rfl, hlimit, hwritten, rfl⟩

private theorem not_exceeds_of_quit {m : Machine} {s : Session} {word : String}
    (h : exceeds s.sink.limit? s.sink.written.toList = false) (hq : (Calculator.step m s.stack word).flow = .quit) :
    exceeds s.sink.limit? (s.sink.written.toList ++ Utf8.encode (Calculator.step m s.stack word).text.toList) =
      false := by
  rw [(Calculator.flow_eq_quit_iff m s.stack word).1 hq, Calculator.text_quit]
  simpa [Utf8.encode] using h

/-- A session ends where nothing is left, at a fault or at a word; otherwise it goes on behind a word. -/
@[elab_as_elim]
theorem run_induction {m : Machine} {P : Session → Session × Ending → Prop}
    (exhausted : ∀ s, s.reader.next? = none → P s ({ s with reader := .ofSignals [] }, .exhausted))
    (fault : ∀ s reader, s.reader.next? = some (.fault, reader) → P s ({ s with reader := reader }, .broken))
    (last : ∀ s reader word s' ending, s.reader.next? = some (.word word, reader) →
      s.evaluate m reader word = (s', some ending) → P s (s', ending))
    (proceed : ∀ s reader word s', s.reader.next? = some (.word word, reader) →
      s.evaluate m reader word = (s', none) → P s' (s'.run m) → P s (s'.run m)) (s : Session) : P s (s.run m) := by
  fun_induction run m s with
  | case1 s s' ending hadv =>
    unfold advance at hadv
    split at hadv
    · rename_i hr
      cases hadv
      exact exhausted s hr
    · rename_i reader hr
      cases hadv
      exact fault s reader hr
    · rename_i word reader hr
      exact last s reader word s' ending hr hadv
  | case2 s s' hadv ih =>
    unfold advance at hadv
    split at hadv
    · cases hadv
    · cases hadv
    · rename_i word reader hr
      exact proceed s reader word s' hr hadv ih

/-- Where a session ends at a word, so does the walk. -/
theorem along_of_last {m : Machine} {s s' : Session} (h : exceeds s.sink.limit? s.sink.written.toList = false)
    {reader : Reader} {word : String} {ending : Ending} (hr : s.reader.next? = some (.word word, reader))
    (he : s.evaluate m reader word = (s', some ending)) (done : List String) :
    let w := Walk.along m s.sink.limit? s.stack done s.sink.written.toList s.reader.items
    s'.stack = w.stack ∧ s'.sink.written.toList = upTo s.sink.limit? w.text ∧ s'.reader.items = w.rest ∧
      ending = w.stop.ending ∧ w.words = done ++ [word] := by
  obtain ⟨hstack, hreader, -, hwritten, hending⟩ := evaluate_eq m h reader word rfl rfl
  rw [he] at hstack hreader hwritten hending
  rw [items_of_next? hr, Walk.along]
  by_cases hq : (Calculator.step m s.stack word).flow = .quit
  · rw [not_exceeds_of_quit h hq, if_pos hq] at hending
    cases hending
    rw [if_pos hq]
    exact ⟨hstack, hwritten, congrArg Reader.items hreader, rfl, rfl⟩
  · rw [if_neg hq] at hending
    split at hending
    · rename_i hfull
      cases hending
      rw [if_neg hq, if_pos hfull]
      exact ⟨hstack, hwritten, congrArg Reader.items hreader, rfl, rfl⟩
    · cases hending

/-- Where a session goes on, so does the walk, and still nothing has been refused. -/
theorem along_of_proceed {m : Machine} {s s' : Session} (h : exceeds s.sink.limit? s.sink.written.toList = false)
    {reader : Reader} {word : String} (hr : s.reader.next? = some (.word word, reader))
    (he : s.evaluate m reader word = (s', none)) (done : List String) :
    s'.stack = (Calculator.step m s.stack word).stack ∧ s'.sink.limit? = s.sink.limit? ∧
      exceeds s'.sink.limit? s'.sink.written.toList = false ∧
      Walk.along m s.sink.limit? s.stack done s.sink.written.toList s.reader.items =
        Walk.along m s'.sink.limit? s'.stack (done ++ [word]) s'.sink.written.toList s'.reader.items := by
  obtain ⟨hstack, hreader, hlimit, hwritten, hending⟩ := evaluate_eq m h reader word rfl rfl
  rw [he] at hstack hreader hlimit hwritten hending
  have hfull : exceeds s.sink.limit? (s.sink.written.toList ++
      Utf8.encode (Calculator.step m s.stack word).text.toList) = false := by
    split at hending
    · cases hending
    · rename_i hfull; simpa using hfull
  have hq : (Calculator.step m s.stack word).flow ≠ .quit := by
    intro hq
    rw [hfull, if_pos hq] at hending
    cases hending
  rw [upTo_of_not_exceeds hfull] at hwritten
  refine ⟨hstack, hlimit, by rw [hlimit, hwritten]; exact hfull, ?_⟩
  rw [hlimit, hwritten, hstack, hreader, items_of_next? hr, Walk.along, if_neg hq, hfull]
  rfl

/-- A session is a walk over what it has yet to read, as long as nothing has been refused. -/
theorem run_along (m : Machine) (s : Session) (done : List String)
    (h : exceeds s.sink.limit? s.sink.written.toList = false) :
    let w := Walk.along m s.sink.limit? s.stack done s.sink.written.toList s.reader.items
    (s.run m).1.stack = w.stack ∧ (s.run m).1.sink.written.toList = upTo s.sink.limit? w.text ∧
      (s.run m).1.reader.items = w.rest ∧ (s.run m).2 = w.stop.ending := by
  induction s using run_induction (m := m) generalizing done with
  | exhausted s hr =>
    rw [Reader.items_eq, hr]
    exact ⟨rfl, (upTo_of_not_exceeds h).symm, Reader.items_nil, rfl⟩
  | fault s reader hr =>
    rw [items_of_next? hr]
    exact ⟨rfl, (upTo_of_not_exceeds h).symm, rfl, rfl⟩
  | last s reader word s' ending hr he =>
    obtain ⟨hstack, hwritten, hrest, hending, -⟩ := along_of_last h hr he done
    exact ⟨hstack, hwritten, hrest, hending⟩
  | proceed s reader word s' hr he ih =>
    obtain ⟨-, hlimit, hfull, halong⟩ := along_of_proceed h hr he done
    rw [halong, ← hlimit]
    exact ih (done ++ [word]) hfull

/-- A session on a stream is the walk over its items.  It fails exactly if the walk stops at a fault or at a text that
the output cannot take; the output takes what fits; and what lies behind the place where it stops, faults included,
is still to be read. -/
theorem run_walk (m : Machine) (s : Stack) (data : List UInt8) (faults : List Nat) (limit? : Option Nat) :
    let outcome := (Session.start s (Signal.ofBytes data faults) limit?).run m
    let items := (Reader.ofSignals (Signal.ofBytes data faults)).items
    let walk := Walk.along m limit? s [] [] items
    outcome.1.stack = walk.stack ∧
      outcome.1.sink.written.toList = upTo limit? walk.text ∧
      (outcome.2.failure? = none ↔ walk.stop = .quit ∨ walk.stop = .exhausted) ∧
      (outcome.2.failure? = some .io ↔ walk.stop = .fault ∨ walk.stop = .full) ∧
      outcome.1.reader.items = walk.rest ∧
      items = walk.words.map .word ++ ((if walk.stop = .fault then [.fault] else []) ++ walk.rest) ∧
      walk.stack = Calculator.stackAfter m s walk.words ∧
      walk.text = printed (Calculator.steps m s walk.words) ∧
      (walk.stop = .quit ↔ ".q" ∈ walk.words) := by
  intro outcome items walk
  have h : exceeds limit? [] = false := by cases limit? <;> simp [exceeds]
  obtain ⟨hstack, hwritten, hrest, hending⟩ := run_along m (start s (Signal.ofBytes data faults) limit?) [] h
  obtain ⟨words, hwords, hitems, hafter, htext, hstop⟩ := Walk.along_words m limit? s [] [] items
  rw [List.nil_append] at hwords htext
  subst hwords
  refine ⟨hstack, hwritten, ?_, ?_, hrest, hitems, hafter, htext, hstop⟩
  · show outcome.2.failure? = none ↔ _
    rw [show outcome.2 = walk.stop.ending from hending]
    cases walk.stop <;> simp [Stop.ending, Ending.failure?]
  · show outcome.2.failure? = some .io ↔ _
    rw [show outcome.2 = walk.stop.ending from hending]
    cases walk.stop <;> simp [Stop.ending, Ending.failure?]

end Session

end ReversePolish
