import ReversePolish.Proofs.Transcripts

/-!
# The words that a session evaluates

`Evaluates` goes with a session from word to word and keeps the words that it hands to the calculator.  They are those
of the walk (`evaluates_run`), so it is known how they end (`ends_along`): with the one that quits, with the one whose
text was refused, or with the last one in front of a fault or of the end of the input.  Evaluating these words alone,
one after the other and with the same output, leaves the same stack and the same text (`Calculator.writeSteps_eq`).
-/

namespace ReversePolish

open Walk

/-! ### Words -/

/-- A session that evaluates some words, one after the other, and how it ends. -/
inductive Session.Evaluates (m : Machine) : Session → List String → Session × Ending → Prop where
  | exhausted {s : Session} : s.reader.next? = none →
    Evaluates m s [] ({ s with reader := .ofSignals [] }, .exhausted)
  | fault {s : Session} {reader : Reader} : s.reader.next? = some (.fault, reader) →
    Evaluates m s [] ({ s with reader := reader }, .broken)
  | last {s s' : Session} {reader : Reader} {word : String} {ending : Ending} :
    s.reader.next? = some (.word word, reader) → s.evaluate m reader word = (s', some ending) →
    Evaluates m s [word] (s', ending)
  | proceed {s s' : Session} {reader : Reader} {word : String} {words : List String} {outcome : Session × Ending} :
    s.reader.next? = some (.word word, reader) → s.evaluate m reader word = (s', none) →
    Evaluates m s' words outcome → Evaluates m s (word :: words) outcome

/-- The words that a session evaluates are those of the walk. -/
theorem Session.evaluates_run (m : Machine) (s : Session) (done : List String)
    (h : exceeds s.sink.limit? s.sink.written.toList = false) :
    let w := Walk.along m s.sink.limit? s.stack done s.sink.written.toList s.reader.items
    ∃ words, w.words = done ++ words ∧ Evaluates m s words (s.run m) := by
  induction s using run_induction (m := m) generalizing done with
  | exhausted s hr =>
    rw [Reader.items_eq, hr]
    exact ⟨[], by simp [Walk.along], .exhausted hr⟩
  | fault s reader hr =>
    rw [items_of_next? hr]
    exact ⟨[], by simp [Walk.along], .fault hr⟩
  | last s reader word s' ending hr he =>
    obtain ⟨-, -, -, -, hwords⟩ := along_of_last h hr he done
    exact ⟨[word], hwords, .last hr he⟩
  | proceed s reader word s' hr he ih =>
    obtain ⟨-, -, hfull, halong⟩ := along_of_proceed h hr he done
    obtain ⟨words, hwords, hrun⟩ := ih (done ++ [word]) hfull
    rw [halong]
    exact ⟨word :: words, by rw [hwords, List.append_assoc]; rfl, .proceed hr he hrun⟩

/-! ### Ends -/

/-- How the words end that are evaluated of some items when `text` has been printed before, and what is left of the
items. -/
inductive Ends (m : Machine) (limit? : Option Nat) (s : Stack) (text : List UInt8) (items rest : List Item) :
    List String → Ending → Prop where
  /-- With the word that quits. -/
  | quit (before : List String) : exceeds limit? (text ++ printed (Calculator.steps m s before)) = false →
    items = (before ++ [".q"]).map .word ++ rest → Ends m limit? s text items rest (before ++ [".q"]) .quit
  /-- With the word whose text the output refuses. -/
  | refused (before : List String) (word : String) :
    exceeds limit? (text ++ printed (Calculator.steps m s before)) = false →
    exceeds limit? (text ++ printed (Calculator.steps m s (before ++ [word]))) = true →
    items = (before ++ [word]).map .word ++ rest → Ends m limit? s text items rest (before ++ [word]) .broken
  /-- With the last word in front of a fault. -/
  | fault {words : List String} : exceeds limit? (text ++ printed (Calculator.steps m s words)) = false →
    items = words.map .word ++ .fault :: rest → Ends m limit? s text items rest words .broken
  /-- With the last word of all. -/
  | exhausted {words : List String} : exceeds limit? (text ++ printed (Calculator.steps m s words)) = false →
    items = words.map .word → rest = [] → Ends m limit? s text items rest words .exhausted

section

variable {m : Machine} {limit? : Option Nat} {s : Stack} {text : List UInt8} {word : String}

theorem append_printed_cons (m : Machine) (s : Stack) (text : List UInt8) (word : String) (words : List String) :
    text ++ printed (Calculator.steps m s (word :: words)) =
      text ++ Utf8.encode (Calculator.step m s word).text.toList ++
        printed (Calculator.steps m (Calculator.step m s word).stack words) := by
  rw [Calculator.steps, printed, List.flatMap_cons, List.append_assoc]
  rfl

/-- One more word in front does not change how the words end. -/
theorem Ends.cons {items rest : List Item} {words : List String} {ending : Ending}
    (h : Ends m limit? (Calculator.step m s word).stack
      (text ++ Utf8.encode (Calculator.step m s word).text.toList) items rest words ending) :
    Ends m limit? s text (.word word :: items) rest (word :: words) ending := by
  cases h with
  | quit before hbefore hitems =>
    rw [← append_printed_cons] at hbefore
    exact .quit (word :: before) hbefore (congrArg (Item.word word :: ·) hitems)
  | refused before last hbefore hrefused hitems =>
    rw [← append_printed_cons] at hbefore hrefused
    exact .refused (word :: before) last hbefore hrefused (congrArg (Item.word word :: ·) hitems)
  | fault hall hitems =>
    rw [← append_printed_cons] at hall
    exact .fault hall (congrArg (Item.word word :: ·) hitems)
  | exhausted hall hitems hrest =>
    rw [← append_printed_cons] at hall
    exact .exhausted hall (congrArg (Item.word word :: ·) hitems) hrest

/-- The words of a walk end in one of these ways. -/
theorem ends_along (h : exceeds limit? text = false) (done : List String) (items : List Item) :
    let w := Walk.along m limit? s done text items
    ∃ words, w.words = done ++ words ∧ Ends m limit? s text items w.rest words w.stop.ending := by
  have hnil : exceeds limit? (text ++ printed (Calculator.steps m s [])) = false := by
    simpa [Calculator.steps, printed] using h
  induction items generalizing s done text with
  | nil => exact ⟨[], by simp [Walk.along], .exhausted hnil rfl rfl⟩
  | cons item rest ih =>
    cases item with
    | fault => exact ⟨[], by simp [Walk.along], .fault hnil rfl⟩
    | word w =>
      rw [Walk.along]
      by_cases hq : (Calculator.step m s w).flow = .quit
      · obtain rfl := (Calculator.flow_eq_quit_iff m s w).1 hq
        rw [if_pos hq]
        exact ⟨[".q"], rfl, .quit [] hnil rfl⟩
      · rw [if_neg hq]
        by_cases hfull : exceeds limit? (text ++ Utf8.encode (Calculator.step m s w).text.toList)
        · rw [if_pos hfull]
          refine ⟨[w], rfl, .refused [] w hnil ?_ rfl⟩
          rw [List.nil_append, append_printed_cons]
          simpa [Calculator.steps, printed] using hfull
        · rw [if_neg hfull]
          rw [Bool.not_eq_true] at hfull
          obtain ⟨words, hwords, hends⟩ := ih hfull (done ++ [w]) (by simpa [Calculator.steps, printed] using hfull)
          exact ⟨w :: words, by rw [hwords, List.append_assoc]; rfl, hends.cons⟩

theorem Ends.quit_iff {items rest : List Item} {words : List String} {ending : Ending}
    (h : Ends m limit? s text items rest words ending) (hq : ending = .quit ↔ ".q" ∈ words) :
    ending = .quit ↔ words.getLast? = some ".q" := by
  constructor
  · rintro rfl
    cases h with
    | quit => simp
  · intro hlast
    exact hq.2 (List.mem_of_getLast? hlast)

end

/-! ### Words alone -/

/-- Evaluates words one after the other, and writes what they print to an output. -/
def Calculator.writeSteps (m : Machine) (s : Stack) (sink : Sink) : List String → Stack × Sink
  | [] => (s, sink)
  | word :: words =>
    let step := step m s word
    writeSteps m step.stack (sink.write (Utf8.encode step.text.toList)).1 words

/-- What an output has taken of a text, and of one more part of it: once it has refused bytes, it is full. -/
theorem Sink.written_write_upTo {sink : Sink} {text : List UInt8}
    (h : sink.written.toList = upTo sink.limit? text) (bytes : List UInt8) :
    (sink.write bytes).1.written.toList = upTo sink.limit? (text ++ bytes) := by
  unfold write
  split <;> rename_i hl <;> rw [hl] at h ⊢
  · simpa [upTo] using h
  · rename_i limit
    have hsize : sink.written.size = min limit text.length := by
      rw [← Array.length_toList, h]
      exact List.length_take
    have hroom : limit - min limit text.length = limit - text.length := by omega
    have h : sink.written.toList = text.take limit := h
    simp [upTo, h, hsize, hroom, List.take_append]

theorem Calculator.writeSteps_eq (m : Machine) (s : Stack) {sink : Sink} {text : List UInt8}
    (h : sink.written.toList = upTo sink.limit? text) (words : List String) :
    (writeSteps m s sink words).1 = stackAfter m s words ∧
      (writeSteps m s sink words).2.written.toList = upTo sink.limit? (text ++ printed (steps m s words)) := by
  induction words generalizing s sink text with
  | nil => exact ⟨rfl, by simpa [writeSteps, steps, printed] using h⟩
  | cons word words ih =>
    have hwritten := Sink.written_write_upTo h (Utf8.encode (step m s word).text.toList)
    rw [← sink.limit?_write (Utf8.encode (step m s word).text.toList)] at hwritten
    obtain ⟨hstack, htext⟩ := ih (step m s word).stack hwritten
    rw [sink.limit?_write, ← append_printed_cons] at htext
    exact ⟨hstack, htext⟩

end ReversePolish
