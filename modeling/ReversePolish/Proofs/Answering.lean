import Mathlib.Computability.StateTransition
import ReversePolish.Proofs.Arguments

/-!
# Answers line by line

`Reader.request?` takes reading apart into requests for single lines.  A reader holds one line of its data at any time
(`Reader.Holds`): it has handed out some words of the line, keeps the others, and has not touched what comes behind.  It
makes a request only when it keeps no words.  A run passes through the sessions after each of its words
(`Session.after?`), and in the one that makes a request all that the lines up to there print is written and flushed
(`Session.run_by_lines`).  So nothing is lost when each line is given to a session of its own (`Transcript.ofLines_eq`).
-/

namespace ReversePolish

open Signal (newline)
open StateTransition (Reaches)

/-! ### Lines -/

/-- Whether some bytes, in front of others, end where a line ends. -/
def Whole (bs rest : List UInt8) : Prop := bs = [] ∨ bs.getLast? = some newline ∨ rest = []

theorem Words.ofBytes_append_of_whole {bs rest : List UInt8} (h : Whole bs rest) :
    ofBytes (bs ++ rest) = ofBytes bs ++ ofBytes rest := by
  rcases h with rfl | hlast | rfl
  · simp
  · obtain ⟨front, rfl⟩ := List.getLast?_eq_some_iff.1 hlast
    rw [List.append_assoc, List.singleton_append, ofBytes_append_cons (by decide) (by decide), Reader.ofBytes_newline]
  · simp

/-- A line of `data`, between the bytes before and behind it.  It begins where a line begins, and goes on to the first
newline or to the end of the data.  An empty one stands between two lines. -/
structure IsLine (data before line rest : List UInt8) : Prop where
  eq : data = before ++ (line ++ rest)
  begins : Whole before (line ++ rest)
  single : newline ∉ line.dropLast
  ends : Whole line rest

namespace IsLine

variable {data before line rest : List UInt8}

theorem ofBytes_eq (h : IsLine data before line rest) :
    Words.ofBytes data = Words.ofBytes before ++ (Words.ofBytes line ++ Words.ofBytes rest) := by
  rw [h.eq, Words.ofBytes_append_of_whole h.begins, Words.ofBytes_append_of_whole h.ends]

/-- A line ends where the next one begins. -/
theorem whole_append (h : IsLine data before line rest) : Whole (before ++ line) rest := by
  rcases h.ends with rfl | hlast | hrest
  · simpa using h.begins
  · exact .inr (.inl (by simp [List.getLast?_append, hlast]))
  · exact .inr (.inr hrest)

theorem ofBytes_append (h : IsLine data before line rest) :
    Words.ofBytes (before ++ line) = Words.ofBytes before ++ Words.ofBytes line := by
  have hdata : Words.ofBytes data = Words.ofBytes (before ++ line) ++ Words.ofBytes rest := by
    rw [h.eq, ← List.append_assoc, Words.ofBytes_append_of_whole h.whole_append]
  rw [h.ofBytes_eq, ← List.append_assoc] at hdata
  exact (List.append_cancel_right hdata).symm

end IsLine

/-- What a stream of bytes gives first is a line. -/
theorem Signal.takeLine_bytes (bs : List UInt8) : ∃ line rest, bs = line ++ rest ∧
    takeLine (bs.map byte) = (some line, rest.map byte) ∧ newline ∉ line.dropLast ∧ Whole line rest := by
  by_cases h : newline ∈ bs
  · obtain ⟨line, rest, rfl, hline⟩ := List.eq_append_cons_of_mem h
    refine ⟨line ++ [newline], rest, by simp, ?_, by simpa using hline, .inr (.inl (by simp))⟩
    rw [List.map_append, List.map_cons]
    exact takeLine_finished hline _
  · exact ⟨bs, [], by simp, takeLine_last h, fun hmem => h (List.mem_of_mem_dropLast hmem), .inr (.inr rfl)⟩

/-! ### Readers -/

namespace Reader

/-- Requests a line, if no words are pending and there is a line to be had. -/
def request? (r : Reader) : Option Reader :=
  match r with
  | ⟨[], x :: input⟩ =>
    let (line?, rest) := Signal.takeLine (x :: input)
    line?.map fun line => ⟨Words.ofBytes line, rest⟩
  | _ => none

theorem request?_of_line {x : Signal} {input rest : List Signal} {line : List UInt8}
    (h : Signal.takeLine (x :: input) = (some line, rest)) :
    request? ⟨[], x :: input⟩ = some ⟨Words.ofBytes line, rest⟩ := by
  simp only [request?, h, Option.map_some]

/-- A request replaces a line without words that are left by the next line. -/
theorem of_request? {r r' : Reader} (h : r' ∈ r.request?) : r.pending = [] ∧
    ∃ line rest, Signal.takeLine r.input = (some line, rest) ∧ r' = ⟨Words.ofBytes line, rest⟩ := by
  unfold request? at h
  split at h
  · rename_i x input
    obtain ⟨line, hline, rfl⟩ := Option.mem_map.1 h
    exact ⟨rfl, line, _, Prod.ext hline rfl, rfl⟩
  · cases h

/-- A reader that keeps no words and can make no request is at the end, or in front of a fault. -/
theorem next?_of_request?_eq_none {r : Reader} (hpending : r.pending = []) (h : r.request? = none) :
    (r.input = [] ∧ r.next? = none) ∨
      ∃ rest, Signal.takeLine r.input = (none, rest) ∧ r.next? = some (.fault, ⟨[], rest⟩) := by
  obtain ⟨pending, input⟩ := r
  obtain rfl : pending = [] := hpending
  cases input with
  | nil => exact .inl ⟨rfl, next?.eq_2⟩
  | cons x input =>
    cases hline : Signal.takeLine (x :: input) with
    | mk line? rest =>
      cases line? with
      | some line => rw [request?_of_line hline] at h; cases h
      | none => exact .inr ⟨rest, rfl, next?_of_fault hline⟩

/-- To get the next item, a reader makes requests for as long as it can. -/
theorem exists_reaches (r : Reader) : ∃ r', Reaches request? r r' ∧ r'.request? = none ∧ r'.next? = r.next? := by
  fun_induction next? r with
  | case1 w pending input => exact ⟨⟨w :: pending, input⟩, .refl, rfl, next?.eq_1 ..⟩
  | case2 => exact ⟨⟨[], []⟩, .refl, rfl, next?.eq_2⟩
  | case3 x rest input hline =>
    have hrequest : request? ⟨[], x :: rest⟩ = none := by simp only [request?, hline, Option.map_none]
    exact ⟨⟨[], x :: rest⟩, .refl, hrequest, next?_of_fault hline⟩
  | case4 x rest line input hline ih =>
    obtain ⟨r', hreaches, hrequest, hnext⟩ := ih
    exact ⟨r', .head (request?_of_line hline) hreaches, hrequest, hnext⟩

theorem next?_of_cons {r : Reader} {w : String} {pending : List String} (h : r.pending = w :: pending) :
    r.next? = some (.word w, { r with pending := pending }) := by
  obtain ⟨pending', input⟩ := r
  obtain rfl : pending' = w :: pending := h
  rw [next?]

/-- When a reader can make no request, the word that comes next is one that it keeps. -/
theorem eq_of_next?_eq_word {r r' : Reader} {w : String} (hrequest : r.request? = none)
    (h : r.next? = some (.word w, r')) : ∃ pending, r.pending = w :: pending ∧ r' = { r with pending := pending } := by
  cases hpending : r.pending with
  | cons w' pending =>
    rw [next?_of_cons hpending] at h
    cases h
    exact ⟨pending, rfl, rfl⟩
  | nil =>
    obtain ⟨-, hnext⟩ | ⟨rest, -, hnext⟩ := next?_of_request?_eq_none hpending hrequest
    · rw [hnext] at h
      cases h
    · rw [hnext] at h
      cases h

theorem next?_of_mem_request? {r r' : Reader} (h : r' ∈ r.request?) : r'.next? = r.next? := by
  obtain ⟨pending, input⟩ := r
  obtain ⟨hpending, line, rest, hline, rfl⟩ := of_request? h
  obtain rfl : pending = [] := hpending
  cases input with
  | nil => cases h
  | cons x input => exact (next?_of_line hline).symm

theorem next?_of_reaches {r r' : Reader} (h : Reaches request? r r') : r'.next? = r.next? := by
  induction h with
  | refl => rfl
  | tail _ hrequest ih => rw [next?_of_mem_request? hrequest, ih]

/-- A reader gets the next word by requests alone: it makes them until the word is one that it keeps. -/
theorem next?_eq_word_iff {r r' : Reader} {w : String} :
    r.next? = some (.word w, r') ↔ Reaches request? r ⟨w :: r'.pending, r'.input⟩ := by
  constructor
  · intro h
    obtain ⟨last, hreaches, hrequest, hnext⟩ := r.exists_reaches
    rw [h] at hnext
    obtain ⟨pending, hpending, rfl⟩ := eq_of_next?_eq_word hrequest hnext
    rwa [← hpending]
  · intro h
    rw [← next?_of_reaches h, next?]

/-- A reader of `data` that holds the line between the bytes `before` and `rest`: of its words it has handed out those
in `given` and keeps the others, and of `rest` it has taken nothing. -/
structure Holds (data before line rest : List UInt8) (given : List String) (r : Reader) : Prop where
  isLine : IsLine data before line rest
  words : given ++ r.pending = Words.ofBytes line
  input : r.input = rest.map .byte

namespace Holds

variable {data before line rest : List UInt8} {given : List String} {r : Reader}

theorem start (data : List UInt8) : Holds data [] [] data [] (ofSignals (Signal.ofBytes data [])) where
  isLine := ⟨rfl, .inl rfl, by simp, .inl rfl⟩
  words := Words.ofBytes_nil.symm
  input := stream_nil 0 data

/-- The words handed out, the words kept and the words of the bytes not yet taken are the words of the data. -/
theorem ofBytes_eq (h : Holds data before line rest given r) :
    Words.ofBytes data = Words.ofBytes before ++ given ++ r.pending ++ Words.ofBytes rest := by
  rw [h.isLine.ofBytes_eq, ← h.words]
  simp only [List.append_assoc]

/-- When it keeps no words, it has handed out those of all lines that it has taken. -/
theorem ofBytes_append (h : Holds data before line rest given r) (hpending : r.pending = []) :
    Words.ofBytes (before ++ line) = Words.ofBytes before ++ given := by
  rw [h.isLine.ofBytes_append, ← h.words, hpending, List.append_nil]

theorem hand (h : Holds data before line rest given r) {w : String} {pending : List String}
    (hpending : r.pending = w :: pending) :
    Holds data before line rest (given ++ [w]) { r with pending := pending } where
  isLine := h.isLine
  words := by rw [← h.words, hpending, List.append_assoc, List.singleton_append]
  input := h.input

theorem request (h : Holds data before line rest given r) {r' : Reader} (hr : r' ∈ r.request?) :
    ∃ before' line' rest', Holds data before' line' rest' [] r' ∧
      Words.ofBytes before' = Words.ofBytes before ++ given := by
  obtain ⟨hpending, line', input, htake, rfl⟩ := of_request? hr
  obtain ⟨l, rest', hrest, htake', hsingle, hends⟩ := Signal.takeLine_bytes rest
  rw [h.input, htake'] at htake
  cases htake
  refine ⟨before ++ line, line', rest', ⟨⟨?_, ?_, hsingle, hends⟩, rfl, rfl⟩, h.ofBytes_append hpending⟩
  · rw [h.isLine.eq, hrest, List.append_assoc]
  · rw [← hrest]
    exact h.isLine.whole_append

/-- Requests do not hand out words. -/
theorem of_reaches (h : Holds data before line rest given r) {r' : Reader} (hr : Reaches request? r r') :
    ∃ before' line' rest' given', Holds data before' line' rest' given' r' ∧
      Words.ofBytes before' ++ given' = Words.ofBytes before ++ given := by
  induction hr with
  | refl => exact ⟨before, line, rest, given, h, rfl⟩
  | tail _ hrequest ih =>
    obtain ⟨before', line', rest', given', h', hwords⟩ := ih
    obtain ⟨before'', line'', rest'', h'', hwords'⟩ := h'.request hrequest
    exact ⟨before'', line'', rest'', [], h'', by rw [List.append_nil, hwords', hwords]⟩

/-- Either all words of the data are handed out, or the next one is, and the line that it is on is then held. -/
theorem next?_cases (h : Holds data before line rest given r) :
    (r.next? = none ∧ Words.ofBytes data = Words.ofBytes before ++ given) ∨
      ∃ w r' before' line' rest' given', r.next? = some (.word w, r') ∧
        Holds data before' line' rest' (given' ++ [w]) r' ∧
        Words.ofBytes before' ++ given' = Words.ofBytes before ++ given := by
  obtain ⟨r', hreaches, hrequest, hnext⟩ := r.exists_reaches
  obtain ⟨before', line', rest', given', h', hwords⟩ := h.of_reaches hreaches
  rw [← hnext]
  cases hpending : r'.pending with
  | cons w pending => exact .inr ⟨w, _, before', line', rest', given', next?_of_cons hpending, h'.hand hpending, hwords⟩
  | nil =>
    obtain ⟨hinput, hnone⟩ | ⟨rest'', hfault, -⟩ := next?_of_request?_eq_none hpending hrequest
    · obtain rfl : rest' = [] := List.map_eq_nil_iff.1 (h'.input.symm.trans hinput)
      refine .inl ⟨hnone, ?_⟩
      rw [h'.ofBytes_eq, hwords, hpending]
      simp
    · -- there are no faults among bytes
      obtain ⟨l, bs, -, htake, -, -⟩ := Signal.takeLine_bytes rest'
      rw [h'.input, htake] at hfault
      cases hfault

end Holds

/-- What the first `k` calls of a reader return, and the reader that they leave.  A reader from which nothing more came
has taken all there was. -/
def calls (r : Reader) : Nat → List Item × Reader
  | 0 => ([], r)
  | k + 1 =>
    match (r.calls k).2.next? with
    | none => ((r.calls k).1, ⟨[], []⟩)
    | some (item, r') => ((r.calls k).1 ++ [item], r')

theorem calls_succ (r : Reader) (k : Nat) : (r.calls (k + 1)).2 = ((r.calls k).2.calls 1).2 := by
  simp only [calls]
  cases (r.calls k).2.next? <;> rfl

theorem holds_all (data : List UInt8) : Holds data data [] [] [] ⟨[], []⟩ where
  isLine := ⟨by simp, .inr (.inr rfl), by simp, .inl rfl⟩
  words := Words.ofBytes_nil.symm
  input := rfl

/-- The first `k` calls return the first `k` words, and when the `k`-th word was returned, the line that it is on is
held. -/
theorem calls_holds (data : List UInt8) (k : Nat) :
    ((ofSignals (Signal.ofBytes data [])).calls k).1 = ((Words.ofBytes data).take k).map .word ∧
      ∃ before line rest given, Holds data before line rest given ((ofSignals (Signal.ofBytes data [])).calls k).2 ∧
        Words.ofBytes before ++ given = (Words.ofBytes data).take k ∧
        (0 < k → k ≤ (Words.ofBytes data).length → given ≠ []) := by
  induction k with
  | zero => exact ⟨rfl, [], [], data, [], .start data, by simp, by simp⟩
  | succ k ih =>
    obtain ⟨hitems, before, line, rest, given, h, hwords, -⟩ := ih
    rcases h.next?_cases with ⟨hnext, hall⟩ | ⟨w, r', before', line', rest', given', hnext, h', hwords'⟩
    · have hle : (Words.ofBytes data).length ≤ k := (List.take_eq_self_iff _).1 (hwords.symm.trans hall.symm)
      rw [calls, hnext, hitems, List.take_of_length_le hle, List.take_of_length_le (Nat.le_succ_of_le hle)]
      exact ⟨rfl, data, [], [], [], holds_all data, List.append_nil _, fun _ hk => by omega⟩
    · rw [hwords] at hwords'
      have hdata : Words.ofBytes data = (Words.ofBytes data).take k ++ w :: (r'.pending ++ Words.ofBytes rest') := by
        rw [← hwords', h'.ofBytes_eq]
        simp
      -- one more word comes, so there were `k` of them before
      have hk : ((Words.ofBytes data).take k).length = k := by
        have hlength := congrArg List.length hdata
        simp at hlength ⊢
        omega
      have htake : (Words.ofBytes data).take (k + 1) = (Words.ofBytes data).take k ++ [w] := by
        have hget : (Words.ofBytes data)[k]? = some w := by
          rw [hdata, List.getElem?_append_right (by omega), hk, Nat.sub_self]
          rfl
        rw [List.take_add_one, hget]
        rfl
      rw [calls, hnext, hitems, htake, List.map_append]
      refine ⟨rfl, before', line', rest', given' ++ [w], h', ?_, by simp⟩
      rw [← List.append_assoc, hwords']

/-- The blank line behind the first one is left in the stream. -/
example : (ofSignals (Signal.ofBytes [0x31, 0x20, 0x32, 0x0A, 0x0A, 0x33] [])).calls 1 =
    ([.word "1"], ⟨["2"], [.byte 0x0A, .byte 0x33]⟩) := by
  cbv

end Reader

/-! ### Sessions -/

theorem Sink.written_of_all {s : Sink} {bytes : List UInt8} (h : (s.write bytes).2 = true) :
    (s.write bytes).1.written.toList = s.written.toList ++ bytes := by
  unfold write at h ⊢
  cases hlimit : s.limit? with
  | none => simp
  | some limit =>
    rw [hlimit] at h
    have hfits : s.written.size + bytes.length ≤ limit := of_decide_eq_true h
    have hroom : bytes.length ≤ limit - s.written.size := by omega
    simp [List.take_of_length_le hroom]

namespace Session

variable {m : Machine} {s p q : Session}

/-- When a session goes on behind a word, all that the word prints is written and flushed. -/
theorem of_evaluate_none {reader : Reader} {word : String} (h : s.evaluate m reader word = (p, none)) :
    p.stack = (Calculator.step m s.stack word).stack ∧
      p.sink.written.toList = s.sink.written.toList ++ Utf8.encode (Calculator.step m s.stack word).text.toList ∧
      p.sink.flushed = p.sink.written.size := by
  unfold evaluate at h
  dsimp only at h
  split at h
  · rename_i hall
    split at h
    · cases h
      exact ⟨rfl, Sink.written_of_all hall, rfl⟩
    · cases h
  · cases h

theorem advance_of_next? {word : String} {reader : Reader} (h : s.reader.next? = some (.word word, reader)) :
    s.advance m = s.evaluate m reader word := by
  unfold advance
  rw [h]

/-- A session calls its reader once at a time. -/
theorem reader_advance (m : Machine) (s : Session) : (s.advance m).1.reader = (s.reader.calls 1).2 := by
  simp only [Reader.calls]
  unfold advance
  split <;> rename_i hnext <;> rw [hnext]
  · rfl
  · exact s.reader_evaluate m _ _

/-- The session after its next word, unless it ends there. -/
def advance? (m : Machine) (s : Session) : Option Session :=
  match s.advance m with
  | (s', none) => some s'
  | (_, some _) => none

theorem advance?_eq_some_iff : s.advance? m = some p ↔ s.advance m = (p, none) := by
  unfold advance?
  split <;> rename_i h <;> simp [h]

/-- The session after `k` words, unless it ends before that. -/
def after? (m : Machine) (s : Session) : Nat → Option Session
  | 0 => some s
  | k + 1 => (s.after? m k).bind (advance? m)

theorem after?_succ (h : s.advance m = (p, none)) (k : Nat) : s.after? m (k + 1) = p.after? m k := by
  induction k with
  | zero => exact advance?_eq_some_iff.2 h
  | succ k ih => rw [after?, ih, after?]

/-- From each of the sessions that it passes through, a run goes on in the same way. -/
theorem run_of_after? {k : Nat} (h : s.after? m k = some p) : p.run m = s.run m := by
  induction k generalizing p with
  | zero =>
    obtain rfl := Option.some.inj h
    rfl
  | succ k ih =>
    obtain ⟨q, hq, hadvance⟩ := Option.bind_eq_some_iff.1 h
    rw [← ih hq, run_eq m q, advance?_eq_some_iff.1 hadvance]

/-- A run passes through the sessions after so many words, and ends with the call behind the last one of them. -/
theorem exists_last (m : Machine) (s : Session) :
    ∃ n last, s.after? m n = some last ∧ last.advance m = ((s.run m).1, some (s.run m).2) := by
  fun_induction run m s with
  | case1 s s' ending hadvance => exact ⟨0, s, rfl, hadvance⟩
  | case2 s s' hadvance ih =>
    obtain ⟨n, last, hlast, hend⟩ := ih
    exact ⟨n + 1, last, (after?_succ hadvance n).trans hlast, hend⟩

/-- A session on `data` that began with the stack `s` and has evaluated `k` words.  They are the first ones, its reader
is the one that handed them out, and all that they print is written and flushed. -/
structure Answered (m : Machine) (s : Stack) (data : List UInt8) (k : Nat) (p : Session) : Prop where
  le : k ≤ (Words.ofBytes data).length
  reader : p.reader = ((Reader.ofSignals (Signal.ofBytes data [])).calls k).2
  stack : p.stack = Calculator.stackAfter m s ((Words.ofBytes data).take k)
  written : p.sink.written.toList = Walk.printed (Calculator.steps m s ((Words.ofBytes data).take k))
  flushed : p.sink.flushed = p.sink.written.size

namespace Answered

variable {s : Stack} {data : List UInt8} {k : Nat}

theorem start (m : Machine) (s : Stack) (data : List UInt8) (limit? : Option Nat) :
    Answered m s data 0 (Session.start s (Signal.ofBytes data []) limit?) where
  le := Nat.zero_le _
  reader := rfl
  stack := rfl
  written := rfl
  flushed := rfl

/-- The word that the reader hands out next is the next word of the data. -/
theorem take_succ (h : Answered m s data k p) {w : String} {r : Reader} (hnext : p.reader.next? = some (.word w, r)) :
    k + 1 ≤ (Words.ofBytes data).length ∧ (Words.ofBytes data).take (k + 1) = (Words.ofBytes data).take k ++ [w] := by
  have hitems := (Reader.calls_holds data (k + 1)).1
  rw [Reader.calls, ← h.reader, hnext] at hitems
  have htake : (Words.ofBytes data).take (k + 1) = (Words.ofBytes data).take k ++ [w] := by
    refine List.map_injective_iff.2 (fun _ _ h => Item.word.inj h) ?_
    rw [← hitems, (Reader.calls_holds data k).1, List.map_append]
    rfl
  have hlength := congrArg List.length htake
  rw [List.length_append, List.length_take, List.length_take_of_le h.le, List.length_singleton] at hlength
  exact ⟨by omega, htake⟩

theorem advance (h : Answered m s data k p) (hq : p.advance m = (q, none)) : Answered m s data (k + 1) q := by
  have hreader := reader_advance m p
  rw [hq, h.reader, ← Reader.calls_succ] at hreader
  unfold Session.advance at hq
  split at hq
  · cases hq
  · cases hq
  · rename_i w r hnext
    obtain ⟨hle, htake⟩ := h.take_succ hnext
    obtain ⟨hstack, hwritten, hflushed⟩ := of_evaluate_none hq
    rw [h.stack] at hstack hwritten
    refine ⟨hle, hreader, ?_, ?_, hflushed⟩
    · rw [htake, hstack, Calculator.stackAfter_append]
      rfl
    · rw [htake, hwritten, h.written, Calculator.steps_append, Walk.printed, Walk.printed, List.flatMap_append]
      simp [Calculator.steps]

/-- Every session that a run passes through has answered the words up to there. -/
theorem of_after? (limit? : Option Nat) (h : (Session.start s (Signal.ofBytes data []) limit?).after? m k = some p) :
    Answered m s data k p := by
  induction k generalizing p with
  | zero =>
    obtain rfl := Option.some.inj h
    exact .start m s data limit?
  | succ k ih =>
    obtain ⟨q, hq, hadvance⟩ := Option.bind_eq_some_iff.1 h
    exact (ih hq).advance (advance?_eq_some_iff.1 hadvance)

/-- On the way to its next word the reader holds one line after the other.  When it is going to request another one, the
words of all lines up to there have been evaluated. -/
theorem holds (h : Answered m s data k p) {r : Reader} (hr : Reaches Reader.request? p.reader r) :
    ∃ before line rest given, r.Holds data before line rest given ∧
      (Words.ofBytes data).take k = Words.ofBytes before ++ given ∧
      Words.ofBytes data = (Words.ofBytes data).take k ++ r.pending ++ Words.ofBytes rest ∧
      (r.pending = [] → (Words.ofBytes data).take k = Words.ofBytes (before ++ line)) := by
  obtain ⟨-, _, _, _, _, hcalls, htake, -⟩ := Reader.calls_holds data k
  rw [← h.reader] at hcalls
  obtain ⟨before, line, rest, given, hholds, hwords⟩ := hcalls.of_reaches hr
  rw [htake] at hwords
  refine ⟨before, line, rest, given, hholds, hwords.symm, ?_, ?_⟩
  · rw [← hwords]
    exact hholds.ofBytes_eq
  · intro hpending
    rw [← hwords, hholds.ofBytes_append hpending]

end Answered

/-- A reader never takes more of its data than the line of the word that it hands out, and a session answers a line
before it requests the next one.

After any number of calls a reader holds a line of its data: the words handed out, the words kept and the words of the
bytes not yet taken are the words of the data.  When the `k`-th word has been returned it is on this line, and the words
kept are those behind it on the line.

A run goes from word to word until it ends.  When it asks its reader for more after `k` words, all that these print is
written and flushed.  The reader then makes requests until it has a word, each of them only when it keeps none, and the
words of the lines that it has taken by then are those `k`.  So all of these lines are answered before any byte of the
next one is requested.  The run ends with a call of its reader as well, and makes no further one. -/
theorem run_by_lines (m : Machine) (s : Stack) (data : List UInt8) (limit? : Option Nat) :
    let words := Words.ofBytes data
    let start := Session.start s (Signal.ofBytes data []) limit?
    (∀ k, (start.reader.calls k).1 = (words.take k).map .word ∧
      ∃ before line rest given, (start.reader.calls k).2.Holds data before line rest given ∧
        words.take k = Words.ofBytes before ++ given ∧
        words = words.take k ++ (start.reader.calls k).2.pending ++ Words.ofBytes rest ∧
        (0 < k → k ≤ words.length → given ≠ [])) ∧
    (∀ k p, start.after? m k = some p →
      Answered m s data k p ∧ p.run m = start.run m ∧
      (∀ w r, p.reader.next? = some (.word w, r) ↔ Reaches Reader.request? p.reader ⟨w :: r.pending, r.input⟩) ∧
      ∀ r, Reaches Reader.request? p.reader r → ∃ before line rest given, r.Holds data before line rest given ∧
        words.take k = Words.ofBytes before ++ given ∧
        words = words.take k ++ r.pending ++ Words.ofBytes rest ∧
        (r.pending = [] → words.take k = Words.ofBytes (before ++ line))) ∧
    ∃ n last, start.after? m n = some last ∧ last.advance m = ((start.run m).1, some (start.run m).2) ∧
      (start.run m).1.reader = (start.reader.calls (n + 1)).2 := by
  intro words start
  refine ⟨?_, ?_, ?_⟩
  · intro k
    obtain ⟨hitems, before, line, rest, given, h, htake, hgiven⟩ := Reader.calls_holds data k
    refine ⟨hitems, before, line, rest, given, h, htake.symm, ?_, hgiven⟩
    rw [← htake]
    exact h.ofBytes_eq
  · intro k p hp
    have h : Answered m s data k p := .of_after? limit? hp
    exact ⟨h, run_of_after? hp, fun _ _ => Reader.next?_eq_word_iff, fun _ hr => h.holds hr⟩
  · obtain ⟨n, last, hlast, hend⟩ := exists_last m start
    have h : Answered m s data n last := .of_after? limit? hlast
    have hreader := reader_advance m last
    rw [hend, h.reader, ← Reader.calls_succ] at hreader
    exact ⟨n, last, hlast, hend, hreader⟩

/-- When the word of the first line is answered, the blank line behind it has not been requested; and when the run quits,
the line behind has not been requested either. -/
theorem run_by_lines_blank_line :
    let data : List UInt8 := [0x78, 0x0A, 0x0A, 0x2E, 0x71, 0x0A, 0x79]
    let start := Session.start .empty (Signal.ofBytes data []) none
    let unread : Reader := ⟨[], [.byte 0x0A, .byte 0x2E, .byte 0x71, .byte 0x0A, .byte 0x79]⟩
    ∃ p, start.after? .standard 1 = some p ∧ p.run .standard = start.run .standard ∧
      start.reader.calls 1 = ([.word "x"], unread) ∧ p.reader = unread ∧
      p.sink.written.toList = Walk.printed (Calculator.steps .standard .empty ["x"]) ∧
      p.sink.flushed = p.sink.written.size ∧ (start.run .standard).2 = .quit ∧
      (start.run .standard).1.reader = ⟨[], [.byte 0x79]⟩ := by
  intro data start unread
  have hfirst : start.reader.next? = some (.word "x", unread) := by cbv
  have hsecond : unread.next? = some (.word ".q", ⟨[], [.byte 0x79]⟩) := by cbv
  obtain ⟨p, hp, hreader, hlimit⟩ :
      ∃ p, start.advance .standard = (p, none) ∧ p.reader = unread ∧ p.sink = ⟨p.sink.written, none, p.sink.flushed⟩ := by
    rw [advance_of_next? hfirst]
    exact ⟨_, rfl, rfl, rfl⟩
  obtain ⟨q, hq, hqreader⟩ : ∃ q, p.advance .standard = (q, some .quit) ∧ q.reader = ⟨[], [.byte 0x79]⟩ := by
    rw [advance_of_next? (hreader ▸ hsecond), evaluate, hlimit]
    exact ⟨_, rfl, rfl⟩
  obtain ⟨-, hafter, -⟩ := run_by_lines .standard .empty data none
  obtain ⟨hanswered, hrun, -⟩ := hafter 1 p (advance?_eq_some_iff.2 hp)
  rw [run_eq, hq] at hrun
  refine ⟨p, advance?_eq_some_iff.2 hp, ?_, ?_, hreader, ?_, hanswered.flushed, ?_, ?_⟩
  · rw [run_eq, hq]
    exact hrun
  · simp only [Reader.calls, hfirst, List.nil_append]
  · exact hanswered.written
  · rw [show start.run .standard = _ from hrun.symm]
  · rw [show start.run .standard = _ from hrun.symm]
    exact hqreader

end Session

/-! ### Transcripts -/

namespace Transcript

variable {m : Machine} {s : Stack}

theorem ending_ofBytes {data : List UInt8} : (ofBytes m s data).ending = .quit ↔ ".q" ∈ Words.ofBytes data := by
  by_cases h : ".q" ∈ Words.ofBytes data <;> simp [ofBytes_eq_play, play, h]

/-- Where a line ends, the input of a session can be cut. -/
theorem ofBytes_append_of_whole {bs rest : List UInt8} (h : Whole bs rest) :
    ofBytes m s (bs ++ rest) =
      if (ofBytes m s bs).ending = .quit then ofBytes m s bs
      else (ofBytes m s bs).andThen (ofBytes m (ofBytes m s bs).stack rest) := by
  have hwords := Words.ofBytes_append_of_whole h
  by_cases hquit : ".q" ∈ Words.ofBytes bs
  · rw [if_pos (ending_ofBytes.2 hquit), ofBytes_eq_of_mem hwords hquit]
  · rw [if_neg (mt ending_ofBytes.1 hquit), ofBytes_eq_andThen hwords hquit]

/-- An input that is cut into lines, with their newlines, is answered in the same way line by line and as a whole. -/
theorem ofLines_eq (m : Machine) (s : Stack) {lines : List (List UInt8)}
    (h : ∀ line ∈ lines.dropLast, line.getLast? = some newline) : ofLines m s lines = ofBytes m s lines.flatten := by
  induction lines generalizing s with
  | nil =>
    rw [ofLines, List.flatten_nil, ofBytes_eq_play, Words.ofBytes_nil]
    rfl
  | cons line lines ih =>
    obtain ⟨hwhole, hrest⟩ : Whole line lines.flatten ∧ ∀ l ∈ lines.dropLast, l.getLast? = some newline := by
      cases lines with
      | nil => exact ⟨.inr (.inr rfl), by simp⟩
      | cons line' lines =>
        exact ⟨.inr (.inl (h line (List.mem_cons_self ..))), fun l hl => h l (List.mem_cons_of_mem line hl)⟩
    rw [List.flatten_cons, ofBytes_append_of_whole hwhole, ofLines, ih _ hrest]

end Transcript

/-- Standard input is answered as its lines are, one after the other. -/
theorem CommandLine.respond_lines (m : Machine) {lines : List (List UInt8)}
    (h : ∀ line ∈ lines.dropLast, line.getLast? = some newline) (usage : List UInt8) :
    respond m [] (Signal.ofBytes lines.flatten []) usage = ⟨0, (Transcript.ofLines m .empty lines).text⟩ := by
  rw [Transcript.ofLines_eq m .empty h, Transcript.ofBytes_eq_play, ← evaluate_ofBytes]
  rfl

end ReversePolish
