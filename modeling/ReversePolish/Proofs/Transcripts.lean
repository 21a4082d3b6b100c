import ReversePolish.Transcript
import ReversePolish.Proofs.Stepping
import ReversePolish.Proofs.Walking

/-!
# Transcripts of words

A session logs the events of the words that it evaluates, one word after the other, and at last that it quits
(`log_run_along`).  On an input that never fails, with an output that takes everything, it evaluates the words up to
the first one that asks to quit.  So its transcript depends on the words of the input alone (`ofBytes_eq_play`), and it
can be cut wherever the words can (`ofBytes_eq_andThen`).
-/

namespace ReversePolish

/-! ### Logs -/

theorem Stop.ending_eq_quit_iff {stop : Stop} : stop.ending = .quit ↔ stop = .quit := by
  cases stop <;> simp [ending]

namespace Session

open Walk

theorem log_evaluate (m : Machine) (s : Session) (reader : Reader) (word : String) :
    (s.evaluate m reader word).1.log.toList = s.log.toList ++ (Calculator.step m s.stack word).events ++
      if (s.evaluate m reader word).2 = some .quit then [.quit] else [] := by
  unfold evaluate
  dsimp only
  split
  · split <;> simp
  · simp

/-- A session logs what the steps of the walk that it is log. -/
theorem log_run_along (m : Machine) (s : Session) (done : List String)
    (h : exceeds s.sink.limit? s.sink.written.toList = false) :
    let w := Walk.along m s.sink.limit? s.stack done s.sink.written.toList s.reader.items
    ∃ words, w.words = done ++ words ∧
      (s.run m).1.log.toList = s.log.toList ++ (Calculator.steps m s.stack words).flatMap Step.events ++
        if w.stop = .quit then [.quit] else [] := by
  induction s using run_induction (m := m) generalizing done with
  | exhausted s hr =>
    rw [Reader.items_eq, hr]
    exact ⟨[], by simp [Walk.along, Calculator.steps]⟩
  | fault s reader hr =>
    rw [items_of_next? hr]
    exact ⟨[], by simp [Walk.along, Calculator.steps]⟩
  | last s reader word s' ending hr he =>
    obtain ⟨-, -, -, hending, hwords⟩ := along_of_last h hr he done
    have hlog := log_evaluate m s reader word
    rw [he, hending, if_congr (by rw [Option.some_inj, Stop.ending_eq_quit_iff]) rfl rfl] at hlog
    exact ⟨[word], hwords, by simpa [Calculator.steps] using hlog⟩
  | proceed s reader word s' hr he ih =>
    obtain ⟨hstack, -, hfull, halong⟩ := along_of_proceed h hr he done
    obtain ⟨words, hwords, hrun⟩ := ih (done ++ [word]) hfull
    have hlog : s'.log.toList = s.log.toList ++ (Calculator.step m s.stack word).events := by
      simpa [he] using log_evaluate m s reader word
    rw [halong]
    refine ⟨word :: words, by rw [hwords, List.append_assoc]; rfl, ?_⟩
    rw [hrun, hlog, hstack, Calculator.steps, List.flatMap_cons, List.append_assoc s.log.toList]

end Session

/-! ### Words up to the end -/

/-- The words that are evaluated: those up to the first one that asks to quit. -/
def evaluated : List String → List String
  | [] => []
  | word :: words => if word = ".q" then [word] else word :: evaluated words

theorem evaluated_of_not_mem {words : List String} (h : ".q" ∉ words) : evaluated words = words := by
  induction words with
  | nil => rfl
  | cons word words ih =>
    rw [List.mem_cons, not_or] at h
    rw [evaluated, if_neg (Ne.symm h.1), ih h.2]

theorem evaluated_append (v w : List String) :
    evaluated (v ++ w) = if ".q" ∈ v then evaluated v else v ++ evaluated w := by
  induction v with
  | nil => rfl
  | cons word v ih =>
    rw [List.cons_append, evaluated, evaluated]
    by_cases h : word = ".q"
    · simp [h]
    · have hmem : ".q" ∈ word :: v ↔ ".q" ∈ v := by rw [List.mem_cons, or_iff_right (Ne.symm h)]
      rw [if_neg h, if_neg h, ih, if_congr hmem rfl rfl]
      split <;> rfl

/-- On words alone, with an output that takes everything, a walk evaluates the words up to the end. -/
theorem Walk.along_map_word (m : Machine) (s : Stack) (done : List String) (text : List UInt8) (words : List String) :
    along m none s done text (words.map .word) =
      ⟨Calculator.stackAfter m s (evaluated words), done ++ evaluated words,
        text ++ printed (Calculator.steps m s (evaluated words)), if ".q" ∈ words then .quit else .exhausted,
        (words.drop (evaluated words).length).map .word⟩ := by
  induction words generalizing s done text with
  | nil => simp [along, evaluated, Calculator.stackAfter, Calculator.steps, printed]
  | cons word words ih =>
    have hquit := Calculator.flow_eq_quit_iff m s word
    rw [List.map_cons, along, evaluated]
    by_cases h : word = ".q"
    · rw [if_pos (hquit.2 h), if_pos h]
      simp [h, Calculator.stackAfter, Calculator.steps, printed]
    · rw [if_neg (mt hquit.1 h), if_neg h, if_neg (by simp [exceeds]), ih]
      simp [Ne.symm h, Calculator.stackAfter, Calculator.steps, printed]

/-! ### Transcripts -/

namespace Transcript

/-- The transcript that words make when they are evaluated one after the other, up to the end. -/
def play (m : Machine) (s : Stack) (words : List String) : Transcript where
  stack := Calculator.stackAfter m s (evaluated words)
  text := Walk.printed (Calculator.steps m s (evaluated words))
  log := (Calculator.steps m s (evaluated words)).flatMap Step.events ++ if ".q" ∈ words then [.quit] else []
  ending := if ".q" ∈ words then .quit else .exhausted

/-- A session shows what the words of its input make. -/
theorem ofBytes_eq_play (m : Machine) (s : Stack) (data : List UInt8) :
    ofBytes m s data = play m s (Words.ofBytes data) := by
  have hwalk := Walk.along_map_word m s [] [] (Words.ofBytes data)
  rw [← Reader.items_unbroken] at hwalk
  have hrun := Session.run_along m (Session.start s (Signal.ofBytes data []) none) [] rfl
  have hlog := Session.log_run_along m (Session.start s (Signal.ofBytes data []) none) [] rfl
  simp only [Session.start, Sink.ofLimit, Array.toList_empty, List.nil_append, hwalk] at hrun hlog
  obtain ⟨hstack, hwritten, -, hending⟩ := hrun
  obtain ⟨words, rfl, hlog⟩ := hlog
  refine Transcript.ext hstack hwritten (hlog.trans ?_) (hending.trans ?_)
  · by_cases h : ".q" ∈ Words.ofBytes data <;> simp [play, h]
  · by_cases h : ".q" ∈ Words.ofBytes data <;> simp [play, h, Stop.ending]

/-- Nothing is played behind a word that quits. -/
theorem play_append_of_mem (m : Machine) (s : Stack) {v : List String} (h : ".q" ∈ v) (w : List String) :
    play m s (v ++ w) = play m s v := by
  simp [play, evaluated_append, h]

/-- Words that come after others go on where these have stopped. -/
theorem play_append (m : Machine) (s : Stack) {v : List String} (h : ".q" ∉ v) (w : List String) :
    play m s (v ++ w) = (play m s v).andThen (play m (play m s v).stack w) := by
  simp [play, andThen, evaluated_append, h, evaluated_of_not_mem h, Calculator.stackAfter_append,
    Calculator.steps_append, Walk.printed]

section

variable {m : Machine} {s : Stack} {data a b : List UInt8}

/-- An input whose words are those of two others is answered as the first one is, if that quits. -/
theorem ofBytes_eq_of_mem (hwords : Words.ofBytes data = Words.ofBytes a ++ Words.ofBytes b)
    (h : ".q" ∈ Words.ofBytes a) : ofBytes m s data = ofBytes m s a := by
  rw [ofBytes_eq_play, ofBytes_eq_play, hwords, play_append_of_mem m s h]

/-- Otherwise it is answered as the two are, one after the other. -/
theorem ofBytes_eq_andThen (hwords : Words.ofBytes data = Words.ofBytes a ++ Words.ofBytes b)
    (h : ".q" ∉ Words.ofBytes a) :
    ofBytes m s data = (ofBytes m s a).andThen (ofBytes m (ofBytes m s a).stack b) := by
  rw [ofBytes_eq_play, ofBytes_eq_play, ofBytes_eq_play, hwords, play_append m s h]

end

end Transcript

end ReversePolish
