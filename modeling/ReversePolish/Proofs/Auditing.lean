import ReversePolish.Proofs.Erasing
import ReversePolish.Proofs.Lines
import ReversePolish.Proofs.Tracing

/-!
# What the log tells of a session

The log of a session is an account of it.  A record is read back from its line (`Event.fields_of_line`), so the words
that the calculator was given can be read off the log (`Session.replays_run`): evaluating them again gives the same
stack and the same text.  A word that quits is the last one, and the record that the session quits is the last of all
(`Session.quitLine_mem_iff`).  Each warning stands for one line of the output that says the same
(`Calculator.exists_accounts_steps`).
-/

namespace ReversePolish

/-! ### Records -/

/-- In front of the first character of some kind, a text is cut in one way only. -/
theorem cut_before {p : Char → Bool} {a a' t t' : List Char} (ha : ∀ c ∈ a, p c = false) (ha' : ∀ c ∈ a', p c = false)
    (ht : t.head?.any p) (ht' : t'.head?.any p) (h : a ++ t = a' ++ t') : a = a' ∧ t = t' := by
  have htake {a t : List Char} (ha : ∀ c ∈ a, p c = false) (ht : t.head?.any p) :
      (a ++ t).takeWhile (fun c => !p c) = a := by
    obtain ⟨c, t, rfl⟩ : ∃ c t', t = c :: t' := List.exists_cons_of_ne_nil (by rintro rfl; cases ht)
    have hc : p c = true := ht
    rw [List.takeWhile_append_of_pos fun d hd => by simp [ha d hd]]
    simp [hc]
  have heq : a = a' := by rw [← htake ha ht, h, htake ha' ht']
  exact ⟨heq, List.append_cancel_left (heq ▸ h)⟩

/-- Where a character occurs first, a text is cut in one way only. -/
theorem cut_unique {c : Char} {a a' b b' : List Char} (ha : c ∉ a) (ha' : c ∉ a') (h : a ++ c :: b = a' ++ c :: b') :
    a = a' ∧ b = b' := by
  have hall {d : List Char} (hd : c ∉ d) : ∀ x ∈ d, (x == c) = false := fun x hx =>
    beq_eq_false_iff_ne.2 fun hxc => hd (hxc ▸ hx)
  obtain ⟨heq, hrest⟩ := cut_before (hall ha) (hall ha') (by simp) (by simp) h
  exact ⟨heq, (List.cons.inj hrest).2⟩

namespace Event

theorem blank_not_mem_level (l : Level) : ' ' ∉ l.text.toList := by
  cases l <;> exact not_mem_toList rfl (by decide)

theorem blank_not_mem_target (e : Event) : ' ' ∉ e.target.toList := by
  cases e <;> exact not_mem_toList rfl (by decide)

/-- The line of a record, when its message is `message`. -/
def lineChars (level target : String) (message : List Char) : List Char :=
  level.toList ++ ' ' :: ((target.toList ++ [':']) ++ ' ' :: message)

theorem toList_line (e : Event) : e.line.toList = lineChars e.level.text e.target e.message.toList := by
  simp [line, lineChars]

/-- The level, the target and the message of a record can be read off its line. -/
theorem fields_of_line {e e' : Event} {message : List Char}
    (h : e.line.toList = lineChars e'.level.text e'.target message) :
    e.level.text = e'.level.text ∧ e.target = e'.target ∧ e.message.toList = message := by
  rw [toList_line] at h
  obtain ⟨hlevel, h⟩ := cut_unique (blank_not_mem_level _) (blank_not_mem_level _) h
  obtain ⟨htarget, hmessage⟩ := cut_unique (by simp [blank_not_mem_target]) (by simp [blank_not_mem_target]) h
  exact ⟨String.toList_inj.1 hlevel, String.toList_inj.1 (List.append_cancel_right htarget), hmessage⟩

theorem eq_token_or_quit {e : Event} (hlevel : e.level.text = Level.debug.text)
    (htarget : e.target = quit.target) : (∃ word, e = .token word) ∨ e = .quit := by
  cases e with
  | token word => exact .inl ⟨word, rfl⟩
  | quit => exact .inr rfl
  | push z => exact absurd (show "TRACE" = "DEBUG" from hlevel) (by decide)
  | unrecognized word => exact absurd (show "WARN" = "DEBUG" from hlevel) (by decide)
  | refused op depth => exact absurd (show "WARN" = "DEBUG" from hlevel) (by decide)
  | applied op stack => exact absurd (show "rpnc::operator" = "rpnc::evaluator" from htarget) (by decide)
  | discarded z => exact absurd (show "TRACE" = "DEBUG" from hlevel) (by decide)

/-- What follows a beginning, in the lines that begin so. -/
def following (beginning : String) (lines : List String) : List String :=
  lines.filterMap fun line => (line.toList.dropPrefix? beginning.toList).map String.ofList

/-- The beginning of the records of words. -/
def tokenBeginning : String := "DEBUG rpnc::evaluator: token: "

/-- The record of a session that quits. -/
def quitLine : String := "DEBUG rpnc::evaluator: quit"

theorem line_quit : quit.line = quitLine := rfl

theorem toList_tokenBeginning_append (cs : List Char) : tokenBeginning.toList ++ cs =
    lineChars quit.level.text quit.target ("token: ".toList ++ cs) := by
  have h : tokenBeginning = "DEBUG" ++ " " ++ "rpnc::evaluator" ++ ": " ++ "token: " := rfl
  simp [h, lineChars, level, Level.text, target]

theorem toList_message_token (word : String) : (token word).message.toList = "token: ".toList ++ word.toList :=
  String.toList_append

theorem token_ne_quit (cs : List Char) : "token: ".toList ++ cs ≠ "quit".toList := by
  have htoken : "token: " = String.ofList ['t', 'o', 'k', 'e', 'n', ':', ' '] := rfl
  have hquit : "quit" = String.ofList ['q', 'u', 'i', 't'] := rfl
  rw [htoken, hquit, String.toList_ofList, String.toList_ofList]
  intro h
  exact absurd (List.cons.inj h).1 (by decide)

/-- Only the record of a word begins like one. -/
theorem line_eq_append_iff {e : Event} {cs : List Char} :
    e.line.toList = tokenBeginning.toList ++ cs ↔ e = .token (String.ofList cs) := by
  rw [toList_tokenBeginning_append]
  constructor
  · intro h
    obtain ⟨hlevel, htarget, hmessage⟩ := fields_of_line h
    obtain ⟨word, rfl⟩ | rfl := eq_token_or_quit hlevel htarget
    · rw [toList_message_token] at hmessage
      rw [← List.append_cancel_left hmessage, String.ofList_toList]
    · exact absurd hmessage.symm (token_ne_quit cs)
  · rintro rfl
    have hcs : (String.ofList cs).toList = cs := String.toList_ofList
    rw [toList_line, toList_message_token, hcs]
    rfl

theorem line_eq_quitLine_iff (e : Event) : e.line = quitLine ↔ e = .quit := by
  rw [← line_quit, ← String.toList_inj, toList_line quit]
  constructor
  · intro h
    obtain ⟨hlevel, htarget, hmessage⟩ := fields_of_line h
    obtain ⟨word, rfl⟩ | rfl := eq_token_or_quit hlevel htarget
    · rw [toList_message_token] at hmessage
      exact absurd hmessage (token_ne_quit word.toList)
    · rfl
  · rintro rfl
    exact toList_line quit

/-- The word of a record that is one of a word. -/
def word? : Event → Option String
  | token word => some word
  | _ => none

theorem word?_eq_some_iff {e : Event} {word : String} : e.word? = some word ↔ e = .token word := by
  cases e <;> simp [word?]

theorem dropPrefix?_line (e : Event) :
    (e.line.toList.dropPrefix? tokenBeginning.toList).map String.ofList = e.word? := by
  ext word
  rw [Option.map_eq_some_iff, word?_eq_some_iff]
  simp only [List.dropPrefix?_eq_some_iff, beq_iff_eq, exists_eq_right, line_eq_append_iff]
  constructor
  · rintro ⟨cs, h, rfl⟩
    exact h
  · intro h
    exact ⟨word.toList, by rw [String.ofList_toList]; exact h, String.ofList_toList⟩

/-- The words of a log are read off its lines. -/
theorem following_map_line (log : List Event) : following tokenBeginning (log.map line) = log.filterMap word? := by
  rw [following, List.filterMap_map]
  exact List.filterMap_congr fun e _ => dropPrefix?_line e

end Event

/-! ### Words -/

namespace Calculator

/-- What a step logs besides its word is of another kind. -/
theorem word?_of_mem_execute {m : Machine} {s : Stack} {command : Command} {e : Event}
    (h : e ∈ (execute m s command).events) : e.word? = none ∧ e ≠ .quit := by
  cases command with
  | apply op =>
    obtain ⟨-, happly⟩ | ⟨-, happly⟩ := op.apply_cases m s
    · simp only [execute, happly, List.mem_cons] at h
      obtain rfl | h := h
      · exact ⟨rfl, by simp⟩
      · cases op with
        | pop =>
          obtain rfl := List.mem_singleton.1 h
          exact ⟨rfl, by simp⟩
        | _ => cases h
    · simp only [execute, happly, List.mem_singleton] at h
      obtain rfl := h
      exact ⟨rfl, by simp⟩
  | push z =>
    obtain rfl := List.mem_singleton.1 h
    exact ⟨rfl, by simp⟩
  | unrecognized word =>
    obtain rfl := List.mem_singleton.1 h
    exact ⟨rfl, by simp⟩
  | print => cases h
  | quit => cases h
  | help => cases h

theorem events_step (m : Machine) (s : Stack) (word : String) :
    (step m s word).events = .token word :: (execute m s (Command.ofWord word)).events := rfl

/-- The words of what some steps log are the words that were evaluated. -/
theorem filterMap_word?_steps (m : Machine) (s : Stack) (words : List String) :
    ((steps m s words).flatMap Step.events).filterMap Event.word? = words := by
  induction words generalizing s with
  | nil => rfl
  | cons word words ih =>
    have hnone : (execute m s (Command.ofWord word)).events.filterMap Event.word? = [] :=
      List.filterMap_eq_nil_iff.2 fun e he => (word?_of_mem_execute he).1
    have hword : (Event.token word).word? = some word := rfl
    rw [steps, List.flatMap_cons, List.filterMap_append, ih, events_step, List.filterMap_cons_some hword, hnone]
    rfl

theorem quit_not_mem_steps (m : Machine) (s : Stack) (words : List String) :
    .quit ∉ (steps m s words).flatMap Step.events := by
  induction words generalizing s with
  | nil => exact List.not_mem_nil
  | cons word words ih =>
    rw [steps, List.flatMap_cons, events_step, List.mem_append, List.mem_cons]
    rintro ((h | h) | h)
    · cases h
    · exact (word?_of_mem_execute h).2 rfl
    · exact ih _ h

end Calculator

/-! ### Warnings -/

/-- The part of the program that warns of a failure. -/
inductive Failure.Warned : Failure → String → Prop where
  | stackTooSmall : Warned .stackTooSmall "rpnc::operator"
  | unrecognized : Warned .unrecognized "rpnc::evaluator"

/-- A warning of some part of the program. -/
def Event.isWarning (target : String) (e : Event) : Bool := decide (e.level = .warn ∧ e.target = target)

theorem Failure.message_ne_nil (f : Failure) : f.message.toList ≠ [] := by
  cases f <;> decide

theorem Failure.toList_message_inj {f f' : Failure} (h : f.message.toList = f'.message.toList) : f = f' := by
  rw [String.toList_inj] at h
  cases f <;> cases f' <;> first | rfl | exact absurd h (by decide)

/-- The failure that a record warns of. -/
def Event.failure? : Event → Option Failure
  | unrecognized _ => some .unrecognized
  | refused _ _ => some .stackTooSmall
  | _ => none

theorem Event.failure?_of_level {e : Event} (h : e.level = .trace) : e.failure? = none := by
  cases e <;> first | rfl | cases h

theorem Event.isWarning_eq {f : Failure} {target : String} (h : f.Warned target) (e : Event) :
    e.isWarning target = (e.failure?.map (· == f)).getD false := by
  cases h <;> cases e <;> rfl

theorem countP_isWarning {f : Failure} {target : String} (h : f.Warned target) (log : List Event) :
    log.countP (Event.isWarning target) = (log.filterMap Event.failure?).count f := by
  rw [List.count_eq_countP, List.countP_filterMap]
  exact List.countP_congr fun e _ => by rw [Event.isWarning_eq h]

/-- Finished lines in which each failure is told of as often as some records warn of it. -/
structure Accounts (text : List Char) (log : List Event) (ls : List (List Char)) : Prop where
  finished : Finished text ls
  count : ∀ f : Failure, (log.filterMap Event.failure?).count f = ls.count f.message.toList

theorem Accounts.append {text text' : List Char} {log log' : List Event} {ls ls' : List (List Char)}
    (h : Accounts text log ls) (h' : Accounts text' log' ls') : Accounts (text ++ text') (log ++ log') (ls ++ ls') where
  finished := h.finished.append h'.finished
  count f := by rw [List.filterMap_append, List.count_append, List.count_append, h.count, h'.count]

theorem Accounts.nil {log : List Event} (h : log.filterMap Event.failure? = []) : Accounts [] log [] where
  finished := .nil
  count f := by rw [h]; rfl

/-- The line that tells of a failure accounts for the warning. -/
theorem Accounts.message (f : Failure) {log : List Event} (h : log.filterMap Event.failure? = [f]) :
    Accounts (f.message.toList ++ ['\n']) log [f.message.toList] where
  finished := .single f.newline_not_mem_message
  count f' := by
    rw [h, List.count_singleton, List.count_singleton]
    refine if_congr ?_ rfl rfl
    rw [beq_iff_eq, beq_iff_eq]
    exact ⟨fun heq => heq ▸ rfl, Failure.toList_message_inj⟩

namespace Calculator

/-- What a step prints accounts for its warnings. -/
theorem exists_accounts_step (m : Machine) (s : Stack) (word : String) :
    ∃ ls, Accounts (step m s word).text.toList (step m s word).events ls := by
  unfold step
  cases Command.ofWord word with
  | print =>
    refine ⟨[(Report.top s.top?).toList], ?_, fun f => ?_⟩
    · simpa [execute] using Finished.single (Report.newline_not_mem_top s.top?)
    · have hne : f.message.toList ∉ [(Report.top s.top?).toList] := by
        rw [List.mem_singleton, String.toList_inj]
        exact (Report.top_ne_message f s.top?).symm
      rw [List.count_eq_zero.2 hne]
      rfl
  | quit => exact ⟨[], .nil rfl⟩
  | help =>
    refine ⟨Report.rows.map Report.rowChars, Report.finished_listing, fun f => ?_⟩
    rw [List.count_eq_zero.2 (Report.message_not_mem_listing f)]
    rfl
  | push z => exact ⟨[], .nil rfl⟩
  | unrecognized w =>
    refine ⟨[Failure.unrecognized.message.toList], ?_⟩
    simpa [execute] using Accounts.message .unrecognized rfl
  | apply op =>
    obtain ⟨-, happly⟩ | ⟨-, happly⟩ := op.apply_cases m s
    · have hbody : (op.body m s).2.filterMap Event.failure? = [] :=
        List.filterMap_eq_nil_iff.2 fun e he => Event.failure?_of_level (level_of_mem_body he)
      refine ⟨[], ?_⟩
      simp only [execute, happly]
      exact .nil hbody
    · refine ⟨[Failure.stackTooSmall.message.toList], ?_⟩
      simp only [execute, happly]
      simpa using Accounts.message .stackTooSmall rfl

/-- And so does what a program prints. -/
theorem exists_accounts_steps (m : Machine) (s : Stack) (words : List String) :
    ∃ text ls, Walk.printed (steps m s words) = Utf8.encode text ∧
      Accounts text ((steps m s words).flatMap Step.events) ls := by
  induction words generalizing s with
  | nil => exact ⟨[], [], rfl, .nil rfl⟩
  | cons word words ih =>
    obtain ⟨ls, hstep⟩ := exists_accounts_step m s word
    obtain ⟨text, ls', htext, hrest⟩ := ih (step m s word).stack
    refine ⟨_, _, ?_, hstep.append hrest⟩
    rw [steps, Walk.printed, List.flatMap_cons]
    exact (congrArg (Utf8.encode _ ++ ·) htext).trans List.flatMap_append.symm

end Calculator

/-! ### Logs -/

namespace Session

open Event Walk

/-- The words that a session has evaluated, and how it ended with them: with the stack, the text and the log that they
make. -/
structure Replays (m : Machine) (s : Stack) (session : Session) (words : List String) (outcome : Session × Ending) :
    Prop where
  evaluates : Evaluates m session words outcome
  ends : Ends m session.sink.limit? s [] session.reader.items outcome.1.reader.items words outcome.2
  stack : outcome.1.stack = Calculator.stackAfter m s words
  written : outcome.1.sink.written.toList = upTo session.sink.limit? (printed (Calculator.steps m s words))
  log : outcome.1.log.toList =
    (Calculator.steps m s words).flatMap Step.events ++ if outcome.2 = .quit then [.quit] else []
  quit : outcome.2 = .quit ↔ ".q" ∈ words

/-- The words in the log of a session are those that it has evaluated. -/
theorem replays_run (m : Machine) (s : Stack) (input : List Signal) (limit? : Option Nat) :
    let outcome := (start s input limit?).run m
    Replays m s (start s input limit?) (following tokenBeginning (outcome.1.log.toList.map line)) outcome := by
  intro outcome
  have h : exceeds limit? [] = false := by cases limit? <;> simp [exceeds]
  obtain ⟨hstack, hwritten, hrest, hending⟩ := run_along m (start s input limit?) [] h
  obtain ⟨words, hwords, -, hafter, htext, hquit⟩ :=
    Walk.along_words m limit? s [] [] (start s input limit?).reader.items
  obtain ⟨evaluated, hevaluated, hevaluates⟩ := evaluates_run m (start s input limit?) [] h
  obtain ⟨ended, hended, hends⟩ := ends_along (m := m) (s := s) h [] (start s input limit?).reader.items
  obtain ⟨logged, hlogged, hlog⟩ := log_run_along m (start s input limit?) [] h
  -- all of these are the words of the walk
  rw [List.nil_append] at hwords hevaluated hended hlogged htext
  obtain rfl : words = evaluated := hwords.symm.trans hevaluated
  obtain rfl : words = ended := hwords.symm.trans hended
  obtain rfl : words = logged := hwords.symm.trans hlogged
  have hlog : outcome.1.log.toList =
      (Calculator.steps m s words).flatMap Step.events ++ if outcome.2 = .quit then [.quit] else [] := by
    rw [hending, if_congr Stop.ending_eq_quit_iff rfl rfl]
    exact hlog
  have hfollowing : following tokenBeginning (outcome.1.log.toList.map line) = words := by
    have hend : (if outcome.2 = .quit then [Event.quit] else []).filterMap word? = [] := by split <;> rfl
    rw [following_map_line, hlog, List.filterMap_append, Calculator.filterMap_word?_steps, hend, List.append_nil]
  rw [hfollowing]
  refine ⟨hevaluates, ?_, hstack.trans hafter, hwritten.trans (congrArg (upTo limit?) htext), hlog, ?_⟩
  · rw [hrest, hending]
    exact hends
  · rw [hending, Stop.ending_eq_quit_iff]
    exact hquit

/-- In the log that steps make, the record of quitting stands at the end or nowhere. -/
theorem quitLine_mem_iff (m : Machine) (s : Stack) (words : List String) (p : Prop) [Decidable p] :
    let records := ((Calculator.steps m s words).flatMap Step.events ++ if p then [Event.quit] else []).map line
    (quitLine ∈ records ↔ p) ∧ (quitLine ∈ records ↔ records.getLast? = some quitLine) ∧
      quitLine ∉ records.dropLast := by
  have hsteps : quitLine ∉ ((Calculator.steps m s words).flatMap Step.events).map line := by
    rw [List.mem_map]
    rintro ⟨e, he, heq⟩
    rw [(line_eq_quitLine_iff e).1 heq] at he
    exact Calculator.quit_not_mem_steps m s words he
  by_cases hp : p
  · simp only [if_pos hp, List.map_append, List.map_cons, List.map_nil, line_quit]
    simp [hp, hsteps]
  · simp only [if_neg hp, List.append_nil]
    refine ⟨by simp [hp, hsteps], ?_, fun h => hsteps (List.mem_of_mem_dropLast h)⟩
    exact ⟨fun h => absurd h hsteps, fun h => List.mem_of_getLast? h⟩

/-- Where the output takes everything, each failure is told of in as many lines as there are warnings of it. -/
theorem countP_warnings (m : Machine) (s : Stack) (input : List Signal) {f : Failure} {target : String}
    (hf : f.Warned target) :
    let session := ((start s input none).run m).1
    session.log.toList.countP (isWarning target) =
      (lines session.sink.written.toList).count (Utf8.encode f.message.toList) := by
  intro session
  obtain ⟨words, hreplays⟩ : ∃ words, Replays m s (start s input none) words ((start s input none).run m) :=
    ⟨_, replays_run m s input none⟩
  obtain ⟨text, ls, hprinted, haccounts⟩ := Calculator.exists_accounts_steps m s words
  have hwritten : session.sink.written.toList = Utf8.encode text := hreplays.written.trans hprinted
  have hend (p : Prop) [Decidable p] : (if p then [Event.quit] else []).filterMap Event.failure? = [] := by
    split <;> rfl
  rw [hwritten, haccounts.finished.count_lines f.message_ne_nil, countP_isWarning hf, hreplays.log,
    List.filterMap_append, hend, List.append_nil, haccounts.count]

/-- The log of a session is an account of it.  The words that stand in it are those that were evaluated, which end with
the one that quits, the one whose text was refused, or the last one in front of a fault or of the end of the input.
Evaluating them again, with an output that takes as much, gives the same stack and the same text.  The record that the
session quits is there exactly if the last word does so, and nothing comes after it.  Where the output takes
everything, there are as many warnings of either kind as lines of the output that say the same. -/
theorem run_log (m : Machine) (s : Stack) (data : List UInt8) (faults : List Nat) (limit? : Option Nat) :
    let session := start s (Signal.ofBytes data faults) limit?
    let outcome := session.run m
    let records := outcome.1.log.toList.map line
    let words := following tokenBeginning records
    let replay := Calculator.writeSteps m s (Sink.ofLimit limit?) words
    let unlimited := ((start s (Signal.ofBytes data faults) none).run m).1
    Evaluates m session words outcome ∧
      Ends m limit? s [] session.reader.items outcome.1.reader.items words outcome.2 ∧
      outcome.1.stack = replay.1 ∧ outcome.1.sink.written = replay.2.written ∧
      (quitLine ∈ records ↔ words.getLast? = some ".q") ∧
      (quitLine ∈ records ↔ records.getLast? = some quitLine) ∧ quitLine ∉ records.dropLast ∧
      unlimited.log.toList.countP (isWarning "rpnc::operator") =
        (lines unlimited.sink.written.toList).count (Utf8.encode Failure.stackTooSmall.message.toList) ∧
      unlimited.log.toList.countP (isWarning "rpnc::evaluator") =
        (lines unlimited.sink.written.toList).count (Utf8.encode Failure.unrecognized.message.toList) := by
  intro session outcome records words replay unlimited
  have hreplays : Replays m s session words outcome := replays_run m s (Signal.ofBytes data faults) limit?
  have hnil : (Sink.ofLimit limit?).written.toList = upTo (Sink.ofLimit limit?).limit? [] := by
    cases limit? <;> simp [Sink.ofLimit, upTo]
  obtain ⟨hstack, hwritten⟩ := Calculator.writeSteps_eq m s hnil words
  obtain ⟨hquit, hlast, hinit⟩ := quitLine_mem_iff m s words (outcome.2 = .quit)
  rw [← hreplays.log] at hquit hlast hinit
  refine ⟨hreplays.evaluates, hreplays.ends, hreplays.stack.trans hstack.symm, ?_,
    hquit.trans (hreplays.ends.quit_iff hreplays.quit), hlast, hinit, countP_warnings m s _ .stackTooSmall,
    countP_warnings m s _ .unrecognized⟩
  rw [← Array.toList_inj, hwritten]
  exact hreplays.written

end Session

end ReversePolish
