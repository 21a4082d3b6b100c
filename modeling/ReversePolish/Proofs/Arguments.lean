import ReversePolish.CommandLine
import ReversePolish.Proofs.Joining
import ReversePolish.Proofs.Transcripts

/-!
# Words as arguments

What stands behind the options on the command line is a program: its words are those of all the arguments
(`ofBytes_script`).  Options in front that only say how much is logged do not change what is evaluated
(`parse_append_separator`), so the program is answered with exactly what is answered to standard input when its words
are the same (`respond_words`).
-/

namespace ReversePolish

/-! ### The words of a script -/

namespace Words

/-- The words of a text. -/
def ofString (text : String) : List String := (split text.toList).map String.ofList

theorem split_intercalate_newline (texts : List (List Char)) : split (['\n'].intercalate texts) = texts.flatMap split := by
  induction texts with
  | nil => simp
  | cons text texts ih =>
    cases texts with
    | nil => simp
    | cons text' texts =>
      have hnewline : isBlank '\n' := by decide
      rw [List.intercalate_cons_cons, List.append_assoc, List.singleton_append, split_append_cons hnewline, ih,
        ← List.flatMap_cons]

theorem ofBytes_encode (text : String) : ofBytes (Utf8.encode text.toList) = ofString text := by
  rw [ofBytes, Utf8.decode_encode, ofString]

theorem ofBytes_script (texts : List String) : ofBytes (CommandLine.script texts) = texts.flatMap ofString := by
  have hnewline : "\n".toList = ['\n'] := rfl
  rw [CommandLine.script, ofBytes_encode, ofString, String.toList_intercalate, hnewline, split_intercalate_newline,
    List.map_flatMap, List.flatMap_map]
  rfl

end Words

namespace CommandLine

/-! ### Options in front -/

def Switch.letter : Switch → Char
  | verbose => 'v'
  | quiet => 'q'
  | version => 'V'
  | help => 'h'

def Switch.name : Switch → String
  | verbose => "verbose"
  | quiet => "quiet"
  | version => "version"
  | help => "help"

/-- The arguments that spell a switch: with its letter, once or more often, or with its name. -/
inductive Switch.Spelled (switch : Switch) : String → Prop where
  | letters (n : Nat) : Spelled switch (String.ofList ('-' :: List.replicate (n + 1) switch.letter))
  | name : Spelled switch ("--" ++ switch.name)

theorem ofLetter?_letter (switch : Switch) : Switch.ofLetter? switch.letter = some switch := by cases switch <;> rfl

theorem mapM_ofLetter?_replicate (switch : Switch) (n : Nat) :
    (List.replicate n switch.letter).mapM Switch.ofLetter? = some (List.replicate n switch) := by
  induction n with
  | zero => rfl
  | succ n ih =>
    rw [List.replicate_succ, List.mapM_cons, ofLetter?_letter, ih]
    rfl

/-- An argument that spells a switch stands for it, and for nothing else. -/
theorem Switch.Spelled.ofChars {switch : Switch} {arg : String} (h : switch.Spelled arg) :
    ∃ list, Argument.ofChars arg.toList = .switches list ∧ ∀ s ∈ list, s = switch := by
  cases h with
  | letters n =>
    refine ⟨List.replicate (n + 1) switch, ?_, fun s hs => List.eq_of_mem_replicate hs⟩
    have hletters := mapM_ofLetter?_replicate switch (n + 1)
    rw [List.replicate_succ] at hletters
    have hne : switch.letter ≠ '-' := by cases switch <;> decide
    rw [String.toList_ofList, List.replicate_succ, Argument.ofChars, hletters]
    · exact fun h _ => hne h
    · exact hne
  | name => exact ⟨[switch], by cases switch <;> rfl, by simp⟩

/-- How often switches of one kind alone have been counted. -/
inductive Only : Switch → Nat → Nat → Prop where
  | verbose {n : Nat} : Only .verbose n 0
  | quiet {n : Nat} : Only .quiet 0 n

theorem count_only {switch : Switch} {list : List Switch} (hlist : ∀ s ∈ list, s = switch) {verbose quiet : Nat}
    (h : Only switch verbose quiet) :
    ∃ verbose' quiet', count verbose quiet list = .ok (verbose', quiet') ∧ Only switch verbose' quiet' := by
  induction list generalizing verbose quiet with
  | nil => exact ⟨verbose, quiet, rfl, h⟩
  | cons s list ih =>
    obtain rfl := hlist s (List.mem_cons_self ..)
    have hrest : ∀ t ∈ list, t = s := fun t ht => hlist t (List.mem_cons_of_mem s ht)
    cases h with
    | verbose => exact ih hrest .verbose
    | quiet => exact ih hrest .quiet

/-- Arguments that spell one switch are counted, and then what follows is read. -/
theorem parseFrom_append {switch : Switch} {flags : List String} (hflags : ∀ f ∈ flags, switch.Spelled f)
    (args : List String) {verbose quiet : Nat} (h : Only switch verbose quiet) :
    ∃ verbose' quiet', parseFrom verbose quiet (flags ++ args) = parseFrom verbose' quiet' args ∧
      Only switch verbose' quiet' := by
  induction flags generalizing verbose quiet with
  | nil => exact ⟨verbose, quiet, rfl, h⟩
  | cons flag flags ih =>
    obtain ⟨list, hchars, hlist⟩ := (hflags flag (List.mem_cons_self ..)).ofChars
    obtain ⟨verbose', quiet', hcount, h'⟩ := count_only hlist h
    have hrest : ∀ f ∈ flags, switch.Spelled f := fun f hf => hflags f (List.mem_cons_of_mem flag hf)
    rw [List.cons_append, parseFrom, hchars]
    simp only [hcount]
    exact ih hrest h'

/-- Switches of one kind alone are no misuse. -/
theorem settle_only {switch : Switch} {verbose quiet : Nat} (h : Only switch verbose quiet) (words : List String) :
    settle verbose quiet words = .evaluate verbose quiet words := by
  cases h with
  | verbose => exact if_neg fun hboth => Nat.lt_irrefl 0 hboth.2
  | quiet => exact if_neg fun hboth => Nat.lt_irrefl 0 hboth.1

section

variable {switch : Switch} {flags : List String}

theorem only_zero (hswitch : switch = .verbose ∨ switch = .quiet) : Only switch 0 0 := by
  obtain rfl | rfl := hswitch
  · exact .verbose
  · exact .quiet

/-- What stands behind a separator is a list of words, whatever it looks like. -/
theorem parse_append_separator (hswitch : switch = .verbose ∨ switch = .quiet)
    (hflags : ∀ f ∈ flags, switch.Spelled f) (words : List String) :
    ∃ verbose quiet, parse (flags ++ "--" :: words) = .evaluate verbose quiet words := by
  obtain ⟨verbose, quiet, hparse, honly⟩ := parseFrom_append hflags ("--" :: words) (only_zero hswitch)
  have hseparator : Argument.ofChars "--".toList = .separator := rfl
  refine ⟨verbose, quiet, ?_⟩
  rw [parse, hparse, parseFrom, hseparator]
  exact settle_only honly words

theorem ofChars_word {cs : List Char} (h : cs.head? ≠ some '-') : Argument.ofChars cs = .word := by
  unfold Argument.ofChars
  split
  · exact absurd rfl h
  · exact absurd rfl h
  · exact absurd rfl h
  · rfl

/-- A separator is not needed in front of a word that does not begin like an option. -/
theorem parse_append_words (hswitch : switch = .verbose ∨ switch = .quiet) (hflags : ∀ f ∈ flags, switch.Spelled f)
    {words : List String} (hword : ∀ word ∈ words.head?, word.toList.head? ≠ some '-') :
    ∃ verbose quiet, parse (flags ++ words) = .evaluate verbose quiet words := by
  obtain ⟨verbose, quiet, hparse, honly⟩ := parseFrom_append hflags words (only_zero hswitch)
  refine ⟨verbose, quiet, ?_⟩
  rw [parse, hparse]
  cases words with
  | nil => exact settle_only honly []
  | cons word words =>
    rw [parseFrom, ofChars_word (hword word rfl)]
    exact settle_only honly (word :: words)

end

/-! ### Answers -/

/-- A session on a new calculator shows what the words of its input make, and never fails. -/
theorem evaluate_ofBytes (m : Machine) (data : List UInt8) :
    evaluate m (Signal.ofBytes data []) = ⟨0, (Transcript.play m .empty (Words.ofBytes data)).text⟩ := by
  have hplay := Transcript.ofBytes_eq_play m .empty data
  have hending : (Transcript.ofBytes m .empty data).ending.failure? = none := by
    rw [hplay, Transcript.play]
    split <;> rfl
  have hevaluate : evaluate m (Signal.ofBytes data []) =
      ⟨if (Transcript.ofBytes m .empty data).ending.failure?.isSome then 1 else 0,
        (Transcript.ofBytes m .empty data).text⟩ := rfl
  rw [hevaluate, hending, hplay]
  rfl

theorem respond_of_parse {args : List String} {verbose quiet : Nat} {words : List String} (hwords : words ≠ [])
    (h : parse args = .evaluate verbose quiet words) (m : Machine) (input : List Signal) (usage : List UInt8) :
    respond m args input usage = evaluate m (Signal.ofBytes (script words) []) := by
  cases words with
  | nil => exact absurd rfl hwords
  | cons word words => rw [respond, h]

/-- A program on the command line is answered as standard input is when its words are those of the program: with the
same output, and with success.  Standard input does not matter then, nor do options that say how much is logged. -/
theorem respond_words (m : Machine) {switch : Switch} (hswitch : switch = .verbose ∨ switch = .quiet)
    {flags : List String} (hflags : ∀ f ∈ flags, switch.Spelled f) {texts : List String} (htexts : texts ≠ [])
    (input : List Signal) (usage : List UInt8) {data : List UInt8}
    (hdata : (Reader.ofSignals (Signal.ofBytes data [])).items = (texts.flatMap Words.ofString).map .word) :
    let response := respond m [] (Signal.ofBytes data []) usage
    response.exitCode = 0 ∧ respond m (flags ++ "--" :: texts) input usage = response ∧
      ((∀ text ∈ texts.head?, text.toList.head? ≠ some '-') → respond m (flags ++ texts) input usage = response) := by
  intro response
  rw [Reader.items_unbroken] at hdata
  have hwords : Words.ofBytes data = texts.flatMap Words.ofString :=
    List.map_injective_iff.2 (fun _ _ h => Item.word.inj h) hdata
  have hresponse : response = ⟨0, (Transcript.play m .empty (texts.flatMap Words.ofString)).text⟩ := by
    rw [← hwords, ← evaluate_ofBytes]
    rfl
  have hscript : evaluate m (Signal.ofBytes (script texts) []) = response := by
    rw [evaluate_ofBytes, Words.ofBytes_script, hresponse]
  refine ⟨by rw [hresponse], ?_, fun hword => ?_⟩
  · obtain ⟨verbose, quiet, hparse⟩ := parse_append_separator hswitch hflags texts
    rw [respond_of_parse htexts hparse, hscript]
  · obtain ⟨verbose, quiet, hparse⟩ := parse_append_words hswitch hflags hword
    rw [respond_of_parse htexts hparse, hscript]

/-- Three switches in front of a program with a negative number, an operator like an option and a separator in it, while
standard input fails. -/
theorem respond_words_three_flags :
    let flags := ["-v", "-vv", "--verbose"]
    let texts := ["3 -4", "-", "--", ""]
    let data : List UInt8 := [0x33, 0x09, 0x2D, 0x34, 0x20, 0x2D, 0x0A, 0x2D, 0x2D]
    let response := respond .standard [] (Signal.ofBytes data [])
    (∀ f ∈ flags, Switch.verbose.Spelled f) ∧ texts ≠ [] ∧
      (Reader.ofSignals (Signal.ofBytes data [])).items = (texts.flatMap Words.ofString).map .word ∧
      (∀ text ∈ texts.head?, text.toList.head? ≠ some '-') ∧ response.exitCode = 0 ∧
      respond .standard (flags ++ "--" :: texts) [.fault] = response ∧
      respond .standard (flags ++ texts) [.fault] = response := by
  intro flags texts data response
  have hflags : ∀ f ∈ flags, Switch.verbose.Spelled f := by
    intro f hf
    simp only [flags, List.mem_cons, List.not_mem_nil, or_false] at hf
    obtain rfl | rfl | rfl := hf
    · exact .letters 0
    · exact .letters 1
    · exact .name
  have htexts : texts ≠ [] := List.cons_ne_nil _ _
  have hdata : (Reader.ofSignals (Signal.ofBytes data [])).items = (texts.flatMap Words.ofString).map .word := by
    rw [Reader.items_unbroken]
    decide
  have hword : ∀ text ∈ texts.head?, text.toList.head? ≠ some '-' := by decide
  obtain ⟨hexit, hseparator, hplain⟩ := respond_words .standard (.inl rfl) hflags htexts [.fault] [] hdata
  exact ⟨hflags, htexts, hdata, hword, hexit, hseparator, hplain hword⟩

end CommandLine

end ReversePolish
