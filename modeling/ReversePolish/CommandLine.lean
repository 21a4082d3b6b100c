import ReversePolish.Session

/-!
# The command line

Options come first and set how much is logged, or ask for the version or for help; what follows is a list of
words to evaluate instead of standard input.  Anything that is not a known option counts as a word, so negative
numbers and the operator `-` can be given as they are.
-/

namespace ReversePolish

namespace CommandLine

/-- What the options in front ask for. -/
inductive Request where
  /-- Evaluate these words, or standard input if there are none, and log so much more or less. -/
  | evaluate (verbose quiet : Nat) (words : List String)
  | version
  | help
  | misuse
deriving DecidableEq

inductive Switch where
  | verbose | quiet | version | help
deriving DecidableEq

def Switch.ofLetter? : Char → Option Switch
  | 'v' => some verbose
  | 'q' => some quiet
  | 'V' => some version
  | 'h' => some help
  | _ => none

def Switch.ofName? (name : String) : Option Switch :=
  if name = "verbose" then some verbose
  else if name = "quiet" then some quiet
  else if name = "version" then some version
  else if name = "help" then some help
  else none

/-- What one argument is, as long as options are recognised. -/
inductive Argument where
  | switches (list : List Switch)
  /-- The mark that ends the options. -/
  | separator
  /-- An option with a value, which none of them takes. -/
  | misuse
  | word
deriving DecidableEq

/-- A long option, without its two leading minus signs.  It ends at an equals sign, if there is one. -/
def Argument.ofLong (cs : List Char) : Argument :=
  match Switch.ofName? (String.ofList (cs.takeWhile (· ≠ '='))) with
  | none => word
  | some switch => if '=' ∈ cs then misuse else switches [switch]

def Argument.ofChars : List Char → Argument
  | ['-', '-'] => separator
  | '-' :: '-' :: name => ofLong name
  | '-' :: c :: letters =>
    match (c :: letters).mapM Switch.ofLetter? with
    | some list => switches list
    | none => word
  | _ => word

/-- Reads switches up to one that asks for something else than evaluation. -/
def count (verbose quiet : Nat) : List Switch → Except Request (Nat × Nat)
  | [] => .ok (verbose, quiet)
  | .verbose :: rest => count (verbose + 1) quiet rest
  | .quiet :: rest => count verbose (quiet + 1) rest
  | .version :: _ => .error .version
  | .help :: _ => .error .help

/-- A request to evaluate, which must not ask for more and for less logging at once. -/
def settle (verbose quiet : Nat) (words : List String) : Request :=
  if 0 < verbose ∧ 0 < quiet then .misuse else .evaluate verbose quiet words

/-- The request of some arguments, after switches that have been counted. -/
def parseFrom (verbose quiet : Nat) : List String → Request
  | [] => settle verbose quiet []
  | arg :: args =>
    match Argument.ofChars arg.toList with
    | .word => settle verbose quiet (arg :: args)
    | .separator => settle verbose quiet args
    | .misuse => .misuse
    | .switches list =>
      match count verbose quiet list with
      | .ok (verbose, quiet) => parseFrom verbose quiet args
      | .error request => request

def parse (args : List String) : Request := parseFrom 0 0 args

/-- The input that words on the command line make: each on a line of its own. -/
def script (words : List String) : List UInt8 := Utf8.encode ("\n".intercalate words).toList

def version : String := "rpnc 0.1.0\n"

/-- The lines of a log that are shown when more or less of it was asked for. -/
def shown (verbose quiet : Nat) (log : List Event) : List String :=
  (log.filter fun e => decide (e.level.verbosity ≤ 1 + verbose - quiet)).map Event.line

/-- What a run of the program leaves behind. -/
structure Response where
  exitCode : Nat
  output : List UInt8
deriving DecidableEq

/-- A session on a new calculator, with an output that takes everything. -/
def evaluate (m : Machine) (input : List Signal) : Response :=
  let (s, ending) := (Session.start .empty input none).run m
  ⟨if ending.failure?.isSome then 1 else 0, s.sink.written.toList⟩

/-- What the program answers to arguments and standard input.  The text about its usage is written by the option parser,
and given here. -/
def respond (m : Machine) (args : List String) (input : List Signal) (usage : List UInt8 := []) : Response :=
  match parse args with
  | .version => ⟨0, Utf8.encode version.toList⟩
  | .help => ⟨0, usage⟩
  | .misuse => ⟨2, []⟩
  | .evaluate _ _ [] => evaluate m input
  | .evaluate _ _ words => evaluate m (Signal.ofBytes (script words) [])

end CommandLine

end ReversePolish
