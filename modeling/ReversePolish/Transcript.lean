import ReversePolish.Session

/-!
# Transcripts

A transcript is all that a session shows.  An input that comes line by line is answered line by line: each line is the
input of a session of its own, on the stack that the one before it left.
-/

namespace ReversePolish

/-- All that a session shows: the stack that it leaves, what it prints, what it logs, and how it ends. -/
@[ext]
structure Transcript where
  stack : Stack
  text : List UInt8
  log : List Event
  ending : Ending
deriving DecidableEq

namespace Transcript

/-- The transcript of a session on some bytes that never fail, with an output that takes everything. -/
def ofBytes (m : Machine) (s : Stack) (data : List UInt8) : Transcript :=
  let outcome := (Session.start s (Signal.ofBytes data []) none).run m
  ⟨outcome.1.stack, outcome.1.sink.written.toList, outcome.1.log.toList, outcome.2⟩

/-- The transcript of two sessions, one after the other. -/
def andThen (first second : Transcript) : Transcript :=
  ⟨second.stack, first.text ++ second.text, first.log ++ second.log, second.ending⟩

/-- The transcript of the sessions on some lines, up to one that quits. -/
def ofLines (m : Machine) (s : Stack) : List (List UInt8) → Transcript
  | [] => ⟨s, [], [], .exhausted⟩
  | line :: lines =>
    let first := ofBytes m s line
    if first.ending = .quit then first else first.andThen (ofLines m first.stack lines)

end Transcript

end ReversePolish
