import ReversePolish.CommandLine
import ReversePolish.Transcript

/-!
# The program

Standard input is evaluated line by line (`Transcript.ofLines`), so that every line is answered before the next one is
asked for.
-/

namespace ReversePolish

namespace Main

/-- The next line of a stream with its newline; empty at the end. -/
partial def readLine (stream : IO.FS.Stream) (line : Array UInt8) : IO (Array UInt8) := do
  let bytes ← stream.read 1
  match bytes.data[0]? with
  | none => return line
  | some b => if b = Signal.newline then return line.push b else readLine stream (line.push b)

def display (verbose quiet : Nat) (t : Transcript) : IO Unit := do
  let stdout ← IO.getStdout
  let stderr ← IO.getStderr
  for line in CommandLine.shown verbose quiet t.log do
    stderr.putStrLn line
  stdout.write ⟨t.text.toArray⟩
  stdout.flush

/-- Displays the transcript of the lines of standard input while they come. -/
partial def interact (verbose quiet : Nat) (stack : Stack) : IO Unit := do
  let line ← readLine (← IO.getStdin) #[]
  if line.isEmpty then return
  let first := Transcript.ofBytes .standard stack line.toList
  display verbose quiet first
  if first.ending = .quit then return
  interact verbose quiet first.stack

/-- Answers to the arguments with an exit code. -/
def run (args : List String) : IO UInt32 := do
  try
    match CommandLine.parse args with
    | .evaluate verbose quiet [] => interact verbose quiet .empty
    | .evaluate verbose quiet words =>
      display verbose quiet (Transcript.ofBytes .standard .empty (CommandLine.script words))
    | _ =>
      let response := CommandLine.respond .standard args []
      (← IO.getStdout).write ⟨response.output.toArray⟩
      return response.exitCode.toUInt32
    return 0
  catch _ =>
    (← IO.getStderr).putStrLn ("Error: " ++ Failure.io.message)
    return 1

end Main

end ReversePolish

def main (args : List String) : IO UInt32 := ReversePolish.Main.run args
