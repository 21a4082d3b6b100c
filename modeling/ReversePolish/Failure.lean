/-!
# Failures

What can go wrong while a session runs.  Only a failure of reading or writing ends it.
-/

namespace ReversePolish

inductive Failure where
  /-- Reading or writing failed. -/
  | io
  /-- An operator found fewer elements than it needs. -/
  | stackTooSmall
  | unrecognized
deriving DecidableEq

def Failure.message : Failure → String
  | io => "i/o error"
  | stackTooSmall => "stack too small"
  | unrecognized => "Oops - unrecognized operation (.com for availible operations)"

end ReversePolish
