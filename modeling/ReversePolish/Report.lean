import ReversePolish.Operator
import ReversePolish.Complex

/-!
# What is printed

The top of the stack with a fixed number of places, and the listing of all commands.  An imaginary part that is
zero is left out.
-/

namespace ReversePolish

namespace Report

def places : Nat := 6

/-- A double with a fixed number of places, a half going to the even neighbour.  The sign is that of the double,
so what rounds to zero from below is printed as a negative zero. -/
def fixedChars (x : Float) : List Char :=
  match Binary64.value x with
  | .nan => ['N', 'a', 'N']
  | .infinity negative => (if negative then '-' else '+') :: ['I', 'n', 'f']
  | .finite negative b =>
    (if negative then ['-'] else []) ++ Decimal.fixed places (Binary64.units b) Binary64.unit

def fixed (x : Float) : String := String.ofList (fixedChars x)

/-- A value in a form that can be typed in again: `R`, or `R+iI` if the imaginary part is not zero. -/
def valueChars (z : Complex) : List Char :=
  if z.im == Binary64.zero then fixedChars z.re else fixedChars z.re ++ '+' :: 'i' :: fixedChars z.im

def nothing : String := "(*.******)"

/-- The text for the top of a stack: its value between parentheses. -/
def top : Option Complex → String
  | none => nothing
  | some z => "(" ++ String.ofList (valueChars z) ++ ")"

/-! ### The listing -/

/-- The commands that are not operators, with their descriptions. -/
def metaCommands : List (String × String) :=
  [(".", "prints the top value of stack"),
    (".q", "quits the program"),
    (".com", "lists all availiable commands")]

def rows : List (String × String) :=
  Operator.all.map (fun op => (op.token, op.description)) ++ metaCommands

/-- The width of the column of tokens: one more than the longest of them. -/
def column : Nat := (rows.map fun row => row.1.length).foldl max 0 + 1

/-- A row of the listing, its token flush right in its column. -/
def rowText (row : String × String) : String :=
  String.ofList (row.1.toList.leftpad column ' ') ++ "  " ++ row.2 ++ "\n"

def listing : String := String.join (rows.map rowText)

end Report

end ReversePolish
