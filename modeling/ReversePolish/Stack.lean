import ReversePolish.Complex

/-!
# The operand stack

A stack of complex numbers, kept with its top first and shown with its bottom first: `toList` is the view that
everything else is stated in.  `pop` never fails; what it yields on the empty stack is up to its caller.
-/

namespace ReversePolish

structure Stack where
  /-- The elements, top first. -/
  elements : List Complex
deriving DecidableEq

namespace Stack

def empty : Stack := ⟨[]⟩

/-- The elements, bottom first. -/
def toList (s : Stack) : List Complex := s.elements.reverse

def ofList (zs : List Complex) : Stack := ⟨zs.reverse⟩

def size (s : Stack) : Nat := s.elements.length

def isEmpty (s : Stack) : Bool := s.elements.isEmpty

def push (z : Complex) (s : Stack) : Stack := ⟨z :: s.elements⟩

def top? (s : Stack) : Option Complex := s.elements.head?

/-- The top element, or `default` if there is none, and the stack without it. -/
def pop (default : Complex) (s : Stack) : Complex × Stack := (s.elements.headD default, ⟨s.elements.tail⟩)

/-- The stack `s` on top of the stack `base`. -/
def onto (base s : Stack) : Stack := ⟨s.elements ++ base.elements⟩

/-- Numerical equality, element by element. -/
def agrees (s t : Stack) : Bool := s.elements.isEqv t.elements Complex.agrees

/-- The elements between brackets, bottom first. -/
def chars (s : Stack) : List Char := '[' :: [',', ' '].intercalate (s.toList.map Complex.chars) ++ [']']

def text (s : Stack) : String := String.ofList s.chars

/-! ### The view -/

@[simp] theorem toList_ofList (zs : List Complex) : (ofList zs).toList = zs := by simp [toList, ofList]

@[simp] theorem ofList_toList (s : Stack) : ofList s.toList = s := by simp [toList, ofList]

@[simp] theorem toList_empty : empty.toList = [] := rfl

@[simp] theorem toList_push (z : Complex) (s : Stack) : (s.push z).toList = s.toList ++ [z] := by
  simp [toList, push]

@[simp] theorem toList_pop (z : Complex) (s : Stack) : (s.pop z).2.toList = s.toList.dropLast := by
  simp [toList, pop]

@[simp] theorem toList_onto (base s : Stack) : (base.onto s).toList = base.toList ++ s.toList := by
  simp [toList, onto]

@[simp] theorem length_toList (s : Stack) : s.toList.length = s.size := by simp [toList, size]

/-! ### Sizes -/

@[simp] theorem size_empty : empty.size = 0 := rfl

@[simp] theorem size_push (z : Complex) (s : Stack) : (s.push z).size = s.size + 1 := rfl

@[simp] theorem size_pop (z : Complex) (s : Stack) : (s.pop z).2.size = s.size - 1 := by simp [pop, size]

@[simp] theorem size_onto (base s : Stack) : (base.onto s).size = s.size + base.size := by simp [onto, size]

theorem isEmpty_eq_false_iff {s : Stack} : s.isEmpty = false ↔ 0 < s.size := by
  simp [isEmpty, size, List.length_pos_iff]

end Stack

end ReversePolish
