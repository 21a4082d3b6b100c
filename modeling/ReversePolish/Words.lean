import ReversePolish.Utf8

/-!
# Words

A text is cut into words at white space, the characters with the Unicode property of that name.
-/

namespace ReversePolish

namespace Words

def blankRanges : List (Nat × Nat) :=
  [(0x9, 0xD), (0x20, 0x20), (0x85, 0x85), (0xA0, 0xA0), (0x1680, 0x1680), (0x2000, 0x200A), (0x2028, 0x2029),
    (0x202F, 0x202F), (0x205F, 0x205F), (0x3000, 0x3000)]

def isBlank (c : Char) : Bool := blankRanges.any fun r => decide (r.1 ≤ c.toNat ∧ c.toNat ≤ r.2)

/-- The longest pieces without white space. -/
def split (cs : List Char) : List (List Char) := (cs.splitOnP isBlank).filter fun w => !w.isEmpty

/-- The words of some bytes. -/
def ofBytes (bs : List UInt8) : List String := (split (Utf8.decode bs)).map String.ofList

end Words

end ReversePolish
