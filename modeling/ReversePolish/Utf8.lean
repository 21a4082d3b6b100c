/-!
# UTF-8 with replacement

`decode` reads any bytes: each longest piece that is the beginning of a character but not followed up, and each
byte that begins nothing, becomes one replacement character.  It is a machine that takes one byte at a time; a
byte that does not continue an open character is looked at again as a beginning.  So decoding can be cut after
any byte that leaves no character open (`decodeFrom_append`), and below 128 every byte does so.
-/

namespace ReversePolish

namespace Utf8

/-- The character that stands for undecodable bytes. -/
def replacement : Char := '\uFFFD'

/-- A character that has been begun. -/
structure Pending where
  /-- The bits of the character that are known. -/
  bits : Nat
  /-- How many bytes are to follow the next one. -/
  later : Nat
  /-- The least and the greatest byte that may come next. -/
  low : UInt8
  high : UInt8
deriving DecidableEq

/-- What a byte does where no character is open: the characters that it completes, and the one that it opens. -/
def start (b : UInt8) : List Char × Option Pending :=
  if b < 0x80 then ([Char.ofNat b.toNat], none)
  else if b < 0xC2 then ([replacement], none)
  else if b < 0xE0 then ([], some ⟨b.toNat - 0xC0, 0, 0x80, 0xBF⟩)
  else if b = 0xE0 then ([], some ⟨0, 1, 0xA0, 0xBF⟩)
  else if b = 0xED then ([], some ⟨0xD, 1, 0x80, 0x9F⟩)
  else if b < 0xF0 then ([], some ⟨b.toNat - 0xE0, 1, 0x80, 0xBF⟩)
  else if b = 0xF0 then ([], some ⟨0, 2, 0x90, 0xBF⟩)
  else if b < 0xF4 then ([], some ⟨b.toNat - 0xF0, 2, 0x80, 0xBF⟩)
  else if b = 0xF4 then ([], some ⟨4, 2, 0x80, 0x8F⟩)
  else ([replacement], none)

def next (open? : Option Pending) (b : UInt8) : List Char × Option Pending :=
  match open? with
  | none => start b
  | some p =>
    if p.low ≤ b ∧ b ≤ p.high then
      let bits := p.bits * 64 + (b.toNat - 0x80)
      match p.later with
      | 0 => ([Char.ofNat bits], none)
      | later + 1 => ([], some ⟨bits, later, 0x80, 0xBF⟩)
    else (replacement :: (start b).1, (start b).2)

/-- The characters of some bytes, when a character may be open before them. -/
def decodeFrom (open? : Option Pending) : List UInt8 → List Char
  | [] => if open?.isSome then [replacement] else []
  | b :: bs => (next open? b).1 ++ decodeFrom (next open? b).2 bs

def decode (bs : List UInt8) : List Char := decodeFrom none bs

def encode (cs : List Char) : List UInt8 := cs.flatMap String.utf8EncodeChar

/-- The character that is open after some bytes. -/
def openAfter (open? : Option Pending) (bs : List UInt8) : Option Pending :=
  bs.foldl (fun open? b => (next open? b).2) open?

theorem next_of_lt {b : UInt8} (h : b < 0x80) (open? : Option Pending) (hp : ∀ p ∈ open?, 0x80 ≤ p.low) :
    (next open? b).2 = none := by
  have hs : (start b).2 = none := by simp [start, h]
  match open? with
  | none => exact hs
  | some p =>
    have := hp p rfl
    have hn : ¬ (p.low ≤ b ∧ b ≤ p.high) := fun hb =>
      absurd (UInt8.le_trans this hb.1) (UInt8.not_le.2 h)
    simp [next, hn, hs]

theorem decodeFrom_append (open? : Option Pending) {bs cs : List UInt8} (h : openAfter open? bs = none) :
    decodeFrom open? (bs ++ cs) = decodeFrom open? bs ++ decode cs := by
  induction bs generalizing open? with
  | nil => simp only [openAfter, List.foldl_nil] at h; subst h; rfl
  | cons b bs ih =>
    simp only [List.cons_append, decodeFrom, List.append_assoc]
    rw [ih _ h]

end Utf8

end ReversePolish
