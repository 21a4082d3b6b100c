import ReversePolish.Proofs.Auditing
import ReversePolish.Proofs.Typing

/-!
# Displayed stacks

The text of a stack tells what is on it (`Stack.chars_injective`).  The text of a double is a numeral of this double, in
which there is no sign but a minus sign in front; so in the text of a complex number the first sign that is not at the
beginning is the one between its parts.  There is no comma in it either, so the commas in the text of a stack are those
between its elements.  Consequently the record of an operator tells which operator it was and what stack it was
applied to (`Stack.text_eq_iff`).
-/

namespace ReversePolish

/-! ### Doubles -/

namespace Binary64

/-- Doubles with the same text are the same. -/
theorem chars_injective : Function.Injective chars := by
  intro x y h
  have hx := Literal.read?_eq_some_iff.2 (text_chars x)
  have hy := Literal.read?_eq_some_iff.2 (text_chars y)
  rw [h, hy] at hx
  exact (Option.some.inj hx).symm

/-- The text of a double below zero is a minus sign and the text of its size. -/
theorem chars_of_lt_zero {x : Float} (h : x < zero) : chars x = '-' :: chars (zero - x) := by
  obtain ⟨b, hle, rfl, hsub⟩ := zero_sub_of_lt h
  rw [hsub, chars, chars]
  rcases hle.lt_or_eq with hlt | rfl
  · rw [value_ofMagnitude true hlt, value_ofMagnitude false hlt]
    rfl
  · rw [value_ofMagnitude_infinite, value_ofMagnitude_infinite]
    rfl

/-- Whether a character is a sign. -/
def isSign (c : Char) : Bool := c == '+' || c == '-'

/-- A text without signs and commas, as that of a double is behind its sign. -/
structure Unsigned (body : List Char) : Prop where
  ne_nil : body ≠ []
  isSign : ∀ c ∈ body, isSign c = false
  comma : ',' ∉ body

theorem unsigned_positional (n : Nat) (e : Int) : Unsigned (Decimal.positional n e) := by
  have hchars : ∀ c ∈ Decimal.positional n e, isSign c = false ∧ c ≠ ',' := by
    intro c hc
    rcases Decimal.isDigit_or_of_mem_positional hc with hdigit | rfl
    · have hne {d : Char} (hd : d.isDigit = false) : c ≠ d := by
        rintro rfl
        rw [hdigit] at hd
        cases hd
      simp [isSign, hne (show '+'.isDigit = false by decide), hne (show '-'.isDigit = false by decide),
        hne (show ','.isDigit = false by decide)]
    · decide
  obtain ⟨k, f, htext, -⟩ := Numeral.unsignedText_positional n e
  obtain ⟨c, tail, hhead, -⟩ := htext.exists_head
  refine ⟨by rw [hhead]; exact List.cons_ne_nil c tail, fun c hc => (hchars c hc).1, fun hcomma => ?_⟩
  exact (hchars ',' hcomma).2 rfl

theorem exists_unsigned (x : Float) :
    ∃ (negative : Bool) (body : List Char), chars x = (if negative then ['-'] else []) ++ body ∧ Unsigned body := by
  unfold chars
  cases value x with
  | nan => exact ⟨false, _, rfl, by simp, by simp [isSign], by simp⟩
  | infinity negative => exact ⟨negative, _, rfl, by simp, by simp [isSign], by simp⟩
  | finite negative b => exact ⟨negative, _, rfl, unsigned_positional _ _⟩

theorem comma_not_mem_chars (x : Float) : ',' ∉ chars x := by
  obtain ⟨negative, body, hx, hbody⟩ := exists_unsigned x
  have hsign : ',' ∉ (if negative then ['-'] else []) := by cases negative <;> decide
  rw [hx, List.mem_append, not_or]
  exact ⟨hsign, hbody.comma⟩

/-- If a sign follows the text of a double, it is known where the text ends. -/
theorem cut_chars {x x' : Float} {t t' : List Char} (ht : t.head?.any isSign) (ht' : t'.head?.any isSign)
    (h : chars x ++ t = chars x' ++ t') : x = x' ∧ t = t' := by
  obtain ⟨negative, body, hx, hbody⟩ := exists_unsigned x
  obtain ⟨negative', body', hx', hbody'⟩ := exists_unsigned x'
  have hstart {b : List Char} (hb : Unsigned b) (u v : List Char) : b ++ u ≠ '-' :: v := by
    obtain ⟨c, b', rfl⟩ := List.exists_cons_of_ne_nil hb.ne_nil
    intro heq
    obtain ⟨rfl, -⟩ := List.cons.inj heq
    exact absurd (hb.isSign '-' (List.mem_cons_self ..)) (by decide)
  -- whether there is a sign in front shows in the first character
  have hnegative : negative = negative' ∧ body ++ t = body' ++ t' := by
    rw [hx, hx', List.append_assoc, List.append_assoc] at h
    cases negative with
    | true =>
      cases negative' with
      | true => exact ⟨rfl, List.append_cancel_left h⟩
      | false => exact absurd h.symm (hstart hbody' t' _)
    | false =>
      cases negative' with
      | true => exact absurd h (hstart hbody t _)
      | false => exact ⟨rfl, h⟩
  obtain ⟨rfl, h⟩ := hnegative
  obtain ⟨rfl, htail⟩ := cut_before hbody.isSign hbody'.isSign ht ht' h
  exact ⟨chars_injective (hx.trans hx'.symm), htail⟩

end Binary64

/-! ### Complex numbers -/

namespace Complex

open Binary64 (zero isSign)

/-- The text of an imaginary part, with a sign in front in any case. -/
def signedChars (y : Float) : List Char :=
  if y < zero then '-' :: Binary64.chars (zero - y) else '+' :: Binary64.chars y

theorem chars_eq (z : Complex) : chars z = Binary64.chars z.re ++ (signedChars z.im ++ ['i']) :=
  List.append_assoc ..

/-- Only a plus sign is more than is in the text of the double itself. -/
theorem signedChars_cases (y : Float) :
    signedChars y = Binary64.chars y ∨ signedChars y = '+' :: Binary64.chars y := by
  unfold signedChars
  split
  · rename_i h
    exact .inl (Binary64.chars_of_lt_zero h).symm
  · exact .inr rfl

theorem signedChars_injective : Function.Injective signedChars := by
  intro y y' h
  rcases signedChars_cases y with hy | hy
  · rcases signedChars_cases y' with hy' | hy'
    · rw [hy, hy'] at h
      exact Binary64.chars_injective h
    · rw [hy, hy'] at h
      exact absurd h (Binary64.chars_ne_plus y _)
  · rcases signedChars_cases y' with hy' | hy'
    · rw [hy, hy'] at h
      exact absurd h.symm (Binary64.chars_ne_plus y' _)
    · rw [hy, hy'] at h
      exact Binary64.chars_injective (List.cons.inj h).2

theorem head?_signedChars (y : Float) (t : List Char) : (signedChars y ++ t).head?.any isSign := by
  unfold signedChars
  split <;> rfl

/-- Complex numbers with the same text are the same. -/
theorem chars_injective : Function.Injective chars := by
  intro z w h
  rw [chars_eq, chars_eq] at h
  obtain ⟨hre, him⟩ := Binary64.cut_chars (head?_signedChars ..) (head?_signedChars ..) h
  have him := signedChars_injective (List.append_cancel_right him)
  cases z
  cases w
  cases hre
  cases him
  rfl

theorem comma_not_mem_chars (z : Complex) : ',' ∉ chars z := by
  have hsigned : ',' ∉ signedChars z.im := by
    rcases signedChars_cases z.im with h | h
    · rw [h]
      exact Binary64.comma_not_mem_chars _
    · simp [h, Binary64.comma_not_mem_chars]
  simp [chars_eq, hsigned, Binary64.comma_not_mem_chars]

theorem chars_ne_nil (z : Complex) : chars z ≠ [] := by simp [chars_eq]

end Complex

/-! ### Stacks -/

/-- Texts without commas can be told apart when they are joined by commas, unless one of them is empty. -/
theorem intercalate_comma_inj {ts us : List (List Char)} (hts : ∀ t ∈ ts, t ≠ [] ∧ ',' ∉ t)
    (hus : ∀ u ∈ us, u ≠ [] ∧ ',' ∉ u) (h : [',', ' '].intercalate ts = [',', ' '].intercalate us) : ts = us := by
  induction ts generalizing us with
  | nil =>
    cases us with
    | nil => rfl
    | cons u us =>
      obtain ⟨hne, -⟩ := hus u (List.mem_cons_self ..)
      cases us with
      | nil => exact absurd h.symm (by simpa using hne)
      | cons u' us => exact absurd h.symm (by simp [List.intercalate_cons_cons])
  | cons t ts ih =>
    obtain ⟨hne, ht⟩ := hts t (List.mem_cons_self ..)
    cases us with
    | nil =>
      cases ts with
      | nil => exact absurd h (by simpa using hne)
      | cons t' ts => exact absurd h (by simp [List.intercalate_cons_cons])
    | cons u us =>
      obtain ⟨-, hu⟩ := hus u (List.mem_cons_self ..)
      have hcut : t = u ∧ ts = us := by
        cases ts with
        | nil =>
          cases us with
          | nil => exact ⟨by simpa using h, rfl⟩
          | cons u' us =>
            rw [List.intercalate_singleton, List.intercalate_cons_cons] at h
            exact absurd (by rw [h]; simp) ht
        | cons t' ts =>
          cases us with
          | nil =>
            rw [List.intercalate_singleton, List.intercalate_cons_cons] at h
            exact absurd (by rw [← h]; simp) hu
          | cons u' us =>
            rw [List.intercalate_cons_cons, List.intercalate_cons_cons, List.append_assoc, List.append_assoc] at h
            obtain ⟨htu, hrest⟩ := cut_unique ht hu h
            exact ⟨htu, ih (fun t ht => hts t (List.mem_cons_of_mem _ ht))
              (fun u hu => hus u (List.mem_cons_of_mem _ hu)) (List.cons.inj hrest).2⟩
      rw [hcut.1, hcut.2]

namespace Stack

/-- Stacks with the same text are the same. -/
theorem chars_injective : Function.Injective chars := by
  intro s t h
  have hsolid (zs : List Complex) : ∀ cs ∈ zs.map Complex.chars, cs ≠ [] ∧ ',' ∉ cs := by
    intro cs hcs
    obtain ⟨z, -, rfl⟩ := List.mem_map.1 hcs
    exact ⟨z.chars_ne_nil, z.comma_not_mem_chars⟩
  have hjoined := intercalate_comma_inj (hsolid s.toList) (hsolid t.toList)
    (List.append_cancel_right (List.cons.inj h).2)
  rw [← ofList_toList s, ← ofList_toList t, Complex.chars_injective.list_map hjoined]

theorem text_injective : Function.Injective text := fun _ _ h => chars_injective (String.ofList_injective h)

end Stack

/-! ### Records -/

theorem Operator.colon_not_mem_token (op : Operator) : ':' ∉ op.token.toList := by
  rcases op with f | f | _ | _ | _ | _ | _ <;> (try cases f) <;> exact not_mem_toList rfl (by decide)

namespace Event

theorem toList_message_applied (op : Operator) (s : Stack) :
    (applied op s).message.toList = op.token.toList ++ ':' :: (" applied to ".toList ++ s.text.toList) := by
  have hcolon : ": applied to " = ":" ++ " applied to " := rfl
  simp [message, hcolon]

theorem applied_of_line {op op' : Operator} {s t : Stack} (h : (applied op s).line = (applied op' t).line) :
    op = op' ∧ s = t := by
  have hmessage := (fields_of_line ((congrArg String.toList h).trans (toList_line _))).2.2
  rw [toList_message_applied, toList_message_applied] at hmessage
  obtain ⟨htoken, htext⟩ := cut_unique op.colon_not_mem_token op'.colon_not_mem_token hmessage
  exact ⟨Operator.token_injective (String.toList_inj.1 htoken),
    Stack.text_injective (String.toList_inj.1 (List.append_cancel_left htext))⟩

end Event

/-- The text of a stack determines the stack: how many elements there are, and each of them, with the signs of zeros and
infinities.  So the stack in the record of an operator that was applied is the one that the operator found. -/
theorem Stack.text_eq_iff (s t : Stack) : (s.text = t.text ↔ s = t) ∧
    ∀ (m : Machine) (op op' : Operator), (Event.applied op' t).line ∈ (op.apply m s).events.map Event.line ↔
      op' = op ∧ t = s ∧ op.arity.satisfiedBy s.size = true := by
  refine ⟨text_injective.eq_iff, fun m op op' => ?_⟩
  constructor
  · intro h
    obtain ⟨e, he, hline⟩ := List.mem_map.1 h
    have hlevel : e.level.text = Level.debug.text :=
      (Event.fields_of_line ((congrArg String.toList hline).trans (Event.toList_line _))).1
    rcases op.apply_cases m s with ⟨hdeep, happly⟩ | ⟨-, happly⟩
    · rw [happly] at he
      rcases List.mem_cons.1 he with rfl | he
      · obtain ⟨rfl, rfl⟩ := Event.applied_of_line hline
        exact ⟨rfl, rfl, hdeep⟩
      · rw [Calculator.level_of_mem_body he] at hlevel
        exact absurd hlevel (by decide)
    · rw [happly] at he
      rw [List.mem_singleton.1 he] at hlevel
      exact absurd (show Level.warn.text = Level.debug.text from hlevel) (by decide)
  · rintro ⟨rfl, rfl, hdeep⟩
    have happly : (op'.apply m t).events = .applied op' t :: (op'.body m t).2 := by rw [Operator.apply_eq, if_pos hdeep]
    rw [happly]
    exact List.mem_map_of_mem (List.mem_cons_self ..)

end ReversePolish
