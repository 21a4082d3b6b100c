import ReversePolish.Proofs.Printing
import ReversePolish.Proofs.Reading
import ReversePolish.Session

/-!
# Lines of text

What a step prints is made of finished lines, and the lines of a text made of such parts are those of the parts
(`Finished.append`, `Finished.lines_encode`).  The line that tells of a failure is no row of the listing, where there are
two blanks next to each other (`Report.message_not_mem_listing`).
-/

namespace ReversePolish

open Signal (newline)

/-- A text made of finished lines, which stand here without their newlines. -/
structure Finished (text : List Char) (ls : List (List Char)) : Prop where
  eq : text = ls.flatMap (· ++ ['\n'])
  solid : ∀ l ∈ ls, '\n' ∉ l

namespace Finished

theorem nil : Finished [] [] := ⟨rfl, by simp⟩

theorem single {l : List Char} (h : '\n' ∉ l) : Finished (l ++ ['\n']) [l] := ⟨by simp, by simpa using h⟩

theorem append {a b : List Char} {ls ms : List (List Char)} (ha : Finished a ls) (hb : Finished b ms) :
    Finished (a ++ b) (ls ++ ms) where
  eq := by rw [ha.eq, hb.eq, List.flatMap_append]
  solid l hl := (List.mem_append.1 hl).elim (ha.solid l) (hb.solid l)

end Finished

theorem newline_mem_encode {cs : List Char} (h : newline ∈ Utf8.encode cs) : '\n' ∈ cs := by
  obtain ⟨a, b, hab⟩ := List.append_of_mem h
  have hdecode := Utf8.decode_append_cons (show newline < 0x80 by decide) a b
  rw [← hab, Utf8.decode_encode] at hdecode
  rw [hdecode]
  exact List.mem_append_right _ (List.mem_cons_self ..)

/-- The lines of the bytes of a finished text; behind the last newline there is nothing. -/
theorem Finished.lines_encode {text : List Char} {ls : List (List Char)} (h : Finished text ls) :
    lines (Utf8.encode text) = ls.map Utf8.encode ++ [[]] := by
  obtain ⟨rfl, hsolid⟩ := h
  induction ls with
  | nil => exact lines_of_not_mem (by simp [Utf8.encode])
  | cons l ls ih =>
    have hl : newline ∉ Utf8.encode l := fun hmem => hsolid l (List.mem_cons_self ..) (newline_mem_encode hmem)
    have hrest : ∀ l' ∈ ls, '\n' ∉ l' := fun l' hl' => hsolid l' (List.mem_cons_of_mem l hl')
    have hencode : Utf8.encode ((l :: ls).flatMap (· ++ ['\n'])) =
        Utf8.encode l ++ newline :: Utf8.encode (ls.flatMap (· ++ ['\n'])) := by
      simp [Utf8.encode, newline]
      rfl
    rw [hencode, lines_append_cons hl, ih hrest]
    rfl

theorem encode_injective : Function.Injective Utf8.encode := Function.LeftInverse.injective Utf8.decode_encode

/-- How often a line that is not empty occurs. -/
theorem Finished.count_lines {text : List Char} {ls : List (List Char)} (h : Finished text ls) {l : List Char}
    (hl : l ≠ []) : (lines (Utf8.encode text)).count (Utf8.encode l) = ls.count l := by
  have hne : Utf8.encode l ≠ [] := fun hnil => hl (encode_injective hnil)
  rw [h.lines_encode, List.count_append, List.count_map_of_injective ls _ encode_injective, List.count_singleton]
  simp [hne]

/-! ### Texts without a newline -/

-- For a literal `text` the first hypothesis is `rfl`, which is much cheaper than to compute its characters.
theorem not_mem_toList {c : Char} {text : String} {cs : List Char} (h : text = String.ofList cs) (hcs : c ∉ cs) :
    c ∉ text.toList := by
  rwa [h, String.toList_ofList]

theorem Failure.newline_not_mem_message (f : Failure) : '\n' ∉ f.message.toList := by
  cases f <;> exact not_mem_toList rfl (by decide)

theorem Operator.newline_not_mem_token (op : Operator) : '\n' ∉ op.token.toList := by
  rcases op with f | f | _ | _ | _ | _ | _ <;> (try cases f) <;> exact not_mem_toList rfl (by decide)

theorem Operator.newline_not_mem_description (op : Operator) : '\n' ∉ op.description.toList := by
  rcases op with f | f | _ | _ | _ | _ | _ <;> (try cases f) <;> exact not_mem_toList rfl (by decide)

namespace Report

theorem newline_not_mem_fixedChars (x : Float) : '\n' ∉ fixedChars x := by
  rw [fixedChars_eq]
  cases said x with
  | nan => decide
  | infinity negative => cases negative <;> decide
  | decimal negative n e =>
    have hsign : '\n' ∉ (if negative then ['-'] else []) := by cases negative <;> decide
    have hwhole : '\n' ∉ Decimal.digits (n / 10 ^ places) := fun h =>
      absurd (Decimal.isDigit_of_mem_digits h) (by decide)
    have hfraction : '\n' ∉ Decimal.padded places (n % 10 ^ places) := fun h =>
      absurd (Decimal.isDigit_of_mem_padded h) (by decide)
    simp [saying, Decimal.withPoint, hsign, hwhole, hfraction]

theorem newline_not_mem_top (z? : Option Complex) : '\n' ∉ (top z?).toList := by
  cases z? with
  | none => exact not_mem_toList rfl (by decide)
  | some z =>
    have hvalue : '\n' ∉ valueChars z := by
      unfold valueChars
      split <;> simp [newline_not_mem_fixedChars]
    simp [top, hvalue]

/-- A row of the listing without its newline. -/
def rowChars (row : String × String) : List Char :=
  row.1.toList.leftpad column ' ' ++ ' ' :: ' ' :: row.2.toList

theorem newline_not_mem_rowChars {row : String × String} (h : row ∈ rows) : '\n' ∉ rowChars row := by
  have hrow : '\n' ∉ row.1.toList ∧ '\n' ∉ row.2.toList := by
    obtain h | h := List.mem_append.1 h
    · obtain ⟨op, -, rfl⟩ := List.mem_map.1 h
      exact ⟨op.newline_not_mem_token, op.newline_not_mem_description⟩
    · simp only [metaCommands, List.mem_cons, List.not_mem_nil, or_false] at h
      obtain rfl | rfl | rfl := h <;> exact ⟨not_mem_toList rfl (by decide), not_mem_toList rfl (by decide)⟩
  have hpad : '\n' ∉ List.replicate (column - row.1.toList.length) ' ' := fun h =>
    absurd (List.eq_of_mem_replicate h) (by decide)
  simp [rowChars, List.leftpad, hrow, hpad]

theorem finished_listing : Finished listing.toList (rows.map rowChars) where
  eq := by
    rw [listing, String.toList_join, List.flatMap_map, List.flatMap_map]
    refine List.flatMap_congr fun row _ => ?_
    simp [rowText, rowChars]
  solid l hl := by
    obtain ⟨row, hrow, rfl⟩ := List.mem_map.1 hl
    exact newline_not_mem_rowChars hrow

theorem message_not_mem_listing (f : Failure) : f.message.toList ∉ rows.map rowChars := by
  intro h
  obtain ⟨row, -, hrow⟩ := List.mem_map.1 h
  have hblanks : [' ', ' '] <:+: f.message.toList := by
    rw [← hrow]
    exact ⟨row.1.toList.leftpad column ' ', row.2.toList, by simp [rowChars]⟩
  cases f <;> exact absurd hblanks (by decide)

end Report

end ReversePolish
