import ReversePolish.Proofs.Literals
import ReversePolish.Proofs.Transcripts

/-!
# Inputs put together

White space of one byte cuts an input into two, whatever bytes stand around it: a session on the whole is one on the
first part and then one on the second, unless the first part quits (`ofBytes_append_blank`).  A word that is not of ASCII
has no meaning (`Command.ofWord_of_not_ascii`), so wherever it stands it costs one line of text and nothing else
(`ofBytes_append_foreign`).
-/

namespace ReversePolish

/-! ### White space of one byte -/

namespace Words

/-- The bytes that are white space by themselves. -/
def blankBytes : List UInt8 := [0x09, 0x0A, 0x0B, 0x0C, 0x0D, 0x20]

theorem ofBytes_append_of_blank {b : UInt8} (h : b ∈ blankBytes) (bs cs : List UInt8) :
    ofBytes (bs ++ b :: cs) = ofBytes bs ++ ofBytes cs := by
  have hblank : ∀ b ∈ blankBytes, b < 0x80 ∧ isBlank (Char.ofNat b.toNat) := by decide +kernel
  exact ofBytes_append_cons (hblank b h).1 (hblank b h).2 bs cs

/-- Bytes whose text has no white space but a character beyond ASCII, as any damaged ones have, are a word of their
own, which is not of ASCII. -/
theorem ofBytes_foreign {x : List UInt8} (hword : ∀ c ∈ Utf8.decode x, ¬ isBlank c)
    (hforeign : (∃ c ∈ Utf8.decode x, 0x80 ≤ c.toNat) ∨ ∀ cs, Utf8.encode cs ≠ x) :
    ∃ word, ofBytes x = [word] ∧ ¬ Ascii word.toList := by
  obtain ⟨c, hc, hle⟩ : ∃ c ∈ Utf8.decode x, 0x80 ≤ c.toNat := by
    obtain hforeign | hdamaged := hforeign
    · exact hforeign
    · have hmem := (Utf8.decodes_decode x).encode_eq_or.resolve_left (hdamaged _)
      exact ⟨Utf8.replacement, hmem, by simp [Utf8.replacement]⟩
  refine ⟨String.ofList (Utf8.decode x), ?_, fun h => ?_⟩
  · rw [ofBytes, split_word (List.ne_nil_of_mem hc) hword]
    rfl
  · rw [String.toList_ofList] at h
    exact absurd (h c hc) (Nat.not_lt.2 hle)

end Words

/-- Some word of the bytes asks to quit. -/
def Quits (data : List UInt8) : Prop := .word ".q" ∈ (Reader.ofSignals (Signal.ofBytes data [])).items

theorem quits_iff {data : List UInt8} : Quits data ↔ ".q" ∈ Words.ofBytes data := by
  simp [Quits, Reader.items_unbroken]

/-! ### Foreign words -/

theorem Operator.ascii_token (op : Operator) : Ascii op.token.toList := by
  rcases op with f | f | _ | _ | _ | _ | _ <;> (try cases f) <;> simp [Ascii, token]

/-- Every word that has a meaning is of ASCII. -/
theorem Command.ofWord_of_not_ascii {word : String} (h : ¬ Ascii word.toList) : ofWord word = .unrecognized word := by
  have hne : ∀ w : String, Ascii w.toList → word ≠ w := by
    rintro w hw rfl
    exact h hw
  have hparse : Literal.parse? word.toList = none :=
    Option.eq_none_iff_forall_ne_some.2 fun z hz => h (Literal.denotes_of_parse? hz).ascii
  have hop : Operator.ofToken? word = none :=
    Option.eq_none_iff_forall_ne_some.2 fun op hop => hne _ op.ascii_token (Operator.ofToken?_eq_some_iff.1 hop).symm
  have hprint : word ≠ "." := hne _ (by simp [Ascii])
  have hquit : word ≠ ".q" := hne _ (by simp [Ascii])
  have hhelp : ¬ (word = ".com" ∨ word = "?") := not_or.2 ⟨hne _ (by simp [Ascii]), hne _ (by simp [Ascii])⟩
  rw [ofWord, if_neg hprint, if_neg hquit, if_neg hhelp, hparse, hop]

namespace Transcript

variable {m : Machine} {s : Stack}

theorem play_unrecognized {word : String} (h : Command.ofWord word = .unrecognized word) :
    play m s [word] = ⟨s, Utf8.encode (Failure.unrecognized.message ++ "\n").toList,
      [.token word, .unrecognized word], .exhausted⟩ := by
  have hq : word ≠ ".q" := by
    rintro rfl
    cases h
  have hevaluated : evaluated [word] = [word] := by rw [evaluated, if_neg hq, evaluated]
  simp [play, hevaluated, Ne.symm hq, Calculator.stackAfter, Calculator.steps, Calculator.step, Calculator.execute, h,
    Walk.printed]

/-- A session on a foreign word prints one line of text and leaves the stack as it is. -/
theorem ofBytes_of_foreign {x : List UInt8} (hword : ∀ c ∈ Utf8.decode x, ¬ Words.isBlank c)
    (hforeign : (∃ c ∈ Utf8.decode x, 0x80 ≤ c.toNat) ∨ ∀ cs, Utf8.encode cs ≠ x) :
    ¬ Quits x ∧ ∃ log, ofBytes m s x =
      ⟨s, Utf8.encode (Failure.unrecognized.message ++ "\n").toList, log, .exhausted⟩ := by
  obtain ⟨word, hx, hascii⟩ := Words.ofBytes_foreign hword hforeign
  refine ⟨?_, [.token word, .unrecognized word], ?_⟩
  · rw [quits_iff, hx, List.mem_singleton]
    rintro rfl
    exact hascii (by simp [Ascii])
  · rw [ofBytes_eq_play, hx, play_unrecognized (Command.ofWord_of_not_ascii hascii)]

/-! ### Sessions on inputs put together -/

/-- Nothing is evaluated behind a word that quits. -/
theorem ofBytes_append_of_quits {a : List UInt8} {w : UInt8} (hw : w ∈ Words.blankBytes) (h : Quits a)
    (b : List UInt8) : ofBytes m s (a ++ w :: b) = ofBytes m s a :=
  ofBytes_eq_of_mem (Words.ofBytes_append_of_blank hw a b) (quits_iff.1 h)

/-- White space of one byte separates two sessions. -/
theorem ofBytes_append {a : List UInt8} {w : UInt8} (hw : w ∈ Words.blankBytes) (h : ¬ Quits a) (b : List UInt8) :
    ofBytes m s (a ++ w :: b) = (ofBytes m s a).andThen (ofBytes m (ofBytes m s a).stack b) :=
  ofBytes_eq_andThen (Words.ofBytes_append_of_blank hw a b) (mt quits_iff.2 h)

/-- A session on an input with white space of one byte in it is one on what stands before that byte, and then, unless
that has quit, one on what follows. -/
theorem ofBytes_append_blank (m : Machine) (s : Stack) (a b : List UInt8) {w : UInt8} (hw : w ∈ Words.blankBytes) :
    let first := ofBytes m s a
    let second := ofBytes m first.stack b
    let whole := ofBytes m s (a ++ w :: b)
    (¬ Quits a → whole.stack = second.stack ∧ whole.text = first.text ++ second.text ∧
        whole.log = first.log ++ second.log ∧ whole.ending = second.ending) ∧
      (Quits a → whole = first) := by
  intro first second whole
  refine ⟨fun h => ?_, fun h => ofBytes_append_of_quits hw h b⟩
  have hwhole : whole = first.andThen second := ofBytes_append hw h b
  rw [hwhole]
  exact ⟨rfl, rfl, rfl, rfl⟩

/-- A character that is torn apart by a carriage return. -/
theorem ofBytes_append_blank_torn :
    let a : List UInt8 := [0x31, 0x20, 0xC3]
    let b : List UInt8 := [0xA9, 0x20, 0x2E]
    let first := ofBytes .standard .empty a
    let second := ofBytes .standard first.stack b
    let whole := ofBytes .standard .empty (a ++ 0x0D :: b)
    0x0D ∈ Words.blankBytes ∧ ¬ Quits a ∧ whole.stack = second.stack ∧ whole.text = first.text ++ second.text ∧
      whole.log = first.log ++ second.log := by
  intro a b first second whole
  have hw : 0x0D ∈ Words.blankBytes := by decide
  have hquits : ¬ Quits a := by
    rw [quits_iff]
    decide
  obtain ⟨hstack, htext, hlog, -⟩ := (ofBytes_append_blank .standard .empty a b hw).1 hquits
  exact ⟨hw, hquits, hstack, htext, hlog⟩

/-- A word that is not of ASCII, be it by its characters or because it is damaged, costs one line of text. -/
theorem ofBytes_append_foreign (m : Machine) (s : Stack) (a b : List UInt8) {v w : UInt8} {x : List UInt8}
    (hv : v ∈ Words.blankBytes) (hw : w ∈ Words.blankBytes) (hword : ∀ c ∈ Utf8.decode x, ¬ Words.isBlank c)
    (hforeign : (∃ c ∈ Utf8.decode x, 0x80 ≤ c.toNat) ∨ ∀ cs, Utf8.encode cs ≠ x) :
    let first := ofBytes m s a
    let second := ofBytes m first.stack b
    let plain := ofBytes m s (a ++ v :: b)
    let disturbed := ofBytes m s (a ++ v :: (x ++ w :: b))
    disturbed.stack = plain.stack ∧ disturbed.ending = plain.ending ∧
      (¬ Quits a → plain.text = first.text ++ second.text ∧
        disturbed.text =
          first.text ++ Utf8.encode (Failure.unrecognized.message ++ "\n").toList ++ second.text) ∧
      (Quits a → disturbed = plain) := by
  intro first second plain disturbed
  obtain ⟨hquits, log, hx⟩ := ofBytes_of_foreign (m := m) (s := first.stack) hword hforeign
  by_cases h : Quits a
  · have hdisturbed : disturbed = plain :=
      (ofBytes_append_of_quits hv h _).trans (ofBytes_append_of_quits hv h b).symm
    exact ⟨by rw [hdisturbed], by rw [hdisturbed], fun h' => absurd h h', fun _ => hdisturbed⟩
  · have hplain : plain = first.andThen second := ofBytes_append hv h b
    -- the foreign word leaves to what follows the stack that it found
    have hdisturbed : disturbed = first.andThen (andThen
        ⟨first.stack, Utf8.encode (Failure.unrecognized.message ++ "\n").toList, log, .exhausted⟩ second) := by
      rw [show disturbed = first.andThen (ofBytes m first.stack (x ++ w :: b)) from ofBytes_append hv h _,
        ofBytes_append hw hquits, hx]
    rw [hplain, hdisturbed]
    refine ⟨rfl, rfl, fun _ => ⟨rfl, ?_⟩, fun h' => absurd h' h⟩
    simp only [andThen, List.append_assoc]

/-- A byte that begins no character, on the line between a literal and the word that prints it. -/
theorem ofBytes_append_foreign_damaged :
    let a : List UInt8 := [0x31]
    let b : List UInt8 := [0x2E]
    let x : List UInt8 := [0xFF]
    let first := ofBytes .standard .empty a
    let second := ofBytes .standard first.stack b
    let disturbed := ofBytes .standard .empty (a ++ 0x20 :: (x ++ 0x09 :: b))
    0x20 ∈ Words.blankBytes ∧ 0x09 ∈ Words.blankBytes ∧ (∀ c ∈ Utf8.decode x, ¬ Words.isBlank c) ∧
      (∃ c ∈ Utf8.decode x, 0x80 ≤ c.toNat) ∧ ¬ Quits a ∧
      disturbed.stack = (ofBytes .standard .empty (a ++ 0x20 :: b)).stack ∧
      disturbed.text =
        first.text ++ Utf8.encode (Failure.unrecognized.message ++ "\n").toList ++ second.text := by
  intro a b x first second disturbed
  have hv : 0x20 ∈ Words.blankBytes := by decide
  have hw : 0x09 ∈ Words.blankBytes := by decide
  have hdecode : Utf8.decode x = [Utf8.replacement] := by decide
  have hword : ∀ c ∈ Utf8.decode x, ¬ Words.isBlank c := by
    simp [hdecode, Words.isBlank, Words.blankRanges, Utf8.replacement]
  have hforeign : ∃ c ∈ Utf8.decode x, 0x80 ≤ c.toNat := by simp [hdecode, Utf8.replacement]
  have hquits : ¬ Quits a := by
    rw [quits_iff]
    decide
  obtain ⟨hstack, -, htext, -⟩ := ofBytes_append_foreign .standard .empty a b hv hw hword (.inl hforeign)
  exact ⟨hv, hw, hword, hforeign, hquits, hstack, (htext hquits).2⟩

end Transcript

end ReversePolish
