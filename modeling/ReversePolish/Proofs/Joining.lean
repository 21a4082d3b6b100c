import ReversePolish.Proofs.Reading

/-!
# Joined words

Reading undoes joining: whatever white space stands between some words, in front of them and behind them, their joined
text has these words as its runs (`runs_joined`), and a reader of its encoding hands out exactly these words
(`items_joined`).
-/

namespace ReversePolish

namespace Words

/-- A word with the white space in front of it. -/
structure Spaced where
  gap : List Char
  word : String
  gap_blank : ∀ c ∈ gap, isBlank c
  word_ne_empty : word ≠ ""
  word_solid : ∀ c ∈ word.toList, ¬ isBlank c

/-- The text of some words, with white space behind the last of them. -/
def joined (pieces : List Spaced) (back : List Char) : List Char :=
  (pieces.flatMap fun p => p.gap ++ p.word.toList) ++ back

theorem joined_cons (p : Spaced) (pieces : List Spaced) (back : List Char) :
    joined (p :: pieces) back = p.gap ++ (p.word.toList ++ joined pieces back) := by
  simp [joined]

/-- The text behind a word begins with white space, if anything follows. -/
theorem isBlank_of_mem_head?_joined {pieces : List Spaced} {back : List Char} (hback : ∀ c ∈ back, isBlank c)
    (hgaps : ∀ p ∈ pieces, p.gap ≠ []) : ∀ c ∈ (joined pieces back).head?, isBlank c := by
  cases pieces with
  | nil => exact fun c hc => hback c (List.mem_of_mem_head? hc)
  | cons p pieces =>
    obtain ⟨b, gap, hgap⟩ := List.exists_cons_of_ne_nil (hgaps p (List.mem_cons_self ..))
    have hb : isBlank b := p.gap_blank b (hgap ▸ List.mem_cons_self ..)
    rw [joined_cons, hgap]
    rintro c ⟨⟩
    exact hb

/-- The runs of a joined text are its words, when no two of them touch. -/
theorem runs_joined {pieces : List Spaced} {back : List Char} (hback : ∀ c ∈ back, isBlank c)
    (hgaps : ∀ p ∈ pieces.tail, p.gap ≠ []) :
    Runs (joined pieces back) (pieces.map fun p => p.word.toList) := by
  induction pieces with
  | nil => exact .gap hback
  | cons p pieces ih =>
    have hne : p.word.toList ≠ [] := by simpa using p.word_ne_empty
    rw [joined_cons]
    exact .word p.gap_blank hne p.word_solid (isBlank_of_mem_head?_joined hback hgaps)
      (ih fun q hq => hgaps q (List.mem_of_mem_tail hq))

end Words

namespace Reader

/-- Words that are joined with white space between any two of them, and maybe in front and behind, are read as they
were. -/
theorem items_joined (pieces : List Words.Spaced) {back : List Char} (hback : ∀ c ∈ back, Words.isBlank c)
    (hgaps : ∀ p ∈ pieces.tail, p.gap ≠ []) :
    (ofSignals (Signal.ofBytes (Utf8.encode (Words.joined pieces back)) [])).items =
      (pieces.map Words.Spaced.word).map .word := by
  have hdecode : Utf8.decode (Utf8.encode (Words.joined pieces back)) = Words.joined pieces back := by
    have := Utf8.decode_encode_append (Words.joined pieces back) []
    rwa [List.append_nil, show Utf8.decode [] = [] from rfl, List.append_nil] at this
  have hruns : Words.split (Words.joined pieces back) = pieces.map fun p => p.word.toList :=
    (Words.runs_joined hback hgaps).eq_split.symm
  rw [items_unbroken, Words.ofBytes, hdecode, hruns]
  simp

/-- Two words of one joined text, the first without a gap in front, a line separator between them. -/
theorem items_joined_two_words :
    let pieces : List Words.Spaced := [⟨[], "2", by simp, by simp, by simp [Words.isBlank, Words.blankRanges]⟩,
      ⟨['\u2028', '\n'], "½", by simp [Words.isBlank, Words.blankRanges], by simp,
        by simp [Words.isBlank, Words.blankRanges]⟩]
    let back := ['\u0085']
    (∀ c ∈ back, Words.isBlank c) ∧ (∀ p ∈ pieces.tail, p.gap ≠ []) ∧
      (ofSignals (Signal.ofBytes (Utf8.encode (Words.joined pieces back)) [])).items = [.word "2", .word "½"] := by
  intro pieces back
  have hback : ∀ c ∈ back, Words.isBlank c := by simp [back, Words.isBlank, Words.blankRanges]
  have hgaps : ∀ p ∈ pieces.tail, p.gap ≠ [] := by simp [pieces]
  exact ⟨hback, hgaps, items_joined pieces hback hgaps⟩

end Reader

end ReversePolish
