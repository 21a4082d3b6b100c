import Mathlib
import ReversePolish.Proofs.Decoding
import ReversePolish.Words

/-!
# The words of a text are its runs

`Runs` says what the maximal runs of characters that are not white space are; `split` finds them (`runs_iff`).
White space cuts a text into two whose words have nothing to do with each other (`split_append_cons`), and so do
the bytes of white space below 128, whatever bytes stand around them (`ofBytes_append_cons`).
-/

namespace ReversePolish

namespace Words

/-- The maximal runs of a text without white space. -/
inductive Runs : List Char → List (List Char) → Prop where
  | gap {g : List Char} : (∀ c ∈ g, isBlank c) → Runs g []
  | word {g w rest : List Char} {ws : List (List Char)} : (∀ c ∈ g, isBlank c) → w ≠ [] →
    (∀ c ∈ w, ¬ isBlank c) → (∀ c ∈ rest.head?, isBlank c) → Runs rest ws → Runs (g ++ (w ++ rest)) (w :: ws)

/-! ### Cutting at white space -/

@[simp] theorem split_nil : split [] = [] := by simp [split, List.splitOnP_nil]

theorem split_append_cons {b : Char} (hb : isBlank b) (cs ds : List Char) :
    split (cs ++ b :: ds) = split cs ++ split ds := by
  unfold split
  rw [List.splitOnP_append_cons cs ds hb, List.filter_append]

theorem split_gap_append {g : List Char} (h : ∀ c ∈ g, isBlank c) (cs : List Char) :
    split (g ++ cs) = split cs := by
  induction g with
  | nil => rfl
  | cons b g ih =>
    have hcut := split_append_cons (h b (List.mem_cons_self ..)) [] (g ++ cs)
    rw [split_nil, List.nil_append, List.nil_append] at hcut
    rw [List.cons_append, hcut]
    exact ih fun c hc => h c (List.mem_cons_of_mem _ hc)

theorem split_word {w : List Char} (hne : w ≠ []) (hw : ∀ c ∈ w, ¬ isBlank c) : split w = [w] := by
  unfold split
  rw [List.splitOnP_eq_singleton fun c hc => by simpa using hw c hc]
  simp [hne]

theorem split_word_append {w rest : List Char} (hne : w ≠ []) (hw : ∀ c ∈ w, ¬ isBlank c)
    (hrest : ∀ c ∈ rest.head?, isBlank c) : split (w ++ rest) = w :: split rest := by
  cases rest with
  | nil => rw [List.append_nil, split_word hne hw, split_nil]
  | cons b rest =>
    have hb : isBlank b := hrest b rfl
    have hgap : split (b :: rest) = split rest := split_gap_append (g := [b]) (by simpa using hb) rest
    rw [split_append_cons hb, split_word hne hw, hgap]
    rfl

/-! ### Runs -/

theorem Runs.eq_split {cs : List Char} {ws : List (List Char)} (h : Runs cs ws) : ws = split cs := by
  induction h with
  | @gap g hgap => rw [← List.append_nil g, split_gap_append hgap, split_nil]
  | word hgap hne hw hrest _ ih => rw [split_gap_append hgap, split_word_append hne hw hrest, ih]

/-- One more character in front makes a gap longer, makes a word longer or is a word. -/
private theorem Runs.exists_cons {cs : List Char} {ws : List (List Char)} (h : Runs cs ws) (c : Char) :
    ∃ ws', Runs (c :: cs) ws' := by
  by_cases hc : isBlank c
  · cases h with
    | gap hgap => exact ⟨_, .gap (g := c :: _) (by simpa [hc] using hgap)⟩
    | word hgap hne hw hrest hruns =>
      exact ⟨_, .word (g := c :: _) (by simpa [hc] using hgap) hne hw hrest hruns⟩
  · have hself : ∀ d ∈ [c], ¬ isBlank d := by simpa using hc
    cases h with
    | gap hgap =>
      exact ⟨[[c]], .word (g := []) (by simp) (by simp) hself (fun d hd => hgap d (List.mem_of_mem_head? hd))
        (.gap hgap)⟩
    | @word g w rest ws hgap hne hw hrest hruns =>
      cases g with
      | nil =>
        refine ⟨(c :: w) :: ws, .word (g := []) (w := c :: w) (by simp) (by simp) (fun d hd => ?_) hrest hruns⟩
        rcases List.mem_cons.1 hd with rfl | hd
        · exact hc
        · exact hw d hd
      | cons b g =>
        refine ⟨[c] :: w :: ws, .word (g := []) (by simp) (by simp) hself ?_ (.word hgap hne hw hrest hruns)⟩
        simpa using hgap b (List.mem_cons_self ..)

/-- Every text has runs. -/
theorem exists_runs (cs : List Char) : ∃ ws, Runs cs ws := by
  induction cs with
  | nil => exact ⟨[], .gap (by simp)⟩
  | cons c cs ih =>
    obtain ⟨ws, hws⟩ := ih
    exact hws.exists_cons c

/-- Splitting finds the runs of a text. -/
theorem runs_iff {cs : List Char} {ws : List (List Char)} : Runs cs ws ↔ ws = split cs := by
  refine ⟨Runs.eq_split, ?_⟩
  rintro rfl
  obtain ⟨ws, hws⟩ := exists_runs cs
  exact hws.eq_split ▸ hws

/-! ### Words of bytes -/

/-- White space of one byte separates words, whatever bytes stand on both of its sides. -/
theorem ofBytes_append_cons {b : UInt8} (hb : b < 0x80) (hblank : isBlank (Char.ofNat b.toNat))
    (bs cs : List UInt8) : ofBytes (bs ++ b :: cs) = ofBytes bs ++ ofBytes cs := by
  unfold ofBytes
  rw [Utf8.decode_append_cons hb, split_append_cons hblank, List.map_append]

@[simp] theorem ofBytes_nil : ofBytes [] = [] := by
  unfold ofBytes
  rw [show Utf8.decode [] = [] from rfl, split_nil, List.map_nil]

end Words

end ReversePolish
