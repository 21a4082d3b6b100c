import Mathlib
import ReversePolish.Numeral

/-!
# The grammar of numerals

`Written` says which texts are numerals and what they say; `parse?` accepts exactly these (`parse?_eq_some_iff`).
What literals need to know of numerals follows from the letters that may occur in them: `+i` stands only at the
beginning of a numeral (`Written.plus_i`), and a numeral with an `i` in front is none (`Written.not_cons_i`).  All of
these letters are of ASCII (`Written.ascii`).
-/

namespace ReversePolish

/-- A text of characters below 128. -/
def Ascii (cs : List Char) : Prop := ∀ c ∈ cs, c.toNat < 0x80

theorem Ascii.append {cs ds : List Char} (hcs : Ascii cs) (hds : Ascii ds) : Ascii (cs ++ ds) := fun c hc => by
  rcases List.mem_append.1 hc with hc | hc
  · exact hcs c hc
  · exact hds c hc

theorem Ascii.cons {c : Char} {cs : List Char} (hc : c.toNat < 0x80) (hcs : Ascii cs) : Ascii (c :: cs) := by
  intro d hd
  rcases List.mem_cons.1 hd with rfl | hd
  · exact hc
  · exact hcs d hd

namespace Numeral

/-- A text that may stand for a sign, and whether the sign is negative. -/
inductive SignText : List Char → Bool → Prop where
  | none : SignText [] false
  | plus : SignText ['+'] false
  | minus : SignText ['-'] true

def Digits (ds : List Char) : Prop := ∀ c ∈ ds, c.isDigit

/-- The text of an exponent, which may be missing. -/
inductive ExponentText : List Char → Int → Prop where
  | none : ExponentText [] 0
  | some {mark : Char} {s ds : List Char} {negative : Bool} : mark = 'e' ∨ mark = 'E' → SignText s negative →
    Digits ds → ds ≠ [] →
    ExponentText (mark :: (s ++ ds)) (if negative then -(Decimal.ofDigits ds : Int) else Decimal.ofDigits ds)

/-- The text of a decimal number without its sign, its digits as one whole number, and the exponent of ten that
goes with them. -/
inductive UnsignedText : List Char → Nat → Int → Prop where
  | whole {ds rest : List Char} {e : Int} : Digits ds → ds ≠ [] → ExponentText rest e →
    UnsignedText (ds ++ rest) (Decimal.ofDigits ds) e
  | point {ds places rest : List Char} {e : Int} : Digits ds → Digits places → ds ++ places ≠ [] →
    ExponentText rest e →
    UnsignedText (ds ++ '.' :: (places ++ rest)) (Decimal.ofDigits (ds ++ places)) (e - places.length)

/-- The text of a number. -/
inductive Written : List Char → Numeral → Prop where
  | nan {s word : List Char} {negative : Bool} : SignText s negative →
    word.map Char.toLower = ['n', 'a', 'n'] → Written (s ++ word) nan
  | infinity {s word : List Char} {negative : Bool} : SignText s negative →
    word.map Char.toLower = ['i', 'n', 'f'] ∨ word.map Char.toLower = ['i', 'n', 'f', 'i', 'n', 'i', 't', 'y'] →
    Written (s ++ word) (infinity negative)
  | decimal {s body : List Char} {negative : Bool} {n : Nat} {e : Int} : SignText s negative →
    UnsignedText body n e → Written (s ++ body) (decimal negative n e)

/-! ### Reading is sound -/

theorem signText_sign (cs : List Char) : ∃ s, SignText s (sign cs).1 ∧ cs = s ++ (sign cs).2 := by
  unfold sign
  split
  · exact ⟨['+'], .plus, rfl⟩
  · exact ⟨['-'], .minus, rfl⟩
  · exact ⟨[], .none, rfl⟩

theorem natural?_eq_some_iff {ds : List Char} {n : Nat} :
    natural? ds = some n ↔ Digits ds ∧ ds ≠ [] ∧ n = Decimal.ofDigits ds := by
  unfold natural? Digits
  simp only [List.all_eq_true, Option.ite_none_right_eq_some, Option.some.injEq]
  constructor
  · rintro ⟨⟨h, h'⟩, rfl⟩; exact ⟨h', h, rfl⟩
  · rintro ⟨h, h', rfl⟩; exact ⟨⟨h', h⟩, rfl⟩

theorem exponentText_of_exponent? {cs : List Char} {e : Int} (h : exponent? cs = some e) : ExponentText cs e := by
  cases cs with
  | nil =>
    cases h
    exact .none
  | cons mark tail =>
    rw [exponent?] at h
    by_cases hmark : mark = 'e' ∨ mark = 'E'
    · rw [if_pos hmark] at h
      obtain ⟨n, hn, rfl⟩ := Option.map_eq_some_iff.1 h
      obtain ⟨m, hm, hmn⟩ := Option.bind_eq_some_iff.1 hn
      obtain ⟨hds, hne, rfl⟩ := natural?_eq_some_iff.1 hm
      obtain ⟨s, hs, htail⟩ := signText_sign tail
      have := ExponentText.some hmark hs hds hne
      cases hmn
      rwa [← htail] at this
    · rw [if_neg hmark] at h
      cases h

private theorem digits_takeWhile (cs : List Char) : Digits (cs.takeWhile Char.isDigit) :=
  fun _ hc => List.mem_takeWhile_imp hc

theorem fraction_cases (cs : List Char) :
    (∃ tail, cs = '.' :: tail ∧ fraction cs = (tail.takeWhile Char.isDigit, tail.dropWhile Char.isDigit)) ∨
      fraction cs = ([], cs) := by
  unfold fraction
  split
  · exact .inl ⟨_, rfl, rfl⟩
  · exact .inr rfl

theorem unsignedText_of_unsigned? {cs : List Char} {n : Nat} {e : Int} (h : unsigned? cs = some (n, e)) :
    UnsignedText cs n e := by
  have hcs := List.takeWhile_append_dropWhile (p := Char.isDigit) (l := cs)
  have hds := digits_takeWhile cs
  rw [← hcs]
  unfold unsigned? at h
  generalize cs.takeWhile Char.isDigit = ds at h hds
  generalize cs.dropWhile Char.isDigit = rest at h
  obtain ⟨tail, rfl, hfraction⟩ | hfraction := fraction_cases rest
  · have htail := List.takeWhile_append_dropWhile (p := Char.isDigit) (l := tail)
    simp only [hfraction, Option.ite_none_left_eq_some, Option.map_eq_some_iff, Prod.mk.injEq] at h
    obtain ⟨hne, e', he, rfl, rfl⟩ := h
    have := UnsignedText.point hds (digits_takeWhile tail) (by simpa using hne) (exponentText_of_exponent? he)
    rwa [htail] at this
  · simp only [hfraction, Option.ite_none_left_eq_some, Option.map_eq_some_iff, Prod.mk.injEq] at h
    obtain ⟨hne, e', he, rfl, rfl⟩ := h
    have := UnsignedText.whole hds (by simpa using hne) (exponentText_of_exponent? he)
    simpa using this

private theorem parse?_eq (cs : List Char) : parse? cs = (special? (sign cs).1 ((sign cs).2.map Char.toLower)).or
    ((unsigned? (sign cs).2).map fun (n, e) => decimal (sign cs).1 n e) := by
  simp only [parse?, Option.orElse_eq_orElse, Option.orElse_eq_or]

theorem written_of_parse? {cs : List Char} {n : Numeral} (h : parse? cs = some n) : Written cs n := by
  obtain ⟨s, hs, hcs⟩ := signText_sign cs
  rw [hcs]
  rw [parse?_eq] at h
  obtain h | ⟨-, h⟩ := Option.or_eq_some_iff.1 h
  · unfold special? at h
    split at h
    · rename_i hword
      cases h
      exact .nan hs hword
    · split at h
      · rename_i hword
        cases h
        exact .infinity hs hword
      · cases h
  · obtain ⟨⟨digits, e⟩, hbody, rfl⟩ := Option.map_eq_some_iff.1 h
    exact .decimal hs (unsignedText_of_unsigned? hbody)

/-! ### Reading is complete -/

/-- A sign is read off before anything that begins with neither sign. -/
theorem sign_append {s body : List Char} {negative : Bool} (hs : SignText s negative)
    (hbody : ∀ tail, body ≠ '+' :: tail ∧ body ≠ '-' :: tail) : sign (s ++ body) = (negative, body) := by
  cases hs with
  | plus => rfl
  | minus => rfl
  | none =>
    rw [List.nil_append]
    unfold sign
    split
    · exact absurd rfl (hbody _).1
    · exact absurd rfl (hbody _).2
    · rfl

theorem exponent?_of_exponentText {cs : List Char} {e : Int} (h : ExponentText cs e) : exponent? cs = some e := by
  cases h with
  | none => rfl
  | @some mark s ds negative hmark hs hds hne =>
    have hsign : sign (s ++ ds) = (negative, ds) := by
      refine sign_append hs fun tail => ⟨?_, ?_⟩
      · rintro rfl
        exact absurd (hds '+' (by simp)) (by decide)
      · rintro rfl
        exact absurd (hds '-' (by simp)) (by decide)
    have hn := natural?_eq_some_iff.2 ⟨hds, hne, rfl⟩
    rw [exponent?, if_pos hmark, hsign]
    simp [hn]

theorem takeWhile_append_exponentText {ds rest : List Char} {e : Int} (hds : Digits ds) (hrest : ExponentText rest e) :
    (ds ++ rest).takeWhile Char.isDigit = ds ∧ (ds ++ rest).dropWhile Char.isDigit = rest := by
  have hrest' : rest.takeWhile Char.isDigit = [] ∧ rest.dropWhile Char.isDigit = rest := by
    cases hrest with
    | none => exact ⟨rfl, rfl⟩
    | some hmark =>
      obtain rfl | rfl := hmark
      · exact ⟨rfl, rfl⟩
      · exact ⟨rfl, rfl⟩
  rw [List.takeWhile_append_of_pos hds, List.dropWhile_append_of_pos hds, hrest'.1, hrest'.2]
  simp

theorem unsigned?_of_unsignedText {cs : List Char} {n : Nat} {e : Int} (h : UnsignedText cs n e) :
    unsigned? cs = some (n, e) := by
  cases h with
  | @whole ds rest e hds hne hrest =>
    obtain ⟨htake, hdrop⟩ := takeWhile_append_exponentText hds hrest
    have hfraction : fraction rest = ([], rest) := by
      cases hrest with
      | none => rfl
      | some hmark => obtain rfl | rfl := hmark <;> rfl
    simp [unsigned?, htake, hdrop, hfraction, hne, exponent?_of_exponentText hrest]
  | @point ds places rest e hds hplaces hne hrest =>
    obtain ⟨htake, hdrop⟩ := takeWhile_append_exponentText hplaces hrest
    have htake' : (ds ++ '.' :: (places ++ rest)).takeWhile Char.isDigit = ds := by
      rw [List.takeWhile_append_of_pos hds]
      simp [show '.'.isDigit = false by decide]
    have hdrop' : (ds ++ '.' :: (places ++ rest)).dropWhile Char.isDigit = '.' :: (places ++ rest) := by
      rw [List.dropWhile_append_of_pos hds]
      simp [show '.'.isDigit = false by decide]
    have hne' : ¬ (ds = [] ∧ places = []) := by simpa using hne
    simp only [unsigned?, htake', hdrop', fraction, htake, hdrop, if_neg hne', exponent?_of_exponentText hrest,
      Option.map_some]

theorem UnsignedText.exists_head {cs : List Char} {n : Nat} {e : Int} (h : UnsignedText cs n e) :
    ∃ c tail, cs = c :: tail ∧ (c.isDigit ∨ c = '.') := by
  cases h with
  | @whole ds rest e hds hne hrest =>
    obtain ⟨d, ds, rfl⟩ := List.exists_cons_of_ne_nil hne
    exact ⟨d, ds ++ rest, rfl, .inl (hds d (by simp))⟩
  | @point ds places rest e hds hplaces hne hrest =>
    cases ds with
    | nil => exact ⟨'.', places ++ rest, rfl, .inr rfl⟩
    | cons d ds => exact ⟨d, ds ++ '.' :: (places ++ rest), rfl, .inl (hds d (by simp))⟩

private theorem toLower_of_isDigit {c : Char} (h : c.isDigit ∨ c = '.') : c.toLower = c := by
  obtain h | rfl := h
  · have h : c.val ≤ '9'.val := by simpa using (Bool.and_eq_true_iff.1 h).2
    refine dif_neg fun hupper => ?_
    have : 'A'.val ≤ '9'.val := UInt32.le_trans hupper.1 h
    exact absurd this (by decide)
  · rfl

private theorem sign_append_word {s word w : List Char} {c : Char} {negative : Bool} (hs : SignText s negative)
    (hword : word.map Char.toLower = c :: w) (hc : c ≠ '+' ∧ c ≠ '-') : sign (s ++ word) = (negative, word) := by
  refine sign_append hs fun tail => ⟨?_, ?_⟩
  · rintro rfl
    exact hc.1 (List.cons.inj hword).1.symm
  · rintro rfl
    exact hc.2 (List.cons.inj hword).1.symm

theorem parse?_of_written {cs : List Char} {n : Numeral} (h : Written cs n) : parse? cs = some n := by
  cases h with
  | nan hs hword =>
    rw [parse?_eq, sign_append_word hs hword (by decide), hword]
    rfl
  | @infinity s word negative hs hword =>
    have hsign : sign (s ++ word) = (negative, word) := by
      obtain hword | hword := hword
      · exact sign_append_word hs hword (by decide)
      · exact sign_append_word hs hword (by decide)
    rw [parse?_eq, hsign]
    obtain hword | hword := hword
    · rw [hword]; rfl
    · rw [hword]; rfl
  | @decimal s body negative n e hs hbody =>
    obtain ⟨c, tail, rfl, hc⟩ := hbody.exists_head
    have hsign : sign (s ++ c :: tail) = (negative, c :: tail) := by
      refine sign_append hs fun tail' => ⟨?_, ?_⟩
      · rintro ⟨⟩
        exact absurd hc (by decide)
      · rintro ⟨⟩
        exact absurd hc (by decide)
    have hspecial : special? negative ((c :: tail).map Char.toLower) = none := by
      rw [List.map_cons, toLower_of_isDigit hc]
      have hn : c ≠ 'n' := by rintro rfl; exact absurd hc (by decide)
      have hi : c ≠ 'i' := by rintro rfl; exact absurd hc (by decide)
      simp [special?, hn, hi]
    rw [parse?_eq, hsign, hspecial, Option.none_or, unsigned?_of_unsignedText hbody]
    rfl

theorem parse?_eq_some_iff {cs : List Char} {n : Numeral} : parse? cs = some n ↔ Written cs n :=
  ⟨written_of_parse?, parse?_of_written⟩

/-! ### The letter `i` -/

theorem ExponentText.not_mem_i {cs : List Char} {e : Int} (h : ExponentText cs e) : 'i' ∉ cs := by
  cases h with
  | none => simp
  | @some mark s ds negative hmark hs hds hne =>
    have hs' : 'i' ∉ s := by cases hs <;> simp
    have hds' : 'i' ∉ ds := fun hi => absurd (hds 'i' hi) (by decide)
    obtain rfl | rfl := hmark
    · simp [hs', hds']
    · simp [hs', hds']

theorem UnsignedText.not_mem_i {cs : List Char} {n : Nat} {e : Int} (h : UnsignedText cs n e) : 'i' ∉ cs := by
  have hdigits {ds : List Char} (hds : Digits ds) : 'i' ∉ ds := fun hi => absurd (hds 'i' hi) (by decide)
  cases h with
  | whole hds _ hrest => simp [hdigits hds, hrest.not_mem_i]
  | point hds hplaces _ hrest => simp [hdigits hds, hdigits hplaces, hrest.not_mem_i]

private theorem not_mem_i_of_decimal {s body : List Char} {negative : Bool} {n : Nat} {e : Int}
    (hs : SignText s negative) (hbody : UnsignedText body n e) : 'i' ∉ s ++ body := by
  have hs' : 'i' ∉ s := by cases hs <;> simp
  simp [hs', hbody.not_mem_i]

theorem Written.not_mem_i {cs : List Char} {negative : Bool} {n : Nat} {e : Int}
    (h : Written cs (.decimal negative n e)) : 'i' ∉ cs := by
  cases h with
  | decimal hs hbody => exact not_mem_i_of_decimal hs hbody

private theorem eq_nil_of_plus {a s w body : List Char} {negative : Bool} (hs : SignText s negative)
    (hbody : '+' ∉ body) (h : a ++ '+' :: w = s ++ body) : a = [] := by
  cases hs with
  | none =>
    have hw : a ++ '+' :: w = body := h
    exact absurd (hw ▸ by simp) hbody
  | plus =>
    cases a with
    | nil => rfl
    | cons c a =>
      have hw : a ++ '+' :: w = body := (List.cons.inj h).2
      exact absurd (hw ▸ by simp) hbody
  | minus =>
    cases a with
    | nil => cases h
    | cons c a =>
      have hw : a ++ '+' :: w = body := (List.cons.inj h).2
      exact absurd (hw ▸ by simp) hbody

private theorem plus_not_mem {word w : List Char} (h : word.map Char.toLower = w) (hw : '+' ∉ w) : '+' ∉ word := by
  intro hplus
  rw [← h] at hw
  exact hw (List.mem_map_of_mem (f := Char.toLower) hplus)

/-- In a numeral `+i` stands at the beginning, or not at all. -/
theorem Written.plus_i {a b : List Char} {n : Numeral} (h : Written (a ++ '+' :: 'i' :: b) n) : a = [] := by
  generalize hcs : a ++ '+' :: 'i' :: b = cs at h
  cases h with
  | nan hs hw => exact eq_nil_of_plus hs (plus_not_mem hw (by decide)) hcs
  | infinity hs hw =>
    obtain hw | hw := hw
    · exact eq_nil_of_plus hs (plus_not_mem hw (by decide)) hcs
    · exact eq_nil_of_plus hs (plus_not_mem hw (by decide)) hcs
  | decimal hs hbody => exact absurd (hcs ▸ by simp) (not_mem_i_of_decimal hs hbody)

private theorem map_toLower_of_letter {s word w : List Char} {c : Char} {negative : Bool} (hs : SignText s negative)
    (h : (s ++ word).map Char.toLower = c :: w) (hc : c ≠ '+' ∧ c ≠ '-') : word.map Char.toLower = c :: w := by
  cases hs with
  | none => exact h
  | plus => exact absurd (List.cons.inj h).1.symm hc.1
  | minus => exact absurd (List.cons.inj h).1.symm hc.2

/-- The end of `inf`, without its first letter, is no numeral. -/
theorem Written.not_nf {cs w : List Char} {n : Numeral} (h : Written cs n) :
    cs.map Char.toLower ≠ 'n' :: 'f' :: w := by
  intro hcs
  cases h with
  | nan hs hw =>
    have := map_toLower_of_letter hs hcs (by decide)
    rw [hw] at this
    cases this
  | infinity hs hw =>
    have := map_toLower_of_letter hs hcs (by decide)
    obtain hw | hw := hw
    · rw [hw] at this; cases this
    · rw [hw] at this; cases this
  | decimal hs hbody =>
    obtain ⟨c, tail, rfl, hc⟩ := hbody.exists_head
    have := map_toLower_of_letter hs hcs (by decide)
    rw [List.map_cons, toLower_of_isDigit hc] at this
    obtain ⟨rfl, -⟩ := List.cons.inj this
    exact absurd hc (by decide)

/-- The numerals that begin with `+i` are those of positive infinity. -/
theorem written_plus_i_iff {w : List Char} {n : Numeral} : Written ('+' :: 'i' :: w) n ↔ n = infinity false ∧
    (w.map Char.toLower = ['n', 'f'] ∨ w.map Char.toLower = ['n', 'f', 'i', 'n', 'i', 't', 'y']) := by
  have hunsigned : unsigned? ('i' :: w) = none := by
    simp [unsigned?, fraction, show 'i'.isDigit = false by decide]
  rw [← parse?_eq_some_iff, parse?_eq]
  simp only [sign, special?, hunsigned, List.map_cons, show 'i'.toLower = 'i' by decide, List.cons.injEq, true_and]
  by_cases hw : w.map Char.toLower = ['n', 'f'] ∨ w.map Char.toLower = ['n', 'f', 'i', 'n', 'i', 't', 'y']
  · simp [hw, eq_comm]
  · simp [hw]

/-- A numeral with an `i` in front is no numeral. -/
theorem Written.not_cons_i {cs : List Char} {m n : Numeral} (h : Written cs m) : ¬ Written ('i' :: cs) n := by
  intro hi
  generalize hcs : 'i' :: cs = t at hi
  have hmap : t.map Char.toLower = 'i' :: cs.map Char.toLower := hcs ▸ rfl
  cases hi with
  | nan hs hw =>
    have := map_toLower_of_letter hs hmap (by decide)
    rw [hw] at this
    cases this
  | infinity hs hw =>
    have := map_toLower_of_letter hs hmap (by decide)
    obtain hw | hw := hw
    · rw [hw] at this; exact h.not_nf (List.cons.inj this).2.symm
    · rw [hw] at this; exact h.not_nf (List.cons.inj this).2.symm
  | decimal hs hbody => exact absurd (hcs ▸ by simp) (not_mem_i_of_decimal hs hbody)

/-! ### ASCII -/

theorem Digits.ascii {ds : List Char} (h : Digits ds) : Ascii ds := by
  intro c hc
  have hle : c.val ≤ '9'.val := by simpa using (Bool.and_eq_true_iff.1 (h c hc)).2
  have : c.toNat ≤ '9'.toNat := hle
  exact Nat.lt_of_le_of_lt this (by decide)

theorem SignText.ascii {s : List Char} {negative : Bool} (h : SignText s negative) : Ascii s := by
  cases h <;> simp [Ascii]

theorem ExponentText.ascii {cs : List Char} {e : Int} (h : ExponentText cs e) : Ascii cs := by
  cases h with
  | none => simp [Ascii]
  | some hmark hs hds _ =>
    refine .cons ?_ (hs.ascii.append hds.ascii)
    obtain rfl | rfl := hmark
    · decide
    · decide

theorem UnsignedText.ascii {cs : List Char} {n : Nat} {e : Int} (h : UnsignedText cs n e) : Ascii cs := by
  cases h with
  | whole hds _ hrest => exact hds.ascii.append hrest.ascii
  | point hds hplaces _ hrest => exact hds.ascii.append (.cons (by decide) (hplaces.ascii.append hrest.ascii))

/-- Only letters of ASCII have lower case letters of ASCII. -/
theorem ascii_of_toLower {word w : List Char} (h : word.map Char.toLower = w) (hw : Ascii w) : Ascii word := by
  intro c hc
  have hlower : c.toLower.toNat < 0x80 := hw _ (h ▸ List.mem_map_of_mem hc)
  by_cases hupper : c.val ≥ 'A'.val ∧ c.val ≤ 'Z'.val
  · have : c.toNat ≤ 'Z'.toNat := hupper.2
    exact Nat.lt_of_le_of_lt this (by decide)
  · rwa [show c.toLower = c from dif_neg hupper] at hlower

theorem Written.ascii {cs : List Char} {n : Numeral} (h : Written cs n) : Ascii cs := by
  cases h with
  | nan hs hw => exact hs.ascii.append (ascii_of_toLower hw (by simp [Ascii]))
  | infinity hs hw =>
    obtain hw | hw := hw
    · exact hs.ascii.append (ascii_of_toLower hw (by simp [Ascii]))
    · exact hs.ascii.append (ascii_of_toLower hw (by simp [Ascii]))
  | decimal hs hbody => exact hs.ascii.append hbody.ascii

end Numeral

end ReversePolish
