import Mathlib
import ReversePolish.Utf8

/-!
# What decoding with replacement means

`Decodes` says without a machine what the text of some bytes is: where the encoding of a character stands, that
character, and elsewhere one replacement for the longest piece that begins an encoding, or for a single byte.
`decode` computes it (`decodes_iff`).

The invariant of the machine is `Opens`: after a piece that leaves a character open, the encodings that begin with
this piece are those of the characters that fit the open one, and they go on with the bytes that it asks for.
-/

namespace ReversePolish

namespace Utf8

open String (utf8EncodeChar)

/-- Some encoding begins with the bytes. -/
def Begins (bs : List UInt8) : Prop := ∃ c : Char, bs <+: utf8EncodeChar c

/-- The bytes `part` are replaced as a whole when `rest` follows them. -/
structure Broken (part rest : List UInt8) : Prop where
  ne_nil : part ≠ []
  /-- No character stands here. -/
  no_char : ∀ c : Char, ¬ utf8EncodeChar c <+: part ++ rest
  /-- The piece is the longest one that begins an encoding; a byte that begins none is a piece of its own. -/
  longest : (Begins part ∧ ∀ b ∈ rest.head?, ¬ Begins (part ++ [b])) ∨ (¬ Begins part ∧ part.length = 1)

/-- The text of some bytes. -/
inductive Decodes : List UInt8 → List Char → Prop where
  | nil : Decodes [] []
  | char (c : Char) {bs : List UInt8} {cs : List Char} : Decodes bs cs → Decodes (utf8EncodeChar c ++ bs) (c :: cs)
  | broken {part bs : List UInt8} {cs : List Char} :
    Broken part bs → Decodes bs cs → Decodes (part ++ bs) (replacement :: cs)

theorem Begins.of_append {bs cs : List UInt8} (h : Begins (bs ++ cs)) : Begins bs := by
  obtain ⟨c, hc⟩ := h
  exact ⟨c, (List.prefix_append bs cs).trans hc⟩

/-! ### The bytes of a character -/

/-- The last `k` bytes of the encoding of the character numbered `v`. -/
def trail : Nat → Nat → List UInt8
  | 0, _ => []
  | k + 1, v => UInt8.ofNat (v / 64 ^ k % 64 + 0x80) :: trail k v

/-- The first byte of the encoding of the character numbered `v`. -/
def lead (v : Nat) : Nat :=
  if v < 0x80 then v else if v < 0x800 then v / 64 + 0xC0 else if v < 0x10000 then v / 4096 + 0xE0
  else v / 262144 + 0xF0

/-- How many bytes follow the first one. -/
def followers (v : Nat) : Nat :=
  if v < 0x80 then 0 else if v < 0x800 then 1 else if v < 0x10000 then 2 else 3

theorem length_trail (k v : Nat) : (trail k v).length = k := by
  induction k with
  | zero => rfl
  | succ k ih => simp [trail, ih]

theorem toNat_follower (v : Nat) : (UInt8.ofNat (v % 64 + 0x80)).toNat = v % 64 + 0x80 := by
  have : v % 64 < 64 := Nat.mod_lt _ (by omega)
  rw [UInt8.toNat_ofNat']
  exact Nat.mod_eq_of_lt (by omega)

private theorem isValidChar_iff (v : Nat) : v.isValidChar ↔ v < 0xD800 ∨ 0xDFFF < v ∧ v < 0x110000 := Iff.rfl

theorem lead_lt {v : Nat} (h : v.isValidChar) : lead v < 0xF8 := by
  rw [isValidChar_iff] at h
  unfold lead
  split_ifs <;> omega

theorem lead_eq_or {v : Nat} (h : v.isValidChar) :
    (v < 0x80 ∧ lead v = v ∧ followers v = 0) ∨
    (0x80 ≤ v ∧ v < 0x800 ∧ lead v = v / 64 + 0xC0 ∧ followers v = 1) ∨
    (0x800 ≤ v ∧ v < 0x10000 ∧ lead v = v / 4096 + 0xE0 ∧ followers v = 2) ∨
    (0x10000 ≤ v ∧ v < 0x110000 ∧ lead v = v / 262144 + 0xF0 ∧ followers v = 3) := by
  rw [isValidChar_iff] at h
  unfold lead followers
  split_ifs <;> omega

theorem encodeChar_eq (c : Char) :
    utf8EncodeChar c = UInt8.ofNat (lead c.toNat) :: trail (followers c.toNat) c.toNat := by
  have hc : c.val.toNat = c.toNat := rfl
  unfold utf8EncodeChar
  simp only [hc]
  rcases lead_eq_or c.valid with ⟨h, hl, hf⟩ | ⟨h, h', hl, hf⟩ | ⟨h, h', hl, hf⟩ | ⟨h, h', hl, hf⟩ <;>
    rw [hc] at * <;> rw [hl, hf]
  · rw [if_pos (by omega)]; rfl
  · rw [if_neg (by omega), if_pos (by omega), Nat.mod_eq_of_lt (by omega)]
    simp only [trail, pow_zero, Nat.div_one]
  · rw [if_neg (by omega), if_neg (by omega), if_pos (by omega), Nat.mod_eq_of_lt (by omega)]
    simp only [trail, pow_zero, pow_one, Nat.div_one]
  · rw [if_neg (by omega), if_neg (by omega), if_neg (by omega), Nat.mod_eq_of_lt (by omega)]
    simp only [trail, pow_zero, pow_one, Nat.div_one, Nat.reducePow]

/-! ### The open character -/

/-- The character numbered `v` is one that `p` may become. -/
def Pending.Fits (p : Pending) (v : Nat) : Prop :=
  v / 64 ^ (p.later + 1) = p.bits ∧
    p.low.toNat ≤ v / 64 ^ p.later % 64 + 0x80 ∧ v / 64 ^ p.later % 64 + 0x80 ≤ p.high.toNat

/-- The bytes `part` leave the character `p` open. -/
structure Opens (part : List UInt8) (p : Pending) : Prop where
  ne_nil : part ≠ []
  low : 0x80 ≤ p.low.toNat
  high : p.high.toNat ≤ 0xBF
  low_le_high : p.low.toNat ≤ p.high.toNat
  valid : ∀ v, p.Fits v → v.isValidChar
  fits : ∀ c : Char, part <+: utf8EncodeChar c → p.Fits c.toNat
  encode : ∀ c : Char, p.Fits c.toNat → utf8EncodeChar c = part ++ trail (p.later + 1) c.toNat

private theorem prefix_singleton_iff (b : UInt8) (c : Char) :
    [b] <+: utf8EncodeChar c ↔ lead c.toNat = b.toNat := by
  have : lead c.toNat < 0xF8 := lead_lt c.valid
  rw [encodeChar_eq, List.cons_prefix_cons]
  constructor
  · rintro ⟨rfl, -⟩
    rw [UInt8.toNat_ofNat']
    exact (Nat.mod_eq_of_lt (by omega)).symm
  · intro h
    exact ⟨by rw [h, UInt8.ofNat_toNat], List.nil_prefix⟩

private theorem opens_singleton {b : UInt8} {p : Pending} (low : 0x80 ≤ p.low.toNat) (high : p.high.toNat ≤ 0xBF)
    (low_le_high : p.low.toNat ≤ p.high.toNat)
    (hfits : ∀ v, p.Fits v → v.isValidChar ∧ lead v = b.toNat ∧ followers v = p.later + 1)
    (hlead : ∀ v, v.isValidChar → lead v = b.toNat → p.Fits v) : Opens [b] p where
  ne_nil := by simp
  low := low
  high := high
  low_le_high := low_le_high
  valid v h := (hfits v h).1
  fits c h := hlead _ c.valid ((prefix_singleton_iff b c).1 h)
  encode c h := by
    obtain ⟨-, h1, h2⟩ := hfits _ h
    rw [encodeChar_eq, h1, h2, UInt8.ofNat_toNat]
    rfl

private theorem opens_two {b : UInt8} {bits : Nat} (hb : b.toNat = 0xC0 + bits) (h : 2 ≤ bits) (h' : bits < 0x20) :
    Opens [b] ⟨bits, 0, 0x80, 0xBF⟩ := by
  refine opens_singleton (by simp) (by simp) (by simp) (fun v hv => ?_) fun v hv hl => ?_
  · simp only [Pending.Fits, zero_add, pow_one] at hv
    have valid : v.isValidChar := by rw [isValidChar_iff]; omega
    have := lead_eq_or valid
    exact ⟨valid, by omega, by dsimp only; omega⟩
  · have := lead_eq_or hv
    simp only [Pending.Fits, UInt8.reduceToNat, zero_add, pow_zero, pow_one, Nat.div_one]
    omega

private theorem opens_three {b low high : UInt8} {bits : Nat} (hb : b.toNat = 0xE0 + bits) (h : bits < 0x10)
    (hlow : bits = 0 ∧ low.toNat = 0xA0 ∨ bits ≠ 0 ∧ low.toNat = 0x80)
    (hhigh : bits = 0xD ∧ high.toNat = 0x9F ∨ bits ≠ 0xD ∧ high.toNat = 0xBF) : Opens [b] ⟨bits, 1, low, high⟩ := by
  refine opens_singleton (by dsimp only; omega) (by dsimp only; omega) (by dsimp only; omega) (fun v hv => ?_)
    fun v hv hl => ?_
  · simp only [Pending.Fits, Nat.reduceAdd, Nat.reducePow, pow_one] at hv
    -- the range of the second byte rules out overlong forms and surrogates
    have valid : v.isValidChar := by rw [isValidChar_iff]; omega
    have := lead_eq_or valid
    exact ⟨valid, by omega, by dsimp only; omega⟩
  · have := lead_eq_or hv
    rw [isValidChar_iff] at hv
    simp only [Pending.Fits, Nat.reduceAdd, Nat.reducePow, pow_one]
    omega

private theorem opens_four {b low high : UInt8} {bits : Nat} (hb : b.toNat = 0xF0 + bits) (h : bits < 5)
    (hlow : bits = 0 ∧ low.toNat = 0x90 ∨ bits ≠ 0 ∧ low.toNat = 0x80)
    (hhigh : bits = 4 ∧ high.toNat = 0x8F ∨ bits ≠ 4 ∧ high.toNat = 0xBF) : Opens [b] ⟨bits, 2, low, high⟩ := by
  refine opens_singleton (by dsimp only; omega) (by dsimp only; omega) (by dsimp only; omega) (fun v hv => ?_)
    fun v hv hl => ?_
  · simp only [Pending.Fits, Nat.reduceAdd, Nat.reducePow] at hv
    -- the range of the second byte rules out overlong forms and numbers that are too large
    have valid : v.isValidChar := by rw [isValidChar_iff]; omega
    have := lead_eq_or valid
    exact ⟨valid, by omega, by dsimp only; omega⟩
  · have := lead_eq_or hv
    rw [isValidChar_iff] at hv
    simp only [Pending.Fits, Nat.reduceAdd, Nat.reducePow]
    omega

private theorem not_begins_singleton {b : UInt8} (h : 0x80 ≤ b.toNat ∧ b.toNat < 0xC2 ∨ 0xF5 ≤ b.toNat) :
    ¬ Begins [b] := by
  rintro ⟨c, hc⟩
  have := lead_eq_or c.valid
  have : lead c.val.toNat = b.toNat := (prefix_singleton_iff b c).1 hc
  omega

/-- What a byte does where no character is open. -/
theorem start_cases (b : UInt8) :
    (b.toNat < 0x80 ∧ start b = ([Char.ofNat b.toNat], none)) ∨
    (¬ Begins [b] ∧ start b = ([replacement], none)) ∨
    (∃ p, Opens [b] p ∧ start b = ([], some p)) := by
  unfold start
  simp only [UInt8.lt_iff_toNat_lt, UInt8.ext_iff, UInt8.reduceToNat]
  by_cases h1 : b.toNat < 0x80
  · rw [if_pos h1]; exact .inl ⟨h1, rfl⟩
  rw [if_neg h1]
  by_cases h2 : b.toNat < 0xC2
  · rw [if_pos h2]; exact .inr (.inl ⟨not_begins_singleton (by omega), rfl⟩)
  rw [if_neg h2]
  by_cases h3 : b.toNat < 0xE0
  · rw [if_pos h3]; exact .inr (.inr ⟨_, opens_two (by omega) (by omega) (by omega), rfl⟩)
  rw [if_neg h3]
  by_cases h4 : b.toNat = 0xE0
  · rw [if_pos h4]; exact .inr (.inr ⟨_, opens_three h4 (by simp) (by simp) (by simp), rfl⟩)
  rw [if_neg h4]
  by_cases h5 : b.toNat = 0xED
  · rw [if_pos h5]; exact .inr (.inr ⟨_, opens_three h5 (by simp) (by simp) (by simp), rfl⟩)
  rw [if_neg h5]
  by_cases h6 : b.toNat < 0xF0
  · rw [if_pos h6]
    exact .inr (.inr ⟨_, opens_three (by omega) (by omega) (.inr ⟨by omega, rfl⟩) (.inr ⟨by omega, rfl⟩), rfl⟩)
  rw [if_neg h6]
  by_cases h7 : b.toNat = 0xF0
  · rw [if_pos h7]; exact .inr (.inr ⟨_, opens_four h7 (by simp) (by simp) (by simp), rfl⟩)
  rw [if_neg h7]
  by_cases h8 : b.toNat < 0xF4
  · rw [if_pos h8]
    exact .inr (.inr ⟨_, opens_four (by omega) (by omega) (.inr ⟨by omega, rfl⟩) (.inr ⟨by omega, rfl⟩), rfl⟩)
  rw [if_neg h8]
  by_cases h9 : b.toNat = 0xF4
  · rw [if_pos h9]; exact .inr (.inr ⟨_, opens_four h9 (by simp) (by simp) (by simp), rfl⟩)
  rw [if_neg h9]
  exact .inr (.inl ⟨not_begins_singleton (by omega), rfl⟩)

namespace Opens

variable {part : List UInt8} {p : Pending} {b : UInt8}

private theorem pow_split (v k : Nat) : v / 64 ^ k = v / 64 ^ (k + 1) * 64 + v / 64 ^ k % 64 := by
  rw [pow_succ, ← Nat.div_div_eq_div_mul]
  omega

private theorem append_prefix_iff (h : Opens part p) (c : Char) :
    part ++ [b] <+: utf8EncodeChar c ↔
      p.Fits c.toNat ∧ b.toNat = c.toNat / 64 ^ p.later % 64 + 0x80 := by
  constructor
  · intro hc
    have hfit := h.fits c ((List.prefix_append _ _).trans hc)
    refine ⟨hfit, ?_⟩
    rw [h.encode c hfit, List.prefix_append_right_inj, trail, List.cons_prefix_cons] at hc
    rw [hc.1, toNat_follower]
  · rintro ⟨hfit, hb⟩
    rw [h.encode c hfit, List.prefix_append_right_inj, trail, List.cons_prefix_cons, ← hb, UInt8.ofNat_toNat]
    exact ⟨rfl, List.nil_prefix⟩

private theorem fits_number (h : Opens part p) (hl : p.low ≤ b) (hh : b ≤ p.high) {n : Nat} (hn : n < 64 ^ p.later) :
    p.Fits ((p.bits * 64 + (b.toNat - 0x80)) * 64 ^ p.later + n) := by
  have h1 := h.low
  have h2 := h.high
  rw [UInt8.le_iff_toNat_le] at hl hh
  have hpos : 0 < 64 ^ p.later := by positivity
  have hd : ((p.bits * 64 + (b.toNat - 0x80)) * 64 ^ p.later + n) / 64 ^ p.later = p.bits * 64 + (b.toNat - 0x80) := by
    rw [Nat.mul_comm, Nat.mul_add_div hpos, Nat.div_eq_of_lt hn, Nat.add_zero]
  unfold Pending.Fits
  rw [pow_succ, ← Nat.div_div_eq_div_mul, hd]
  omega

theorem begins (h : Opens part p) : Begins part := by
  have hfit := h.fits_number (b := p.low) (UInt8.le_refl _) (UInt8.le_iff_toNat_le.2 h.low_le_high)
    (n := 0) (by positivity)
  generalize (p.bits * 64 + (p.low.toNat - 0x80)) * 64 ^ p.later + 0 = v at hfit
  have hv := h.valid v hfit
  refine ⟨Char.ofNat v, ?_⟩
  rw [h.encode]
  · exact List.prefix_append _ _
  · rwa [Char.toNat_ofNat, if_pos hv]

/-- A byte outside the range ends the piece. -/
theorem not_begins_append (h : Opens part p) (hb : ¬ (p.low ≤ b ∧ b ≤ p.high)) : ¬ Begins (part ++ [b]) := by
  rintro ⟨c, hc⟩
  obtain ⟨⟨-, h1, h2⟩, h3⟩ := h.append_prefix_iff c |>.1 hc
  rw [UInt8.le_iff_toNat_le, UInt8.le_iff_toNat_le] at hb
  omega

private theorem fits_next_iff {bits later : Nat} {low high : UInt8} (hlow : 0x80 ≤ low.toNat)
    (hhigh : high.toNat ≤ 0xBF) (hl : low ≤ b) (hh : b ≤ high) (v : Nat) :
    Pending.Fits ⟨bits * 64 + (b.toNat - 0x80), later, 0x80, 0xBF⟩ v ↔
      Pending.Fits ⟨bits, later + 1, low, high⟩ v ∧ b.toNat = v / 64 ^ (later + 1) % 64 + 0x80 := by
  have h1 := pow_split v (later + 1)
  have h2 : v / 64 ^ later % 64 < 64 := Nat.mod_lt _ (by omega)
  rw [UInt8.le_iff_toNat_le] at hl hh
  simp only [Pending.Fits, UInt8.reduceToNat]
  omega

/-- A byte in the range that is not the last one keeps the character open. -/
theorem next_byte {bits later : Nat} {low high : UInt8} (h : Opens part ⟨bits, later + 1, low, high⟩)
    (hl : low ≤ b) (hh : b ≤ high) :
    Opens (part ++ [b]) ⟨bits * 64 + (b.toNat - 0x80), later, 0x80, 0xBF⟩ where
  ne_nil := by simp
  low := by simp
  high := by simp
  low_le_high := by simp
  valid v hv := h.valid v ((fits_next_iff h.low h.high hl hh v).1 hv).1
  fits c hc := (fits_next_iff h.low h.high hl hh _).2 ((h.append_prefix_iff c).1 hc)
  encode c hc := by
    obtain ⟨hfit, hb⟩ := (fits_next_iff h.low h.high hl hh _).1 hc
    rw [h.encode c hfit, trail, ← hb, UInt8.ofNat_toNat, List.append_assoc]
    rfl

/-- The last byte completes the character. -/
theorem encode_last {bits : Nat} {low high : UInt8} (h : Opens part ⟨bits, 0, low, high⟩)
    (hl : low ≤ b) (hh : b ≤ high) :
    utf8EncodeChar (Char.ofNat (bits * 64 + (b.toNat - 0x80))) = part ++ [b] := by
  have hfit := h.fits_number hl hh (n := 0) (by simp)
  simp only [pow_zero, Nat.mul_one, Nat.add_zero] at hfit
  have hn : (Char.ofNat (bits * 64 + (b.toNat - 0x80))).toNat = bits * 64 + (b.toNat - 0x80) := by
    rw [Char.toNat_ofNat, if_pos (h.valid _ hfit)]
  have h1 := h.low
  have h2 := h.high
  rw [UInt8.le_iff_toNat_le] at hl hh
  have hb : (bits * 64 + (b.toNat - 0x80)) % 64 + 0x80 = b.toNat := by
    dsimp only at h1 h2
    omega
  rw [h.encode _ (by rwa [hn]), hn]
  simp only [trail, pow_zero, Nat.div_one, hb, UInt8.ofNat_toNat]

/-- Reading on to the end of an encoding yields its character. -/
theorem decodeFrom_trail (h : Opens part p) {c : Char} (hc : p.Fits c.toNat) (rest : List UInt8) :
    decodeFrom (some p) (trail (p.later + 1) c.toNat ++ rest) = c :: decode rest := by
  obtain ⟨bits, later, low, high⟩ := p
  induction later generalizing part bits low high with
  | zero =>
    have hb := toNat_follower c.toNat
    obtain ⟨h1, h2, h3⟩ := hc
    simp only [zero_add, pow_one, pow_zero, Nat.div_one] at h1 h2 h3
    have hr : low ≤ UInt8.ofNat (c.toNat % 64 + 0x80) ∧ UInt8.ofNat (c.toNat % 64 + 0x80) ≤ high := by
      rw [UInt8.le_iff_toNat_le, UInt8.le_iff_toNat_le, hb]
      exact ⟨h2, h3⟩
    have hn : bits * 64 + (c.toNat % 64 + 0x80 - 0x80) = c.toNat := by omega
    simp only [trail, pow_zero, Nat.div_one, List.cons_append, List.nil_append, decodeFrom, next, if_pos hr, hb, hn,
      Char.ofNat_toNat]
    rfl
  | succ later ih =>
    have hb := toNat_follower (c.toNat / 64 ^ (later + 1))
    have hr : low ≤ UInt8.ofNat (c.toNat / 64 ^ (later + 1) % 64 + 0x80) ∧
        UInt8.ofNat (c.toNat / 64 ^ (later + 1) % 64 + 0x80) ≤ high := by
      rw [UInt8.le_iff_toNat_le, UInt8.le_iff_toNat_le, hb]
      exact hc.2
    have hfit := (fits_next_iff h.low h.high hr.1 hr.2 _).2 ⟨hc, hb⟩
    rw [trail, List.cons_append, decodeFrom, next, if_pos hr, List.nil_append]
    exact ih _ _ _ (h.next_byte hr.1 hr.2) hfit

end Opens

/-! ### Decoding -/

theorem encodeChar_of_lt {b : UInt8} (h : b.toNat < 0x80) : utf8EncodeChar (Char.ofNat b.toNat) = [b] := by
  have hn : (Char.ofNat b.toNat).toNat = b.toNat := by
    rw [Char.toNat_ofNat, if_pos (by rw [isValidChar_iff]; omega)]
  rw [encodeChar_eq, hn, lead, followers, if_pos h, if_pos h, UInt8.ofNat_toNat]
  rfl

/-- Decoding undoes encoding, whatever follows. -/
theorem decode_encodeChar_append (c : Char) (rest : List UInt8) :
    decode (utf8EncodeChar c ++ rest) = c :: decode rest := by
  obtain ⟨b, bs, hc⟩ : ∃ b bs, utf8EncodeChar c = b :: bs := ⟨_, _, encodeChar_eq c⟩
  have hpre : [b] <+: utf8EncodeChar c := by rw [hc]; simp
  rcases start_cases b with ⟨hb, hs⟩ | ⟨hb, -⟩ | ⟨p, hp, hs⟩
  · have hlead := (prefix_singleton_iff b c).1 hpre
    have : c.toNat < 0x80 ∧ lead c.toNat = c.toNat := by
      rcases lead_eq_or c.valid with h | h | h | h <;> change _ ∧ _ at h <;>
        simp only [show c.val.toNat = c.toNat from rfl] at h <;> omega
    have hcb : c = Char.ofNat b.toNat := by rw [← hlead, this.2, Char.ofNat_toNat]
    subst hcb
    rw [encodeChar_of_lt hb]
    show (start b).1 ++ decodeFrom (start b).2 rest = _
    rw [hs]
    rfl
  · exact absurd ⟨c, hpre⟩ hb
  · have hfit := hp.fits c hpre
    rw [hp.encode c hfit]
    show (start b).1 ++ decodeFrom (start b).2 _ = _
    rw [hs]
    exact hp.decodeFrom_trail hfit rest

theorem decode_encode_append (cs : List Char) (rest : List UInt8) :
    decode (encode cs ++ rest) = cs ++ decode rest := by
  induction cs with
  | nil => rfl
  | cons c cs ih =>
    rw [encode, List.flatMap_cons, List.append_assoc, decode_encodeChar_append]
    exact congrArg _ ih

theorem decode_encode (cs : List Char) : decode (encode cs) = cs := by
  have := decode_encode_append cs []
  rwa [List.append_nil, show decode [] = [] from rfl, List.append_nil] at this

/-- No encoding begins another one. -/
theorem eq_of_prefix_encodeChar {c c' : Char} (h : utf8EncodeChar c <+: utf8EncodeChar c') : c = c' := by
  obtain ⟨rest, hr⟩ := h
  have h1 := decode_encodeChar_append c rest
  have h2 := decode_encodeChar_append c' []
  rw [hr, ← List.append_nil (utf8EncodeChar c'), h2] at h1
  exact (List.cons.inj h1).1.symm

private theorem Opens.broken {part rest : List UInt8} {p : Pending} (h : Opens part p)
    (hr : ∀ b ∈ rest.head?, ¬ (p.low ≤ b ∧ b ≤ p.high)) : Broken part rest where
  ne_nil := h.ne_nil
  no_char c hc := by
    rcases List.prefix_or_prefix_of_prefix hc (List.prefix_append part rest) with hpre | hpre
    · -- the piece itself would have to be a whole encoding
      obtain ⟨c', hc'⟩ := h.begins
      obtain rfl := eq_of_prefix_encodeChar (hpre.trans hc')
      have h1 := congrArg List.length (h.encode c (h.fits c hc'))
      have h2 := hpre.length_le
      rw [List.length_append, length_trail] at h1
      omega
    · -- the encoding would have to go on with the next byte
      have hlen := congrArg List.length (h.encode c (h.fits c hpre))
      rw [List.length_append, length_trail] at hlen
      obtain ⟨bs, hbs⟩ := hpre
      rw [← hbs, List.prefix_append_right_inj] at hc
      cases bs with
      | nil => simp [← hbs] at hlen
      | cons b bs =>
        obtain ⟨tail, rfl⟩ := hc
        refine h.not_begins_append (hr b rfl) ⟨c, bs, ?_⟩
        rw [← hbs, List.append_assoc]
        rfl
  longest := .inl ⟨h.begins, fun b hb => h.not_begins_append (hr b hb)⟩

private theorem Opens.decodes {part bs : List UInt8} {p : Pending} (h : Opens part p)
    (ih : ∀ cs : List UInt8, cs.length ≤ bs.length → Decodes cs (decode cs)) :
    Decodes (part ++ bs) (decodeFrom (some p) bs) := by
  induction bs generalizing part p with
  | nil => exact .broken (h.broken (by simp)) .nil
  | cons b bs ih' =>
    have shorter : ∀ cs : List UInt8, cs.length ≤ bs.length → Decodes cs (decode cs) :=
      fun cs hcs => ih cs (Nat.le_succ_of_le hcs)
    by_cases hb : p.low ≤ b ∧ b ≤ p.high
    · obtain ⟨bits, later, low, high⟩ := p
      rw [decodeFrom, next, if_pos hb]
      cases later with
      | zero =>
        rw [List.append_cons, ← h.encode_last hb.1 hb.2]
        exact .char _ (shorter bs (Nat.le_refl _))
      | succ later =>
        rw [List.append_cons]
        exact ih' (h.next_byte hb.1 hb.2) shorter
    · have hd : decodeFrom (some p) (b :: bs) = replacement :: decode (b :: bs) := by
        rw [decodeFrom, next, if_neg hb]
        rfl
      rw [hd]
      exact .broken (h.broken (by simpa using hb)) (ih _ (Nat.le_refl _))

theorem decodes_decode (bs : List UInt8) : Decodes bs (decode bs) := by
  induction hn : bs.length using Nat.strong_induction_on generalizing bs with
  | _ n ih =>
    cases bs with
    | nil => exact .nil
    | cons b bs =>
      have shorter : ∀ cs : List UInt8, cs.length ≤ bs.length → Decodes cs (decode cs) :=
        fun cs hcs => ih _ (by rw [← hn, List.length_cons]; omega) cs rfl
      show Decodes ([b] ++ bs) ((start b).1 ++ decodeFrom (start b).2 bs)
      rcases start_cases b with ⟨hb, hs⟩ | ⟨hb, hs⟩ | ⟨p, hp, hs⟩ <;> rw [hs]
      · rw [← encodeChar_of_lt hb]
        exact .char _ (shorter bs (Nat.le_refl _))
      · refine .broken ⟨by simp, fun c hc => ?_, .inr ⟨hb, rfl⟩⟩ (shorter bs (Nat.le_refl _))
        rw [encodeChar_eq, List.singleton_append, List.cons_prefix_cons] at hc
        exact hb ⟨c, by rw [encodeChar_eq, hc.1]; simp⟩
      · exact hp.decodes shorter

private theorem Broken.prefix_eq {part part' rest rest' : List UInt8} (h : Broken part rest)
    (h' : Broken part' rest') (heq : part ++ rest = part' ++ rest') (hpre : part <+: part') : part = part' := by
  obtain ⟨more, rfl⟩ := hpre
  cases more with
  | nil => simp
  | cons b more =>
    rw [List.append_assoc, List.append_right_inj] at heq
    have hbegins : ¬ Begins (part ++ b :: more) := by
      intro hb
      rcases h.longest with ⟨-, hl⟩ | ⟨hl, -⟩
      · rw [List.append_cons] at hb
        exact hl b (by simp [heq]) hb.of_append
      · exact hl hb.of_append
    -- so `part'` would be a piece of one byte, and `part` no piece at all
    rcases h'.longest with ⟨hl, -⟩ | ⟨-, hl⟩
    · exact absurd hl hbegins
    · have := List.length_pos_iff.2 h.ne_nil
      rw [List.length_append, List.length_cons] at hl
      omega

/-- Bytes have one text only. -/
theorem Decodes.unique {bs : List UInt8} {cs cs' : List Char} (h : Decodes bs cs) (h' : Decodes bs cs') :
    cs = cs' := by
  induction h generalizing cs' with
  | nil =>
    generalize hbs : ([] : List UInt8) = bs at h'
    cases h' with
    | nil => rfl
    | char c _ => rw [encodeChar_eq] at hbs; simp at hbs
    | broken hb _ => exact absurd (List.append_eq_nil_iff.1 hbs.symm).1 hb.ne_nil
  | @char c bs cs _ ih =>
    generalize hbs : utf8EncodeChar c ++ bs = bs' at h'
    cases h' with
    | nil => rw [encodeChar_eq] at hbs; simp at hbs
    | @char c' bs' cs' h' =>
      have hc : c = c' := by
        rcases List.prefix_or_prefix_of_prefix (List.prefix_append (utf8EncodeChar c) bs)
          (hbs ▸ List.prefix_append (utf8EncodeChar c') bs') with h | h
        · exact eq_of_prefix_encodeChar h
        · exact (eq_of_prefix_encodeChar h).symm
      subst hc
      rw [List.append_right_inj] at hbs
      subst hbs
      rw [ih h']
    | broken hb _ => exact absurd (hbs ▸ List.prefix_append (utf8EncodeChar c) bs) (hb.no_char c)
  | @broken part bs cs hb _ ih =>
    generalize hbs : part ++ bs = bs' at h'
    cases h' with
    | nil => exact absurd (List.append_eq_nil_iff.1 hbs).1 hb.ne_nil
    | char c _ => exact absurd (hbs ▸ List.prefix_append (utf8EncodeChar c) _) (hb.no_char c)
    | @broken part' bs' cs' hb' h' =>
      have hpart : part = part' := by
        rcases List.prefix_or_prefix_of_prefix (List.prefix_append part bs)
          (hbs ▸ List.prefix_append part' bs') with h | h
        · exact hb.prefix_eq hb' hbs h
        · exact (hb'.prefix_eq hb hbs.symm h).symm
      subst hpart
      rw [List.append_right_inj] at hbs
      subst hbs
      rw [ih h']

/-- Decoding computes the text of the bytes. -/
theorem decodes_iff {bs : List UInt8} {cs : List Char} : Decodes bs cs ↔ cs = decode bs :=
  ⟨fun h => h.unique (decodes_decode bs), fun h => h ▸ decodes_decode bs⟩

/-- What is not the encoding of a text leaves a replacement in it. -/
theorem Decodes.encode_eq_or {bs : List UInt8} {cs : List Char} (h : Decodes bs cs) :
    encode cs = bs ∨ replacement ∈ cs := by
  induction h with
  | nil => exact .inl rfl
  | char c _ ih =>
    obtain ih | ih := ih
    · exact .inl (by rw [encode, List.flatMap_cons, ← ih]; rfl)
    · exact .inr (List.mem_cons_of_mem c ih)
  | broken => exact .inr (List.mem_cons_self ..)

/-! ### Cutting a text at a character of one byte -/

private theorem low_next {open? : Option Pending} (h : ∀ p ∈ open?, 0x80 ≤ p.low) (b : UInt8) :
    ∀ p ∈ (next open? b).2, 0x80 ≤ p.low := by
  have hstart : ∀ p ∈ (start b).2, 0x80 ≤ p.low := by
    rcases start_cases b with ⟨-, hs⟩ | ⟨-, hs⟩ | ⟨q, hq, hs⟩ <;> rw [hs]
    · simp
    · simp
    · rintro p ⟨⟩
      exact UInt8.le_iff_toNat_le.2 hq.low
  cases open? with
  | none => exact hstart
  | some p =>
    obtain ⟨bits, later, low, high⟩ := p
    unfold next
    dsimp only
    split
    · cases later <;> simp
    · exact hstart

private theorem low_openAfter {open? : Option Pending} (h : ∀ p ∈ open?, 0x80 ≤ p.low) (bs : List UInt8) :
    ∀ p ∈ openAfter open? bs, 0x80 ≤ p.low := by
  induction bs generalizing open? with
  | nil => exact h
  | cons b bs ih => exact ih (low_next h b)

/-- A byte below 128 leaves no character open. -/
theorem openAfter_concat {b : UInt8} (hb : b < 0x80) (bs : List UInt8) : openAfter none (bs ++ [b]) = none := by
  rw [openAfter, List.foldl_append]
  exact next_of_lt hb _ (low_openAfter (by simp) bs)

private theorem decodeFrom_concat {b : UInt8} (hb : b < 0x80) {open? : Option Pending}
    (h : ∀ p ∈ open?, 0x80 ≤ p.low) (bs : List UInt8) :
    decodeFrom open? (bs ++ [b]) = decodeFrom open? bs ++ [Char.ofNat b.toNat] := by
  have hs : start b = ([Char.ofNat b.toNat], none) := by rw [start, if_pos hb]
  induction bs generalizing open? with
  | nil =>
    cases open? with
    | none => simp [decodeFrom, next, hs]
    | some p =>
      have hlow := h p rfl
      have hn : ¬ (p.low ≤ b ∧ b ≤ p.high) := fun hr => UInt8.not_le.2 hb (UInt8.le_trans hlow hr.1)
      simp [decodeFrom, next, hn, hs]
  | cons c bs ih => rw [List.cons_append, decodeFrom, ih (low_next h c), decodeFrom, List.append_assoc]

/-- A byte below 128 is a character of its own, whatever stands on both of its sides. -/
theorem decode_append_cons {b : UInt8} (hb : b < 0x80) (bs cs : List UInt8) :
    decode (bs ++ b :: cs) = decode bs ++ Char.ofNat b.toNat :: decode cs := by
  rw [List.append_cons, decode, decodeFrom_append none (openAfter_concat hb bs),
    decodeFrom_concat hb (by simp) bs, List.append_assoc]
  rfl

end Utf8

end ReversePolish
