import Mathlib
import ReversePolish.Proofs.Splitting
import ReversePolish.Reader

/-!
# What is read

`Reader.items` is computed line by line.  Here it is described from outside: the words that a reader hands out on a
stream without faults are the words of the whole input (`items_ofBytes_nil`), and faults cut the input into pieces
of which only the lines that are finished count, except for the last piece (`items_ofBytes`).
-/

namespace ReversePolish

open Signal (newline)

/-! ### Lines -/

/-- The lines of some bytes without their newlines; the last one is what follows the last newline. -/
def lines (bs : List UInt8) : List (List UInt8) := bs.splitOn newline

theorem lines_of_not_mem {line : List UInt8} (h : newline ∉ line) : lines line = [line] := by
  rw [lines, List.splitOn_eq_splitOnP, List.splitOnP_eq_singleton]
  intro b hb
  simpa using fun heq : b = newline => h (heq ▸ hb)

theorem lines_append_cons {line : List UInt8} (h : newline ∉ line) (bs : List UInt8) :
    lines (line ++ newline :: bs) = line :: lines bs := by
  rw [lines, List.splitOn_eq_splitOnP, List.splitOnP_append_cons line bs (by simp), ← List.splitOn_eq_splitOnP,
    ← List.splitOn_eq_splitOnP]
  exact congrArg (· ++ lines bs) (lines_of_not_mem h)

theorem lines_ne_nil (bs : List UInt8) : lines bs ≠ [] := by
  rw [lines, List.splitOn_eq_splitOnP]
  exact List.splitOnP_ne_nil _ bs

/-- Bytes are a last line, or a line that is finished and further bytes. -/
@[elab_as_elim]
theorem lines_induction {P : List UInt8 → Prop} (last : ∀ line, newline ∉ line → P line)
    (finished : ∀ line bs, newline ∉ line → P bs → P (line ++ newline :: bs)) (bs : List UInt8) : P bs := by
  induction hn : bs.length using Nat.strong_induction_on generalizing bs with
  | _ n ih =>
    by_cases h : newline ∈ bs
    · obtain ⟨line, rest, rfl, hline⟩ := List.eq_append_cons_of_mem h
      exact finished line rest hline (ih rest.length (by rw [← hn]; simp; omega) rest rfl)
    · exact last bs h

namespace Signal

theorem takeLine_finished {line : List UInt8} (h : newline ∉ line) (rest : List Signal) :
    takeLine (line.map byte ++ byte newline :: rest) = (some (line ++ [newline]), rest) := by
  induction line with
  | nil => simp [takeLine]
  | cons b line ih =>
    simp only [List.mem_cons, not_or] at h
    rw [List.map_cons, List.cons_append, takeLine, if_neg (Ne.symm h.1), ih h.2]
    rfl

theorem takeLine_last {line : List UInt8} (h : newline ∉ line) : takeLine (line.map byte) = (some line, []) := by
  induction line with
  | nil => rfl
  | cons b line ih =>
    simp only [List.mem_cons, not_or] at h
    rw [List.map_cons, takeLine, if_neg (Ne.symm h.1), ih h.2]
    rfl

theorem takeLine_fault {line : List UInt8} (h : newline ∉ line) (rest : List Signal) :
    takeLine (line.map byte ++ fault :: rest) = (none, rest) := by
  induction line with
  | nil => rfl
  | cons b line ih =>
    simp only [List.mem_cons, not_or] at h
    rw [List.map_cons, List.cons_append, takeLine, if_neg (Ne.symm h.1), ih h.2]
    rfl

end Signal

/-! ### Items -/

namespace Reader

theorem items_eq (r : Reader) :
    r.items = match r.next? with
      | none => []
      | some (item, r') => item :: r'.items := by
  rw [items]
  split <;> rename_i h <;> rw [h]

@[simp] theorem items_nil : (⟨[], []⟩ : Reader).items = [] := by rw [items_eq, next?]

/-- The words of the current line come first. -/
theorem items_pending (pending : List String) (input : List Signal) :
    (⟨pending, input⟩ : Reader).items = pending.map .word ++ (⟨[], input⟩ : Reader).items := by
  induction pending with
  | nil => rfl
  | cons w pending ih => rw [items_eq, next?]; exact congrArg (Item.word w :: ·) ih

theorem next?_of_line {x : Signal} {input rest : List Signal} {line : List UInt8}
    (h : Signal.takeLine (x :: input) = (some line, rest)) :
    (⟨[], x :: input⟩ : Reader).next? = (⟨Words.ofBytes line, rest⟩ : Reader).next? := by
  rw [next?]
  split
  · rename_i heq; rw [h] at heq; cases heq
  · rename_i heq; rw [h] at heq; cases heq; rfl

theorem next?_of_fault {x : Signal} {input rest : List Signal} (h : Signal.takeLine (x :: input) = (none, rest)) :
    (⟨[], x :: input⟩ : Reader).next? = some (.fault, ⟨[], rest⟩) := by
  rw [next?]
  split
  · rename_i heq; rw [h] at heq; cases heq; rfl
  · rename_i heq; rw [h] at heq; cases heq

theorem items_of_line {input rest : List Signal} {line : List UInt8} (h : Signal.takeLine input = (some line, rest)) :
    (⟨[], input⟩ : Reader).items = (Words.ofBytes line).map .word ++ (⟨[], rest⟩ : Reader).items := by
  rw [← items_pending]
  cases input with
  | nil =>
    cases h
    rw [Words.ofBytes_nil]
  | cons x input => rw [items_eq, next?_of_line h, ← items_eq]

theorem items_of_fault {input rest : List Signal} (h : Signal.takeLine input = (none, rest)) :
    (⟨[], input⟩ : Reader).items = .fault :: (⟨[], rest⟩ : Reader).items := by
  cases input with
  | nil => cases h
  | cons x input => rw [items_eq, next?_of_fault h]

/-- The words of some lines, as items. -/
def ofLines (ls : List (List UInt8)) : List Item := (ls.flatMap Words.ofBytes).map .word

theorem ofBytes_newline (line : List UInt8) : Words.ofBytes (line ++ [newline]) = Words.ofBytes line := by
  rw [Words.ofBytes_append_cons (by decide) (by decide), Words.ofBytes_nil, List.append_nil]

/-- Without a fault all lines count. -/
theorem items_bytes (bs : List UInt8) : (⟨[], bs.map .byte⟩ : Reader).items = ofLines (lines bs) := by
  induction bs using lines_induction with
  | last line h =>
    rw [items_of_line (Signal.takeLine_last h), items_nil, lines_of_not_mem h]
    simp [ofLines]
  | finished line bs h ih =>
    rw [List.map_append, List.map_cons, items_of_line (Signal.takeLine_finished h _), ih, ofBytes_newline,
      lines_append_cons h]
    simp [ofLines]

/-- A fault costs the line that is not finished when it occurs, which may be empty. -/
theorem items_bytes_fault (bs : List UInt8) (rest : List Signal) :
    (⟨[], bs.map .byte ++ .fault :: rest⟩ : Reader).items =
      ofLines (lines bs).dropLast ++ .fault :: (⟨[], rest⟩ : Reader).items := by
  induction bs using lines_induction with
  | last line h =>
    rw [items_of_fault (Signal.takeLine_fault h rest), lines_of_not_mem h]
    rfl
  | finished line bs h ih =>
    rw [List.map_append, List.map_cons, List.append_assoc, List.cons_append,
      items_of_line (Signal.takeLine_finished h _), ih, ofBytes_newline, lines_append_cons h,
      List.dropLast_cons_of_ne_nil (lines_ne_nil bs)]
    simp [ofLines]

/-! ### The whole input -/

theorem flatMap_lines (bs : List UInt8) : (lines bs).flatMap Words.ofBytes = Words.ofBytes bs := by
  induction bs using lines_induction with
  | last line h => simp [lines_of_not_mem h]
  | finished line bs h ih =>
    rw [lines_append_cons h, List.flatMap_cons, ih, Words.ofBytes_append_cons (by decide) (by decide)]

/-- A stream without faults is made of its bytes. -/
theorem stream_nil (position : Nat) (bs : List UInt8) : Signal.stream position [] bs = bs.map .byte := by
  induction bs generalizing position with
  | nil => rfl
  | cons b bs ih => exact congrArg (Signal.byte b :: ·) (ih (position + 1))

/-- Line by line or all at once, the same words are read. -/
theorem items_unbroken (bs : List UInt8) :
    (ofSignals (Signal.ofBytes bs [])).items = (Words.ofBytes bs).map .word := by
  rw [Signal.ofBytes, stream_nil, ofSignals, items_bytes, ofLines, flatMap_lines]

/-- Reading line by line hands out the words of the whole input: the runs of its text. -/
theorem items_ofBytes_nil (bs : List UInt8) :
    (ofSignals (Signal.ofBytes bs [])).items = (Words.ofBytes bs).map .word ∧
      Words.ofBytes bs = (Words.split (Utf8.decode bs)).map String.ofList ∧
      (∀ cs, Utf8.Decodes bs cs ↔ cs = Utf8.decode bs) ∧
      ∀ ws, Words.Runs (Utf8.decode bs) ws ↔ ws = Words.split (Utf8.decode bs) := by
  exact ⟨items_unbroken bs, rfl, fun cs => Utf8.decodes_iff, fun ws => Words.runs_iff⟩

/-! ### Faults -/

/-- The pieces of `data` from `start` on that end at the given cuts. -/
def pieces (data : List UInt8) (start : Nat) (cuts : List Nat) : List (List UInt8) :=
  List.zipWith (fun a b => data.extract a b) (start :: cuts) cuts

/-- What follows the last cut. -/
def lastPiece (data : List UInt8) (start : Nat) (cuts : List Nat) : List UInt8 := data.drop (cuts.getLastD start)

private theorem pieces_cons (data : List UInt8) (start cut : Nat) (cuts : List Nat) :
    pieces data start (cut :: cuts) = data.extract start cut :: pieces data cut cuts := rfl

private theorem lastPiece_cons (data : List UInt8) (start cut : Nat) (cuts : List Nat) :
    lastPiece data start (cut :: cuts) = lastPiece data cut cuts := by
  rw [lastPiece, lastPiece, List.getLastD_cons]

/-- A fault that the stream does not come to leaves it as it is. -/
theorem stream_of_lt {p f : Nat} {faults : List Nat} {bs : List UInt8} (h : p + bs.length < f) :
    Signal.stream p (f :: faults) bs = bs.map .byte := by
  induction bs generalizing p with
  | nil =>
    have : ¬ f ≤ p := by simp at h; omega
    simp [Signal.stream, this]
  | cons b bs ih =>
    rw [List.length_cons] at h
    have : ¬ f ≤ p := by omega
    simp [Signal.stream, this, ih (p := p + 1) (by omega)]

/-- A fault that the stream comes to lies behind the bytes up to it. -/
theorem stream_of_le {p f : Nat} {faults : List Nat} {bs : List UInt8} (h : p ≤ f)
    (h' : f ≤ p + bs.length) :
    Signal.stream p (f :: faults) bs =
      (bs.take (f - p)).map .byte ++ .fault :: Signal.stream f faults (bs.drop (f - p)) := by
  induction bs generalizing p with
  | nil =>
    obtain rfl : f = p := by simp at h'; omega
    simp [Signal.stream]
  | cons b bs ih =>
    rw [List.length_cons] at h'
    rcases Nat.eq_or_lt_of_le h with rfl | hlt
    · simp [Signal.stream]
    · obtain ⟨n, rfl⟩ : ∃ n, f = p + 1 + n := ⟨f - (p + 1), by omega⟩
      have hn : p + 1 + n - p = n + 1 := by omega
      have := ih (p := p + 1) (by omega) (by omega)
      rw [Nat.add_sub_cancel_left] at this
      simp [Signal.stream, hn, this, show ¬ p + 1 + n ≤ p by omega]

private theorem items_stream {data : List UInt8} {faults : List Nat} (h : faults.Pairwise (· ≤ ·)) {start : Nat}
    (hstart : start ≤ data.length) (hfaults : ∀ f ∈ faults, start ≤ f) :
    (⟨[], Signal.stream start faults (data.drop start)⟩ : Reader).items =
      (pieces data start (faults.filter (· ≤ data.length))).flatMap
          (fun piece => ofLines (lines piece).dropLast ++ [.fault]) ++
        ofLines (lines (lastPiece data start (faults.filter (· ≤ data.length)))) := by
  induction faults generalizing start with
  | nil =>
    rw [stream_nil, items_bytes]
    simp [pieces, lastPiece]
  | cons f faults ih =>
    obtain ⟨hf, hs⟩ := List.pairwise_cons.1 h
    have hlen : start + (data.drop start).length = data.length := by rw [List.length_drop]; omega
    have hle : start ≤ f := hfaults f (List.mem_cons_self ..)
    by_cases hcut : f ≤ data.length
    · have hdrop : (data.drop start).drop (f - start) = data.drop f := by rw [List.drop_drop]; congr 1; omega
      have hih := ih hs hcut hf
      rw [stream_of_le hle (by omega), items_bytes_fault, hdrop, hih,
        List.filter_cons_of_pos (by simpa using hcut), pieces_cons, lastPiece_cons, List.flatMap_cons]
      simp [List.extract]
    · have hnone : (f :: faults).filter (· ≤ data.length) = [] := by
        rw [List.filter_eq_nil_iff]
        intro g hg
        rcases List.mem_cons.1 hg with rfl | hg
        · simpa using hcut
        · have := hf g hg
          simp; omega
      rw [stream_of_lt (by omega), items_bytes, hnone]
      simp [pieces, lastPiece]

/-- Faults cut the input into pieces.  Of a piece that a fault ends, the finished lines count, and then comes the
fault; of the last piece all lines count. -/
theorem items_ofBytes (data : List UInt8) {faults : List Nat} (h : faults.Pairwise (· ≤ ·)) :
    (ofSignals (Signal.ofBytes data faults)).items =
      (pieces data 0 (faults.filter (· ≤ data.length))).flatMap
          (fun piece => ofLines (lines piece).dropLast ++ [.fault]) ++
        ofLines (lines (lastPiece data 0 (faults.filter (· ≤ data.length)))) :=
  items_stream h (Nat.zero_le _) (by simp)

/-- Faults at the beginning, behind a line, twice within a character, and at the end, where no newline stands. -/
theorem items_ofBytes_five_faults :
    [0, 2, 5, 5, 8, 11].Pairwise (· ≤ ·) ∧
      (ofSignals (Signal.ofBytes [0x31, 0x0A, 0x32, 0x20, 0xC3, 0xA9, 0x0A, 0x33] [0, 2, 5, 5, 8, 11])).items =
        [.fault, .word "1", .fault, .fault, .fault, .word "\uFFFD", .fault] :=
  ⟨by decide, (items_ofBytes _ (by decide)).trans (by decide)⟩

end Reader

end ReversePolish
