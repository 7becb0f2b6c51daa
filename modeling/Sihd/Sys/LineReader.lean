import Sihd.Lib.Cut

/-!
# The line reader

A `LineReader` reads a file by blocks of `readBuffSize` bytes and returns its
lines. What is in the read buffer after `_last_read_index` and what the file
still holds is the text that is not read yet: `readNext` takes the first line
of it, whatever the size of the blocks.
-/

namespace Sihd.Sys

structure LineReader where
  readBuffSize : Nat := 4096
  delimiter : UInt8 := 10
  putDelimiterInLine : Bool := false
  /-- What the file still holds. -/
  file : List UInt8
  /-- What the read buffer holds after `_last_read_index`. -/
  readBuff : List UInt8 := []
  readBuffSize_pos : 0 < readBuffSize := by decide

namespace LineReader

/-- The text that is not read yet. -/
def rest (r : LineReader) : List UInt8 := r.readBuff ++ r.file

/-- The loop of `read_next`; `line` is what the line buffer holds. -/
def readNextLoop (r : LineReader) (line : List UInt8) : Option (List UInt8) × LineReader :=
  match r.readBuff.idxOf? r.delimiter with
  | some i =>
      let copyLen := if r.putDelimiterInLine then i + 1 else i
      (some (line ++ r.readBuff.take copyLen), { r with readBuff := r.readBuff.drop (i + 1) })
  | none =>
      let line := line ++ r.readBuff
      if r.file = [] then
        -- a line that the file ends without a delimiter
        (if line = [] then none else some line, { r with readBuff := [] })
      else
        readNextLoop { r with
          file := r.file.drop r.readBuffSize
          readBuff := r.file.take r.readBuffSize } line
  termination_by r.file.length
  decreasing_by
    rename_i hfile
    have := List.length_pos_of_ne_nil hfile
    have := r.readBuffSize_pos
    simp only [List.length_drop]
    omega

def readNext (r : LineReader) : Option (List UInt8) × LineReader := r.readNextLoop []

theorem readNextLoop_length_lt {r : LineReader} {line view : List UInt8}
    (h : (r.readNextLoop line).1 = some view) :
    (r.readNextLoop line).2.rest.length < line.length + r.rest.length := by
  fun_induction readNextLoop r line with
  | case1 r line i hi copyLen =>
    have hlt : 0 < r.readBuff.length := by
      refine List.length_pos_of_ne_nil fun hnil => ?_
      rw [hnil] at hi
      cases hi
    simp only [rest, List.length_append, List.length_drop]
    omega
  | case2 r line hnone line' hfile =>
    have hpos : 0 < line'.length := by
      refine List.length_pos_of_ne_nil fun hnil => ?_
      rw [if_pos hnil] at h
      cases h
    simp only [line', List.length_append] at hpos
    simp only [rest, hfile, List.length_append, List.length_nil]
    omega
  | case3 r line hnone line' hfile ih =>
    have ih := ih h
    have htake : (r.file.take r.readBuffSize).length + (r.file.drop r.readBuffSize).length =
        r.file.length := by
      rw [← List.length_append, List.take_append_drop]
    simp only [line', rest, List.length_append] at ih ⊢
    omega

/-- A line that is read is taken from the text. -/
theorem readNext_length_lt {r : LineReader} {view : List UInt8} (h : r.readNext.1 = some view) :
    r.readNext.2.rest.length < r.rest.length := by
  have hlt := readNextLoop_length_lt h
  rwa [List.length_nil, Nat.zero_add] at hlt

/-- The lines of the text that is not read yet. -/
def lines (r : LineReader) : List (List UInt8) :=
  linesOf r.delimiter r.putDelimiterInLine r.rest

theorem readNextLoop_lines {r : LineReader} {line : List UInt8} (hline : r.delimiter ∉ line) :
    linesOf r.delimiter r.putDelimiterInLine (line ++ r.rest) =
        (r.readNextLoop line).1.toList ++ (r.readNextLoop line).2.lines ∧
      ((r.readNextLoop line).1 = none →
        linesOf r.delimiter r.putDelimiterInLine (line ++ r.rest) = []) := by
  fun_induction readNextLoop r line with
  | case1 r line i hi copyLen =>
    obtain ⟨hsplit, hbefore⟩ := eq_of_idxOf?_eq_some hi
    have htext : line ++ r.rest = (line ++ r.readBuff.take i) ++ r.delimiter ::
        (r.readBuff.drop (i + 1) ++ r.file) := by
      rw [rest]
      conv_lhs => rw [hsplit]
      simp
    have hnot : r.delimiter ∉ line ++ r.readBuff.take i := by simp [hline, hbefore]
    have hcopy : r.readBuff.take copyLen =
        r.readBuff.take i ++ if r.putDelimiterInLine then [r.delimiter] else [] := by
      simp only [copyLen]
      split
      · have hlt := (List.idxOf?_eq_some_iff.mp hi).1
        have hget := (List.idxOf?_eq_some_iff.mp hi).2.1
        rw [List.take_add_one, List.getElem?_eq_getElem hlt, hget]
        rfl
      · rw [List.append_nil]
    refine ⟨?_, fun h => by cases h⟩
    rw [htext, linesOf_append_cons hnot, hcopy, Option.toList_some, List.singleton_append,
      List.append_assoc]
    rfl
  | case2 r line hnone line' hfile =>
    have hbuff : r.delimiter ∉ r.readBuff := by simpa using hnone
    have hrest : line ++ r.rest = line' := by rw [rest, hfile, List.append_nil]
    have hnot : r.delimiter ∉ line' := by simp [line', hline, hbuff]
    have hlines : lines { r with readBuff := [] } = [] := by
      rw [lines, rest, hfile]
      rfl
    rw [hrest, linesOf_of_not_mem hnot, hlines, List.append_nil]
    split <;> simp
  | case3 r line hnone line' hfile ih =>
    have hbuff : r.delimiter ∉ r.readBuff := by simpa using hnone
    have hrest : line' ++ (r.file.take r.readBuffSize ++ r.file.drop r.readBuffSize) =
        line ++ r.rest := by
      rw [List.take_append_drop, rest, List.append_assoc]
    have ih := ih (by simp [line', hline, hbuff])
    rw [rest, hrest] at ih
    exact ih

/-- `read_next` takes the first line of the text. -/
theorem readNext_lines (r : LineReader) :
    r.lines = r.readNext.1.toList ++ r.readNext.2.lines ∧
      (r.readNext.1 = none → r.lines = []) :=
  readNextLoop_lines List.not_mem_nil

/-- The first line of a text, with its delimiter, and what is after it. -/
def splitLine (delimiter : UInt8) : List UInt8 → List UInt8 × List UInt8
  | [] => ([], [])
  | c :: text =>
      if c = delimiter then ([c], text)
      else (c :: (splitLine delimiter text).1, (splitLine delimiter text).2)

theorem splitLine_append (delimiter : UInt8) (text : List UInt8) :
    (splitLine delimiter text).1 ++ (splitLine delimiter text).2 = text := by
  induction text with
  | nil => rfl
  | cons c text ih =>
    rw [splitLine]
    split
    · rfl
    · rw [List.cons_append, ih]

theorem splitLine_ne_nil {delimiter : UInt8} {text : List UInt8} (h : text ≠ []) :
    (splitLine delimiter text).1 ≠ [] := by
  cases text with
  | nil => exact absurd rfl h
  | cons c text =>
    rw [splitLine]
    split <;> simp

theorem splitLine_of_idxOf? {delimiter : UInt8} {text : List UInt8} {i : Nat}
    (h : text.idxOf? delimiter = some i) (more : List UInt8) :
    splitLine delimiter (text ++ more) = (text.take (i + 1), text.drop (i + 1) ++ more) := by
  induction text generalizing i with
  | nil => simp at h
  | cons c text ih =>
    rw [List.idxOf?_cons] at h
    rw [List.cons_append, splitLine]
    by_cases hc : c = delimiter
    · rw [if_pos (by simp [hc])] at h
      cases h
      rw [if_pos hc]
      simp
    · rw [if_neg (by simp [hc])] at h
      obtain ⟨j, hj, rfl⟩ := Option.map_eq_some_iff.mp h
      rw [if_neg hc, ih hj, List.take_succ_cons, List.drop_succ_cons]

theorem splitLine_of_not_mem {delimiter : UInt8} {text : List UInt8} (h : delimiter ∉ text)
    (more : List UInt8) :
    splitLine delimiter (text ++ more) =
      (text ++ (splitLine delimiter more).1, (splitLine delimiter more).2) := by
  induction text with
  | nil => rfl
  | cons c text ih =>
    rw [List.mem_cons, not_or] at h
    rw [List.cons_append, splitLine, if_neg (Ne.symm h.1), ih h.2, List.cons_append]

theorem readNextLoop_spec {r : LineReader} {line : List UInt8}
    (hput : r.putDelimiterInLine = true) (hline : r.delimiter ∉ line) :
    (r.readNextLoop line).1 =
        (if line ++ r.rest = [] then none
        else some (splitLine r.delimiter (line ++ r.rest)).1) ∧
      (r.readNextLoop line).2.rest = (splitLine r.delimiter (line ++ r.rest)).2 ∧
      (r.readNextLoop line).2.delimiter = r.delimiter ∧
      (r.readNextLoop line).2.putDelimiterInLine = true := by
  fun_induction readNextLoop r line with
  | case1 r line i hi copyLen =>
    have hsplit := splitLine_of_idxOf? hi r.file
    have hne : line ++ r.rest ≠ [] := by
      intro h
      obtain ⟨-, hrest⟩ := List.append_eq_nil_iff.mp h
      obtain ⟨hbuff, -⟩ := List.append_eq_nil_iff.mp hrest
      rw [hbuff] at hi
      cases hi
    have hcopy : copyLen = i + 1 := if_pos hput
    rw [if_neg hne, splitLine_of_not_mem hline, rest, hsplit, hcopy]
    exact ⟨rfl, rfl, rfl, hput⟩
  | case2 r line hnone line' hfile =>
    have hbuff : r.delimiter ∉ r.readBuff := by simpa using hnone
    have hrest : r.rest = r.readBuff := by rw [rest, hfile, List.append_nil]
    have hnot : r.delimiter ∉ line' := by simp [line', hline, hbuff]
    have hsplit := splitLine_of_not_mem hnot []
    rw [List.append_nil, splitLine, List.append_nil] at hsplit
    rw [hrest, hsplit]
    exact ⟨rfl, by rw [rest, hfile]; rfl, rfl, hput⟩
  | case3 r line hnone line' hfile ih =>
    have hbuff : r.delimiter ∉ r.readBuff := by simpa using hnone
    have hrest : line' ++ (r.file.take r.readBuffSize ++ r.file.drop r.readBuffSize) =
        line ++ r.rest := by
      rw [List.take_append_drop, rest, List.append_assoc]
    have ih := ih hput (by simp [line', hline, hbuff])
    rw [rest, hrest] at ih
    exact ih

/-- `read_next` takes the first line of the text that is left, with its
delimiter. -/
theorem readNext_eq {r : LineReader} (hput : r.putDelimiterInLine = true) :
    r.readNext.1 = (if r.rest = [] then none else some (splitLine r.delimiter r.rest).1) ∧
      r.readNext.2.rest = (splitLine r.delimiter r.rest).2 ∧
      r.readNext.2.delimiter = r.delimiter ∧ r.readNext.2.putDelimiterInLine = true :=
  readNextLoop_spec hput List.not_mem_nil

end LineReader

end Sihd.Sys
