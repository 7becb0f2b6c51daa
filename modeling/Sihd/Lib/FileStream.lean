import Mathlib.Data.List.Basic
import Mathlib.Tactic.Common

/-!
# Streams on a file

A stream reads and writes the content of a file at its position. Elements that were written
may wait in the stream, and elements that were read are kept with some of those behind them,
so that what another stream does to the file is not always seen. How many elements wait or
are read ahead is not the program's to say.
-/

variable {β : Type*}

namespace FileStream

/-- Put elements at an offset; what is missing before it is filled. -/
def splice (zero : β) (content : List β) (offset : Nat) (data : List β) : List β :=
  if data = [] then content
  else
    (content ++ List.replicate (offset - content.length) zero).take offset ++ data ++
      content.drop (offset + data.length)

theorem splice_nil (zero : β) (content : List β) (offset : Nat) :
    splice zero content offset [] = content := if_pos rfl

/-- Elements at an offset and behind it. -/
theorem splice_append (zero : β) (content : List β) (offset : Nat) (data data' : List β) :
    splice zero (splice zero content offset data) (offset + data.length) data' =
      splice zero content offset (data ++ data') := by
  by_cases hdata : data = []
  · rw [hdata, splice_nil, List.length_nil, Nat.add_zero, List.nil_append]
  by_cases hdata' : data' = []
  · rw [hdata', splice_nil, List.append_nil]
  have hstart : ((content ++ List.replicate (offset - content.length) zero).take offset).length =
      offset := by
    rw [List.length_take, List.length_append, List.length_replicate]
    omega
  rw [splice, if_neg hdata', splice, if_neg hdata, splice, if_neg (by simp [hdata])]
  generalize (content ++ List.replicate (offset - content.length) zero).take offset = start at *
  have hlength : (start ++ data).length = offset + data.length := by
    rw [List.length_append, hstart]
  have hfill : offset + data.length -
      (start ++ data ++ content.drop (offset + data.length)).length = 0 := by
    rw [List.length_append, hlength]
    omega
  rw [hfill, List.replicate_zero, List.append_nil, List.take_left' hlength, List.length_append,
    List.drop_append, hlength, List.drop_eq_nil_of_le (by omega), List.nil_append,
    List.drop_drop]
  simp only [List.append_assoc]
  congr 4
  omega

/-- At its end a content is continued. -/
theorem splice_length (zero : β) (content data : List β) :
    splice zero content content.length data = content ++ data := by
  by_cases hdata : data = []
  · rw [hdata, splice_nil, List.append_nil]
  · rw [splice, if_neg hdata, Nat.sub_self, List.replicate_zero, List.append_nil,
      List.take_length, List.drop_eq_nil_of_le (by omega), List.append_nil]

end FileStream

/-- `pending` are the elements before the position that the file does not have yet, and `block`
those from `blockStart` on that have been read. -/
structure FileStream (β : Type*) where
  canRead : Bool
  canWrite : Bool
  append : Bool
  pos : Nat
  pending : List β
  blockStart : Nat
  block : List β
  eof : Bool
  error : Bool

namespace FileStream

def create (canRead canWrite append : Bool) : FileStream β :=
  ⟨canRead, canWrite, append, 0, [], 0, [], false, false⟩

/-- Elements that are written at an offset, or at the end in a stream that appends. -/
def put (s : FileStream β) (zero : β) (content : List β) (offset : Nat) (data : List β) : List β :=
  if s.append then content ++ data else splice zero content offset data

/-- The content once what waits is in the file. -/
def flushed (s : FileStream β) (zero : β) (content : List β) : List β :=
  s.put zero content (s.pos - s.pending.length) s.pending

/-- Go to an offset, once the stream is flushed. The elements that were read may be kept. -/
def seek (s : FileStream β) (offset : Nat) (keep : Bool) : FileStream β :=
  { s with
    pos := offset
    pending := []
    block := if keep ∧ s.blockStart ≤ offset ∧ offset ≤ s.blockStart + s.block.length then s.block
      else []
    eof := false }

/-- Read so many elements, and some more ahead. -/
def read (s : FileStream β) (content : List β) (len ahead : Nat) : FileStream β × List β :=
  if len = 0 then (s, [])
  else if s.canRead = false then ({ s with error := true }, [])
  else
    let buffered := (s.block.drop (s.pos - s.blockStart)).take len
    if buffered.length = len then ({ s with pos := s.pos + len }, buffered)
    else
      let start := s.pos + buffered.length
      let got := (content.drop start).take (len - buffered.length)
      ({ s with
        pos := start + got.length
        blockStart := start
        block := (content.drop start).take (len - buffered.length + ahead)
        eof := buffered.length + got.length < len }, buffered ++ got)

/-- Write elements, of which some are left waiting; the content and how many were written. -/
def write (s : FileStream β) (zero : β) (content data : List β) (wait : Nat) :
    FileStream β × List β × Nat :=
  if data = [] then (s, content, 0)
  else if s.canWrite = false then ({ s with error := true }, content, 0)
  else
    let sent := data.take (data.length - wait)
    ({ s with
      pos := s.pos + data.length
      pending := data.drop (data.length - wait)
      block := [] }, s.put zero content s.pos sent, data.length)

variable {s : FileStream β} {zero : β} {content : List β}

theorem put_nil (s : FileStream β) (zero : β) (content : List β) (offset : Nat) :
    s.put zero content offset [] = content := by
  rw [put, splice_nil, List.append_nil, ite_self]

/-- A stream with nothing waiting has nothing to flush. -/
theorem flushed_of_nil (h : s.pending = []) (zero : β) (content : List β) :
    s.flushed zero content = content := by rw [flushed, h, put_nil]

theorem put_append (s : FileStream β) (zero : β) (content : List β) (offset : Nat)
    (data data' : List β) :
    s.put zero (s.put zero content offset data) (offset + data.length) data' =
      s.put zero content offset (data ++ data') := by
  rw [put, put, put]
  split
  · rw [List.append_assoc]
  · exact splice_append zero content offset data data'

/-- What was written is in the file once the stream is flushed. -/
theorem flushed_write (hwrite : s.canWrite = true) {data : List β} (hdata : data ≠ [])
    (wait : Nat) : (s.write zero content data wait).1.flushed zero
        (s.write zero content data wait).2.1 = s.put zero content s.pos data := by
  have hput := s.put_append zero content s.pos (data.take (data.length - wait))
    (data.drop (data.length - wait))
  rw [List.take_append_drop] at hput
  rw [write, if_neg hdata, if_neg (by simp [hwrite])]
  refine Eq.trans ?_ hput
  have hoffset : s.pos + data.length - (data.drop (data.length - wait)).length =
      s.pos + (data.take (data.length - wait)).length := by
    rw [List.length_drop, List.length_take]
    omega
  rw [flushed]
  dsimp only
  rw [hoffset]
  rfl

/-- A read gives the elements of the file at the position when those that were kept are
still the file's. -/
theorem read_eq (hread : s.canRead = true) (len ahead : Nat)
    (hblock : s.block.drop (s.pos - s.blockStart) <+: content.drop s.pos) :
    (s.read content len ahead).2 = (content.drop s.pos).take len := by
  rw [read]
  split
  · rename_i hlen
    rw [hlen, List.take_zero]
  · rw [if_neg (by simp [hread])]
    obtain ⟨rest, hrest⟩ := hblock
    dsimp only
    generalize s.block.drop (s.pos - s.blockStart) = kept at *
    split
    · rename_i hlength
      rw [List.length_take] at hlength
      rw [← hrest, List.take_append_of_le_length (by omega)]
    · rename_i hlength
      rw [List.length_take] at hlength
      have hall : kept.take len = kept := List.take_of_length_le (by omega)
      rw [hall, ← List.drop_drop, ← hrest, List.drop_left, List.take_append, hall]

/-- What a read leaves of the stream. -/
theorem read_same (s : FileStream β) (content : List β) (len ahead : Nat) :
    (s.read content len ahead).1.canRead = s.canRead ∧
      (s.read content len ahead).1.canWrite = s.canWrite ∧
      (s.read content len ahead).1.append = s.append ∧
      (s.read content len ahead).1.pending = s.pending := by
  rw [read]
  split
  · exact ⟨rfl, rfl, rfl, rfl⟩
  · split
    · exact ⟨rfl, rfl, rfl, rfl⟩
    · dsimp only
      split <;> exact ⟨rfl, rfl, rfl, rfl⟩

/-- A read fails where the stream cannot be read. -/
theorem error_read (s : FileStream β) (content : List β) (len ahead : Nat) :
    (s.read content len ahead).1.error = (s.error || (!s.canRead && decide (len ≠ 0))) := by
  rw [read]
  split
  · rename_i hlen
    simp [hlen]
  · rename_i hlen
    split
    · rename_i hread
      simp [hread, hlen]
    · rename_i hread
      rw [Bool.not_eq_false] at hread
      dsimp only
      split <;> simp [hread]

theorem write_same (s : FileStream β) (zero : β) (content data : List β) (wait : Nat) :
    (s.write zero content data wait).1.canRead = s.canRead ∧
      (s.write zero content data wait).1.canWrite = s.canWrite ∧
      (s.write zero content data wait).1.append = s.append := by
  rw [write]
  split
  · exact ⟨rfl, rfl, rfl⟩
  · split <;> exact ⟨rfl, rfl, rfl⟩

theorem error_write (s : FileStream β) (zero : β) (content data : List β) (wait : Nat) :
    (s.write zero content data wait).1.error =
      (s.error || (!s.canWrite && decide (data ≠ []))) := by
  rw [write]
  split
  · rename_i hdata
    simp [hdata]
  · rename_i hdata
    split
    · rename_i hwrite
      simp [hwrite, hdata]
    · rename_i hwrite
      rw [Bool.not_eq_false] at hwrite
      simp [hwrite]

/-- All is written where the stream can be written. -/
theorem length_write (hwrite : s.canWrite = true) (zero : β) (content data : List β) (wait : Nat) :
    (s.write zero content data wait).2.2 = data.length := by
  rw [write]
  split
  · rename_i hdata
    rw [hdata]
    rfl
  · rw [if_neg (by simp [hwrite])]

/-- Nothing is written where the stream cannot be written. -/
theorem write_of_not_canWrite (hwrite : s.canWrite = false) (zero : β) (content data : List β)
    (wait : Nat) : (s.write zero content data wait).2.1 = content ∧
      (s.write zero content data wait).1.pending = s.pending := by
  rw [write]
  rw [if_pos hwrite]
  split <;> exact ⟨rfl, rfl⟩

end FileStream
