import Sihd.Lib.FileStream
import Sihd.Sys.Files

/-!
# `File`

A `File` is a stream of the C library. The modes are those of `fopen`: `r` asks for a file
that is there, `w` creates or truncates it, `a` creates it and writes at its end, and `+`
reads and writes.
-/

namespace Sihd.Sys

open FileTree

/-- The modes of `fopen`, for binary files. -/
inductive OpenMode where
  | r
  | rPlus
  | w
  | wPlus
  | a
  | aPlus
  deriving DecidableEq

namespace OpenMode

def reads : OpenMode → Bool
  | .r | .rPlus | .wPlus | .aPlus => true
  | .w | .a => false

def writes : OpenMode → Bool
  | .r => false
  | _ => true

def creates : OpenMode → Bool
  | .r | .rPlus => false
  | _ => true

def truncates : OpenMode → Bool
  | .w | .wPlus => true
  | _ => false

def appends : OpenMode → Bool
  | .a | .aPlus => true
  | _ => false

end OpenMode

/-- A stream on a file, or on a directory, which cannot be read. -/
structure File where
  file : Option Nat
  stream : FileStream UInt8

namespace File

def openFile (f : Files) (path : List UInt8) (mode : OpenMode) :
    Except Errno (Files × List Touch × File) :=
  match f.openFile path mode.writes mode.creates mode.truncates with
  | .error errno => .error errno
  | .ok (f', touched, file) =>
      .ok (f', touched, ⟨file, .create (mode.reads && file.isSome) mode.writes mode.appends⟩)

def content (file : File) (f : Files) : List UInt8 :=
  match file.file with
  | none => []
  | some id => (f.inodes id).content

def setContent (file : File) (f : Files) (content : List UInt8) : Files :=
  match file.file with
  | none => f
  | some id => f.setInode id { f.inodes id with content := content }

/-- The files once what waits in the stream is written. -/
def flush (file : File) (f : Files) : Files :=
  file.setContent f (file.stream.flushed 0 (file.content f))

/-- `seek_begin`: the offset is a signed number. -/
def seekBegin (file : File) (f : Files) (offset : Nat) (keep : Bool) : Option (Files × File) :=
  if 2 ^ 63 ≤ offset then none
  else some (file.flush f, { file with stream := file.stream.seek offset keep })

/-- The elements read, or none when the stream has an error. -/
def read (file : File) (f : Files) (size ahead : Nat) : File × Option (List UInt8) :=
  if file.stream.eof then (file, some [])
  else
    let (stream, data) := file.stream.read (file.content f) size ahead
    ({ file with stream := stream }, if stream.error then none else some data)

/-- How many elements were written, or none when the stream has an error. -/
def write (file : File) (f : Files) (data : List UInt8) (wait : Nat) :
    Files × File × Option Nat :=
  let (stream, content, n) := file.stream.write 0 (file.content f) data wait
  (file.setContent f content, { file with stream := stream },
    if stream.error then none else some n)

/-- A stream does not decide which file it is on. -/
theorem content_mk (file : File) (stream : FileStream UInt8) (f : Files) :
    content ⟨file.file, stream⟩ f = file.content f := rfl

theorem setContent_mk (file : File) (stream : FileStream UInt8) (f : Files)
    (content : List UInt8) : setContent ⟨file.file, stream⟩ f content = file.setContent f content :=
  rfl

theorem read_eq {file : File} (h : file.stream.eof = false) (f : Files) (size ahead : Nat) :
    file.read f size ahead =
      (⟨file.file, (file.stream.read (file.content f) size ahead).1⟩,
        if (file.stream.read (file.content f) size ahead).1.error then none
        else some (file.stream.read (file.content f) size ahead).2) := by
  rw [read, if_neg (by simp [h])]

theorem write_eq (file : File) (f : Files) (data : List UInt8) (wait : Nat) :
    file.write f data wait =
      (file.setContent f (file.stream.write 0 (file.content f) data wait).2.1,
        ⟨file.file, (file.stream.write 0 (file.content f) data wait).1⟩,
        if (file.stream.write 0 (file.content f) data wait).1.error then none
        else some (file.stream.write 0 (file.content f) data wait).2.2) := rfl

end File

end Sihd.Sys
