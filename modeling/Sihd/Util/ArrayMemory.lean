import Mathlib.Logic.Function.Basic
import Sihd.Lib.Bytes

/-!
# The memory of arrays

Arrays with the elements of their blocks, as `malloc` and `realloc` give them: the C library may
refuse, and may move a block. What an element was before it is written is garbage. An array has
no block, its own one, or one that `realloc` has released behind its back. A read or a write of
anything else but the elements of the block is invalid. `mult_resize_capacity` is `2`.
-/

namespace Sihd.Util.ArrayMemory

/-- A trivially copyable type: its size, and the element of which every byte is zero. -/
structure Element (α : Type) where
  dataSize : Nat
  pos : 0 < dataSize
  zero : α

inductive Buffer (α : Type) where
  | null
  | block (cells : List α)
  | released

structure ArrayState (α : Type) where
  buf : Buffer α := .null
  size : Nat := 0
  capacity : Nat := 0
  hasOwnership : Bool := false

inductive Fault where
  /-- The loop that raises the capacity does not end. -/
  | endless
  | invalid

/-- What the C library gives: whether the block has moved, and what is in the new memory. -/
structure Given (α : Type) where
  moved : Bool
  garbage : Nat → α

/-- Elements that are given to an array: of its own, or from elsewhere. -/
inductive Source (α : Type) where
  | own (k n : Nat)
  | outside (xs : List α)

/-- A reference to an element. -/
inductive Value (α : Type) where
  | own (k : Nat)
  | outside (x : α)

namespace Source

variable {α : Type}

def length : Source α → Nat
  | .own _ n => n
  | .outside xs => xs.length

end Source

def Value.source {α : Type} : Value α → Source α
  | .own k => .own k 1
  | .outside x => .outside [x]

section Memory

variable {α : Type}

def readCells (cells : List α) (k n : Nat) : Except Fault (List α) :=
  if k + n ≤ cells.length then .ok ((cells.drop k).take n) else .error .invalid

def writeCells (cells : List α) (k : Nat) (xs : List α) : Except Fault (List α) :=
  if k + xs.length ≤ cells.length then .ok (overwrite cells k xs) else .error .invalid

/-- A source is read where it was, which is nowhere after the block has moved. -/
def Source.read (cells : List α) (moved : Bool) : Source α → Except Fault (List α)
  | .own k n => if moved && decide (0 < n) then .error .invalid else readCells cells k n
  | .outside xs => .ok xs

/-- No block has more than `PTRDIFF_MAX` bytes. -/
def granted (o : Option (Given α)) (bytes : Nat) : Option (Given α) :=
  if bytes < 2 ^ 63 then o else none

/-- A block of `n` elements that begins like another one. -/
def resized (cells : List α) (n : Nat) (garbage : Nat → α) : List α :=
  cells.take n ++ (List.range (n - cells.length)).map garbage

/-- The new block, if any, with whether it has moved, and what has become of the old one. -/
def realloc (e : Element α) (o : Option (Given α)) (buf : Buffer α) (bytes : Nat) :
    Except Fault (Option (List α × Bool) × Buffer α) :=
  match buf with
  | .released => .error .invalid
  | .null =>
      .ok ((granted o bytes).map fun given =>
        (resized [] (bytes / e.dataSize) given.garbage, given.moved), .null)
  | .block cells =>
      if bytes = 0 then .ok (none, .released)
      else
        .ok ((granted o bytes).map fun given =>
          (resized cells (bytes / e.dataSize) given.garbage, given.moved), .block cells)

/-- The loop of `_internal_reserve`. A capacity that has passed `2 ^ 64` so often is zero. -/
def growCapacity : Nat → Nat → Nat → Except Fault Nat
  | 0, _, _ => .error .endless
  | left + 1, newCapacity, capacity =>
      if newCapacity < capacity then growCapacity left (newCapacity * 2 % 2 ^ 64) capacity
      else .ok newCapacity

/-- The copies that `insert` makes in a block, of which so many elements are in use. -/
def insertCells (cells : List α) (size : Nat) (src : Source α) (idx : Nat) (moved : Bool) :
    Except Fault (List α) := do
  -- Leave room for the insertion.
  let tail ← readCells cells idx (size - idx)
  let cells ← if 0 < tail.length then writeCells cells (idx + src.length) tail else .ok cells
  let xs ← src.read cells moved
  writeCells cells idx xs

end Memory

namespace ArrayState

variable {α : Type}

def isNull (a : ArrayState α) : Bool :=
  match a.buf with
  | .null => true
  | _ => false

/-- The capacity that `_internal_reserve` asks for. -/
def wantedCapacity (a : ArrayState α) (capacity : Nat) : Except Fault Nat :=
  if 0 < a.capacity then growCapacity 65 a.capacity capacity else .ok capacity

/-- What is returned, whether the block has moved, and the array. -/
def internalReserve (e : Element α) (o : Option (Given α)) (a : ArrayState α) (capacity : Nat)
    (clearMem : Bool) : Except Fault (Bool × Bool × ArrayState α) := do
  let capacity ← a.wantedCapacity capacity
  let (newPtr, buf) ← realloc e o a.buf (capacity * e.dataSize % 2 ^ 64)
  match newPtr with
  | none => .ok (false, false, { a with buf := buf })
  | some (cells, moved) =>
      let cleared := (capacity - a.capacity) * e.dataSize % 2 ^ 64 / e.dataSize
      let cells ←
        if clearMem && decide (a.capacity < capacity) then
          writeCells cells a.capacity (List.replicate cleared e.zero)
        else .ok cells
      .ok (true, moved,
        { buf := .block cells
          size := min a.size capacity
          capacity := capacity
          hasOwnership := true })

def internalResize (e : Element α) (o : Option (Given α)) (a : ArrayState α) (size : Nat)
    (clearMem : Bool) : Except Fault (Bool × Bool × ArrayState α) := do
  let (_, moved, a) ←
    if a.isNull || decide (a.capacity < size) then a.internalReserve e o size clearMem
    else .ok (true, false, a)
  let a := if !a.isNull && decide (size ≤ a.capacity) then { a with size := size } else a
  .ok (a.size == size, moved, a)

def deleteBuffer (a : ArrayState α) : Except Fault (ArrayState α) :=
  match a.buf with
  | .released => if a.hasOwnership then .error .invalid else .ok {}
  | _ => .ok {}

/-- The deletion of a buffer that is not owned. -/
def deleteLent (a : ArrayState α) : Except Fault (ArrayState α) :=
  if !a.hasOwnership then a.deleteBuffer else .ok a

/-- The elements in use. -/
def toList (a : ArrayState α) : List α :=
  match a.buf with
  | .block cells => cells.take a.size
  | _ => []

/-- Write elements to the block of an array. -/
def write (a : ArrayState α) (k : Nat) (xs : List α) : Except Fault (ArrayState α) :=
  match a.buf with
  | .block cells => (writeCells cells k xs).map fun cells => { a with buf := .block cells }
  | _ => if xs.length = 0 then .ok a else .error .invalid

/-- Read the elements of a source for an array. -/
def readSource (a : ArrayState α) (moved : Bool) (src : Source α) : Except Fault (List α) :=
  match a.buf with
  | .block cells => src.read cells moved
  | _ => src.read [] moved

def «from» (e : Element α) (o : Option (Given α)) (a : ArrayState α) (src : Source α) :
    Except Fault (Bool × ArrayState α) := do
  let a ← a.deleteLent
  let (resized, moved, a) ← a.internalResize e o src.length false
  let a ←
    if resized then do
      let xs ← a.readSource moved src
      let a ← a.write 0 xs
      .ok { a with size := src.length }
    else .ok a
  .ok (!a.isNull, a)

def resize (e : Element α) (o : Option (Given α)) (a : ArrayState α) (size : Nat) :
    Except Fault (Bool × ArrayState α) :=
  (a.internalResize e o size true).map fun (ret, _, a) => (ret, a)

def reserve (e : Element α) (o : Option (Given α)) (a : ArrayState α) (capacity : Nat) :
    Except Fault (Bool × ArrayState α) :=
  (a.internalReserve e o capacity true).map fun (ret, _, a) => (ret, a)

def insert (e : Element α) (o : Option (Given α)) (a : ArrayState α) (src : Source α)
    (idx : Nat) : Except Fault (Bool × ArrayState α) := do
  if a.size < idx then .ok (false, a)
  else
    let size := (a.size + src.length) % 2 ^ 64
    let (_, moved, a) ←
      if a.capacity < size then a.internalReserve e o size false else .ok (true, false, a)
    match a.buf with
    | .null => .ok (false, a)
    | .released => .error .invalid
    | .block cells =>
        let cells ← insertCells cells a.size src idx moved
        .ok (true, { a with buf := .block cells, size := a.size + src.length })

def pushBack (e : Element α) (o : Option (Given α)) (a : ArrayState α) (src : Source α) :
    Except Fault (Bool × ArrayState α) := a.insert e o src a.size

def pushBackValue (e : Element α) (o : Option (Given α)) (a : ArrayState α) (value : Value α) :
    Except Fault (Bool × ArrayState α) := do
  let (resized, moved, a) ← a.internalResize e o ((a.size + 1) % 2 ^ 64) false
  let a ←
    if resized then do
      let xs ← a.readSource moved value.source
      a.write (a.size - 1) xs
    else .ok a
  .ok (!a.isNull, a)

def pushFront (e : Element α) (o : Option (Given α)) (a : ArrayState α) (src : Source α) :
    Except Fault (Bool × ArrayState α) := a.insert e o src 0

/-- None is thrown as `out_of_range`. -/
def pop (e : Element α) (a : ArrayState α) (idx : Nat) : Except Fault (Option (ArrayState α)) := do
  if a.size ≤ idx then .ok none
  else
    match a.buf with
    | .block cells =>
        let rest ← readCells cells (idx + 1) (a.size - (idx + 1))
        let cells ← writeCells cells idx rest
        let cells ← writeCells cells (a.size - 1) [e.zero]
        .ok (some { a with buf := .block cells, size := a.size - 1 })
    | _ => .error .invalid

def popBack (e : Element α) (a : ArrayState α) : Except Fault (Option (ArrayState α)) :=
  a.pop e ((a.size + (2 ^ 64 - 1)) % 2 ^ 64)

def popFront (e : Element α) (a : ArrayState α) : Except Fault (Option (ArrayState α)) := a.pop e 0

def set (a : ArrayState α) (idx : Nat) (value : Value α) :
    Except Fault (Option (ArrayState α)) := do
  if a.size ≤ idx then .ok none
  else
    let xs ← a.readSource false value.source
    let a ← a.write idx xs
    .ok (some a)

end ArrayState

/-- The copies and moves are the constructors too, of an array that is empty. -/
inductive Op (α ι : Type) where
  | pushBack (src : Source α)
  | pushBackValue (value : Value α)
  | pushFront (src : Source α)
  | insert (src : Source α) (idx : Nat)
  | pop (idx : Nat)
  | popBack
  | popFront
  | «from» (src : Source α)
  | resize (size : Nat)
  | reserve (capacity : Nat)
  | set (idx : Nat) (value : Value α)
  | copy (other : ι)
  | move (other : ι)

/-- A call of an operation on an array, with what the C library gives if it is asked. -/
structure Call (α ι : Type) where
  array : ι
  op : Op α ι
  outcome : Option (Given α)

/-- How a call ends. A copy reports nothing; whether it was made is seen by the array. -/
inductive Report where
  | returned (ret : Bool)
  | done
  | thrown
  | copied

abbrev World (α ι : Type) := ι → ArrayState α

section Exec

variable {α ι : Type} [DecidableEq ι] (e : Element α)

def ofReturn (w : World α ι) (i : ι) (r : Except Fault (Bool × ArrayState α)) :
    Except Fault (Report × World α ι) :=
  r.map fun (ret, a) => (.returned ret, Function.update w i a)

def ofThrow (w : World α ι) (i : ι) (r : Except Fault (Option (ArrayState α))) :
    Except Fault (Report × World α ι) :=
  r.map fun
    | none => (.thrown, w)
    | some a => (.done, Function.update w i a)

/-- `operator=` of an array and another one. -/
def copy (o : Option (Given α)) (w : World α ι) (i other : ι) :
    Except Fault (Report × World α ι) :=
  if other = i then .ok (.copied, w)
  else do
    let a ← (w i).deleteBuffer
    let xs ← (w other).readSource false (.own 0 (w other).size)
    let (_, a) ← a.from e o (.outside xs)
    .ok (.copied, Function.update w i a)

def move (w : World α ι) (i other : ι) : Except Fault (Report × World α ι) :=
  if other = i then .ok (.done, w)
  else do
    let _ ← (w i).deleteBuffer
    .ok (.done, Function.update (Function.update w i (w other)) other {})

def exec (w : World α ι) (c : Call α ι) : Except Fault (Report × World α ι) :=
  let a := w c.array
  match c.op with
  | .pushBack src => ofReturn w c.array (a.pushBack e c.outcome src)
  | .pushBackValue value => ofReturn w c.array (a.pushBackValue e c.outcome value)
  | .pushFront src => ofReturn w c.array (a.pushFront e c.outcome src)
  | .insert src idx => ofReturn w c.array (a.insert e c.outcome src idx)
  | .pop idx => ofThrow w c.array (a.pop e idx)
  | .popBack => ofThrow w c.array (a.popBack e)
  | .popFront => ofThrow w c.array (a.popFront e)
  | .from src => ofReturn w c.array (a.from e c.outcome src)
  | .resize size => ofReturn w c.array (a.resize e c.outcome size)
  | .reserve capacity => ofReturn w c.array (a.reserve e c.outcome capacity)
  | .set idx value => ofThrow w c.array (a.set idx value)
  | .copy other => copy e c.outcome w c.array other
  | .move other => move w c.array other

end Exec

end Sihd.Util.ArrayMemory
