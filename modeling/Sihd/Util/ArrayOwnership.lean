import Mathlib.Logic.Equiv.Basic
import Sihd.Lib.Heap
import Sihd.Lib.Transition
import Sihd.Util.Array

/-!
# The buffers of arrays and who owns them

The arrays of a program share a heap. The buffer of an array is a block that the
array allocated itself or memory that was lent to it by `assign`, which may be
in a block of another array. A call that gives `realloc` or `free` anything but
a live block of its own, or that reads or writes a block after its release, is
`none`. The elements are left out; `dataSize` is their size.
-/

namespace Sihd.Util

namespace Ownership

/-- A place in memory: at an offset in a block of the heap, or elsewhere. -/
inductive Place
  | block (b offset : Nat)
  | outside (address : Nat)
  deriving DecidableEq

/-- The buffer of an array: an own block, or memory that was lent. -/
inductive Buffer
  | null
  | own (b : Nat)
  | lent (p : Place)
  deriving DecidableEq

/-- The address of a buffer. -/
def Buffer.place : Buffer → Option Place
  | .null => none
  | .own b => some (.block b 0)
  | .lent p => some p

def Buffer.ofPlace : Option Place → Buffer
  | none => .null
  | some p => .lent p

/-- The block to give back. -/
def Buffer.ownBlock : Buffer → Option Nat
  | .own b => some b
  | _ => none

structure ArrayState where
  buf : Buffer := .null
  size : Nat := 0
  capacity : Nat := 0
  hasOwnership : Bool := false

/-- A read or a write of a place, which is not in a block that was released. -/
def touch (heap : Heap) : Option Place → Option Unit
  | some (.block b _) => if heap.live b then some () else none
  | _ => some ()

/-- `memmove` of some elements. -/
def memmove (heap : Heap) (dst src : Option Place) (n : Nat) : Option Unit :=
  if n = 0 then some ()
  else do
    touch heap src
    touch heap dst

namespace ArrayState

def deleteBuffer (a : ArrayState) (heap : Heap) : Option (ArrayState × Heap) :=
  if a.buf ≠ .null ∧ a.hasOwnership then
    match a.buf with
    | .own b => (heap.free b).map fun heap => ({}, heap)
    | _ => none
  else some ({}, heap)

/-- The number of bytes that `_internal_reserve` asks for, which is a `size_t`.
The doubling of the capacity is taken to end. -/
def reserveBytes (dataSize : Nat) (a : ArrayState) (capacity : Nat) : Nat :=
  IArray.newCapacity a.capacity capacity * dataSize % 2 ^ 64

def internalReserve (dataSize : Nat) (o : Outcome) (a : ArrayState) (heap : Heap)
    (capacity : Nat) : Option (ArrayState × Heap) :=
  match a.buf with
  | .lent _ => none
  | _ => do
    let (ptr, heap) ← heap.realloc o a.buf.ownBlock (reserveBytes dataSize a capacity)
    match ptr with
    | none => some (a, heap)
    | some b =>
      let capacity := IArray.newCapacity a.capacity capacity
      some ({ buf := .own b
              size := min a.size capacity
              capacity := capacity
              hasOwnership := true }, heap)

/-- `_internal_reserve` of a capacity, if one is asked for. -/
def grow (dataSize : Nat) (o : Outcome) (a : ArrayState) (heap : Heap) :
    Option Nat → Option (ArrayState × Heap)
  | none => some (a, heap)
  | some capacity => a.internalReserve dataSize o heap capacity

/-- `_internal_resize`, with the value it returns. -/
def internalResize (dataSize : Nat) (o : Outcome) (a : ArrayState) (heap : Heap)
    (size : Nat) : Option (Bool × ArrayState × Heap) := do
  let (a, heap) ← a.grow dataSize o heap
    (if a.buf = .null ∨ a.capacity < size then some size else none)
  let a := if a.buf ≠ .null ∧ size ≤ a.capacity then { a with size := size } else a
  some (decide (a.size = size), a, heap)

def resize (dataSize : Nat) (o : Outcome) (a : ArrayState) (heap : Heap) (size : Nat) :
    Option (ArrayState × Heap) :=
  (a.internalResize dataSize o heap size).map Prod.snd

/-- The deletion of a buffer that was lent. -/
def deleteLent (a : ArrayState) (heap : Heap) : Option (ArrayState × Heap) :=
  if a.hasOwnership then some (a, heap) else a.deleteBuffer heap

/-- `from`, of `n` elements at the place `src`. -/
def «from» (dataSize : Nat) (o : Outcome) (a : ArrayState) (heap : Heap)
    (src : Option Place) (n : Nat) : Option (ArrayState × Heap) := do
  let (a, heap) ← a.deleteLent heap
  let (resized, a, heap) ← a.internalResize dataSize o heap n
  memmove heap a.buf.place src (if resized then n else 0)
  some (a, heap)

/-- `assign`. An array that releases what it was lent in the same call can no
longer use it. -/
def assign (a : ArrayState) (heap : Heap) (arr : Option Place) (size capacity : Nat) :
    Option (ArrayState × Heap) :=
  if arr ≠ a.buf.place then do
    let (_, heap) ← a.deleteBuffer heap
    touch heap arr
    some ({ buf := .ofPlace arr, size := size, capacity := capacity, hasOwnership := false }, heap)
  else some (a, heap)

/-- `push_back` of one value. -/
def pushBackValue (dataSize : Nat) (o : Outcome) (a : ArrayState) (heap : Heap)
    (value : Option Place) : Option (ArrayState × Heap) := do
  let (resized, a, heap) ← a.internalResize dataSize o heap (a.size + 1)
  memmove heap a.buf.place value (if resized then 1 else 0)
  some (a, heap)

def insert (dataSize : Nat) (o : Outcome) (a : ArrayState) (heap : Heap)
    (src : Option Place) (n idx : Nat) : Option (ArrayState × Heap) :=
  if a.size < idx then some (a, heap)
  else do
    let (a, heap) ← a.grow dataSize o heap
      (if a.capacity < a.size + n then some (a.size + n) else none)
    if a.buf = .null then some (a, heap)
    else do
      memmove heap a.buf.place a.buf.place (a.size - idx)
      memmove heap a.buf.place src n
      some ({ a with size := a.size + n }, heap)

def pop (a : ArrayState) (heap : Heap) (idx : Nat) : Option (ArrayState × Heap) :=
  if a.size ≤ idx then some (a, heap)
  else do
    touch heap a.buf.place
    some ({ a with size := a.size - 1 }, heap)

end ArrayState

/-- The public operations on an array. The other constructors are the default
one and calls of these operations. -/
inductive Op (ι : Type*)
  | construct
  | copyConstruct (other : ι)
  | moveConstruct (other : ι)
  | copyAssign (other : ι)
  | moveAssign (other : ι)
  | destruct
  | deleteBuffer
  | «from» (src : Option Place) (n : Nat)
  | fromBytes (src : Option Place) (bytes : Nat)
  | assign (arr : Option Place) (size capacity : Nat)
  | assignBytes (arr : Option Place) (size capacity : Nat)
  | pushBack (src : Option Place) (n : Nat)
  | pushBackValue (value : Option Place)
  | pushFront (src : Option Place) (n : Nat)
  | insert (src : Option Place) (n idx : Nat)
  | resize (size : Nat)
  | byteResize (bytes : Nat)
  | reserve (capacity : Nat)
  | pop (idx : Nat)

/-- A call of an operation, with what the C library does if it is asked. -/
structure Call (ι : Type*) where
  array : ι
  op : Op ι
  outcome : Outcome

/-- The arrays of a program and their heap. An array that is not constructed is
in the state of an empty one. -/
structure World (ι : Type*) where
  arrays : ι → ArrayState
  heap : Heap

namespace World

variable {ι : Type*} [DecidableEq ι]

def initial : World ι where
  arrays _ := {}
  heap := .empty

def set (w : World ι) (i : ι) (r : ArrayState × Heap) : World ι where
  arrays := Function.update w.arrays i r.1
  heap := r.2

/-- A move from another array, which is left empty. -/
def move (w : World ι) (i other : ι) : Option (World ι) :=
  if i = other then some w
  else ((w.arrays i).deleteBuffer w.heap).map fun r =>
    (w.set i (w.arrays other, r.2)).set other ({}, r.2)

/-- A call. The operations on bytes throw an exception, before they change
anything, when the bytes are not whole elements. -/
def exec (dataSize : Nat) (w : World ι) (c : Call ι) : Option (World ι) :=
  let a := w.arrays c.array
  let set := w.set c.array
  match c.op with
  | .construct => some (set ({}, w.heap))
  | .copyConstruct other =>
      let other := w.arrays other
      (ArrayState.from dataSize c.outcome {} w.heap other.buf.place other.size).map set
  | .moveConstruct other | .moveAssign other => w.move c.array other
  | .copyAssign other =>
      if c.array = other then some w
      else
        let other := w.arrays other
        ((a.deleteBuffer w.heap).bind fun r =>
          r.1.from dataSize c.outcome r.2 other.buf.place other.size).map set
  | .destruct | .deleteBuffer => (a.deleteBuffer w.heap).map set
  | .from src n => (a.from dataSize c.outcome w.heap src n).map set
  | .fromBytes src bytes =>
      if bytes % dataSize ≠ 0 then some w
      else (a.from dataSize c.outcome w.heap src (bytes / dataSize)).map set
  | .assign arr size capacity => (a.assign w.heap arr size capacity).map set
  | .assignBytes arr size capacity =>
      if size % dataSize ≠ 0 ∨ capacity % dataSize ≠ 0 then some w
      else (a.assign w.heap arr (size / dataSize) (capacity / dataSize)).map set
  | .pushBack src n => (a.insert dataSize c.outcome w.heap src n a.size).map set
  | .pushBackValue value => (a.pushBackValue dataSize c.outcome w.heap value).map set
  | .pushFront src n => (a.insert dataSize c.outcome w.heap src n 0).map set
  | .insert src n idx => (a.insert dataSize c.outcome w.heap src n idx).map set
  | .resize size => (a.resize dataSize c.outcome w.heap size).map set
  | .byteResize bytes =>
      if bytes % dataSize ≠ 0 then some w
      else (a.resize dataSize c.outcome w.heap (bytes / dataSize)).map set
  | .reserve capacity => (a.internalReserve dataSize c.outcome w.heap capacity).map set
  | .pop idx => (a.pop w.heap idx).map set

end World

/-! ### The calls a program can make -/

/-- Memory that is not in a block that was released. -/
def Alive (heap : Heap) (p : Option Place) : Prop :=
  ∀ b offset, p = some (.block b offset) → heap.live b = true

/-- What a call reads of a source of `n` elements. -/
def readOf (src : Option Place) (n : Nat) : Option Place := if n = 0 then none else src

/-- A call that a program can make: an array is constructed when it does not
exist, and the memory that the call is given, and that was lent to the arrays
it uses, is still there. -/
def Valid {ι : Type*} (dataSize : Nat) (w : World ι) (c : Call ι) : Prop :=
  let a := w.arrays c.array
  let used := ∀ p, a.buf = .lent p → Alive w.heap (some p)
  let read := fun src n => Alive w.heap (readOf src n)
  match c.op with
  | .construct | .moveConstruct _ => a = {}
  | .copyConstruct other =>
      a = {} ∧ read (w.arrays other).buf.place (w.arrays other).size
  | .copyAssign other => read (w.arrays other).buf.place (w.arrays other).size
  | .moveAssign _ | .destruct | .deleteBuffer | .resize _ | .byteResize _ | .reserve _ => True
  | .from src n => read src n
  | .fromBytes src bytes => read src (bytes / dataSize)
  | .assign arr _ _ | .assignBytes arr _ _ => Alive w.heap arr
  | .pushBack src n | .pushFront src n | .insert src n _ => used ∧ read src n
  | .pushBackValue value => used ∧ Alive w.heap value
  | .pop _ => used

/-! ### The calls that keep the ownership -/

/-- The source of a call is not in the block of the array. -/
def Apart (a : ArrayState) (src : Option Place) : Prop :=
  ∀ b offset, a.buf = .own b → src ≠ some (.block b offset)

/-- A buffer that `_internal_reserve` can be called on, if it is called: it was
not lent, and an own one is not reallocated to no byte or under the source of
the call. -/
structure Grows (dataSize : Nat) (a : ArrayState) (growth : Option Nat)
    (src : Option Place) : Prop where
  lent : ∀ n p, growth = some n → a.buf ≠ .lent p
  bytes : ∀ n b, growth = some n → a.buf = .own b → a.reserveBytes dataSize n ≠ 0
  apart : ∀ n, growth = some n → Apart a src

namespace ArrayState

/-- The capacity that `_internal_resize` asks for. -/
def resizeGrowth (a : ArrayState) (size : Nat) : Option Nat :=
  if a.capacity < size then some size else none

/-- The capacity that `from` asks for; a buffer that was lent is deleted first. -/
def fromGrowth (a : ArrayState) (n : Nat) : Option Nat :=
  if a.hasOwnership then a.resizeGrowth n else none

def insertGrowth (a : ArrayState) (n idx : Nat) : Option Nat :=
  if a.size < idx then none else a.resizeGrowth (a.size + n)

end ArrayState

/-- The condition: no call reallocates a buffer that was lent, or an own one to
no byte, and no call releases or reallocates the block that its source is in. -/
def Allowed {ι : Type*} (dataSize : Nat) (w : World ι) (c : Call ι) : Prop :=
  let a := w.arrays c.array
  let grows := Grows dataSize a
  match c.op with
  | .construct | .copyConstruct _ | .moveConstruct _ | .moveAssign _ | .destruct
  | .deleteBuffer | .pop _ => True
  | .copyAssign other =>
      c.array = other ∨ Apart a (readOf (w.arrays other).buf.place (w.arrays other).size)
  | .from src n => grows (a.fromGrowth n) (readOf src n)
  | .fromBytes src bytes =>
      bytes % dataSize ≠ 0 ∨
        grows (a.fromGrowth (bytes / dataSize)) (readOf src (bytes / dataSize))
  | .assign arr _ _ => arr = a.buf.place ∨ Apart a arr
  | .assignBytes arr size capacity =>
      size % dataSize ≠ 0 ∨ capacity % dataSize ≠ 0 ∨ arr = a.buf.place ∨ Apart a arr
  | .pushBack src n => grows (a.insertGrowth n a.size) (readOf src n)
  | .pushBackValue value => grows (a.resizeGrowth (a.size + 1)) value
  | .pushFront src n => grows (a.insertGrowth n 0) (readOf src n)
  | .insert src n idx => grows (a.insertGrowth n idx) (readOf src n)
  | .resize size => grows (a.resizeGrowth size) none
  | .byteResize bytes => bytes % dataSize ≠ 0 ∨ grows (a.resizeGrowth (bytes / dataSize)) none
  | .reserve capacity => grows (some capacity) none

/-! ### What the operations on an array do to the heap -/

/-- The flag of an array says whether its buffer is its own, and then it is
live. -/
structure Sound (a : ArrayState) (heap : Heap) : Prop where
  live : ∀ b, a.buf = .own b → heap.live b = true
  flag : a.hasOwnership = true ↔ ∃ b, a.buf = .own b

@[simp] theorem Buffer.ownBlock_eq_some_iff {buf : Buffer} {b : Nat} :
    buf.ownBlock = some b ↔ buf = .own b := by
  cases buf <;> simp [Buffer.ownBlock]

theorem touch_of_alive {heap : Heap} {p : Option Place} (h : Alive heap p) :
    touch heap p = some () := by
  match p with
  | none => rfl
  | some (.outside _) => rfl
  | some (.block b offset) => rw [touch, if_pos (h b offset rfl)]

theorem sound_empty (heap : Heap) : Sound {} heap where
  live b h := by cases h
  flag := ⟨fun h => (by cases h), fun ⟨b, h⟩ => (by cases h)⟩

/-- What an operation on a sound array does: it is not at fault, the array stays
sound and the blocks of the others are not changed. -/
def Steps (a : ArrayState) (heap : Heap) (r : Option (ArrayState × Heap)) : Prop :=
  ∃ a' heap', r = some (a', heap') ∧ Sound a' heap' ∧
    heap.Changes a.buf.ownBlock heap' a'.buf.ownBlock

section Operations

variable {dataSize : Nat} {a a' : ArrayState} {heap heap' : Heap} {src : Option Place}
  {n idx : Nat}

theorem Sound.own_live (h : Sound a heap) :
    ∀ c, a.buf.ownBlock = some c → heap.live c = true :=
  fun c hc => h.live c (Buffer.ownBlock_eq_some_iff.mp hc)

theorem Sound.steps (h : Sound a heap) : Steps a heap (some (a, heap)) :=
  ⟨a, heap, rfl, h, .refl h.own_live⟩

/-- What is alive stays so when the block of the array changes. -/
theorem Alive.of_changes {p' : Option Nat} (hchanges : heap.Changes a.buf.ownBlock heap' p')
    (hapart : Apart a src) (halive : Alive heap src) : Alive heap' src := by
  intro b offset hsrc
  refine hchanges.others b (fun hown => ?_) (halive b offset hsrc)
  exact hapart b offset (Buffer.ownBlock_eq_some_iff.mp hown) hsrc

/-- The buffer that an array has kept, or that is its own, is there. -/
theorem Sound.alive_place (h : Sound a' heap')
    (hchanges : heap.Changes a.buf.ownBlock heap' a'.buf.ownBlock)
    (hused : ∀ p, a.buf = .lent p → Alive heap (some p))
    (hbuf : a'.buf = a.buf ∨ ∃ b, a'.buf = .own b) : Alive heap' a'.buf.place := by
  intro b offset hplace
  cases hbuf' : a'.buf with
  | null =>
    rw [hbuf'] at hplace
    cases hplace
  | own c =>
    rw [hbuf'] at hplace
    cases hplace
    exact h.live b hbuf'
  | lent p =>
    rw [hbuf'] at hplace
    obtain rfl := Option.some.inj hplace
    have hlent : a.buf = .lent (.block b offset) := by
      rcases hbuf with heq | ⟨c, hown⟩
      · exact heq.symm.trans hbuf'
      · rw [hbuf'] at hown
        cases hown
    refine hchanges.others b (fun hown => ?_) (hused _ hlent b offset rfl)
    rw [hlent] at hown
    cases hown

theorem deleteBuffer_spec (h : Sound a heap) :
    ∃ heap', a.deleteBuffer heap = some ({}, heap') ∧
      heap.Changes a.buf.ownBlock heap' none := by
  by_cases hflag : a.hasOwnership = true
  · obtain ⟨b, hb⟩ := h.flag.mp hflag
    obtain ⟨heap', hfree, hchanges⟩ := Heap.changes_free (h.live b hb)
    refine ⟨heap', ?_, ?_⟩
    · rw [ArrayState.deleteBuffer, if_pos ⟨by simp [hb], hflag⟩, hb]
      simp only [hfree, Option.map_some]
    · rw [hb]
      exact hchanges
  · refine ⟨heap, by rw [ArrayState.deleteBuffer, if_neg (fun h => hflag h.2)], ?_⟩
    refine ⟨le_rfl, fun c _ hc => hc, fun c hc => by cases hc⟩

theorem internalReserve_of_not_lent (o : Outcome) (hlent : ∀ p, a.buf ≠ .lent p) :
    a.internalReserve dataSize o heap n =
      (heap.realloc o a.buf.ownBlock (a.reserveBytes dataSize n)).map fun r =>
        (match r.1 with
          | none => a
          | some b =>
            { buf := .own b
              size := min a.size (IArray.newCapacity a.capacity n)
              capacity := IArray.newCapacity a.capacity n
              hasOwnership := true }, r.2) := by
  have hnot {x : Option (Option Nat × Heap)} :
      (x.bind fun r => match r.1 with
        | none => some (a, r.2)
        | some b => some ({ buf := .own b
                            size := min a.size (IArray.newCapacity a.capacity n)
                            capacity := IArray.newCapacity a.capacity n
                            hasOwnership := true }, r.2)) =
      x.map fun r =>
        (match r.1 with
          | none => a
          | some b =>
            { buf := .own b
              size := min a.size (IArray.newCapacity a.capacity n)
              capacity := IArray.newCapacity a.capacity n
              hasOwnership := true }, r.2) := by
    rcases x with - | ⟨- | b, heap'⟩ <;> rfl
  rw [← hnot, ArrayState.internalReserve]
  split
  · rename_i p hbuf
    exact absurd hbuf (hlent p)
  · rfl

/-- `_internal_reserve` of a buffer that was not lent, to some byte if there is
a block. -/
theorem internalReserve_spec (h : Sound a heap) (o : Outcome)
    (hlent : ∀ p, a.buf ≠ .lent p)
    (hbytes : ∀ b, a.buf = .own b → a.reserveBytes dataSize n ≠ 0) :
    ∃ a' heap', a.internalReserve dataSize o heap n = some (a', heap') ∧ Sound a' heap' ∧
      heap.Changes a.buf.ownBlock heap' a'.buf.ownBlock ∧
      (a'.buf = a.buf ∨ ∃ b, a'.buf = .own b) := by
  have hsize : a.buf.ownBlock = none ∨ a.reserveBytes dataSize n ≠ 0 := by
    cases hown : a.buf.ownBlock with
    | none => exact .inl rfl
    | some b => exact .inr (hbytes b (Buffer.ownBlock_eq_some_iff.mp hown))
  obtain ⟨r, heap', hrealloc, hchanges⟩ := Heap.changes_realloc h.own_live o hsize
  have hreserve := @internalReserve_of_not_lent dataSize a heap n o hlent
  rw [hrealloc, Option.map_some] at hreserve
  cases r with
  | none =>
    refine ⟨a, heap', hreserve, ⟨fun b hb => ?_, h.flag⟩, hchanges, .inl rfl⟩
    exact (hchanges.own b (by simpa using hb)).1
  | some b =>
    refine ⟨_, heap', hreserve, ⟨fun c hc => ?_, ?_⟩, hchanges, .inr ⟨b, rfl⟩⟩
    · cases hc
      exact (hchanges.own _ rfl).1
    · exact ⟨fun _ => ⟨b, rfl⟩, fun _ => rfl⟩

theorem memmove_of_alive {dst : Option Place} (hdst : Alive heap dst)
    (hsrc : Alive heap (readOf src n)) : memmove heap dst src n = some () := by
  rw [memmove]
  split
  · rfl
  · rename_i hn
    rw [readOf, if_neg hn] at hsrc
    rw [touch_of_alive hsrc, touch_of_alive hdst]
    rfl

theorem alive_none (heap : Heap) : Alive heap none := fun b offset h => by cases h

theorem Alive.readOf (h : Alive heap src) (n : Nat) : Alive heap (readOf src n) := by
  cases n with
  | zero => exact alive_none heap
  | succ n => exact h

theorem Alive.readOf_ite (h : Alive heap (Ownership.readOf src n)) (b : Bool) :
    Alive heap (Ownership.readOf src (if b then n else 0)) := by
  cases b with
  | false => exact alive_none heap
  | true => exact h

theorem grows_of_null (hnull : a.buf = .null) (growth : Option Nat) :
    Grows dataSize a growth src where
  lent n p _ hp := by
    rw [hnull] at hp
    cases hp
  bytes n b _ hb := by
    rw [hnull] at hb
    cases hb
  apart n _ b offset hb := by
    rw [hnull] at hb
    cases hb

theorem grow_spec (h : Sound a heap) (o : Outcome) {growth : Option Nat}
    (hgrows : a.buf ≠ .null → Grows dataSize a growth src) (halive : Alive heap src) :
    ∃ a' heap', a.grow dataSize o heap growth = some (a', heap') ∧ Sound a' heap' ∧
      heap.Changes a.buf.ownBlock heap' a'.buf.ownBlock ∧
      (a'.buf = a.buf ∨ ∃ b, a'.buf = .own b) ∧ Alive heap' src := by
  cases growth with
  | none => exact ⟨a, heap, rfl, h, .refl h.own_live, .inl rfl, halive⟩
  | some n =>
    have hlent : ∀ p, a.buf ≠ .lent p := fun p hp =>
      (hgrows (by simp [hp])).lent n p rfl hp
    have hbytes : ∀ b, a.buf = .own b → a.reserveBytes dataSize n ≠ 0 := fun b hb =>
      (hgrows (by simp [hb])).bytes n b rfl hb
    have hapart : Apart a src := fun b offset hb =>
      (hgrows (by simp [hb])).apart n rfl b offset hb
    obtain ⟨a', heap', hreserve, hsound, hchanges, hbuf⟩ := internalReserve_spec h o hlent hbytes
    exact ⟨a', heap', hreserve, hsound, hchanges, hbuf, halive.of_changes hchanges hapart⟩

theorem internalResize_spec (h : Sound a heap) (o : Outcome)
    (hgrows : Grows dataSize a (a.resizeGrowth n) src) (halive : Alive heap src) :
    ∃ resized a' heap', a.internalResize dataSize o heap n = some (resized, a', heap') ∧
      Sound a' heap' ∧ heap.Changes a.buf.ownBlock heap' a'.buf.ownBlock ∧
      (a'.buf = a.buf ∨ ∃ b, a'.buf = .own b) ∧ Alive heap' src := by
  have hgrows' : a.buf ≠ .null → Grows dataSize a
      (if a.buf = .null ∨ a.capacity < n then some n else none) src := by
    intro hnull
    simpa only [ArrayState.resizeGrowth, hnull, false_or] using hgrows
  obtain ⟨a', heap', hgrow, hsound, hchanges, hbuf, halive'⟩ := grow_spec h o hgrows' halive
  rw [ArrayState.internalResize, hgrow]
  simp only [Option.bind_eq_bind, Option.bind_some]
  split
  · exact ⟨_, _, heap', rfl, ⟨hsound.live, hsound.flag⟩, hchanges, hbuf, halive'⟩
  · exact ⟨_, a', heap', rfl, hsound, hchanges, hbuf, halive'⟩

theorem resize_spec (h : Sound a heap) (o : Outcome)
    (hgrows : Grows dataSize a (a.resizeGrowth n) none) :
    Steps a heap (a.resize dataSize o heap n) := by
  obtain ⟨resized, a', heap', hresize, hsound, hchanges, -⟩ :=
    internalResize_spec h o hgrows (alive_none heap)
  refine ⟨a', heap', ?_, hsound, hchanges⟩
  rw [ArrayState.resize, hresize]
  rfl

theorem reserve_spec (h : Sound a heap) (o : Outcome) (hgrows : Grows dataSize a (some n) none) :
    Steps a heap (a.internalReserve dataSize o heap n) := by
  obtain ⟨a', heap', hgrow, hsound, hchanges, -⟩ :=
    grow_spec h o (fun _ => hgrows) (alive_none heap)
  exact ⟨a', heap', hgrow, hsound, hchanges⟩

theorem delete_spec (h : Sound a heap) : Steps a heap (a.deleteBuffer heap) := by
  obtain ⟨heap', hdelete, hchanges⟩ := deleteBuffer_spec h
  exact ⟨{}, heap', hdelete, sound_empty heap', hchanges⟩

/-- A buffer that was lent is deleted before `from` allocates. -/
theorem deleteLent_spec (h : Sound a heap)
    (hgrows : Grows dataSize a (a.fromGrowth n) src) (halive : Alive heap src) :
    ∃ a' heap', a.deleteLent heap = some (a', heap') ∧ Sound a' heap' ∧
      heap.Changes a.buf.ownBlock heap' a'.buf.ownBlock ∧ (∀ p, a'.buf ≠ .lent p) ∧
      Grows dataSize a' (a'.resizeGrowth n) src ∧ Alive heap' src := by
  by_cases hflag : a.hasOwnership = true
  · obtain ⟨b, hb⟩ := h.flag.mp hflag
    refine ⟨a, heap, if_pos hflag, h, .refl h.own_live, fun p hp => ?_, ?_, halive⟩
    · rw [hb] at hp
      cases hp
    · rwa [ArrayState.fromGrowth, if_pos hflag] at hgrows
  · have hdelete : a.deleteLent heap = some ({}, heap) := by
      rw [ArrayState.deleteLent, if_neg hflag, ArrayState.deleteBuffer,
        if_neg (fun h => hflag h.2)]
    refine ⟨{}, heap, hdelete, sound_empty heap, ?_, fun p hp => (by cases hp),
      grows_of_null rfl _, halive⟩
    exact ⟨le_rfl, fun c _ hc => hc, fun c hc => by cases hc⟩

theorem from_spec (h : Sound a heap) (o : Outcome)
    (hgrows : Grows dataSize a (a.fromGrowth n) (readOf src n))
    (halive : Alive heap (readOf src n)) : Steps a heap (a.from dataSize o heap src n) := by
  obtain ⟨a₁, heap₁, hdelete, hsound₁, hchanges₁, hlent₁, hgrows₁, halive₁⟩ :=
    deleteLent_spec h hgrows halive
  obtain ⟨resized, a₂, heap₂, hresize, hsound₂, hchanges₂, hbuf₂, halive₂⟩ :=
    internalResize_spec hsound₁ o hgrows₁ halive₁
  have hplace := hsound₂.alive_place hchanges₂ (fun p hp => absurd hp (hlent₁ p)) hbuf₂
  have hmove := memmove_of_alive hplace (halive₂.readOf_ite resized)
  refine ⟨a₂, heap₂, ?_, hsound₂, hchanges₁.trans hchanges₂⟩
  simp only [ArrayState.from, hdelete, hresize, hmove, Option.bind_eq_bind, Option.bind_some]

theorem copyAssign_spec (h : Sound a heap) (o : Outcome) (hapart : Apart a (readOf src n))
    (halive : Alive heap (readOf src n)) :
    Steps a heap ((a.deleteBuffer heap).bind fun r => r.1.from dataSize o r.2 src n) := by
  obtain ⟨heap₁, hdelete, hchanges₁⟩ := deleteBuffer_spec h
  obtain ⟨a', heap', hfrom, hsound, hchanges⟩ := from_spec (sound_empty heap₁) o
    (grows_of_null rfl _) (halive.of_changes hchanges₁ hapart)
  refine ⟨a', heap', ?_, hsound, hchanges₁.trans hchanges⟩
  rw [hdelete, Option.bind_some]
  exact hfrom

theorem pushBackValue_spec (h : Sound a heap) (o : Outcome)
    (hused : ∀ p, a.buf = .lent p → Alive heap (some p))
    (hgrows : Grows dataSize a (a.resizeGrowth (a.size + 1)) src) (halive : Alive heap src) :
    Steps a heap (a.pushBackValue dataSize o heap src) := by
  obtain ⟨resized, a', heap', hresize, hsound, hchanges, hbuf, halive'⟩ :=
    internalResize_spec h o hgrows halive
  have hplace := hsound.alive_place hchanges hused hbuf
  have hmove := memmove_of_alive hplace ((halive'.readOf 1).readOf_ite resized)
  refine ⟨a', heap', ?_, hsound, hchanges⟩
  simp only [ArrayState.pushBackValue, hresize, hmove, Option.bind_eq_bind, Option.bind_some]

theorem insert_spec (h : Sound a heap) (o : Outcome)
    (hused : ∀ p, a.buf = .lent p → Alive heap (some p))
    (hgrows : Grows dataSize a (a.insertGrowth n idx) (readOf src n))
    (halive : Alive heap (readOf src n)) :
    Steps a heap (a.insert dataSize o heap src n idx) := by
  rw [ArrayState.insert]
  split
  · exact h.steps
  · rename_i hidx
    rw [ArrayState.insertGrowth, if_neg hidx] at hgrows
    obtain ⟨a', heap', hgrow, hsound, hchanges, hbuf, halive'⟩ :=
      grow_spec h o (fun _ => hgrows) halive
    rw [ArrayState.resizeGrowth] at hgrow
    have hplace := hsound.alive_place hchanges hused hbuf
    have hmove := memmove_of_alive hplace (hplace.readOf (a'.size - idx))
    simp only [hgrow, hmove, memmove_of_alive hplace halive', Option.bind_eq_bind,
      Option.bind_some]
    split
    · exact ⟨a', heap', rfl, hsound, hchanges⟩
    · exact ⟨_, heap', rfl, ⟨hsound.live, hsound.flag⟩, hchanges⟩

theorem pop_spec (h : Sound a heap) (hused : ∀ p, a.buf = .lent p → Alive heap (some p)) :
    Steps a heap (a.pop heap idx) := by
  rw [ArrayState.pop]
  split
  · exact h.steps
  · have hplace := h.alive_place (.refl h.own_live) hused (.inl rfl)
    refine ⟨{ a with size := a.size - 1 }, heap, ?_, ⟨h.live, h.flag⟩, .refl h.own_live⟩
    simp only [touch_of_alive hplace, Option.bind_eq_bind, Option.bind_some]

theorem assign_spec (h : Sound a heap) {size capacity : Nat}
    (hapart : src = a.buf.place ∨ Apart a src) (halive : Alive heap src) :
    Steps a heap (a.assign heap src size capacity) := by
  rw [ArrayState.assign]
  split
  · rename_i hne
    obtain ⟨heap', hdelete, hchanges⟩ := deleteBuffer_spec h
    have halive' := halive.of_changes hchanges (hapart.resolve_left hne)
    simp only [hdelete, touch_of_alive halive', Option.bind_eq_bind, Option.bind_some]
    refine ⟨_, heap', rfl, ⟨fun b hb => ?_, ?_⟩, ?_⟩
    · cases src <;> cases hb
    · cases src <;> simp [Buffer.ofPlace]
    · cases src <;> exact hchanges
  · exact h.steps

end Operations

/-! ### The arrays of a program -/

/-- The invariant of a run: every array is sound and no block has two owners. -/
structure Owned {ι : Type*} (w : World ι) : Prop where
  sound : ∀ i, Sound (w.arrays i) w.heap
  apart : ∀ i j b, (w.arrays i).buf = .own b → (w.arrays j).buf = .own b → i = j

section Runs

variable {ι : Type*} [DecidableEq ι] {w : World ι} {i : ι}

omit [DecidableEq ι] in
theorem owned_initial : Owned (World.initial : World ι) where
  sound _ := sound_empty _
  apart i j b hb := by cases hb

theorem Owned.set (h : Owned w) {a' : ArrayState} {heap' : Heap} (hsound : Sound a' heap')
    (hchanges : w.heap.Changes (w.arrays i).buf.ownBlock heap' a'.buf.ownBlock) :
    Owned (w.set i (a', heap')) := by
  have hself : (w.set i (a', heap')).arrays i = a' := Function.update_self _ _ _
  have hother {j : ι} (hj : j ≠ i) : (w.set i (a', heap')).arrays j = w.arrays j :=
    Function.update_of_ne hj _ _
  -- a block of another array is not the one the array has now
  have hapart {j : ι} {b : Nat} (hj : j ≠ i) (hb : (w.arrays j).buf = .own b) :
      a'.buf ≠ .own b := by
    intro ha'
    rcases (hchanges.own b (Buffer.ownBlock_eq_some_iff.mpr ha')).2 with hown | hnext
    · exact hj (h.apart j i b hb (Buffer.ownBlock_eq_some_iff.mp hown))
    · exact absurd (w.heap.lt_next b ((h.sound j).live b hb)) (by omega)
  constructor
  · intro j
    by_cases hj : j = i
    · rw [hj, hself]
      exact hsound
    · rw [hother hj]
      refine ⟨fun b hb => hchanges.others b (fun hown => ?_) ((h.sound j).live b hb),
        (h.sound j).flag⟩
      exact hj (h.apart j i b hb (Buffer.ownBlock_eq_some_iff.mp hown))
  · intro j k b hjb hkb
    by_cases hj : j = i
    · by_cases hk : k = i
      · rw [hj, hk]
      · rw [hj, hself] at hjb
        rw [hother hk] at hkb
        exact absurd hjb (hapart hk hkb)
    · by_cases hk : k = i
      · rw [hk, hself] at hkb
        rw [hother hj] at hjb
        exact absurd hkb (hapart hj hjb)
      · rw [hother hj] at hjb
        rw [hother hk] at hkb
        exact h.apart j k b hjb hkb

theorem Owned.set_of_steps (h : Owned w) {r : Option (ArrayState × Heap)}
    (hsteps : Steps (w.arrays i) w.heap r) : ∃ w', r.map (w.set i) = some w' ∧ Owned w' := by
  obtain ⟨a', heap', rfl, hsound, hchanges⟩ := hsteps
  exact ⟨_, rfl, h.set hsound hchanges⟩

omit [DecidableEq ι] in
/-- Arrays under other names. -/
theorem Owned.perm (h : Owned w) (σ : Equiv.Perm ι) :
    Owned ⟨w.arrays ∘ σ, w.heap⟩ where
  sound j := h.sound (σ j)
  apart j k b hj hk := σ.injective (h.apart (σ j) (σ k) b hj hk)

/-- A move gives the two arrays each other's state after the first one has
deleted its buffer. -/
theorem Owned.move (h : Owned w) (other : ι) :
    ∃ w', w.move i other = some w' ∧ Owned w' := by
  rw [World.move]
  split
  · exact ⟨w, rfl, h⟩
  · rename_i hne
    obtain ⟨heap', hdelete, hchanges⟩ := deleteBuffer_spec (h.sound i)
    rw [hdelete]
    have hswap := (h.set (sound_empty heap') hchanges).perm (Equiv.swap i other)
    refine ⟨_, rfl, ?_⟩
    have harrays : ((w.set i (w.arrays other, heap')).set other ({}, heap')).arrays =
        (w.set i ({}, heap')).arrays ∘ Equiv.swap i other := by
      funext k
      rw [Function.comp_apply]
      by_cases hk : k = other
      · rw [hk, Equiv.swap_apply_right]
        simp [World.set]
      · by_cases hki : k = i
        · rw [hki, Equiv.swap_apply_left]
          simp [World.set, hne, Ne.symm hne]
        · rw [Equiv.swap_apply_of_ne_of_ne hki hk]
          simp [World.set, hk, hki]
    rw [← harrays] at hswap
    exact hswap

/-- A call that throws before it changes anything when `p` holds. -/
theorem Owned.set_unless (h : Owned w) {p : Prop} [Decidable p] {r : Option (ArrayState × Heap)}
    (hsteps : ¬ p → Steps (w.arrays i) w.heap r) :
    ∃ w', (if p then some w else r.map (w.set i)) = some w' ∧ Owned w' := by
  split
  · exact ⟨w, rfl, h⟩
  · rename_i hp
    exact h.set_of_steps (hsteps hp)

/-- A call that is allowed is not at fault and keeps the ownership. -/
theorem Owned.exec (h : Owned w) {dataSize : Nat} {c : Call ι} (hvalid : Valid dataSize w c)
    (hallowed : Allowed dataSize w c) :
    ∃ w', w.exec dataSize c = some w' ∧ Owned w' := by
  obtain ⟨i, op, o⟩ := c
  have hi := h.sound i
  cases op with
  | construct =>
    have hempty : w.arrays i = {} := hvalid
    refine ⟨_, rfl, h.set (sound_empty w.heap) ?_⟩
    rw [hempty]
    exact .refl (fun c hc => by cases hc)
  | copyConstruct other =>
    have hempty : w.arrays i = {} := hvalid.1
    refine h.set_of_steps ?_
    rw [hempty]
    exact from_spec (sound_empty w.heap) o (grows_of_null rfl _) hvalid.2
  | moveConstruct other | moveAssign other => exact h.move other
  | copyAssign other =>
    exact h.set_unless fun hne => copyAssign_spec hi o (hallowed.resolve_left hne) hvalid
  | destruct | deleteBuffer => exact h.set_of_steps (delete_spec hi)
  | «from» src n => exact h.set_of_steps (from_spec hi o hallowed hvalid)
  | fromBytes src bytes =>
    exact h.set_unless fun hbytes => from_spec hi o (hallowed.resolve_left hbytes) hvalid
  | assign arr size capacity => exact h.set_of_steps (assign_spec hi hallowed hvalid)
  | assignBytes arr size capacity =>
    refine h.set_unless fun hbytes => assign_spec hi ?_ hvalid
    rw [not_or] at hbytes
    exact (hallowed.resolve_left hbytes.1).resolve_left hbytes.2
  | pushBack src n => exact h.set_of_steps (insert_spec hi o hvalid.1 hallowed hvalid.2)
  | pushBackValue value =>
    exact h.set_of_steps (pushBackValue_spec hi o hvalid.1 hallowed hvalid.2)
  | pushFront src n => exact h.set_of_steps (insert_spec hi o hvalid.1 hallowed hvalid.2)
  | insert src n idx => exact h.set_of_steps (insert_spec hi o hvalid.1 hallowed hvalid.2)
  | resize size => exact h.set_of_steps (resize_spec hi o hallowed)
  | byteResize bytes =>
    exact h.set_unless fun hbytes => resize_spec hi o (hallowed.resolve_left hbytes)
  | reserve capacity => exact h.set_of_steps (reserve_spec hi o hallowed)
  | pop idx => exact h.set_of_steps (pop_spec hi hvalid)

end Runs

/-- The worlds that a program reaches when all its calls meet a condition. -/
abbrev Reached {ι : Type*} [DecidableEq ι] (dataSize : Nat)
    (allowed : World ι → Call ι → Prop) : World ι → Prop :=
  Transition.Reaches (World.exec dataSize) (fun w c => Valid dataSize w c ∧ allowed w c)
    (· = World.initial)

theorem Reached.owned {ι : Type*} [DecidableEq ι] {dataSize : Nat} {w : World ι}
    (h : Reached dataSize (Allowed dataSize) w) : Owned w := by
  refine Transition.Reaches.invariant (fun w hw => hw ▸ owned_initial) ?_ h
  intro w c w' howned hallowed hstep
  obtain ⟨w'', hexec, howned'⟩ := howned.exec hallowed.1 hallowed.2
  rw [hstep, Option.some.injEq] at hexec
  exact hexec ▸ howned'

/-- In a run whose calls all meet the condition no call is at fault: `realloc`
and `free` are called on live blocks of the array itself, and no block is used
after its release. -/
theorem exec_ne_none {ι : Type*} [DecidableEq ι] {dataSize : Nat} {w : World ι}
    (hreach : Reached dataSize (Allowed dataSize) w) {c : Call ι}
    (hvalid : Valid dataSize w c) (hallowed : Allowed dataSize w c) :
    w.exec dataSize c ≠ none := by
  obtain ⟨w', hexec, -⟩ := hreach.owned.exec hvalid hallowed
  rw [hexec]
  exact Option.some_ne_none w'

/-- A program with one array. -/
def single (a : ArrayState) (heap : Heap) : World Unit := ⟨fun _ => a, heap⟩

@[simp] theorem set_single (a : ArrayState) (heap : Heap) (r : ArrayState × Heap) :
    (single a heap).set () r = single r.1 r.2 := by
  rw [single, World.set, single]
  congr 1

/-- A buffer of one element that was lent, when an element is added. -/
def lentFull : ArrayState := { buf := .lent (.outside 0), size := 1, capacity := 1 }

/-- An array that owns a block of `n` elements. -/
def owner (n : Nat) : ArrayState :=
  { buf := .own 0, size := n, capacity := n, hasOwnership := true }

theorem exec_assign :
    World.initial.exec 4 ⟨(), .assign (some (.outside 0)) 1 1, .fails⟩ =
      some (single lentFull .empty) := by
  have hassign : ArrayState.assign {} Heap.empty (some (.outside 0)) 1 1 =
      some (lentFull, Heap.empty) := rfl
  change ((ArrayState.assign {} Heap.empty (some (.outside 0)) 1 1).map
    ((single {} Heap.empty).set ())) = _
  rw [hassign, Option.map_some, set_single]

theorem reached_lentFull {allowed : World Unit → Call Unit → Prop}
    (h : allowed World.initial ⟨(), .assign (some (.outside 0)) 1 1, .fails⟩) :
    Reached 4 allowed (single lentFull .empty) := by
  have hvalid : Valid 4 World.initial ⟨(), .assign (some (.outside 0)) 1 1, .fails⟩ :=
    fun b offset h => by cases h
  exact .next (.start rfl) ⟨hvalid, h⟩ exec_assign

/-- An array that was lent a buffer and copies elements to a block of its own. -/
theorem exec_from_ne_none :
    (single lentFull .empty).exec 4 ⟨(), .from (some (.outside 1)) 2, .moves⟩ ≠ none := by
  have hapart : Apart ({} : ArrayState) (some (.outside 0)) := fun b offset hb => by cases hb
  have hvalid : Valid 4 (single lentFull .empty) ⟨(), .from (some (.outside 1)) 2, .moves⟩ :=
    fun b offset h => by cases h
  have hallowed : Allowed 4 (single lentFull .empty)
      ⟨(), .from (some (.outside 1)) 2, .moves⟩ :=
    ⟨fun n p h => (by cases h), fun n b h => (by cases h), fun n h => (by cases h)⟩
  exact exec_ne_none (reached_lentFull (.inr hapart)) hvalid hallowed

theorem reached_owner (n : Nat) :
    Reached 4 (fun _ _ => True) (single (owner n) Heap.empty.alloc) := by
  have hresize : ArrayState.resize 4 .stays {} Heap.empty n =
      some (owner n, Heap.empty.alloc) := by
    simp [ArrayState.resize, ArrayState.internalResize, ArrayState.grow,
      ArrayState.internalReserve, Heap.realloc, Buffer.ownBlock, owner, Heap.empty]
  have hexec : World.initial.exec 4 ⟨(), .resize n, .stays⟩ =
      some (single (owner n) Heap.empty.alloc) := by
    change ((ArrayState.resize 4 .stays {} Heap.empty n).map
      ((single {} Heap.empty).set ())) = _
    rw [hresize, Option.map_some, set_single]
  have hvalid : Valid 4 World.initial ⟨(), .resize n, .stays⟩ := trivial
  exact .next (.start rfl) ⟨hvalid, trivial⟩ hexec

theorem reached_released :
    Reached 4 (fun _ _ => True) (single (owner 0) (Heap.empty.alloc.release 0)) := by
  have hreserve : ArrayState.internalReserve 4 .fails (owner 0) Heap.empty.alloc 0 =
      some (owner 0, Heap.empty.alloc.release 0) := by
    simp [ArrayState.internalReserve, ArrayState.reserveBytes, Heap.realloc, Buffer.ownBlock,
      owner, Heap.empty, Heap.alloc]
  have hexec : (single (owner 0) Heap.empty.alloc).exec 4 ⟨(), .reserve 0, .fails⟩ =
      some (single (owner 0) (Heap.empty.alloc.release 0)) := by
    change ((ArrayState.internalReserve 4 .fails (owner 0) Heap.empty.alloc 0).map
      ((single (owner 0) Heap.empty.alloc).set ())) = _
    rw [hreserve, Option.map_some, set_single]
  have hvalid : Valid 4 (single (owner 0) Heap.empty.alloc) ⟨(), .reserve 0, .fails⟩ := trivial
  exact .next (reached_owner 0) ⟨hvalid, trivial⟩ hexec

/-- A call that a program can make after other such calls, and that is at
fault. -/
def Faults (w : World Unit) (op : Op Unit) (o : Outcome) : Prop :=
  Reached 4 (fun _ _ => True) w ∧ Valid 4 w ⟨(), op, o⟩ ∧ w.exec 4 ⟨(), op, o⟩ = none

/-- A push to a buffer that was lent and is full calls `realloc` on it; an array
of capacity zero that reserves zero releases its block and frees it again; a
push of an element of the array itself reads it after the block was moved. -/
theorem faults :
    Faults (single lentFull .empty) (.pushBackValue (some (.outside 1))) .moves ∧
      Faults (single (owner 0) (Heap.empty.alloc.release 0)) .destruct .fails ∧
      Faults (single (owner 1) Heap.empty.alloc) (.pushBackValue (some (.block 0 0))) .moves := by
  refine ⟨⟨reached_lentFull trivial, ⟨fun p hp => ?_, fun b offset h => (by cases h)⟩, ?_⟩,
    ⟨reached_released, trivial, ?_⟩,
    ⟨reached_owner 1, ⟨fun p hp => (by cases hp), fun b offset h => (by cases h; rfl)⟩, ?_⟩⟩
  · cases hp
    exact fun b offset h => by cases h
  · have hpush : ArrayState.pushBackValue 4 .moves lentFull .empty (some (.outside 1)) =
        none := by
      simp [ArrayState.pushBackValue, ArrayState.internalResize, ArrayState.grow,
        ArrayState.internalReserve, lentFull]
    change (ArrayState.pushBackValue 4 .moves lentFull .empty (some (.outside 1))).map
      ((single lentFull .empty).set ()) = none
    rw [hpush, Option.map_none]
  · have hdelete : ArrayState.deleteBuffer (owner 0) (Heap.empty.alloc.release 0) = none := by
      simp [ArrayState.deleteBuffer, owner, Heap.free, Heap.release]
    change (ArrayState.deleteBuffer (owner 0) (Heap.empty.alloc.release 0)).map
      ((single (owner 0) (Heap.empty.alloc.release 0)).set ()) = none
    rw [hdelete, Option.map_none]
  · have hpush : ArrayState.pushBackValue 4 .moves (owner 1) Heap.empty.alloc
        (some (.block 0 0)) = none := by
      simp [ArrayState.pushBackValue, ArrayState.internalResize, ArrayState.grow,
        ArrayState.internalReserve, Heap.realloc, Buffer.ownBlock, owner, Heap.empty,
        Heap.alloc, memmove, touch, Heap.release, IArray.le_newCapacity]
    change (ArrayState.pushBackValue 4 .moves (owner 1) Heap.empty.alloc
      (some (.block 0 0))).map ((single (owner 1) Heap.empty.alloc).set ()) = none
    rw [hpush, Option.map_none]

end Ownership

end Sihd.Util
