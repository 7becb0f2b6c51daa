import Mathlib.Logic.Function.Basic
import Sihd.Util.Array

/-!
# Distribution, merge and comparison of arrays

Where an array is distributed, the arrays of a program are seen by the address and the
size of their buffers. The numbers of bytes are of type `size_t` and wrap, and so does
an address.
-/

namespace Sihd.Util.ArrayUtils

/-- `2 ^ 64`, the number of values of a `size_t`. -/
abbrev sizeMax : Nat := 2 ^ 64

/-- An array: the address of its buffer, with 0 for none, and its sizes. -/
structure View where
  dataSize : Nat
  dataSize_pos : 0 < dataSize
  bufPtr : Nat
  size : Nat
  capacity : Nat

namespace View

def byteSize (v : View) : Nat := v.size * v.dataSize % sizeMax

def assign (v : View) (arr size capacity : Nat) : View :=
  if arr ≠ v.bufPtr then { v with bufPtr := arr, size := size, capacity := capacity } else v

/-- The array after the call, or `none` for the exception. -/
def assignBytes (v : View) (buf bufByteSize : Nat) : Option View :=
  if bufByteSize % v.dataSize ≠ 0 then none
  else some (v.assign buf (bufByteSize / v.dataSize) (bufByteSize / v.dataSize))

end View

/-- An array that is assigned, before and after. -/
structure Assignment where
  before : View
  after : View

/-- The end of a call: whether it throws, and the assignments made. -/
structure Outcome where
  thrown : Bool
  assignments : List Assignment

theorem dataSize_assign (v : View) (arr size capacity : Nat) :
    (v.assign arr size capacity).dataSize = v.dataSize := by
  unfold View.assign
  split <;> rfl

theorem assign_of_eq {v : View} {arr : Nat} (h : arr = v.bufPtr) (size capacity : Nat) :
    v.assign arr size capacity = v := by
  simp [View.assign, h]

/-- The array is at the address, with the size unless it was there before. -/
theorem bufPtr_assign (v : View) (arr size capacity : Nat) :
    (v.assign arr size capacity).bufPtr = arr := by
  unfold View.assign
  split
  · rfl
  · rename_i h
    exact (not_not.mp h).symm

theorem assign_eq_self_iff {v : View} {arr size capacity : Nat} :
    v.assign arr size capacity = v ↔ arr = v.bufPtr := by
  constructor
  · intro h
    rw [← h, bufPtr_assign]
  · intro h
    exact assign_of_eq h size capacity

theorem size_assign {v : View} {arr size : Nat} (h : arr = v.bufPtr → v.size = size)
    (capacity : Nat) : (v.assign arr size capacity).size = size := by
  unfold View.assign
  split
  · rfl
  · rename_i heq
    exact h (not_not.mp heq)

/-! ## The sizes and the places -/

section

variable {ι : Type*}

def totalBytes (arrays : ι → View) (assigned : List (ι × Nat)) : Nat :=
  assigned.foldl (fun total p => (total + p.2 * (arrays p.1).dataSize % sizeMax) % sizeMax) 0

/-- The sum of the products, as integers. -/
def exactBytes (arrays : ι → View) (assigned : List (ι × Nat)) : Nat :=
  (assigned.map fun p => p.2 * (arrays p.1).dataSize).sum

/-- The ranges from an address on: their addresses and numbers of elements. -/
def consecutive (arrays : ι → View) : Nat → List (ι × Nat) → List (Nat × Nat)
  | _, [] => []
  | address, (i, count) :: assigned =>
      (address, count) :: consecutive arrays (address + count * (arrays i).dataSize) assigned

variable {arrays arrays' : ι → View}

theorem exactBytes_congr (h : ∀ i, (arrays' i).dataSize = (arrays i).dataSize)
    (assigned : List (ι × Nat)) : exactBytes arrays' assigned = exactBytes arrays assigned := by
  simp only [exactBytes, h]

theorem exactBytes_cons (arrays : ι → View) (i : ι) (count : Nat) (assigned : List (ι × Nat)) :
    exactBytes arrays ((i, count) :: assigned) =
      count * (arrays i).dataSize + exactBytes arrays assigned := by
  simp [exactBytes]

theorem consecutive_congr (h : ∀ i, (arrays' i).dataSize = (arrays i).dataSize)
    (address : Nat) (assigned : List (ι × Nat)) :
    consecutive arrays' address assigned = consecutive arrays address assigned := by
  induction assigned generalizing address with
  | nil => rfl
  | cons p assigned ih => simp only [consecutive, h, ih]

/-- The total is the sum of the products, wrapped. -/
theorem totalBytes_eq (arrays : ι → View) (assigned : List (ι × Nat)) :
    totalBytes arrays assigned = exactBytes arrays assigned % sizeMax := by
  have hfold : ∀ total, assigned.foldl
      (fun total p => (total + p.2 * (arrays p.1).dataSize % sizeMax) % sizeMax)
        (total % sizeMax) = (total + exactBytes arrays assigned) % sizeMax := by
    induction assigned with
    | nil => simp [exactBytes]
    | cons p assigned ih =>
      intro total
      rw [List.foldl_cons, ← Nat.add_mod, ih, exactBytes, exactBytes, List.map_cons, List.sum_cons,
        Nat.add_assoc]
  rw [totalBytes, ← Nat.zero_add (exactBytes arrays assigned), ← hfold 0, Nat.zero_mod]

/-! ## The call -/

variable [DecidableEq ι]

/-- The second loop of `distribute_array`, from an offset on. -/
def distributeFrom (distributing : ι) (offsetIdx : Nat) :
    (ι → View) → List (ι × Nat) → Outcome × (ι → View)
  | arrays, [] => (⟨false, []⟩, arrays)
  | arrays, (i, count) :: assigned =>
      let bytes := count * (arrays i).dataSize % sizeMax
      let buf := ((arrays distributing).bufPtr + offsetIdx) % sizeMax
      match (arrays i).assignBytes buf bytes with
      | none => (⟨true, []⟩, arrays)
      | some v =>
          let (o, arrays') := distributeFrom distributing ((offsetIdx + bytes) % sizeMax)
            (Function.update arrays i v) assigned
          (⟨o.thrown, ⟨arrays i, v⟩ :: o.assignments⟩, arrays')

def distributeArray (arrays : ι → View) (distributing : ι) (assigned : List (ι × Nat))
    (startingOffset : Nat) : Outcome × (ι → View) :=
  if startingOffset > (arrays distributing).byteSize then (⟨true, []⟩, arrays)
  else if (totalBytes arrays assigned + startingOffset) % sizeMax >
      (arrays distributing).byteSize then (⟨true, []⟩, arrays)
  else distributeFrom distributing startingOffset arrays assigned

/-- An array of a program that is distributed: its buffer is in memory. -/
structure Distribution (ι : Type*) where
  arrays : ι → View
  distributing : ι
  addressable : (arrays distributing).bufPtr +
    (arrays distributing).size * (arrays distributing).dataSize < sizeMax

/-- A call throws before it assigns an array anything, or it assigns consecutive
ranges of the exact sizes, all of them in the array that is distributed. -/
def Carves (d : Distribution ι) (assigned : List (ι × Nat)) (startingOffset : Nat) : Prop :=
  let (o, arrays) := distributeArray d.arrays d.distributing assigned startingOffset
  if o.thrown then ∀ a ∈ o.assignments, a.after = a.before
  else
    o.assignments.map (fun a => (a.after.bufPtr, a.after.size)) =
        consecutive d.arrays ((arrays d.distributing).bufPtr + startingOffset) assigned ∧
      startingOffset + exactBytes d.arrays assigned ≤ (arrays d.distributing).byteSize

/-- No array is already at the address of its range with another size, and the one
that is distributed moves nowhere. -/
def Lands (distributing : ι) : Nat → (ι → View) → List (ι × Nat) → Prop
  | _, _, [] => True
  | offset, arrays, (i, count) :: assigned =>
      ((arrays distributing).bufPtr + offset = (arrays i).bufPtr → (arrays i).size = count) ∧
        (i = distributing → offset = 0) ∧
        Lands distributing (offset + count * (arrays i).dataSize)
          (Function.update arrays i
            ((arrays i).assign ((arrays distributing).bufPtr + offset) count count)) assigned

/-- A product that wraps to no number of elements comes before any array that is
not at its address yet. -/
def RejectsFirst (arrays : ι → View) (distributing : ι) : Nat → List (ι × Nat) → Prop
  | _, [] => False
  | offset, (i, count) :: assigned =>
      count * (arrays i).dataSize % sizeMax % (arrays i).dataSize ≠ 0 ∨
        ((arrays distributing).bufPtr + offset) % sizeMax = (arrays i).bufPtr ∧
          RejectsFirst arrays distributing
            ((offset + count * (arrays i).dataSize % sizeMax) % sizeMax) assigned

variable {distributing : ι} {assigned : List (ι × Nat)} {offset : Nat}

/-! ### The loop -/

theorem dataSize_update_assign (arrays : ι → View) (i : ι) (arr size capacity : Nat) (j : ι) :
    (Function.update arrays i ((arrays i).assign arr size capacity) j).dataSize =
      (arrays j).dataSize := by
  by_cases hj : j = i
  · subst hj
    simp [dataSize_assign]
  · simp [hj]

/-- A turn whose product does not wrap. -/
theorem distributeFrom_cons (arrays : ι → View) (distributing i : ι) (offset : Nat) {count : Nat}
    (h : count * (arrays i).dataSize < sizeMax) (assigned : List (ι × Nat)) :
    let v := (arrays i).assign (((arrays distributing).bufPtr + offset) % sizeMax) count count
    let r := distributeFrom distributing ((offset + count * (arrays i).dataSize) % sizeMax)
      (Function.update arrays i v) assigned
    distributeFrom distributing offset arrays ((i, count) :: assigned) =
      (⟨r.1.thrown, ⟨arrays i, v⟩ :: r.1.assignments⟩, r.2) := by
  simp [distributeFrom, View.assignBytes, Nat.mod_eq_of_lt h,
    Nat.mul_div_cancel _ (arrays i).dataSize_pos]

/-- The places of the arrays after their assignments. -/
def places (o : Outcome) : List (Nat × Nat) :=
  o.assignments.map fun a => (a.after.bufPtr, a.after.size)

theorem places_cons (b : Bool) (before after : View) (l : List Assignment) :
    places ⟨b, ⟨before, after⟩ :: l⟩ = (after.bufPtr, after.size) :: places ⟨b, l⟩ := rfl

theorem distributeFrom_of_lands (h : Lands distributing offset arrays assigned)
    (hfits : (arrays distributing).bufPtr + offset + exactBytes arrays assigned < sizeMax) :
    let r := distributeFrom distributing offset arrays assigned
    r.1.thrown = false ∧
      places r.1 = consecutive arrays ((arrays distributing).bufPtr + offset) assigned ∧
      r.2 distributing = arrays distributing := by
  induction assigned generalizing arrays offset with
  | nil => exact ⟨rfl, rfl, rfl⟩
  | cons p assigned ih =>
    obtain ⟨i, count⟩ := p
    obtain ⟨hhere, hself, hrest⟩ := h
    rw [exactBytes_cons] at hfits
    have hbytes : count * (arrays i).dataSize < sizeMax := by omega
    have hcons := distributeFrom_cons arrays distributing i offset hbytes assigned
    dsimp only at hcons
    rw [Nat.mod_eq_of_lt (by omega), Nat.mod_eq_of_lt (by omega)] at hcons
    have htypes := dataSize_update_assign arrays i
      ((arrays distributing).bufPtr + offset) count count
    have hunmoved : Function.update arrays i
        ((arrays i).assign ((arrays distributing).bufPtr + offset) count count) distributing =
          arrays distributing := by
      by_cases hi : i = distributing
      · subst hi
        rw [Function.update_self, assign_of_eq (by simp [hself rfl])]
      · rw [Function.update_of_ne (Ne.symm hi)]
    have ih := ih hrest (by rw [hunmoved, exactBytes_congr htypes]; omega)
    dsimp only at ih
    rw [hunmoved, consecutive_congr htypes] at ih
    dsimp only
    rw [hcons, places_cons, bufPtr_assign, size_assign hhere]
    refine ⟨ih.1, ?_, ih.2.2⟩
    rw [consecutive, Nat.add_assoc]
    exact congrArg _ ih.2.1

/-- Where the places are right, the array that is distributed has not moved and no
other one was in the way. -/
theorem lands_of_distributeFrom (hptr : (arrays distributing).bufPtr < sizeMax)
    (hfits : offset + exactBytes arrays assigned < sizeMax)
    (hplaces : let r := distributeFrom distributing offset arrays assigned
      places r.1 = consecutive arrays ((r.2 distributing).bufPtr + offset) assigned) :
    let r := distributeFrom distributing offset arrays assigned
    r.2 distributing = arrays distributing ∧
      ((arrays distributing).bufPtr + offset + exactBytes arrays assigned < sizeMax →
        Lands distributing offset arrays assigned) := by
  induction assigned generalizing arrays offset with
  | nil => exact ⟨rfl, fun _ => trivial⟩
  | cons p assigned ih =>
    obtain ⟨i, count⟩ := p
    rw [exactBytes_cons] at hfits ⊢
    have hbytes : count * (arrays i).dataSize < sizeMax := by omega
    have hcons := distributeFrom_cons arrays distributing i offset hbytes assigned
    dsimp only at hcons hplaces ⊢
    rw [Nat.mod_eq_of_lt (a := offset + _) (by omega)] at hcons
    rw [hcons] at hplaces ⊢
    have htypes := dataSize_update_assign arrays i
      (((arrays distributing).bufPtr + offset) % sizeMax) count count
    rw [places_cons, consecutive, bufPtr_assign] at hplaces
    obtain ⟨hhead, htail⟩ := List.cons.inj hplaces
    obtain ⟨hbuf, hsize⟩ := Prod.mk.inj hhead
    have hptr' : (Function.update arrays i ((arrays i).assign
        (((arrays distributing).bufPtr + offset) % sizeMax) count count) distributing).bufPtr <
          sizeMax := by
      by_cases hi : i = distributing
      · subst hi
        rw [Function.update_self, bufPtr_assign]
        exact Nat.mod_lt _ (Nat.two_pow_pos 64)
      · rwa [Function.update_of_ne (Ne.symm hi)]
    rw [Nat.add_assoc, ← consecutive_congr htypes] at htail
    obtain ⟨hsame, hlands⟩ := ih hptr' (by rw [exactBytes_congr htypes]; omega) htail
    rw [hsame] at hbuf
    have hself : i = distributing → offset = 0 := by
      rintro rfl
      rw [Function.update_self, bufPtr_assign] at hbuf
      omega
    have hunmoved : Function.update arrays i ((arrays i).assign
        (((arrays distributing).bufPtr + offset) % sizeMax) count count) distributing =
          arrays distributing := by
      by_cases hi : i = distributing
      · have hoffset := hself hi
        subst hi
        rw [Function.update_self, hoffset, Nat.add_zero, Nat.mod_eq_of_lt hptr,
          assign_of_eq rfl]
      · rw [Function.update_of_ne (Ne.symm hi)]
    refine ⟨hsame.trans hunmoved, fun hroom => ?_⟩
    rw [hunmoved, exactBytes_congr htypes] at hlands
    have hlands := hlands (by omega)
    rw [Nat.mod_eq_of_lt (by omega)] at hlands hsize
    refine ⟨fun heq => ?_, hself, hlands⟩
    rwa [assign_of_eq heq] at hsize

theorem distributeFrom_thrown_iff :
    let r := distributeFrom distributing offset arrays assigned
    (r.1.thrown = true ∧ ∀ a ∈ r.1.assignments, a.after = a.before) ↔
      RejectsFirst arrays distributing offset assigned := by
  induction assigned generalizing offset with
  | nil => simp [distributeFrom, RejectsFirst]
  | cons p assigned ih =>
    obtain ⟨i, count⟩ := p
    rw [distributeFrom, RejectsFirst, View.assignBytes]
    dsimp only
    by_cases hwhole : count * (arrays i).dataSize % sizeMax % (arrays i).dataSize = 0
    · simp only [hwhole, ne_eq, not_true, if_false, false_or, List.forall_mem_cons,
        assign_eq_self_iff]
      rw [and_left_comm]
      apply and_congr_right
      intro hbuf
      rw [assign_of_eq hbuf, Function.update_eq_self]
      exact ih
    · simp [hwhole]

/-- A loop that throws had an array in the way, or not enough room. -/
theorem not_lands_of_thrown
    (haddressable : (arrays distributing).bufPtr + (arrays distributing).byteSize < sizeMax)
    (hthrown : (distributeFrom distributing offset arrays assigned).1.thrown = true) :
    ¬(offset + exactBytes arrays assigned ≤ (arrays distributing).byteSize ∧
      Lands distributing offset arrays assigned) := by
  rintro ⟨hfits, hlands⟩
  have hreturned := (distributeFrom_of_lands hlands (by omega)).1
  rw [hthrown] at hreturned
  cases hreturned

/-- A loop that returns carves exactly when there is room and no array is in the way. -/
theorem carved_iff_lands
    (haddressable : (arrays distributing).bufPtr + (arrays distributing).byteSize < sizeMax) :
    let r := distributeFrom distributing offset arrays assigned
    (places r.1 = consecutive arrays ((r.2 distributing).bufPtr + offset) assigned ∧
        offset + exactBytes arrays assigned ≤ (r.2 distributing).byteSize) ↔
      offset + exactBytes arrays assigned ≤ (arrays distributing).byteSize ∧
        Lands distributing offset arrays assigned := by
  constructor
  · rintro ⟨hconsecutive, hfits⟩
    have hbound : ((distributeFrom distributing offset arrays assigned).2
        distributing).byteSize < sizeMax := Nat.mod_lt _ (Nat.two_pow_pos 64)
    obtain ⟨hsame, hlands⟩ := lands_of_distributeFrom (by omega) (by omega) hconsecutive
    rw [hsame] at hfits
    exact ⟨hfits, hlands (by omega)⟩
  · rintro ⟨hfits, hlands⟩
    obtain ⟨-, hconsecutive, hsame⟩ := distributeFrom_of_lands hlands (by omega)
    rw [hsame]
    exact ⟨hconsecutive, hfits⟩

/-- The array is carved exactly when one of the two checks stops the call, when the
ranges fit as integers and no array is in the way, or when a product that wraps is no
number of elements and comes before any array that moves. -/
theorem carves_iff (d : Distribution ι) (assigned : List (ι × Nat)) (startingOffset : Nat) :
    let distributed := d.arrays d.distributing
    let exact := exactBytes d.arrays assigned
    Carves d assigned startingOffset ↔
      distributed.byteSize < startingOffset ∨
        distributed.byteSize < (exact + startingOffset) % sizeMax ∨
        startingOffset + exact ≤ distributed.byteSize ∧
          Lands d.distributing startingOffset d.arrays assigned ∨
        RejectsFirst d.arrays d.distributing startingOffset assigned := by
  dsimp only
  have hroom := d.addressable
  have hsize : (d.arrays d.distributing).byteSize =
      (d.arrays d.distributing).size * (d.arrays d.distributing).dataSize :=
    Nat.mod_eq_of_lt (by omega)
  have haddressable : (d.arrays d.distributing).bufPtr +
      (d.arrays d.distributing).byteSize < sizeMax := by
    rw [hsize]
    exact hroom
  unfold Carves distributeArray
  rw [totalBytes_eq, Nat.mod_add_mod]
  by_cases hstart : startingOffset > (d.arrays d.distributing).byteSize
  · simp [hstart]
  by_cases htotal : (exactBytes d.arrays assigned + startingOffset) % sizeMax >
      (d.arrays d.distributing).byteSize
  · simp [hstart, htotal]
  have hreturns := @carved_iff_lands ι d.arrays _ d.distributing assigned startingOffset haddressable
  have hlost := @not_lands_of_thrown ι d.arrays _ d.distributing assigned startingOffset haddressable
  have hthrown := @distributeFrom_thrown_iff ι d.arrays _ d.distributing assigned startingOffset
  dsimp only at hreturns hthrown
  rw [if_neg hstart, if_neg htotal, or_iff_right hstart, or_iff_right htotal, ← hthrown]
  generalize distributeFrom d.distributing startingOffset d.arrays assigned = r at hreturns hlost ⊢
  obtain ⟨⟨thrown, assignments⟩, arrays'⟩ := r
  cases thrown with
  | true =>
    dsimp only at hlost ⊢
    rw [if_pos rfl, or_iff_right (hlost rfl), and_iff_right rfl]
  | false =>
    dsimp only
    rw [if_neg Bool.false_ne_true, or_iff_left (by simp)]
    exact hreturns

end

/-- Arrays of bytes: one of 8 bytes to distribute and two that are empty. -/
def eightBytes : Distribution (Fin 3) where
  arrays i := ⟨1, Nat.one_pos, if i = 0 then 4096 else 0, if i = 0 then 8 else 0,
    if i = 0 then 8 else 0⟩
  distributing := 0
  addressable := by decide

/-- The counts `2 ^ 64 - 8` and 16 have the sum 8. -/
theorem not_carves_of_wrapped_sum : ¬ Carves eightBytes [(1, 2 ^ 64 - 8), (2, 16)] 0 := by
  intro h
  have hfits : 0 + exactBytes eightBytes.arrays [(1, 2 ^ 64 - 8), (2, 16)] ≤ 8 := h.2
  exact absurd hfits (by decide)

/-! ## The merge -/

/-- The memory that `realloc` gives: no object is larger than `2 ^ 63 - 1` bytes. -/
structure Memory where
  grants : Nat → Bool
  lt_of_grants : ∀ {n}, grants n = true → n < 2 ^ 63

/-- `copy_from_bytes` on the bytes of an array. -/
def copyFromBytes (dst src : List UInt8) (slice : Slice) : Option (List UInt8) :=
  let range := slice.resolve dst.length
  if range.stop ≤ range.start ∨ dst.length < range.start + src.length then none
  else some (overwrite dst range.start src)

/-- The bytes of some arrays, in their order. -/
def concat (arrays : List ArrByteView) : List UInt8 := arrays.flatMap ArrByteView.bytes

variable {array : ArrByteView} {arrays : List ArrByteView} {ret ret' : List UInt8}
  {copyIdx : Nat}

/-- A type of elements. -/
structure ElementType where
  dataSize : Nat
  pos : 0 < dataSize

/-- The elements of an array or of a view, as they are in memory. -/
structure Elements (t : ElementType) where
  bytes : List UInt8
  whole : t.dataSize ∣ bytes.length
  addressable : bytes.length < 2 ^ 63

/-- `memcmp(x + start, y, n) == 0`, or `none` when it reads outside one of them. -/
def memcmpEqual (x : List UInt8) (start : Nat) (y : List UInt8) (n : Nat) : Option Bool :=
  if start + n ≤ x.length ∧ n ≤ y.length then some ((x.drop start).take n == y.take n) else none

namespace Elements

variable {t : ElementType}

def size (x : Elements t) : Nat := x.bytes.length / t.dataSize

def byteSize (x : Elements t) : Nat := x.size * t.dataSize % sizeMax

/-- `operator==` of two views. -/
def viewEqual (x y : Elements t) : Option Bool :=
  if x.byteSize < y.byteSize then some false
  else memcmpEqual x.bytes 0 y.bytes y.byteSize

def viewNotEqual (x y : Elements t) : Option Bool := (x.viewEqual y).map not

/-- `is_equal` of an array at an offset, which is multiplied by the size of the elements
and cast to `ssize_t`. -/
def isEqual (x y : Elements t) (offset : Nat) : Option Bool :=
  let range := (Slice.ofCast (offset * t.dataSize % sizeMax)).resolve x.byteSize
  if (range.start + y.byteSize) % sizeMax > x.byteSize then some false
  else memcmpEqual x.bytes range.start y.bytes y.byteSize

/-- The elements of `y` are in `x` from an offset on. -/
def At (x y : Elements t) (offset : Nat) : Prop :=
  offset + y.size ≤ x.size ∧ y.bytes <+: x.bytes.drop (offset * t.dataSize)

instance (x y : Elements t) (offset : Nat) : Decidable (x.At y offset) := by
  unfold At
  infer_instance

/-- The byte at which the comparison starts: behind the last one it is the first one
again, or one that is counted from the end. -/
def compareFrom (x : Elements t) (offset : Nat) : Nat :=
  let bytes := offset * t.dataSize % sizeMax
  if bytes < x.bytes.length then bytes
  else if bytes < 2 ^ 63 then 0
  else x.bytes.length - (sizeMax - bytes)

variable (x y : Elements t)

theorem byteSize_eq : x.byteSize = x.bytes.length := by
  have hbytes : x.size * t.dataSize = x.bytes.length := Nat.div_mul_cancel x.whole
  have haddressable := x.addressable
  rw [byteSize, hbytes]
  exact Nat.mod_eq_of_lt (show _ < 2 ^ 64 by omega)

/-- The first comparison is that of the start of a view. -/
theorem viewEqual_eq : x.viewEqual y = some (decide (y.bytes <+: x.bytes)) := by
  rw [viewEqual, byteSize_eq, byteSize_eq, memcmpEqual]
  split
  · rename_i hlt
    have hnot : ¬ y.bytes <+: x.bytes := fun h => absurd h.length_le (by omega)
    simp [hnot]
  · rename_i hle
    rw [if_pos (by omega), List.drop_zero, List.take_length]
    congr 1
    rw [Bool.eq_iff_iff, beq_iff_eq, decide_eq_true_iff, List.prefix_iff_eq_take, eq_comm]

theorem start_resolve (offset : Nat) :
    ((Slice.ofCast (offset * t.dataSize % sizeMax)).resolve x.bytes.length).start =
      x.compareFrom offset := by
  have haddressable := x.addressable
  have hlt : offset * t.dataSize % sizeMax < 2 ^ 64 := Nat.mod_lt _ (Nat.two_pow_pos 64)
  rw [compareFrom]
  split
  · rename_i hinside
    rw [Slice.ofCast_of_lt (by omega), Slice.resolve_ofOffset_of_lt hinside]
  · rename_i hoffset
    split
    · rename_i hpositive
      rw [Slice.ofCast_of_lt hpositive, Slice.resolve_ofOffset_of_ge (not_lt.mp hoffset)]
    · rename_i hnegative
      rw [Slice.resolve_ofCast_of_ge (not_lt.mp hnegative) hlt]

theorem compareFrom_le (offset : Nat) : x.compareFrom offset ≤ x.bytes.length := by
  rw [compareFrom]
  split_ifs <;> omega

/-- The second comparison is that of the bytes where it starts. -/
theorem isEqual_eq (offset : Nat) :
    x.isEqual y offset = some (decide (y.bytes <+: x.bytes.drop (x.compareFrom offset))) := by
  have hstart := x.compareFrom_le offset
  have hx := x.addressable
  have hy := y.addressable
  rw [isEqual, byteSize_eq, byteSize_eq, start_resolve]
  rw [Nat.mod_eq_of_lt (show _ < 2 ^ 64 by omega), memcmpEqual]
  split
  · rename_i hlt
    have hnot : ¬ y.bytes <+: x.bytes.drop (x.compareFrom offset) := by
      intro h
      have hle := h.length_le
      rw [List.length_drop] at hle
      omega
    simp [hnot]
  · rename_i hle
    rw [if_pos (by omega), List.take_length]
    congr 1
    rw [Bool.eq_iff_iff, beq_iff_eq, decide_eq_true_iff, List.prefix_iff_eq_take, eq_comm]

theorem offset_lt_iff (offset : Nat) :
    offset < x.size ↔ offset * t.dataSize < x.bytes.length := by
  rw [size, Nat.lt_div_iff_mul_lt' x.whole, Nat.mul_comm]

theorem compareFrom_of_lt {offset : Nat} (h : offset < x.size) :
    x.compareFrom offset = offset * t.dataSize := by
  have hbytes := (x.offset_lt_iff offset).mp h
  have haddressable := x.addressable
  rw [compareFrom, Nat.mod_eq_of_lt (show _ < 2 ^ 64 by omega)]
  exact if_pos hbytes

theorem size_mul : x.size * t.dataSize = x.bytes.length := Nat.div_mul_cancel x.whole

/-- What is found in the array fits. -/
theorem at_of_prefix {offset : Nat} (h : y.bytes <+: x.bytes.drop (offset * t.dataSize))
    (hle : offset * t.dataSize ≤ x.bytes.length) : x.At y offset := by
  refine ⟨Nat.le_of_mul_le_mul_right ?_ t.pos, h⟩
  have hlength := h.length_le
  rw [List.length_drop] at hlength
  rw [Nat.add_mul, size_mul, size_mul]
  omega

/-- Behind the elements there is the empty sequence only, and only at the end. -/
theorem at_iff_of_le {offset : Nat} (h : x.size ≤ offset) :
    x.At y offset ↔ offset = x.size ∧ y.bytes = [] := by
  have hempty : y.size = 0 ↔ y.bytes = [] := by
    rw [← List.length_eq_zero_iff, ← size_mul]
    simp [t.pos.ne']
  constructor
  · rintro ⟨hfits, -⟩
    exact ⟨by omega, hempty.mp (by omega)⟩
  · rintro ⟨rfl, hnil⟩
    exact ⟨by rw [hempty.mpr hnil, Nat.add_zero], by simp [hnil]⟩

theorem isEqual_iff (offset : Nat) :
    x.isEqual y offset = some (decide (x.At y offset)) ↔
      offset < x.size ∨ offset = x.size ∧ y.bytes = [] ∨
        ¬ y.bytes <+: x.bytes.drop (x.compareFrom offset) := by
  rw [isEqual_eq, Option.some_inj, decide_eq_decide]
  rcases lt_or_ge offset x.size with hlt | hge
  · have hbytes := (x.offset_lt_iff offset).mp hlt
    rw [compareFrom_of_lt x hlt]
    exact iff_of_true ⟨fun h => x.at_of_prefix y h hbytes.le, And.right⟩ (.inl hlt)
  · rw [x.at_iff_of_le y hge, or_iff_right hge.not_gt]
    by_cases hend : offset = x.size ∧ y.bytes = []
    · simp [hend]
    · simp [hend]

/-- Two views are compared as their contents exactly when the second one is no start of
the first one other than it, and an array is compared with a sequence at an offset as
their contents exactly when the offset is in the array, or the sequence is empty and the
offset is the size, or the sequence is not found where the comparison starts. -/
theorem equal_iff (t : ElementType) :
    (∀ x y : Elements t,
        x.viewEqual y = some (decide (x.bytes = y.bytes)) ∧
            x.viewNotEqual y = some (decide (x.bytes ≠ y.bytes)) ↔
          ¬ (y.bytes <+: x.bytes ∧ y.bytes ≠ x.bytes)) ∧
      ∀ (x y : Elements t) (offset : Nat),
        x.isEqual y offset = some (decide (x.At y offset)) ↔
          offset < x.size ∨ offset = x.size ∧ y.bytes = [] ∨
            ¬ y.bytes <+: x.bytes.drop (x.compareFrom offset) := by
  refine ⟨fun x y => ?_, fun x y offset => x.isEqual_iff y offset⟩
  rw [viewNotEqual, viewEqual_eq, Option.map_some, Option.some_inj, Option.some_inj]
  by_cases hsame : x.bytes = y.bytes
  · simp [hsame]
  · simp [hsame, Ne.symm hsame]

def byteType : ElementType := ⟨1, Nat.one_pos⟩

def oneByte : Elements byteType := ⟨[1], one_dvd _, by decide⟩

def twoBytes : Elements byteType := ⟨[1, 2], one_dvd _, by decide⟩

/-- A view equals its own start, and an array of one element has it at the offset 5. -/
theorem not_equal_contents :
    ¬ twoBytes.viewEqual oneByte = some (decide (twoBytes.bytes = oneByte.bytes)) ∧
      ¬ oneByte.isEqual oneByte 5 = some (decide (oneByte.At oneByte 5)) := by
  decide

end Elements

end Sihd.Util.ArrayUtils
