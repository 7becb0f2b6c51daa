import Sihd.Util.ArrayUtils

/-!
# The capacity of arrays

The capacity that an array asks for is the current one, multiplied by a growth factor
until it is enough, and the bytes asked for are the capacity times the size of an
element. Both products are of type `size_t`. An array is seen by its block, its size and
its capacity; the loop of the products is given a number of turns to end in.
-/

namespace Sihd.Util.ArrayCapacity

open ArrayUtils (sizeMax Memory ElementType)

/-- The buffer of an array: none, a block of its own, memory that was lent to it, or a
block that `realloc` has released. -/
inductive Block where
  | null
  | own
  | lent
  | released
  deriving DecidableEq

structure ArrayState where
  block : Block
  size : Nat
  capacity : Nat
  deriving DecidableEq

/-- An array that can be used. -/
structure ArrayState.Valid (t : ElementType) (a : ArrayState) : Prop where
  block : a.block ≠ .released
  null : a.block = .null → a.size = 0 ∧ a.capacity = 0
  size : a.size ≤ a.capacity
  addressable : a.capacity * t.dataSize < 2 ^ 63

/-- How a call ends: with `realloc` on memory that is no block of the heap, with an
exception, or with its value and the bytes that it asked `realloc` for. -/
inductive Outcome where
  | fault
  | thrown (a : ArrayState)
  | returned (value : Bool) (asked : Option Nat) (a : ArrayState)
  deriving DecidableEq

/-- The loop of `_internal_reserve`, in a number of turns. -/
def growCapacity (mult : Nat) : Nat → Nat → Nat → Option Nat
  | 0, _, _ => none
  | turns + 1, newCapacity, capacity =>
      if newCapacity < capacity then
        growCapacity mult turns (newCapacity * mult % sizeMax) capacity
      else some newCapacity

section

variable (memory : Memory) (mult : Nat) (t : ElementType)

/-- The capacity that is asked for. -/
def wantedCapacity (turns : Nat) (a : ArrayState) (capacity : Nat) : Option Nat :=
  if 1 < mult ∧ 0 < a.capacity then growCapacity mult turns a.capacity capacity
  else some capacity

/-- `realloc` and what follows it. No byte of an own block is a release. -/
def reallocTo (a : ArrayState) (capacity : Nat) : Outcome :=
  let bytes := capacity * t.dataSize % sizeMax
  match a.block with
  | .lent | .released => .fault
  | .null | .own =>
      if a.block = .own ∧ bytes = 0 then .returned false bytes { a with block := .released }
      else if memory.grants bytes then
        .returned true bytes ⟨.own, min a.size capacity, capacity⟩
      else .returned false bytes a

def internalReserve (turns : Nat) (a : ArrayState) (capacity : Nat) : Option Outcome :=
  (wantedCapacity mult turns a capacity).map (reallocTo memory t a)

/-- The end of `_internal_resize`. -/
def setSize (size : Nat) : Outcome → Outcome
  | .returned _ asked a =>
      let a := if a.block ≠ .null ∧ size ≤ a.capacity then { a with size := size } else a
      .returned (a.size = size) asked a
  | o => o

def internalResize (turns : Nat) (a : ArrayState) (size : Nat) : Option Outcome :=
  if a.block = .null ∨ size > a.capacity then
    (internalReserve memory mult t turns a size).map (setSize size)
  else some (setSize size (.returned true none a))

inductive Call where
  | resize (size : Nat)
  | byteResize (byteSize : Nat)
  | reserve (capacity : Nat)
  | byteReserve (byteSize : Nat)

def exec (turns : Nat) (a : ArrayState) : Call → Option Outcome
  | .resize size => internalResize memory mult t turns a size
  | .byteResize byteSize =>
      if byteSize % t.dataSize ≠ 0 then some (.thrown a)
      else internalResize memory mult t turns a (byteSize / t.dataSize)
  | .reserve capacity => internalReserve memory mult t turns a capacity
  | .byteReserve byteSize =>
      if byteSize % t.dataSize ≠ 0 then some (.thrown a)
      else internalReserve memory mult t turns a (byteSize / t.dataSize)

end

/-- The number of elements that a call requests. -/
def Call.requested (t : ElementType) : Call → Nat
  | .resize n | .reserve n => n
  | .byteResize n | .byteReserve n => n / t.dataSize

/-- A refusal leaves the array as it was, and what is granted is enough and what was
asked for. -/
def Kept (t : ElementType) (a : ArrayState) (requested : Nat) : Outcome → Prop
  | .fault => False
  | .thrown a' => a' = a
  | .returned false _ a' => a' = a
  | .returned true asked a' =>
      requested ≤ a'.capacity ∧ ∀ bytes ∈ asked, bytes = a'.capacity * t.dataSize

/-- A call that ends, and ends well. -/
def Grows (memory : Memory) (mult : Nat) (t : ElementType) (a : ArrayState) (c : Call) : Prop :=
  ∃ turns o, exec memory mult t turns a c = some o ∧ Kept t a (c.requested t) o

/-- The first of the wrapped products that is enough, if the capacity is multiplied. -/
def FirstEnough (mult : Nat) (a : ArrayState) (capacity wanted : Nat) : Prop :=
  if 1 < mult ∧ 0 < a.capacity then
    ∃ i, wanted = a.capacity * mult ^ i % sizeMax ∧ capacity ≤ wanted ∧
      ∀ j < i, a.capacity * mult ^ j % sizeMax < capacity
  else wanted = capacity

/-- There is a product that is enough, whose bytes do not wrap or are refused, and which
is asked of `realloc` for a block of the array and for some bytes. -/
def ReserveSafe (memory : Memory) (mult : Nat) (t : ElementType) (a : ArrayState)
    (capacity : Nat) : Prop :=
  a.block ≠ .lent ∧ ∃ wanted, FirstEnough mult a capacity wanted ∧
    (a.block = .own → wanted * t.dataSize % sizeMax ≠ 0) ∧
    (memory.grants (wanted * t.dataSize % sizeMax) = true → wanted * t.dataSize < sizeMax)

def ResizeSafe (memory : Memory) (mult : Nat) (t : ElementType) (a : ArrayState)
    (size : Nat) : Prop :=
  a.block ≠ .null ∧ size ≤ a.capacity ∨ ReserveSafe memory mult t a size

def Call.Safe (memory : Memory) (mult : Nat) (t : ElementType) (a : ArrayState) : Call → Prop
  | .resize size => ResizeSafe memory mult t a size
  | .byteResize byteSize =>
      byteSize % t.dataSize ≠ 0 ∨ ResizeSafe memory mult t a (byteSize / t.dataSize)
  | .reserve capacity => ReserveSafe memory mult t a capacity
  | .byteReserve byteSize =>
      byteSize % t.dataSize ≠ 0 ∨ ReserveSafe memory mult t a (byteSize / t.dataSize)

/-! ## The loop -/

theorem growCapacity_iff {mult start capacity wanted : Nat} (h : start < sizeMax) :
    (∃ turns, growCapacity mult turns start capacity = some wanted) ↔
      ∃ i, wanted = start * mult ^ i % sizeMax ∧ capacity ≤ wanted ∧
        ∀ j < i, start * mult ^ j % sizeMax < capacity := by
  have hnext : ∀ (start i : Nat), start * mult % sizeMax * mult ^ i % sizeMax =
      start * mult ^ (i + 1) % sizeMax := by
    intro start i
    rw [Nat.mod_mul_mod, Nat.mul_assoc, Nat.pow_succ', ]
  have hlt : ∀ start : Nat, start * mult % sizeMax < sizeMax :=
    fun start => Nat.mod_lt _ (Nat.two_pow_pos 64)
  constructor
  · rintro ⟨turns, hgrow⟩
    induction turns generalizing start with
    | zero => cases hgrow
    | succ turns ih =>
      rw [growCapacity] at hgrow
      split at hgrow
      · rename_i hsmall
        obtain ⟨i, rfl, henough, hbefore⟩ := ih (hlt start) hgrow
        refine ⟨i + 1, hnext start i, henough, fun j hj => ?_⟩
        cases j with
        | zero => simpa [Nat.mod_eq_of_lt h] using hsmall
        | succ j =>
          rw [← hnext]
          exact hbefore j (by omega)
      · rename_i henough
        obtain rfl := Option.some_inj.mp hgrow
        exact ⟨0, by simp [Nat.mod_eq_of_lt h], not_lt.mp henough, by simp⟩
  · rintro ⟨i, rfl, henough, hbefore⟩
    induction i generalizing start with
    | zero =>
      refine ⟨1, ?_⟩
      rw [Nat.pow_zero, Nat.mul_one, Nat.mod_eq_of_lt h] at henough ⊢
      rw [growCapacity, if_neg (not_lt.mpr henough)]
    | succ i ih =>
      rw [← hnext] at henough ⊢
      have hsmall := hbefore 0 (Nat.succ_pos i)
      rw [Nat.pow_zero, Nat.mul_one, Nat.mod_eq_of_lt h] at hsmall
      obtain ⟨turns, hgrow⟩ := ih (hlt start) henough fun j hj => by
        rw [hnext]
        exact hbefore (j + 1) (by omega)
      exact ⟨turns + 1, by rw [growCapacity, if_pos hsmall, hgrow]⟩

section

variable {memory : Memory} {mult : Nat} {t : ElementType} {a : ArrayState}
  {capacity wanted : Nat}

theorem wantedCapacity_iff (h : a.Valid t) :
    (∃ turns, wantedCapacity mult turns a capacity = some wanted) ↔
      FirstEnough mult a capacity wanted := by
  have hroom : a.capacity < sizeMax := by
    have haddressable := h.addressable
    have hle := Nat.le_mul_of_pos_right a.capacity t.pos
    exact (hle.trans_lt haddressable).trans (by decide)
  unfold wantedCapacity FirstEnough
  split
  · exact growCapacity_iff hroom
  · simp [eq_comm]

theorem FirstEnough.le (h : FirstEnough mult a capacity wanted) : capacity ≤ wanted := by
  unfold FirstEnough at h
  split at h
  · obtain ⟨i, -, hle, -⟩ := h
    exact hle
  · exact h.ge

/-! ## The calls -/

/-- The conditions on what is asked of `realloc`. -/
def AsksWell (memory : Memory) (t : ElementType) (a : ArrayState) (wanted : Nat) : Prop :=
  a.block ≠ .lent ∧ (a.block = .own → wanted * t.dataSize % sizeMax ≠ 0) ∧
    (memory.grants (wanted * t.dataSize % sizeMax) = true → wanted * t.dataSize < sizeMax)

theorem reserveSafe_iff :
    ReserveSafe memory mult t a capacity ↔
      ∃ wanted, FirstEnough mult a capacity wanted ∧ AsksWell memory t a wanted := by
  unfold ReserveSafe AsksWell
  constructor
  · rintro ⟨hlent, wanted, hwanted, hasks⟩
    exact ⟨wanted, hwanted, hlent, hasks⟩
  · rintro ⟨wanted, hwanted, hlent, hasks⟩
    exact ⟨hlent, wanted, hwanted, hasks⟩

theorem mod_sizeMax_eq_iff (n : Nat) : n % sizeMax = n ↔ n < sizeMax :=
  Nat.mod_eq_iff_lt (by decide)

/-- A call of `realloc` for a block of the array. -/
theorem reallocTo_of_ne (h : a.block = .null ∨ a.block = .own)
    (hbytes : a.block = .own → wanted * t.dataSize % sizeMax ≠ 0) :
    reallocTo memory t a wanted =
      if memory.grants (wanted * t.dataSize % sizeMax) then
        .returned true (wanted * t.dataSize % sizeMax) ⟨.own, min a.size wanted, wanted⟩
      else .returned false (wanted * t.dataSize % sizeMax) a := by
  unfold reallocTo
  rcases h with hblock | hblock
  · simp [hblock]
  · simp [hblock, hbytes hblock]

/-- What is not asked well is a fault or a release. -/
theorem reallocTo_cases (h : a.Valid t) :
    (a.block = .lent ∧ reallocTo memory t a wanted = .fault) ∨
      (a.block = .own ∧ wanted * t.dataSize % sizeMax = 0 ∧
        reallocTo memory t a wanted = .returned false (some 0) { a with block := .released }) ∨
      ((a.block = .null ∨ a.block = .own) ∧
        (a.block = .own → wanted * t.dataSize % sizeMax ≠ 0)) := by
  by_cases hbytes : wanted * t.dataSize % sizeMax = 0
  · cases hblock : a.block with
    | null => simp
    | own => simp [reallocTo, hblock, hbytes]
    | lent => simp [reallocTo, hblock]
    | released => exact absurd hblock h.block
  · cases hblock : a.block with
    | null => simp
    | own => simp [hbytes]
    | lent => simp [reallocTo, hblock]
    | released => exact absurd hblock h.block

theorem kept_reallocTo_iff (h : a.Valid t) (hle : capacity ≤ wanted) :
    Kept t a capacity (reallocTo memory t a wanted) ↔ AsksWell memory t a wanted := by
  rcases @reallocTo_cases memory t a wanted h with
    ⟨hlent, heq⟩ | ⟨hown, hzero, heq⟩ | ⟨hblock, hbytes⟩
  · simp [heq, Kept, AsksWell, hlent]
  · have hne : ({ a with block := .released } : ArrayState) ≠ a :=
      fun hsame => h.block (congrArg ArrayState.block hsame).symm
    simp [heq, Kept, AsksWell, hown, hzero, hne]
  · have hlent : a.block ≠ .lent := by
      rintro hlent
      simp [hlent] at hblock
    rw [reallocTo_of_ne hblock hbytes, AsksWell, and_iff_right hlent, and_iff_right hbytes]
    split
    · rename_i hgrants
      simp [Kept, hle, hgrants, mod_sizeMax_eq_iff]
    · rename_i hgrants
      simp [Kept, hgrants]

theorem setSize_of_le {value : Bool} {asked : Option Nat} {a : ArrayState} {size : Nat}
    (hblock : a.block ≠ .null) (hle : size ≤ a.capacity) :
    setSize size (.returned value asked a) = .returned true asked { a with size := size } := by
  simp [setSize, hblock, hle]

theorem setSize_of_not {value : Bool} {asked : Option Nat} {a : ArrayState} {size : Nat}
    (h : ¬ (a.block ≠ .null ∧ size ≤ a.capacity)) :
    setSize size (.returned value asked a) = .returned (a.size = size) asked a := by
  simp only [setSize, if_neg h]

/-- The size is set in what is granted, and an array whose growth is refused has it only
if it has no block and no element is requested. -/
theorem kept_setSize_iff (h : a.Valid t) (hle : capacity ≤ wanted)
    (hnull : a.block = .null → wanted = capacity)
    (hgrow : a.block = .null ∨ capacity > a.capacity) :
    Kept t a capacity (setSize capacity (reallocTo memory t a wanted)) ↔
      AsksWell memory t a wanted := by
  have hsize := h.size
  have hstay : ¬ (a.block ≠ .null ∧ capacity ≤ a.capacity) := by
    rintro ⟨hne, hfits⟩
    exact absurd (hgrow.resolve_left hne) hfits.not_gt
  rcases @reallocTo_cases memory t a wanted h with
    ⟨hlent, heq⟩ | ⟨hown, hzero, heq⟩ | ⟨hblock, hbytes⟩
  · simp [heq, setSize, Kept, AsksWell, hlent]
  · have hlarge : capacity > a.capacity := hgrow.resolve_left (by simp [hown])
    have hne : ({ a with block := .released } : ArrayState) ≠ a :=
      fun hsame => h.block (congrArg ArrayState.block hsame).symm
    have hother : a.size ≠ capacity := by omega
    rw [heq, setSize_of_not (by simpa using hlarge)]
    simp [Kept, AsksWell, hown, hzero, hne, hother]
  · have hlent : a.block ≠ .lent := by
      rintro hlent
      simp [hlent] at hblock
    rw [reallocTo_of_ne hblock hbytes, AsksWell, and_iff_right hlent, and_iff_right hbytes]
    split
    · rename_i hgrants
      rw [setSize_of_le (by simp) hle]
      simp [Kept, hle, hgrants, mod_sizeMax_eq_iff]
    · rename_i hgrants
      rw [setSize_of_not hstay]
      by_cases hsame : a.size = capacity
      · have hblock : a.block = .null := hgrow.resolve_right (by omega)
        obtain ⟨hnone, hempty⟩ := h.null hblock
        obtain rfl : capacity = 0 := hsame.symm.trans hnone
        simp [Kept, hnone, hempty, hnull hblock]
      · simp [Kept, hgrants, hsame]

/-- Of the calls that end, one keeps the array when what it asks for does. -/
theorem exists_map_iff (h : a.Valid t) {f : Nat → Outcome} {p : Outcome → Prop} :
    (∃ turns o, (wantedCapacity mult turns a capacity).map f = some o ∧ p o) ↔
      ∃ wanted, FirstEnough mult a capacity wanted ∧ p (f wanted) := by
  constructor
  · rintro ⟨turns, o, hmap, ho⟩
    obtain ⟨wanted, hwanted, rfl⟩ := Option.map_eq_some_iff.mp hmap
    exact ⟨wanted, (wantedCapacity_iff h).mp ⟨turns, hwanted⟩, ho⟩
  · rintro ⟨wanted, hfirst, ho⟩
    obtain ⟨turns, hwanted⟩ := (wantedCapacity_iff h).mpr hfirst
    exact ⟨turns, _, by rw [hwanted, Option.map_some], ho⟩

theorem internalReserve_iff (h : a.Valid t) :
    (∃ turns o, internalReserve memory mult t turns a capacity = some o ∧
      Kept t a capacity o) ↔ ReserveSafe memory mult t a capacity := by
  rw [reserveSafe_iff]
  unfold internalReserve
  rw [exists_map_iff h]
  apply exists_congr
  intro wanted
  apply and_congr_right
  intro hfirst
  exact kept_reallocTo_iff h hfirst.le

theorem internalResize_iff (h : a.Valid t) :
    (∃ turns o, internalResize memory mult t turns a capacity = some o ∧
      Kept t a capacity o) ↔ ResizeSafe memory mult t a capacity := by
  unfold internalResize ResizeSafe
  by_cases hgrow : a.block = .null ∨ capacity > a.capacity
  · have hstay : ¬ (a.block ≠ .null ∧ capacity ≤ a.capacity) := by
      rintro ⟨hne, hfits⟩
      exact absurd (hgrow.resolve_left hne) hfits.not_gt
    simp only [if_pos hgrow, or_iff_right hstay, reserveSafe_iff, internalReserve, Option.map_map]
    rw [exists_map_iff h]
    apply exists_congr
    intro wanted
    apply and_congr_right
    intro hfirst
    refine kept_setSize_iff h hfirst.le (fun hnull => ?_) hgrow
    rwa [FirstEnough, if_neg (by simp [(h.null hnull).2])] at hfirst
  · have hstay : a.block ≠ .null ∧ capacity ≤ a.capacity := by
      rwa [not_or, not_lt] at hgrow
    simp only [if_neg hgrow]
    refine iff_of_true ⟨0, _, rfl, ?_⟩ (.inl hstay)
    rw [setSize_of_le hstay.1 hstay.2]
    exact ⟨hstay.2, by simp⟩

/-- A call on an array ends and neither loses it nor allocates too little exactly when the
capacity that it asks for, if it asks for one, is reached and its bytes do not wrap or are
refused, and no block that was lent or is asked to have no byte is given to `realloc`. -/
theorem grows_iff (memory : Memory) (mult : Nat) (t : ElementType)
    (a : { a : ArrayState // a.Valid t }) (c : Call) :
    Grows memory mult t a c ↔ c.Safe memory mult t a := by
  have h := a.2
  unfold Grows Call.Safe Call.requested exec
  cases c with
  | resize size => exact internalResize_iff h
  | reserve capacity => exact internalReserve_iff h
  | byteResize byteSize =>
    by_cases hbytes : byteSize % t.dataSize = 0
    · simpa [hbytes] using internalResize_iff h
    · simp [hbytes, Kept]
  | byteReserve byteSize =>
    by_cases hbytes : byteSize % t.dataSize = 0
    · simpa [hbytes] using internalReserve_iff h
    · simp [hbytes, Kept]

end

/-- Elements of 8 bytes. -/
def longType : ElementType := ⟨8, by decide⟩

/-- An array of one element. -/
def oneLong : { a : ArrayState // a.Valid longType } where
  val := ⟨.own, 1, 1⟩
  property := ⟨nofun, nofun, le_rfl, by decide⟩

/-- A resize to `2 ^ 60 + 1` elements of 8 bytes asks for `2 ^ 61` elements and no byte. -/
theorem not_grows_of_wrapped_bytes :
    ¬ Grows ⟨fun n => n < 64, fun h => by simp at h; omega⟩ 2 longType oneLong
      (.resize (2 ^ 60 + 1)) := by
  intro h
  rcases (internalResize_iff oneLong.2).mp h with ⟨-, hfits⟩ | ⟨-, wanted, hfirst, hbytes, -⟩
  · exact absurd hfits (by decide)
  · obtain ⟨i, rfl, henough, hbefore⟩ := hfirst
    have hpower : i = 61 := by
      rcases lt_trichotomy i 61 with hlt | heq | hgt
      · have hle : 2 ^ i ≤ 2 ^ 60 := Nat.pow_le_pow_right Nat.two_pos (by omega)
        have hmod : oneLong.1.capacity * 2 ^ i % sizeMax ≤ 1 * 2 ^ i := Nat.mod_le _ _
        omega
      · exact heq
      · exact absurd (hbefore 61 hgt) (by decide)
    subst hpower
    exact hbytes rfl (by decide)

end Sihd.Util.ArrayCapacity
