import Sihd.Util.ArrayMemory

/-!
# The growth of arrays

An array fits when it has no block, or a block of its capacity. A growth that does not ask for
more bytes than a `size_t` counts keeps that, and keeps the elements: it does not end, or it is
refused, or it gives a block that begins like the old one.
-/

namespace Sihd.Util.ArrayMemory

variable {α : Type} {e : Element α}

/-- A block of the capacity, with the elements in use. -/
def Fits (e : Element α) (a : ArrayState α) : Prop :=
  match a.buf with
  | .null => a.size = 0 ∧ a.capacity = 0 ∧ a.hasOwnership = false
  | .block cells => cells.length = a.capacity ∧ a.size ≤ a.capacity ∧
      a.capacity * e.dataSize < 2 ^ 63 ∧ a.hasOwnership = true
  | .released => False

namespace ArrayState

/-- The bytes of the capacity that is asked for are counted by a `size_t`. -/
def NoOverflow (e : Element α) (a : ArrayState α) (n : Nat) : Prop :=
  ∀ capacity, a.wantedCapacity n = .ok capacity → capacity * e.dataSize < 2 ^ 64

/-- The C library gives the capacity that is asked for. -/
def Obtains (e : Element α) (o : Option (Given α)) (a : ArrayState α) (n : Nat) : Prop :=
  ∀ capacity, a.wantedCapacity n = .ok capacity → granted o (capacity * e.dataSize) ≠ none

end ArrayState

theorem growCapacity_le {left newCapacity capacity wanted : Nat}
    (h : growCapacity left newCapacity capacity = .ok wanted) :
    capacity ≤ wanted ∧ newCapacity ≤ wanted := by
  induction left generalizing newCapacity with
  | zero => cases h
  | succ left ih =>
    rw [growCapacity] at h
    split at h
    · next hlt =>
      have hcapacity := (ih h).1
      exact ⟨hcapacity, by omega⟩
    · next hle =>
      obtain rfl := Except.ok.inj h
      exact ⟨by omega, le_rfl⟩

theorem growCapacity_ne_invalid {left newCapacity capacity : Nat} :
    growCapacity left newCapacity capacity ≠ .error .invalid := by
  induction left generalizing newCapacity with
  | zero => nofun
  | succ left ih =>
    rw [growCapacity]
    split
    · exact ih
    · nofun

namespace ArrayState

variable {a : ArrayState α} {o : Option (Given α)} {n wanted : Nat} {clearMem : Bool}

theorem wantedCapacity_le (h : a.wantedCapacity n = .ok wanted) :
    n ≤ wanted ∧ a.capacity ≤ wanted := by
  rw [wantedCapacity] at h
  split at h
  · exact growCapacity_le h
  · obtain rfl := Except.ok.inj h
    exact ⟨le_rfl, by omega⟩

theorem wantedCapacity_cases (a : ArrayState α) (n : Nat) :
    a.wantedCapacity n = .error .endless ∨ ∃ wanted, a.wantedCapacity n = .ok wanted := by
  cases h : a.wantedCapacity n with
  | ok wanted => exact .inr ⟨wanted, rfl⟩
  | error fault =>
    cases fault with
    | endless => exact .inl rfl
    | invalid =>
      rw [wantedCapacity] at h
      split at h
      · exact absurd h growCapacity_ne_invalid
      · cases h

/-- The elements of the block. -/
def cells (a : ArrayState α) : List α :=
  match a.buf with
  | .block cells => cells
  | _ => []

/-- What `_internal_reserve` does: it does not end, it is refused, or it grows the block. -/
inductive Reserves (e : Element α) (o : Option (Given α)) (a : ArrayState α) (n : Nat)
    (clearMem : Bool) : Except Fault (Bool × Bool × ArrayState α) → Prop
  | endless : Reserves e o a n clearMem (.error .endless)
  | refused (h : ¬ a.Obtains e o n) : Reserves e o a n clearMem (.ok (false, false, a))
  | grown (cells : List α) (given : Given α) (ho : o = some given) (hobtains : a.Obtains e o n)
      (hle : n ≤ cells.length) (hcapacity : a.capacity ≤ cells.length)
      (hbytes : cells.length * e.dataSize < 2 ^ 63) (hcells : cells.take a.capacity = a.cells)
      (hclear : clearMem = true →
        cells.drop a.capacity = List.replicate (cells.length - a.capacity) e.zero) :
      Reserves e o a n clearMem (.ok (true, given.moved, ⟨.block cells, a.size, cells.length, true⟩))

end ArrayState

theorem granted_eq_some {o : Option (Given α)} {bytes : Nat} {given : Given α}
    (h : granted o bytes = some given) : o = some given ∧ bytes < 2 ^ 63 := by
  rw [granted] at h
  split at h
  · next hlt => exact ⟨h, hlt⟩
  · cases h

theorem length_resized (cells : List α) {n : Nat} (h : cells.length ≤ n)
    (garbage : Nat → α) : (resized cells n garbage).length = n := by
  rw [resized, List.length_append, List.take_of_length_le h, List.length_map, List.length_range]
  omega

theorem take_resized (cells : List α) {n : Nat} (h : cells.length ≤ n) (garbage : Nat → α) :
    (resized cells n garbage).take cells.length = cells := by
  rw [resized, List.take_of_length_le h, List.take_left]

namespace ArrayState

variable {a : ArrayState α} {o : Option (Given α)} {n : Nat} {clearMem : Bool}

theorem length_cells (h : Fits e a) : a.cells.length = a.capacity := by
  rw [Fits] at h
  rw [cells]
  split at h
  · next hbuf =>
    rw [hbuf, h.2.1]
    rfl
  · next hbuf =>
    rw [hbuf]
    exact h.1
  · cases h

theorem size_le_capacity (h : Fits e a) : a.size ≤ a.capacity := by
  rw [Fits] at h
  split at h
  · omega
  · exact h.2.1
  · cases h

theorem toList_eq (a : ArrayState α) : a.toList = a.cells.take a.size := by
  rw [toList, cells]
  cases hbuf : a.buf with
  | block cells => rfl
  | _ => exact List.take_nil.symm

theorem length_toList (h : Fits e a) : a.toList.length = a.size := by
  rw [toList_eq, List.length_take_of_le]
  rw [length_cells h]
  exact size_le_capacity h

/-- An array without a block, or with one. -/
theorem buf_cases (h : Fits e a) :
    a.buf = .null ∧ a.isNull = true ∧ a.cells = [] ∨
      a.buf = .block a.cells ∧ a.isNull = false := by
  rw [Fits] at h
  split at h
  · next hbuf => exact .inl ⟨hbuf, by rw [isNull, hbuf], by rw [cells, hbuf]⟩
  · next hbuf => exact .inr ⟨by rw [cells, hbuf], by rw [isNull, hbuf]⟩
  · cases h

theorem realloc_eq (h : Fits e a) {bytes : Nat} (hbytes : a.isNull = false → bytes ≠ 0) :
    realloc e o a.buf bytes = .ok ((granted o bytes).map fun given =>
      (resized a.cells (bytes / e.dataSize) given.garbage, given.moved), a.buf) := by
  rcases buf_cases h with ⟨hbuf, -, hcells⟩ | ⟨hbuf, hnull⟩
  · rw [hbuf, hcells]
    rfl
  · rw [hbuf, realloc, if_neg (hbytes hnull)]

/-- `_internal_reserve` of a capacity that does not overflow. -/
theorem reserves_internalReserve (h : Fits e a) (hoverflow : a.NoOverflow e n)
    (hzero : a.isNull = false → ∀ wanted, a.wantedCapacity n = .ok wanted → wanted ≠ 0) :
    Reserves e o a n clearMem (a.internalReserve e o n clearMem) := by
  rcases wantedCapacity_cases a n with hwanted | ⟨wanted, hwanted⟩
  · have hendless : a.internalReserve e o n clearMem = .error .endless := by
      rw [internalReserve, hwanted]
      rfl
    rw [hendless]
    exact .endless
  · obtain ⟨hle, hcapacity⟩ := wantedCapacity_le hwanted
    have hmod : wanted * e.dataSize % 2 ^ 64 = wanted * e.dataSize :=
      Nat.mod_eq_of_lt (hoverflow wanted hwanted)
    have hbytes : a.isNull = false → wanted * e.dataSize ≠ 0 := fun hnull =>
      Nat.mul_ne_zero (hzero hnull wanted hwanted) e.pos.ne'
    have hrealloc := realloc_eq (o := o) h hbytes
    rw [internalReserve, hwanted]
    change Reserves e o a n clearMem (realloc e o a.buf (wanted * e.dataSize % 2 ^ 64) >>= _)
    rw [hmod, hrealloc]
    cases hgranted : granted o (wanted * e.dataSize) with
    | none =>
      refine .refused fun hobtains => ?_
      exact hobtains wanted hwanted hgranted
    | some given =>
      obtain ⟨ho, hlt⟩ := granted_eq_some hgranted
      have hlength := length_cells h
      have hdiv : wanted * e.dataSize / e.dataSize = wanted := Nat.mul_div_cancel _ e.pos
      have hresized : (resized a.cells wanted given.garbage).length = wanted :=
        length_resized _ (by omega) _
      have htake : (resized a.cells wanted given.garbage).take a.capacity = a.cells := by
        rw [← hlength]
        exact take_resized _ (by omega) _
      have hsize : min a.size wanted = a.size :=
        Nat.min_eq_left ((size_le_capacity h).trans hcapacity)
      have hobtains : a.Obtains e o n := fun wanted' hwanted' => by
        rw [hwanted, Except.ok.injEq] at hwanted'
        rw [← hwanted', hgranted]
        exact Option.some_ne_none _
      rw [Option.map_some, hdiv]
      change Reserves e o a n clearMem (do
        let cells ← if clearMem && decide (a.capacity < wanted) then
            writeCells (resized a.cells wanted given.garbage) a.capacity
              (List.replicate ((wanted - a.capacity) * e.dataSize % 2 ^ 64 / e.dataSize) e.zero)
          else .ok (resized a.cells wanted given.garbage)
        .ok (true, given.moved, ⟨.block cells, min a.size wanted, wanted, true⟩))
      rw [hsize]
      split
      · next hclear =>
        rw [Bool.and_eq_true, decide_eq_true_iff] at hclear
        have hcleared : (wanted - a.capacity) * e.dataSize % 2 ^ 64 / e.dataSize =
            wanted - a.capacity := by
          have hmul : (wanted - a.capacity) * e.dataSize ≤ wanted * e.dataSize :=
            Nat.mul_le_mul_right _ (Nat.sub_le ..)
          rw [Nat.mod_eq_of_lt (by omega), Nat.mul_div_cancel _ e.pos]
        rw [hcleared]
        generalize hcells : resized a.cells wanted given.garbage = cells at hresized htake
        have hfits : a.capacity + (List.replicate (wanted - a.capacity) e.zero).length ≤
            cells.length := by
          rw [List.length_replicate, hresized]
          omega
        have hwrite := overwrite_length hfits
        rw [writeCells, if_pos hfits]
        have hgrown : Reserves e o a n clearMem (.ok (true, given.moved,
            ⟨.block (overwrite cells a.capacity (List.replicate (wanted - a.capacity) e.zero)),
              a.size, (overwrite cells a.capacity
                (List.replicate (wanted - a.capacity) e.zero)).length, true⟩)) := by
          refine .grown _ given ho hobtains (by omega) (by omega) (by rwa [hwrite, hresized]) ?_
            fun _ => ?_
          · rw [overwrite_take_of_le le_rfl (by omega), htake]
          · have hstart : (cells.take a.capacity).length = a.capacity :=
              List.length_take_of_le (by omega)
            have hrest : cells.drop (a.capacity +
                (List.replicate (wanted - a.capacity) e.zero).length) = [] :=
              List.drop_of_length_le (by rw [List.length_replicate]; omega)
            rw [hwrite, hresized, overwrite, hrest, List.append_nil, List.drop_left' hstart]
        rwa [hwrite, hresized] at hgrown
      · next hclear =>
        have hgrown : Reserves e o a n clearMem (.ok (true, given.moved,
            ⟨.block (resized a.cells wanted given.garbage), a.size,
              (resized a.cells wanted given.garbage).length, true⟩)) := by
          refine .grown _ given ho hobtains (by omega) (by omega) (by rwa [hresized]) htake
            fun htrue => ?_
          have hfull : wanted ≤ a.capacity := by
            by_contra hlt
            exact hclear (by rw [htrue, Bool.true_and]; exact decide_eq_true (by omega))
          rw [hresized, Nat.sub_eq_zero_of_le hfull, List.drop_of_length_le (by omega)]
          rfl
        rwa [hresized] at hgrown

end ArrayState

end Sihd.Util.ArrayMemory
