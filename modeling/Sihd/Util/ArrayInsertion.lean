import Sihd.Util.ArrayGrowth

/-!
# Insertion into arrays

An insertion is the one of lists when an array with a block gets what it asks for, and its own
elements are not given to it by a growth that moves them or behind the index, where they are
shifted first.
-/

namespace Sihd.Util.ArrayMemory

variable {α : Type} {e : Element α}

/-- The elements that a source denotes. -/
def Source.value (xs : List α) : Source α → List α
  | .own k n => (xs.drop k).take n
  | .outside ys => ys

/-- The elements are in the array, or in an object elsewhere. -/
def Source.IsGiven (e : Element α) (a : ArrayState α) : Source α → Prop
  | .own k n => k + n ≤ a.size
  | .outside xs => xs.length * e.dataSize < 2 ^ 63

/-- The elements are still there when the block has moved. -/
def Source.StaysIn (o : Option (Given α)) : Source α → Prop
  | .own _ n => ∀ given, o = some given → given.moved = true → n = 0
  | .outside _ => True

/-- The elements are still there when those behind the index were shifted: they begin before it,
or the elements that take their place are the same. -/
def Source.StaysAt (xs : List α) (idx : Nat) : Source α → Prop
  | .own k n => k ≤ idx ∨ ∀ j, k ≤ j → j < k + n → idx + n ≤ j → xs[j - n]? = xs[j]?
  | .outside _ => True

/-- A growth that is to take elements of a source. -/
def GrowsSafely (e : Element α) (o : Option (Given α)) (a : ArrayState α) (n : Nat)
    (src : Source α) : Prop :=
  a.capacity < n → a.NoOverflow e n ∧ (a.isNull = false → a.Obtains e o n ∧ src.StaysIn o)

def InsertsSafely (e : Element α) (o : Option (Given α)) (a : ArrayState α) (src : Source α)
    (idx : Nat) : Prop :=
  idx ≤ a.size → GrowsSafely e o a (a.size + src.length) src ∧ src.StaysAt a.toList idx

/-- A call that returns: when it is true the list is the one of the operation. -/
def Returns (e : Element α) (a : ArrayState α) (spec : List α) :
    Except Fault (Bool × ArrayState α) → Prop
  | .error .endless => True
  | .error .invalid => False
  | .ok (ret, a') => Fits e a' ∧ a'.toList = if ret then spec else a.toList

section Insertion

variable {a : ArrayState α} {o : Option (Given α)} {src : Source α} {idx : Nat}

theorem length_value {xs : List α} {size : Nat} (hsize : xs.length = size)
    (h : ∀ k n, src = .own k n → k + n ≤ size) : (src.value xs).length = src.length := by
  cases src with
  | own k n =>
    have hle := h k n rfl
    rw [Source.value, Source.length, List.length_take, List.length_drop]
    omega
  | outside ys => rfl

/-- A source is read behind the room that was left as what it was before. -/
theorem read_overwrite {cells : List α} {size : Nat} {moved : Bool}
    (hroom : size + src.length ≤ cells.length) (hidx : idx ≤ size)
    (hgiven : ∀ k n, src = .own k n → k + n ≤ size)
    (hmoved : moved = true → ∀ k n, src = .own k n → n = 0)
    (hat : src.StaysAt (cells.take size) idx) :
    src.read (overwrite cells (idx + src.length) ((cells.drop idx).take (size - idx))) moved =
      .ok (src.value (cells.take size)) := by
  cases src with
  | outside ys => rfl
  | own k n =>
    have hkn := hgiven k n rfl
    change size + n ≤ cells.length at hroom
    change Source.read (overwrite cells (idx + n) _) moved _ = _
    have hlength : ((cells.drop idx).take (size - idx)).length = size - idx := by
      rw [List.length_take, List.length_drop]
      omega
    have hstays : (moved && decide (0 < n)) = false := by
      cases moved with
      | false => rfl
      | true =>
        rw [hmoved rfl k n rfl]
        rfl
    rw [Source.read, hstays, if_neg Bool.false_ne_true, readCells,
      if_pos (by rw [overwrite_length (by omega)]; omega), Source.value]
    congr 1
    refine List.ext_getElem? fun i => ?_
    by_cases hi : i < n
    · have hright : (cells.take size)[k + i]? = cells[k + i]? :=
        List.getElem?_take_of_lt (by omega)
      rw [List.getElem?_take_of_lt hi, List.getElem?_take_of_lt hi, List.getElem?_drop,
        List.getElem?_drop, getElem?_overwrite (by omega), hright]
      split
      · next hin =>
        -- The element was shifted, and the one in its place is the same.
        rcases hat with hle | hsame
        · omega
        · have helement := hsame (k + i) (by omega) (by omega) hin.1
          rw [hright, List.getElem?_take_of_lt (by omega)] at helement
          rw [← helement, List.getElem?_take_of_lt (by omega), List.getElem?_drop]
          congr 1
          omega
      · rfl
    · have hleft : ∀ xs : List α, (xs.take n)[i]? = none := fun xs =>
        List.getElem?_eq_none (by rw [List.length_take]; omega)
      rw [hleft, hleft]

theorem insertCells_eq {cells : List α} {size : Nat} {moved : Bool}
    (hroom : size + src.length ≤ cells.length) (hidx : idx ≤ size)
    (hgiven : ∀ k n, src = .own k n → k + n ≤ size)
    (hmoved : moved = true → ∀ k n, src = .own k n → n = 0)
    (hat : src.StaysAt (cells.take size) idx) :
    insertCells cells size src idx moved = .ok (overwrite cells idx
      (src.value (cells.take size) ++ (cells.drop idx).take (size - idx))) := by
  have hread := read_overwrite hroom hidx hgiven hmoved hat
  have hvalue : (src.value (cells.take size)).length = src.length :=
    length_value (List.length_take_of_le (by omega)) hgiven
  have hlength : ((cells.drop idx).take (size - idx)).length = size - idx := by
    rw [List.length_take, List.length_drop]
    omega
  rw [insertCells, readCells, if_pos (by omega)]
  change (do
    let cells ← if 0 < ((cells.drop idx).take (size - idx)).length then
        writeCells cells (idx + src.length) ((cells.drop idx).take (size - idx)) else .ok cells
    let xs ← src.read cells moved
    writeCells cells idx xs) = _
  generalize (cells.drop idx).take (size - idx) = tail at hread hlength ⊢
  have hwrite : (do
      let xs ← src.read (overwrite cells (idx + src.length) tail) moved
      writeCells (overwrite cells (idx + src.length) tail) idx xs) =
      .ok (overwrite cells idx (src.value (cells.take size) ++ tail)) := by
    rw [hread]
    change writeCells (overwrite cells (idx + src.length) tail) idx _ = _
    rw [writeCells, if_pos (by rw [overwrite_length (by omega)]; omega), ← hvalue,
      overwrite_before (by omega)]
  split
  · rw [writeCells, if_pos (by omega)]
    exact hwrite
  · next hnil =>
    have htail : tail = [] := List.eq_nil_of_length_eq_zero (by omega)
    rw [htail, overwrite_nil] at hwrite
    rw [htail]
    exact hwrite

end Insertion

namespace ArrayState

variable {a : ArrayState α} {o : Option (Given α)} {src : Source α} {idx n : Nat}

theorem size_lt (h : Fits e a) : a.size < 2 ^ 63 := by
  have hle := size_le_capacity h
  rw [Fits] at h
  split at h
  · omega
  · have hmul := Nat.le_mul_of_pos_right a.capacity e.pos
    omega
  · cases h

theorem length_lt (h : Fits e a) (hgiven : src.IsGiven e a) : src.length < 2 ^ 63 := by
  have hsize := size_lt h
  cases src with
  | own k n =>
    change k + n ≤ a.size at hgiven
    change n < 2 ^ 63
    omega
  | outside xs =>
    have hmul := Nat.le_mul_of_pos_right xs.length e.pos
    exact hmul.trans_lt hgiven

theorem le_of_own (hgiven : src.IsGiven e a) (k n : Nat) (hsrc : src = .own k n) :
    k + n ≤ a.size := by
  subst hsrc
  exact hgiven

/-- The elements in use are at the beginning of a block that has grown. -/
theorem take_size_of_take {cells : List α} (hcells : cells.take a.capacity = a.cells)
    (hsize : a.size ≤ a.capacity) : cells.take a.size = a.toList := by
  rw [toList_eq, ← hcells, List.take_take, Nat.min_eq_left hsize]

/-- The copies of an insertion in a block with room for it. -/
theorem returns_insertCells {cells : List α} {capacity : Nat} {moved hasOwnership : Bool}
    (hlength : cells.length = capacity) (hownership : hasOwnership = true)
    (hgiven : src.IsGiven e a)
    (hroom : a.size + src.length ≤ cells.length) (hidx : idx ≤ a.size)
    (hmoved : moved = true → ∀ k n, src = .own k n → n = 0)
    (hat : src.StaysAt a.toList idx) (hcells : cells.take a.size = a.toList)
    (hbytes : cells.length * e.dataSize < 2 ^ 63) :
    Returns e a (a.toList.take idx ++ src.value a.toList ++ a.toList.drop idx)
      (do
        let cells' ← insertCells cells a.size src idx moved
        .ok (true, ⟨.block cells', a.size + src.length, capacity, hasOwnership⟩)) := by
  subst hlength hownership
  rw [← hcells] at hat ⊢
  rw [insertCells_eq hroom hidx (le_of_own hgiven) hmoved hat]
  have hvalue : (src.value (cells.take a.size)).length = src.length :=
    length_value (List.length_take_of_le (by omega)) (le_of_own hgiven)
  have htail : ((cells.drop idx).take (a.size - idx)).length = a.size - idx := by
    rw [List.length_take, List.length_drop]
    omega
  generalize src.value (cells.take a.size) = ys at hvalue ⊢
  have hall : (ys ++ (cells.drop idx).take (a.size - idx)).length =
      src.length + (a.size - idx) := by
    rw [List.length_append, hvalue, htail]
  have hlength : (overwrite cells idx (ys ++ (cells.drop idx).take (a.size - idx))).length =
      cells.length := overwrite_length (by omega)
  have hend : idx + (ys ++ (cells.drop idx).take (a.size - idx)).length =
      a.size + src.length := by omega
  constructor
  · exact ⟨hlength, hroom, hbytes, rfl⟩
  · change (overwrite cells idx _).take (a.size + src.length) = _
    rw [← hend, overwrite_take_end (by omega), if_pos rfl, List.take_take,
      Nat.min_eq_left hidx, List.drop_take, List.append_assoc]

theorem returns_insert (h : Fits e a) (hgiven : src.IsGiven e a)
    (hsafe : InsertsSafely e o a src idx) :
    Returns e a (a.toList.take idx ++ src.value a.toList ++ a.toList.drop idx)
      (a.insert e o src idx) := by
  have hsize := size_lt h
  have hlength := length_lt h hgiven
  rw [insert]
  split
  · exact ⟨h, rfl⟩
  · next hidx =>
    rw [not_lt] at hidx
    obtain ⟨hgrows, hat⟩ := hsafe hidx
    dsimp only
    rw [Nat.mod_eq_of_lt (by omega)]
    split
    · next hgrow =>
      obtain ⟨hoverflow, hblock⟩ := hgrows hgrow
      have hreserves : Reserves e o a (a.size + src.length) false
          (a.internalReserve e o (a.size + src.length) false) :=
        reserves_internalReserve h hoverflow fun _ wanted hwanted => by
          have hle := (wantedCapacity_le hwanted).1
          omega
      generalize a.internalReserve e o (a.size + src.length) false = r at hreserves
      cases hreserves with
      | endless => exact trivial
      | refused hrefused =>
        rcases buf_cases h with ⟨hbuf, -, -⟩ | ⟨-, hnull⟩
        · simp only [bind, Except.bind, hbuf]
          exact ⟨h, rfl⟩
        · exact absurd (hblock hnull).1 hrefused
      | grown cells given ho hobtains hle hcapacity hbytes hcells =>
        have hstays : given.moved = true → ∀ k n, src = .own k n → n = 0 := fun hmoved k n hsrc => by
          rcases buf_cases h with ⟨-, -, hnil⟩ | ⟨-, hnull⟩
          · have hle := le_of_own hgiven k n hsrc
            have hcapacity := length_cells h
            have hsize := size_le_capacity h
            rw [hnil, List.length_nil] at hcapacity
            omega
          · have hstaysIn := (hblock hnull).2
            rw [hsrc] at hstaysIn
            exact hstaysIn given ho hmoved
        exact returns_insertCells rfl rfl hgiven hle hidx hstays hat
          (take_size_of_take hcells (size_le_capacity h)) hbytes
    · next hroom =>
      rw [not_lt] at hroom
      rcases buf_cases h with ⟨hbuf, -, -⟩ | ⟨hbuf, -⟩
      · simp only [bind, Except.bind, hbuf]
        exact ⟨h, rfl⟩
      · have hfits := h
        rw [Fits, hbuf] at hfits
        obtain ⟨hlength, -, hbytes, hownership⟩ := hfits
        simp only [bind, Except.bind, hbuf]
        exact returns_insertCells hlength hownership hgiven (hlength ▸ hroom) hidx
          (fun hfalse => by cases hfalse) hat (toList_eq a).symm (hlength ▸ hbytes)

end ArrayState

end Sihd.Util.ArrayMemory
