import Sihd.Util.ArrayInsertion

/-!
# The other operations of arrays

A larger size takes in elements of the capacity, and a pushed value needs room for one. The
operations that throw do so before they do anything.
-/

namespace Sihd.Util.ArrayMemory

variable {α : Type} {e : Element α}

/-- The elements of the capacity that a larger size takes in are zero. -/
def ResizesSafely (e : Element α) (o : Option (Given α)) (a : ArrayState α) (n : Nat) : Prop :=
  (a.isNull = true ∨ a.capacity < n → a.NoOverflow e n) ∧
    (n ≤ a.capacity ∨ a.Obtains e o n → ∀ cells, a.buf = .block cells →
      ∀ j x, a.size ≤ j → j < n → cells[j]? = some x → x = e.zero)

/-- A call that throws leaves the array. -/
def Throws (e : Element α) (spec : List α) : Except Fault (Option (ArrayState α)) → Prop
  | .error _ => False
  | .ok none => True
  | .ok (some a') => Fits e a' ∧ a'.toList = spec

namespace ArrayState

variable {a : ArrayState α} {o : Option (Given α)} {src : Source α} {idx n : Nat}

/-- What `_internal_resize` does: it does not end, it is refused, or it sets the size of a block
that it may have grown. -/
inductive Resizes (e : Element α) (o : Option (Given α)) (a : ArrayState α) (n : Nat)
    (clearMem : Bool) : Except Fault (Bool × Bool × ArrayState α) → Prop
  | endless : Resizes e o a n clearMem (.error .endless)
  | refused (hgrow : a.isNull = true ∨ a.capacity < n) (h : ¬ a.Obtains e o n) :
      Resizes e o a n clearMem (.ok (a.size == n, false, a))
  | resized (cells : List α) (moved : Bool)
      (hmoved : moved = true → (a.isNull = true ∨ a.capacity < n) ∧
        ∃ given, o = some given ∧ given.moved = true)
      (hobtains : n ≤ a.capacity ∨ a.Obtains e o n) (hle : n ≤ cells.length)
      (hcapacity : a.capacity ≤ cells.length) (hbytes : cells.length * e.dataSize < 2 ^ 63)
      (hcells : cells.take a.capacity = a.cells)
      (hclear : clearMem = true →
        cells.drop a.capacity = List.replicate (cells.length - a.capacity) e.zero) :
      Resizes e o a n clearMem (.ok (true, moved, ⟨.block cells, n, cells.length, true⟩))

theorem resizes_internalResize (h : Fits e a) {clearMem : Bool}
    (hoverflow : a.isNull = true ∨ a.capacity < n → a.NoOverflow e n) :
    Resizes e o a n clearMem (a.internalResize e o n clearMem) := by
  rw [internalResize]
  split
  · next hgrow =>
    rw [Bool.or_eq_true, decide_eq_true_iff] at hgrow
    have hreserves : Reserves e o a n clearMem (a.internalReserve e o n clearMem) :=
      reserves_internalReserve h (hoverflow hgrow) fun hnull wanted hwanted => by
        have hle := (wantedCapacity_le hwanted).1
        rcases hgrow with hnull' | hlt
        · rw [hnull] at hnull'
          cases hnull'
        · omega
    generalize a.internalReserve e o n clearMem = r at hreserves
    cases hreserves with
    | endless => exact .endless
    | refused hrefused =>
      have hkeep : (!a.isNull && decide (n ≤ a.capacity)) = false := by
        rcases hgrow with hnull | hlt
        · rw [hnull]
          rfl
        · rw [decide_eq_false (by omega), Bool.and_false]
      change Resizes e o a n clearMem (do
        let a := if !a.isNull && decide (n ≤ a.capacity) then { a with size := n } else a
        .ok (a.size == n, false, a))
      rw [hkeep]
      exact .refused hgrow hrefused
    | grown cells given ho hobtains hle hcapacity hbytes hcells hclear =>
      change Resizes e o a n clearMem (do
        let a : ArrayState α := if true && decide (n ≤ cells.length) then
            ⟨.block cells, n, cells.length, true⟩
          else ⟨.block cells, a.size, cells.length, true⟩
        .ok (a.size == n, given.moved, a))
      rw [decide_eq_true hle]
      change Resizes e o a n clearMem (.ok (n == n, given.moved, _))
      rw [beq_self_eq_true]
      exact .resized cells given.moved (fun hmoved => ⟨hgrow, given, ho, hmoved⟩) (.inr hobtains)
        hle hcapacity hbytes hcells hclear
  · next hgrow =>
    rw [Bool.or_eq_true, decide_eq_true_iff, not_or, Bool.not_eq_true, not_lt] at hgrow
    obtain ⟨hnull, hle⟩ := hgrow
    change Resizes e o a n clearMem (do
      let a := if !a.isNull && decide (n ≤ a.capacity) then { a with size := n } else a
      .ok (a.size == n, false, a))
    rcases buf_cases h with ⟨-, hnull', -⟩ | ⟨hbuf, -⟩
    · rw [hnull] at hnull'
      cases hnull'
    · have hfits := h
      rw [Fits, hbuf] at hfits
      obtain ⟨hlength, -, hbytes, hownership⟩ := hfits
      have hsized : (⟨a.buf, n, a.capacity, a.hasOwnership⟩ : ArrayState α) =
          ⟨.block a.cells, n, a.cells.length, true⟩ := by rw [hlength, hownership, ← hbuf]
      rw [hnull, decide_eq_true hle]
      change Resizes e o a n clearMem (.ok (n == n, false,
        ⟨a.buf, n, a.capacity, a.hasOwnership⟩))
      rw [beq_self_eq_true, hsized]
      refine .resized a.cells false (fun hfalse => by cases hfalse) (.inl hle) (hlength ▸ hle)
        hlength.ge (hlength ▸ hbytes) (List.take_of_length_le hlength.le) fun _ => ?_
      rw [List.drop_of_length_le hlength.le, hlength, Nat.sub_self]
      rfl

/-- An array that owns nothing has nothing. -/
theorem deleteLent_eq (h : Fits e a) : a.deleteLent = .ok a := by
  obtain ⟨buf, size, capacity, hasOwnership⟩ := a
  cases buf with
  | null =>
    obtain ⟨hsize, hcapacity, hownership⟩ := h
    dsimp only at hsize hcapacity hownership
    rw [hsize, hcapacity, hownership]
    rfl
  | block cells =>
    have hownership : hasOwnership = true := h.2.2.2
    rw [hownership]
    rfl
  | released => cases h

/-- A source is read in a block that begins with the elements in use. -/
theorem read_eq {cells : List α} {moved : Bool} (h : Fits e a) (hgiven : src.IsGiven e a)
    (hcapacity : a.capacity ≤ cells.length) (hcells : cells.take a.size = a.toList)
    (hmoved : moved = true → ∀ k n, src = .own k n → n = 0) :
    src.read cells moved = .ok (src.value a.toList) := by
  cases src with
  | outside xs => rfl
  | own k n =>
    have hkn : k + n ≤ a.size := hgiven
    have hsize := size_le_capacity h
    have hstays : (moved && decide (0 < n)) = false := by
      cases moved with
      | false => rfl
      | true =>
        rw [hmoved rfl k n rfl]
        rfl
    rw [Source.read, hstays, if_neg Bool.false_ne_true, readCells, if_pos (by omega),
      Source.value, ← hcells, List.drop_take, List.take_take, Nat.min_eq_left (by omega)]

theorem returns_from (h : Fits e a) (hgiven : src.IsGiven e a)
    (hsafe : a.isNull = true ∨ a.capacity < src.length → a.NoOverflow e src.length ∧
      (a.isNull = false → a.Obtains e o src.length)) :
    Returns e a (src.value a.toList) (a.from e o src) := by
  have hresizes : Resizes e o a src.length false (a.internalResize e o src.length false) :=
    resizes_internalResize h fun hgrow => (hsafe hgrow).1
  rw [«from», deleteLent_eq h]
  change Returns e a _ (a.internalResize e o src.length false >>= _)
  generalize a.internalResize e o src.length false = r at hresizes
  cases hresizes with
  | endless => exact trivial
  | refused hgrow hrefused =>
    rcases buf_cases h with ⟨hbuf, hnull, -⟩ | ⟨-, hnull⟩
    · have hfits := h
      rw [Fits, hbuf] at hfits
      have hlist : a.toList = [] := by rw [toList, hbuf]
      cases hn : src.length with
      | zero =>
        have hvalue : a.readSource false src = .ok [] := by
          have hread : src.read [] false = .ok (src.value a.toList) :=
            read_eq h hgiven hfits.2.1.le (by rw [hlist, List.take_nil]) fun hfalse => by cases hfalse
          have hnil : src.value a.toList = [] := List.eq_nil_of_length_eq_zero
            ((length_value (length_toList h) (le_of_own hgiven)).trans hn)
          rw [readSource, hbuf]
          exact hread.trans (congrArg Except.ok hnil)
        have hwrite : a.write 0 [] = .ok a := by rw [write, hbuf]; rfl
        have hsized : { a with size := 0 } = a := by
          rw [← hfits.1]
        rw [hfits.1]
        change Returns e a _ (do
          let xs ← a.readSource false src
          let a ← a.write 0 xs
          .ok (!({ a with size := 0 } : ArrayState α).isNull, { a with size := 0 }))
        rw [hvalue]
        change Returns e a _ (do
          let a ← a.write 0 []
          .ok (!({ a with size := 0 } : ArrayState α).isNull, { a with size := 0 }))
        rw [hwrite]
        change Returns e a _ (.ok (!({ a with size := 0 } : ArrayState α).isNull, { a with size := 0 }))
        rw [hsized, hnull]
        exact ⟨h, rfl⟩
      | succ n =>
        rw [hfits.1]
        change Returns e a _ (.ok (!a.isNull, a))
        rw [hnull]
        exact ⟨h, rfl⟩
    · exact absurd ((hsafe hgrow).2 hnull) hrefused
  | resized cells moved hmoved hobtains hle hcapacity hbytes hcells =>
    have hsize := size_le_capacity h
    have hread : src.read cells moved = .ok (src.value a.toList) :=
      read_eq h hgiven hcapacity (take_size_of_take hcells hsize) fun htrue k n hsrc => by
        -- The elements of an array are no more than its capacity, so it has none.
        have hkn := le_of_own hgiven k n hsrc
        obtain ⟨hgrow, -⟩ := hmoved htrue
        rcases hgrow with hnull | hlt
        · rcases buf_cases h with ⟨hbuf, -, -⟩ | ⟨-, hnull'⟩
          · have hfits := h
            rw [Fits, hbuf] at hfits
            omega
          · rw [hnull] at hnull'
            cases hnull'
        · rw [hsrc] at hlt
          change a.capacity < n at hlt
          omega
    have hvalue : (src.value a.toList).length = src.length :=
      length_value (length_toList h) (le_of_own hgiven)
    change Returns e a _ (do
      let xs ← src.read cells moved
      let a ← (writeCells cells 0 xs).map fun cells' =>
        (⟨.block cells', src.length, cells.length, true⟩ : ArrayState α)
      .ok (!({ a with size := src.length } : ArrayState α).isNull, { a with size := src.length }))
    rw [hread]
    generalize src.value a.toList = xs at hvalue ⊢
    change Returns e a _ (do
      let a ← (writeCells cells 0 xs).map fun cells' =>
        (⟨.block cells', src.length, cells.length, true⟩ : ArrayState α)
      .ok (!({ a with size := src.length } : ArrayState α).isNull, { a with size := src.length }))
    have hfit : 0 + xs.length ≤ cells.length := by omega
    rw [writeCells, if_pos hfit]
    refine ⟨⟨overwrite_length hfit, hle, hbytes, rfl⟩, ?_⟩
    change (overwrite cells 0 xs).take src.length = xs
    have htake := overwrite_take_end (b := xs) (Nat.zero_le cells.length)
    rw [Nat.zero_add, hvalue] at htake
    rw [htake]
    rfl

theorem returns_resize (h : Fits e a) (hsafe : ResizesSafely e o a n) :
    Returns e a (a.toList.take n ++ List.replicate (n - a.toList.length) e.zero)
      (a.resize e o n) := by
  have hresizes : Resizes e o a n true (a.internalResize e o n true) :=
    resizes_internalResize h hsafe.1
  rw [resize, length_toList h]
  generalize a.internalResize e o n true = r at hresizes
  cases hresizes with
  | endless => exact trivial
  | refused hgrow hrefused =>
    refine ⟨h, ?_⟩
    by_cases hsize : a.size = n
    · rw [hsize, beq_self_eq_true, if_pos rfl, Nat.sub_self, List.replicate_zero,
        List.append_nil, ← hsize, ← length_toList h, List.take_length]
    · rw [beq_false_of_ne hsize]
      rfl
  | resized cells moved hmoved hobtains hle hcapacity hbytes hcells hclear =>
    have hsize := size_le_capacity h
    refine ⟨⟨rfl, hle, hbytes, rfl⟩, ?_⟩
    change cells.take n = _
    have hcapacityLength : a.cells.length = a.capacity := length_cells h
    rw [if_pos rfl]
    refine List.ext_getElem? fun j => ?_
    have hlist : (a.toList.take n).length = min n a.size := by
      rw [List.length_take, length_toList h]
    by_cases hj : j < n
    · rw [List.getElem?_take_of_lt hj]
      by_cases hin : j < a.size
      · rw [List.getElem?_append_left (by omega), List.getElem?_take_of_lt hj,
          ← take_size_of_take hcells hsize, List.getElem?_take_of_lt hin]
      · rw [List.getElem?_append_right (by omega), List.getElem?_replicate, if_pos (by omega)]
        have hsome : cells[j]? = some cells[j] := List.getElem?_eq_getElem (by omega)
        by_cases hold : j < a.capacity
        · have hsame : cells[j]? = a.cells[j]? := by
            rw [← hcells, List.getElem?_take_of_lt hold]
          rcases buf_cases h with ⟨-, -, hnil⟩ | ⟨hbuf, -⟩
          · rw [hnil, List.length_nil] at hcapacityLength
            omega
          · rw [hsome, hsafe.2 hobtains a.cells hbuf j cells[j] (by omega) hj (hsame ▸ hsome)]
        · have hzero : cells[j]? =
              (List.replicate (cells.length - a.capacity) e.zero)[j - a.capacity]? := by
            rw [← hclear rfl, List.getElem?_drop]
            congr 1
            omega
          rw [hzero, List.getElem?_replicate, if_pos (by omega)]
    · rw [List.getElem?_eq_none (by rw [List.length_take]; omega),
        List.getElem?_eq_none (by rw [List.length_append, hlist, List.length_replicate]; omega)]

theorem returns_reserve (h : Fits e a) (hoverflow : a.NoOverflow e n)
    (hzero : a.isNull = false → ∀ wanted, a.wantedCapacity n = .ok wanted → wanted ≠ 0) :
    Returns e a a.toList (a.reserve e o n) := by
  have hreserves : Reserves e o a n true (a.internalReserve e o n true) :=
    reserves_internalReserve h hoverflow hzero
  rw [reserve]
  generalize a.internalReserve e o n true = r at hreserves
  cases hreserves with
  | endless => exact trivial
  | refused hrefused => exact ⟨h, rfl⟩
  | grown cells given ho hobtains hle hcapacity hbytes hcells =>
    have hsize := size_le_capacity h
    exact ⟨⟨rfl, hsize.trans hcapacity, hbytes, rfl⟩, take_size_of_take hcells hsize⟩

theorem returns_pushBackValue (h : Fits e a) {value : Value α}
    (hgiven : value.source.IsGiven e a)
    (hsafe : GrowsSafely e o a (a.size + 1) value.source) :
    Returns e a (a.toList ++ value.source.value a.toList) (a.pushBackValue e o value) := by
  have hsize := size_lt h
  have hsizeLe := size_le_capacity h
  have hgrow : a.isNull = true ∨ a.capacity < a.size + 1 → a.capacity < a.size + 1 :=
    fun hgrow => by
      rcases hgrow with hnull | hlt
      · rcases buf_cases h with ⟨hbuf, -, -⟩ | ⟨-, hnull'⟩
        · have hfits := h
          rw [Fits, hbuf] at hfits
          omega
        · rw [hnull] at hnull'
          cases hnull'
      · exact hlt
  have hresizes : Resizes e o a (a.size + 1) false (a.internalResize e o (a.size + 1) false) :=
    resizes_internalResize h fun h => (hsafe (hgrow h)).1
  rw [pushBackValue, Nat.mod_eq_of_lt (by omega)]
  generalize a.internalResize e o (a.size + 1) false = r at hresizes
  cases hresizes with
  | endless => exact trivial
  | refused hgrows hrefused =>
    rcases buf_cases h with ⟨-, hnull, -⟩ | ⟨-, hnull⟩
    · have hne : (a.size == a.size + 1) = false := beq_false_of_ne (by omega)
      rw [hne]
      change Returns e a _ (.ok (!a.isNull, a))
      rw [hnull]
      exact ⟨h, rfl⟩
    · exact absurd ((hsafe (hgrow hgrows)).2 hnull).1 hrefused
  | resized cells moved hmoved hobtains hle hcapacity hbytes hcells =>
    have hread : value.source.read cells moved = .ok (value.source.value a.toList) :=
      read_eq h hgiven hcapacity (take_size_of_take hcells hsizeLe) fun htrue k n hsrc => by
        obtain ⟨hgrows, given, ho, hgivenMoved⟩ := hmoved htrue
        rcases buf_cases h with ⟨hbuf, -, -⟩ | ⟨-, hnull⟩
        · have hkn := le_of_own hgiven k n hsrc
          have hfits := h
          rw [Fits, hbuf] at hfits
          omega
        · have hstays := ((hsafe (hgrow hgrows)).2 hnull).2
          rw [hsrc] at hstays
          exact hstays given ho hgivenMoved
    have hvalue : (value.source.value a.toList).length = 1 := by
      rw [length_value (length_toList h) (le_of_own hgiven)]
      cases value <;> rfl
    change Returns e a _ (do
      let xs ← value.source.read cells moved
      let a ← (writeCells cells (a.size + 1 - 1) xs).map fun cells' =>
        (⟨.block cells', a.size + 1, cells.length, true⟩ : ArrayState α)
      .ok (!a.isNull, a))
    rw [hread]
    generalize value.source.value a.toList = xs at hvalue ⊢
    change Returns e a _ (do
      let a ← (writeCells cells a.size xs).map fun cells' =>
        (⟨.block cells', a.size + 1, cells.length, true⟩ : ArrayState α)
      .ok (!a.isNull, a))
    have hfit : a.size + xs.length ≤ cells.length := by omega
    rw [writeCells, if_pos hfit]
    refine ⟨⟨overwrite_length hfit, hle, hbytes, rfl⟩, ?_⟩
    change (overwrite cells a.size xs).take (a.size + 1) = a.toList ++ xs
    rw [← take_size_of_take hcells hsizeLe, ← overwrite_take_end (by omega), hvalue]

theorem throws_pop (h : Fits e a) : Throws e (a.toList.eraseIdx n) (a.pop e n) := by
  rw [pop]
  split
  · exact trivial
  · next hn =>
    rcases buf_cases h with ⟨hbuf, -, -⟩ | ⟨hbuf, -⟩
    · have hfits := h
      rw [Fits, hbuf] at hfits
      omega
    · have hlist := toList_eq a
      have hfits := h
      rw [Fits, hbuf] at hfits
      obtain ⟨hlength, hsize, hbytes, hownership⟩ := hfits
      rw [hbuf]
      generalize a.cells = cells at hlist hlength ⊢
      have hrest : ((cells.drop (n + 1)).take (a.size - (n + 1))).length = a.size - (n + 1) := by
        rw [List.length_take, List.length_drop]
        omega
      dsimp only
      rw [readCells, if_pos (by omega)]
      change Throws e _ (do
        let cells ← writeCells cells n ((cells.drop (n + 1)).take (a.size - (n + 1)))
        let cells ← writeCells cells (a.size - 1) [e.zero]
        .ok (some { a with buf := .block cells, size := a.size - 1 }))
      rw [writeCells, if_pos (by omega)]
      change Throws e _ (do
        let cells ← writeCells (overwrite cells n _) (a.size - 1) [e.zero]
        .ok (some { a with buf := .block cells, size := a.size - 1 }))
      have hmoved := overwrite_length (l := cells) (i := n)
        (b := (cells.drop (n + 1)).take (a.size - (n + 1))) (by omega)
      have hfit : a.size - 1 + [e.zero].length ≤
          (overwrite cells n ((cells.drop (n + 1)).take (a.size - (n + 1)))).length := by
        rw [List.length_singleton]
        omega
      rw [writeCells, if_pos hfit]
      refine ⟨⟨(overwrite_length hfit).trans (hmoved.trans hlength), ?_, hbytes, hownership⟩, ?_⟩
      · change a.size - 1 ≤ a.capacity
        omega
      · change (overwrite _ (a.size - 1) [e.zero]).take (a.size - 1) = _
        have hend : n + ((cells.drop (n + 1)).take (a.size - (n + 1))).length = a.size - 1 := by
          omega
        rw [overwrite_take_of_le le_rfl (by omega)]
        rw [← hend, overwrite_take_end (by omega), hlist, List.eraseIdx_eq_take_drop_succ,
          List.take_take, Nat.min_eq_left (by omega), List.drop_take]

theorem throws_set (h : Fits e a) {value : Value α} (hgiven : value.source.IsGiven e a) :
    Throws e (overwrite a.toList n (value.source.value a.toList)) (a.set n value) := by
  rw [set]
  split
  · exact trivial
  · next hn =>
    rcases buf_cases h with ⟨hbuf, -, -⟩ | ⟨hbuf, -⟩
    · have hfits := h
      rw [Fits, hbuf] at hfits
      omega
    · have hlist := toList_eq a
      have hfits := h
      rw [Fits, hbuf] at hfits
      obtain ⟨hlength, hsize, hbytes, hownership⟩ := hfits
      have hread : a.readSource false value.source = .ok (value.source.value a.toList) := by
        rw [readSource, hbuf]
        exact read_eq h hgiven hlength.ge hlist.symm fun hfalse => by cases hfalse
      have hvalue : (value.source.value a.toList).length = 1 := by
        rw [length_value (length_toList h) (le_of_own hgiven)]
        cases value <;> rfl
      rw [hread]
      generalize value.source.value a.toList = xs at hvalue ⊢
      change Throws e _ (do
        let a ← a.write n xs
        .ok (some a))
      have hfit : n + xs.length ≤ a.cells.length := by omega
      have hwrite : a.write n xs = .ok { a with buf := .block (overwrite a.cells n xs) } := by
        rw [write, hbuf]
        dsimp only
        rw [writeCells, if_pos hfit]
        rfl
      rw [hwrite]
      refine ⟨⟨(overwrite_length hfit).trans hlength, hsize, hbytes, hownership⟩, ?_⟩
      change (overwrite a.cells n xs).take a.size = overwrite a.toList n xs
      rw [overwrite_take (by omega) (by omega), ← hlist]

end ArrayState

end Sihd.Util.ArrayMemory
