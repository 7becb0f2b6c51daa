import Sihd.Lib.Transition
import Sihd.Util.ArrayOperations

/-!
# Arrays as lists

The operations of the arrays of a program are those of lists, as long as the calls are safe.
-/

namespace Sihd.Util.ArrayMemory

variable {α ι : Type} {e : Element α}

/-- The operations of lists. -/
def Op.apply [DecidableEq ι] (zero : α) (i : ι) (lists : ι → List α) : Op α ι → ι → List α
  | .pushBack src => Function.update lists i (lists i ++ src.value (lists i))
  | .pushBackValue value => Function.update lists i (lists i ++ value.source.value (lists i))
  | .pushFront src => Function.update lists i (src.value (lists i) ++ lists i)
  | .insert src idx =>
      Function.update lists i
        ((lists i).take idx ++ src.value (lists i) ++ (lists i).drop idx)
  | .pop idx => Function.update lists i ((lists i).eraseIdx idx)
  | .popBack => Function.update lists i (lists i).dropLast
  | .popFront => Function.update lists i (lists i).tail
  | .from src => Function.update lists i (src.value (lists i))
  | .resize size =>
      Function.update lists i
        ((lists i).take size ++ List.replicate (size - (lists i).length) zero)
  | .reserve _ => lists
  | .set idx value =>
      Function.update lists i (overwrite (lists i) idx (value.source.value (lists i)))
  | .copy other => Function.update lists i (lists other)
  | .move other =>
      if other = i then lists
      else Function.update (Function.update lists i (lists other)) other []

def listsOf (w : World α ι) : ι → List α := fun i => (w i).toList

/-- A call that touches no memory but that of the blocks, leaves arrays that fit, and gives the
lists of an operation, or leaves them. A copy that was refused leaves an empty array. -/
def Answers (e : Element α) (lists spec emptied : ι → List α) (i : ι) :
    Except Fault (Report × World α ι) → Prop
  | .error .endless => True
  | .error .invalid => False
  | .ok (report, w) =>
      (∀ j, Fits e (w j)) ∧
        match report with
        | .returned true => listsOf w = spec
        | .done => listsOf w = spec
        | .returned false => listsOf w = lists
        | .thrown => listsOf w = lists
        | .copied => listsOf w = spec ∨ (w i).isNull = true ∧ listsOf w = emptied

/-- A call that does what its operation of lists does. -/
def Refines [DecidableEq ι] (e : Element α) (w : World α ι) (c : Call α ι) : Prop :=
  Answers e (listsOf w) (c.op.apply e.zero c.array (listsOf w))
    (Function.update (listsOf w) c.array []) c.array (exec e w c)

def Op.IsGiven (e : Element α) (a : ArrayState α) : Op α ι → Prop
  | .pushBack src => src.IsGiven e a
  | .pushBackValue value => value.source.IsGiven e a
  | .pushFront src => src.IsGiven e a
  | .insert src _ => src.IsGiven e a
  | .from src => src.IsGiven e a
  | .set _ value => value.source.IsGiven e a
  | _ => True

/-- A safe call on an array. -/
def Op.IsSafe (e : Element α) (o : Option (Given α)) (a : ArrayState α) : Op α ι → Prop
  | .pushBack src => InsertsSafely e o a src a.size
  | .pushBackValue value => GrowsSafely e o a (a.size + 1) value.source
  | .pushFront src => InsertsSafely e o a src 0
  | .insert src idx => InsertsSafely e o a src idx
  | .from src =>
      a.isNull = true ∨ a.capacity < src.length → a.NoOverflow e src.length ∧
        (a.isNull = false → a.Obtains e o src.length)
  | .resize size => ResizesSafely e o a size
  | .reserve capacity =>
      a.NoOverflow e capacity ∧ (a.isNull = false →
        ∀ wanted, a.wantedCapacity capacity = .ok wanted → wanted ≠ 0)
  | _ => True

namespace ArrayState

variable {a : ArrayState α} {o : Option (Given α)} {src : Source α}

theorem throws_popBack (h : Fits e a) : Throws e a.toList.dropLast (a.popBack e) := by
  have hsize := size_lt h
  have hpop : ∀ idx, a.toList.eraseIdx idx = a.toList.dropLast → Throws e a.toList.dropLast
      (a.pop e idx) := fun idx heq => heq ▸ throws_pop h
  rw [popBack]
  cases hzero : a.size with
  | zero =>
    rw [pop, if_pos (by omega)]
    exact trivial
  | succ size =>
    exact hpop _ (List.dropLast_eq_eraseIdx (by rw [length_toList h]; omega)).symm

theorem deleteBuffer_eq (h : Fits e a) : a.deleteBuffer = .ok {} := by
  rw [Fits] at h
  rw [deleteBuffer]
  split at h
  · next hbuf => rw [hbuf]
  · next hbuf => rw [hbuf]
  · cases h

/-- What `from` returns tells whether there is a block. -/
theorem isNull_of_from {ret : Bool} {a' : ArrayState α} (h : a.from e o src = .ok (ret, a')) :
    ret = !a'.isNull := by
  rw [«from»] at h
  cases hdelete : a.deleteLent with
  | error fault =>
    rw [hdelete] at h
    cases h
  | ok b =>
    rw [hdelete] at h
    change (b.internalResize e o src.length false >>= _) = _ at h
    cases hresize : b.internalResize e o src.length false with
    | error fault =>
      rw [hresize] at h
      cases h
    | ok result =>
      obtain ⟨resized, moved, b⟩ := result
      rw [hresize] at h
      cases resized with
      | false =>
        cases h
        rfl
      | true =>
        change (do
          let xs ← b.readSource moved src
          let a ← b.write 0 xs
          .ok (!({ a with size := src.length } : ArrayState α).isNull,
            { a with size := src.length })) = _ at h
        cases hread : b.readSource moved src with
        | error fault =>
          rw [hread] at h
          cases h
        | ok xs =>
          rw [hread] at h
          change (do
            let a ← b.write 0 xs
            .ok (!({ a with size := src.length } : ArrayState α).isNull,
              { a with size := src.length })) = _ at h
          cases hwrite : b.write 0 xs with
          | error fault =>
            rw [hwrite] at h
            cases h
          | ok b =>
            rw [hwrite] at h
            cases h
            rfl

end ArrayState

section Worlds

variable [DecidableEq ι] {w : World α ι} {i : ι} {spec : List α}

theorem listsOf_update (w : World α ι) (i : ι) (a : ArrayState α) :
    listsOf (Function.update w i a) = Function.update (listsOf w) i a.toList := by
  funext j
  exact Function.apply_update (fun _ => ArrayState.toList) w i a j

theorem fits_update (hw : ∀ j, Fits e (w j)) {a : ArrayState α} (ha : Fits e a) (j : ι) :
    Fits e (Function.update w i a j) := by
  by_cases hj : j = i
  · rw [hj, Function.update_self]
    exact ha
  · rw [Function.update_of_ne hj]
    exact hw j

theorem answers_ofReturn {emptied : ι → List α} (hw : ∀ j, Fits e (w j))
    {r : Except Fault (Bool × ArrayState α)} (h : Returns e (w i) spec r) :
    Answers e (listsOf w) (Function.update (listsOf w) i spec) emptied i (ofReturn w i r) := by
  cases r with
  | error fault =>
    cases fault with
    | endless => exact trivial
    | invalid => cases h
  | ok result =>
    obtain ⟨ret, a⟩ := result
    obtain ⟨hfits, hlist⟩ := h
    refine ⟨fits_update hw hfits, ?_⟩
    cases ret with
    | true =>
      change listsOf (Function.update w i a) = _
      rw [listsOf_update, hlist, if_pos rfl]
    | false =>
      change listsOf (Function.update w i a) = _
      rw [listsOf_update, hlist, if_neg Bool.false_ne_true]
      exact Function.update_eq_self i (listsOf w)

theorem answers_ofThrow {emptied : ι → List α} (hw : ∀ j, Fits e (w j))
    {r : Except Fault (Option (ArrayState α))} (h : Throws e spec r) :
    Answers e (listsOf w) (Function.update (listsOf w) i spec) emptied i (ofThrow w i r) := by
  cases r with
  | error fault => cases h
  | ok result =>
    cases result with
    | none => exact ⟨hw, rfl⟩
    | some a =>
      obtain ⟨hfits, hlist⟩ := h
      refine ⟨fits_update hw hfits, ?_⟩
      change listsOf (Function.update w i a) = _
      rw [listsOf_update, hlist]

theorem answers_copy {o : Option (Given α)} (hw : ∀ j, Fits e (w j)) (i other : ι) :
    Answers e (listsOf w) (Function.update (listsOf w) i (listsOf w other))
      (Function.update (listsOf w) i []) i (copy e o w i other) := by
  rw [copy]
  split
  · next hself =>
    refine ⟨hw, .inl ?_⟩
    rw [hself]
    exact (Function.update_eq_self i (listsOf w)).symm
  · have hother := hw other
    have hread : (w other).readSource false (.own 0 (w other).size) = .ok (w other).toList := by
      have hgiven : Source.IsGiven e (w other) (.own 0 (w other).size) := (Nat.zero_add _).le
      have hvalue : Source.value (w other).toList (.own 0 (w other).size) = (w other).toList := by
        rw [Source.value, List.drop_zero, ← ArrayState.length_toList hother, List.take_length]
      have hread : Source.read (w other).cells false (.own 0 (w other).size) =
          .ok (Source.value (w other).toList (.own 0 (w other).size)) :=
        ArrayState.read_eq hother hgiven (ArrayState.length_cells hother).ge
          (ArrayState.toList_eq _).symm fun hfalse => by cases hfalse
      rw [ArrayState.readSource]
      rcases ArrayState.buf_cases hother with ⟨hbuf, -, hcells⟩ | ⟨hbuf, -⟩
      · rw [hcells, hvalue] at hread
        rw [hbuf]
        exact hread
      · rw [hvalue] at hread
        rw [hbuf]
        exact hread
    have hbytes : (w other).toList.length * e.dataSize < 2 ^ 63 := by
      rw [ArrayState.length_toList hother]
      have hsize := ArrayState.size_le_capacity hother
      rw [Fits] at hother
      split at hother
      · rw [hother.1]
        omega
      · exact (Nat.mul_le_mul_right _ hsize).trans_lt hother.2.2.1
      · cases hother
    have hreturns : Returns e {} (w other).toList
        (ArrayState.from e o {} (.outside (w other).toList)) :=
      ArrayState.returns_from ⟨rfl, rfl, rfl⟩ hbytes fun _ =>
        ⟨fun capacity hcapacity => by
          rw [← Except.ok.inj hcapacity]
          exact hbytes.trans (by omega), fun hfalse => by cases hfalse⟩
    rw [ArrayState.deleteBuffer_eq (hw i)]
    change Answers e _ _ _ i ((w other).readSource false (.own 0 (w other).size) >>= _)
    rw [hread]
    change Answers e _ _ _ i (ArrayState.from e o {} (.outside (w other).toList) >>= _)
    cases hfrom : ArrayState.from e o {} (.outside (w other).toList) with
    | error fault =>
      rw [hfrom] at hreturns
      cases fault with
      | endless => exact trivial
      | invalid => cases hreturns
    | ok result =>
      obtain ⟨ret, a⟩ := result
      have hret := ArrayState.isNull_of_from hfrom
      rw [hfrom] at hreturns
      obtain ⟨hfits, hlist⟩ := hreturns
      refine ⟨fits_update hw hfits, ?_⟩
      change listsOf (Function.update w i a) = _ ∨ (Function.update w i a i).isNull = true ∧
        listsOf (Function.update w i a) = _
      rw [listsOf_update, Function.update_self, hlist]
      cases ret with
      | true => exact .inl rfl
      | false =>
        rw [Eq.comm, Bool.not_eq_false'] at hret
        exact .inr ⟨hret, rfl⟩

theorem answers_move {emptied : ι → List α} (hw : ∀ j, Fits e (w j)) (i other : ι) :
    Answers e (listsOf w) (Op.apply e.zero i (listsOf w) (.move other)) emptied i
      (move w i other) := by
  rw [move, Op.apply]
  split
  · exact ⟨hw, rfl⟩
  · rw [ArrayState.deleteBuffer_eq (hw i)]
    refine ⟨fits_update (fits_update hw (hw other)) ⟨rfl, rfl, rfl⟩, ?_⟩
    change listsOf (Function.update (Function.update w i (w other)) other {}) = _
    rw [listsOf_update, listsOf_update]
    rfl

/-- A safe call does what its operation of lists does. -/
theorem refines_of_isSafe (hw : ∀ j, Fits e (w j)) {c : Call α ι}
    (hgiven : c.op.IsGiven e (w c.array)) (hsafe : c.op.IsSafe e c.outcome (w c.array)) :
    Refines e w c := by
  have h := hw c.array
  have hlength := ArrayState.length_toList h
  obtain ⟨i, op, o⟩ := c
  cases op with
  | pushBack src =>
    have hreturns := ArrayState.returns_insert h hgiven hsafe
    rw [← hlength, List.take_length, List.drop_length, List.append_nil, hlength] at hreturns
    exact answers_ofReturn hw hreturns
  | pushBackValue value =>
    exact answers_ofReturn hw (ArrayState.returns_pushBackValue h hgiven hsafe)
  | pushFront src => exact answers_ofReturn hw (ArrayState.returns_insert h hgiven hsafe)
  | insert src idx => exact answers_ofReturn hw (ArrayState.returns_insert h hgiven hsafe)
  | pop idx => exact answers_ofThrow hw (ArrayState.throws_pop h)
  | popBack => exact answers_ofThrow hw (ArrayState.throws_popBack h)
  | popFront =>
    have hthrows := ArrayState.throws_pop (n := 0) h
    rw [List.eraseIdx_zero] at hthrows
    exact answers_ofThrow hw hthrows
  | «from» src => exact answers_ofReturn hw (ArrayState.returns_from h hgiven hsafe)
  | resize size => exact answers_ofReturn hw (ArrayState.returns_resize h hsafe)
  | reserve capacity =>
    have hanswers : Answers e (listsOf w) (Function.update (listsOf w) i (w i).toList)
        (Function.update (listsOf w) i []) i (ofReturn w i ((w i).reserve e o capacity)) :=
      answers_ofReturn hw (ArrayState.returns_reserve h hsafe.1 hsafe.2)
    have hself : Function.update (listsOf w) i (w i).toList = listsOf w :=
      Function.update_eq_self i (listsOf w)
    rw [hself] at hanswers
    exact hanswers
  | set idx value => exact answers_ofThrow hw (ArrayState.throws_set h hgiven)
  | copy other => exact answers_copy hw i other
  | move other => exact answers_move hw i other

/-- A program goes on after its calls. -/
def step (e : Element α) (w : World α ι) (c : Call α ι) : Option (World α ι) :=
  match exec e w c with
  | .ok (_, w') => some w'
  | .error _ => some w

theorem fits_of_refines {c : Call α ι} {w' : World α ι} (hw : ∀ j, Fits e (w j))
    (hstep : step e w c = some w') (h : Refines e w c) (j : ι) : Fits e (w' j) := by
  rw [Refines] at h
  rw [step] at hstep
  cases hexec : exec e w c with
  | error fault =>
    rw [hexec] at hstep
    rw [← Option.some.inj hstep]
    exact hw j
  | ok result =>
    rw [hexec] at hstep h
    rw [← Option.some.inj hstep]
    exact h.1 j

/-- In a program whose calls are all safe, from empty arrays, every call does what its operation
of lists does. -/
theorem refines_of_safeCalls (e : Element α) (calls : List (Call α ι))
    (h : Transition.Along (step e) (fun w c _ => c.op.IsGiven e (w c.array) ∧
      c.op.IsSafe e c.outcome (w c.array)) (fun _ => {}) calls) :
    Transition.Along (step e) (fun w c _ => Refines e w c) (fun _ => {}) calls := by
  have hempty : ∀ _ : ι, Fits e ({} : ArrayState α) := fun _ => ⟨rfl, rfl, rfl⟩
  refine Transition.Along.imp_of_invariant (I := fun w : World α ι => ∀ j, Fits e (w j)) h hempty ?_
  intro w c w' hw hstep hsafe
  have hrefines := refines_of_isSafe hw hsafe.1 hsafe.2
  exact ⟨hrefines, fits_of_refines hw hstep hrefines⟩

end Worlds

/-- Bytes. -/
def byteElement : Element UInt8 := ⟨1, Nat.one_pos, 0⟩

/-- The C library gives memory at another place. -/
def movedBlock : Option (Given UInt8) := some ⟨true, fun _ => 0⟩

/-- Three bytes are pushed, one of them is popped, and one is doubled. -/
def safeCalls : List (Call UInt8 Unit) :=
  [⟨(), .pushBack (.outside [1, 2, 3]), movedBlock⟩, ⟨(), .popFront, movedBlock⟩,
    ⟨(), .insert (.own 0 1) 1, movedBlock⟩]

theorem refines_safeCalls :
    Transition.Along (step byteElement) (fun w c _ => Refines byteElement w c) (fun _ => {})
      safeCalls := by
  have hgiven : Source.IsGiven byteElement ({} : ArrayState UInt8) (.outside [1, 2, 3]) := by
    change 3 * 1 < 2 ^ 63
    decide
  have hpush : InsertsSafely byteElement movedBlock {} (.outside [1, 2, 3]) 0 := fun _ =>
    ⟨fun _ => ⟨fun capacity hcapacity => by rw [← Except.ok.inj hcapacity]; decide,
      fun hfalse => by cases hfalse⟩, trivial⟩
  refine refines_of_safeCalls byteElement safeCalls fun w₁ hw₁ => ⟨⟨hgiven, hpush⟩, ?_⟩
  cases hw₁
  refine fun w₂ hw₂ => ⟨⟨trivial, trivial⟩, ?_⟩
  cases hw₂
  -- The block has room for a third byte.
  have hown : (0 : Nat) + 1 ≤ 2 := by decide
  have hroom : ¬ (3 : Nat) < 2 + 1 := by decide
  exact fun w₃ hw₃ => ⟨⟨hown, fun _ => ⟨fun hgrow => absurd hgrow hroom, .inl (Nat.zero_le 1)⟩⟩,
    trivial⟩

/-- A reference to the first byte of a full array is pushed, and the block moves. -/
def danglingCalls : List (Call UInt8 Unit) :=
  [⟨(), .pushBack (.outside [1, 2, 3]), movedBlock⟩, ⟨(), .pushBackValue (.own 0), movedBlock⟩]

theorem not_refines_danglingCalls :
    ¬ Transition.Along (step byteElement) (fun w c _ => Refines byteElement w c) (fun _ => {})
      danglingCalls := by
  intro h
  exact ((h _ rfl).2 _ rfl).1

end Sihd.Util.ArrayMemory
