import Sihd.Util.ArrayOperations
import Sihd.Util.Splitter.Plain
import Sihd.Util.Str.Convert

/-!
# The text of arrays

`str` writes the integers of an array with a character between them, and `from_str`
splits a text at that character and pushes what it reads to an array that may hold
anything. The C library gives the memory it is asked for.
-/

namespace Sihd.Util.ArrayText

open ArrayMemory Str

def element (T : IntType) : ArrayMemory.Element Int where
  dataSize := T.width / 8
  pos := by cases T <;> decide
  zero := 0

/-- `str` with a delimiter. -/
def str (delimiter : UInt8) (values : List Int) : List UInt8 :=
  [delimiter].intercalate (values.map decimalInt)

/-- The `(int)size` of a splitter, which splits nothing of a view where it is negative. -/
def intSize (size : Nat) : Nat := (BitVec.ofNat 32 size).toInt.toNat

def splits (data : List UInt8) (delimiter : UInt8) : List (List UInt8) :=
  Str.split (data.take (intSize data.length)) [delimiter]

/-- The loop of `from_str`. -/
def pushSplits (T : IntType) (given : Nat → Given Int) :
    Nat → ArrayState Int → List (List UInt8) → Except Fault (Bool × ArrayState Int)
  | _, a, [] => .ok (true, a)
  | k, a, split :: splits =>
      match convertFromString T split 10 with
      | none => .ok (false, a)
      | some value => do
          let (_, a) ← a.pushBackValue (element T) (some (given k)) (.outside value)
          pushSplits T given (k + 1) a splits

def fromStr (T : IntType) (given : Nat → Given Int) (a : ArrayState Int)
    (data : List UInt8) (delimiter : UInt8) : Except Fault (Bool × ArrayState Int) := do
  let splits := splits data delimiter
  let (_, a) ← a.reserve (element T) (some (given 0)) splits.length
  let (_, a) ← a.resize (element T) (some (given 1)) 0
  pushSplits T given 2 a splits

/-- The array that receives: over memory that was lent to it, which is no block for
`realloc`, or with no block or its own. -/
inductive Receiver (T : IntType) where
  | lent
  | array (a : ArrayState Int) (fits : Fits (element T) a)

def Receiver.fromStr {T : IntType} (given : Nat → Given Int) (data : List UInt8)
    (delimiter : UInt8) : Receiver T → Except Fault (Bool × ArrayState Int)
  | .lent => .error .invalid
  | .array a _ => ArrayText.fromStr T given a data delimiter

abbrev Delimiter := { d : UInt8 // isDecimalDigit d = false ∧ d ≠ minus }

abbrev Values (T : IntType) := List { z : Int // T.InRange z }

/-- The text of an array is read back. -/
def RoundTrips {T : IntType} (given : Nat → Given Int) (values : Values T)
    (delimiter : Delimiter) (receiver : Receiver T) : Prop :=
  ∃ a, receiver.fromStr given (str delimiter (values.map Subtype.val)) delimiter =
    .ok (true, a) ∧ Fits (element T) a ∧ a.toList = values.map Subtype.val

/-- A receiver of a number of values: not over lent memory, and with no block of the
capacity 0 that an empty array would be received in. -/
def Receiver.Takes {T : IntType} (n : Nat) : Receiver T → Prop
  | .lent => False
  | .array a _ => n = 0 → a.isNull = false → a.capacity ≠ 0

/-! ## The receiver -/

section Receiver

variable {T : IntType} {a : ArrayState Int} {n : Nat} {given : Given Int}

theorem dataSize_le (T : IntType) : (element T).dataSize ≤ 8 := by
  cases T <;> decide

/-- The doubling of a capacity up to `2 ^ 31` ends, and not far behind it. -/
theorem growCapacity_ok {left k c : Nat} (hk : k < left) (hn : n ≤ c * 2 ^ k) (hsmall : n ≤ 2 ^ 31) :
    ∃ wanted, growCapacity left c n = .ok wanted ∧ wanted ≤ max c (2 * n) := by
  induction left generalizing k c with
  | zero => omega
  | succ left ih =>
    rw [growCapacity]
    by_cases hlt : c < n
    · rw [if_pos hlt, Nat.mod_eq_of_lt (by omega)]
      cases k with
      | zero => omega
      | succ k =>
        have hnext : n ≤ c * 2 * 2 ^ k := by
          rw [Nat.mul_assoc, ← Nat.pow_succ']
          exact hn
        obtain ⟨wanted, hgrow, hle⟩ := ih (by omega) hnext
        exact ⟨wanted, hgrow, by omega⟩
    · rw [if_neg hlt]
      exact ⟨c, rfl, le_max_left c _⟩

theorem wantedCapacity_ok (a : ArrayState Int) (hsmall : n ≤ 2 ^ 31) :
    ∃ wanted, a.wantedCapacity n = .ok wanted ∧ wanted ≤ max a.capacity (2 * n) := by
  rw [ArrayState.wantedCapacity]
  split
  · rename_i hpos
    refine growCapacity_ok (k := 31) (by omega) ?_ hsmall
    exact hsmall.trans (Nat.le_mul_of_pos_left _ hpos)
  · exact ⟨n, rfl, by omega⟩

theorem capacity_bytes_lt (h : Fits (element T) a) :
    a.capacity * (element T).dataSize < 2 ^ 63 := by
  rw [Fits] at h
  split at h
  · simp [h.2.1]
  · exact h.2.2.1
  · cases h

/-- What is asked for is less than the largest object. -/
theorem wanted_bytes_lt (h : Fits (element T) a) (hsmall : n ≤ 2 ^ 31) {wanted : Nat}
    (hwanted : a.wantedCapacity n = .ok wanted) :
    wanted * (element T).dataSize < 2 ^ 63 := by
  obtain ⟨wanted', hwanted', hle⟩ := wantedCapacity_ok a hsmall
  rw [hwanted, Except.ok.injEq] at hwanted'
  subst hwanted'
  rcases le_max_iff.mp hle with hcapacity | hdouble
  · exact (Nat.mul_le_mul_right _ hcapacity).trans_lt (capacity_bytes_lt h)
  · exact (Nat.mul_le_mul hdouble (dataSize_le T)).trans_lt (by omega)

theorem realloc_ne_endless {e : ArrayMemory.Element Int} {o : Option (Given Int)}
    {buf : ArrayMemory.Buffer Int} {bytes : Nat} : realloc e o buf bytes ≠ .error .endless := by
  unfold realloc
  split
  · nofun
  · nofun
  · split <;> nofun

theorem writeCells_ne_endless {cells xs : List Int} {k : Nat} :
    writeCells cells k xs ≠ .error .endless := by
  unfold writeCells
  split <;> nofun

/-- Only the loop does not end. -/
theorem internalReserve_ne_endless {e : ArrayMemory.Element Int} {o : Option (Given Int)}
    {clearMem : Bool} {wanted : Nat} (hwanted : a.wantedCapacity n = .ok wanted) :
    a.internalReserve e o n clearMem ≠ .error .endless := by
  intro h
  rw [ArrayState.internalReserve, hwanted] at h
  simp only [bind, Except.bind] at h
  split at h
  · rename_i fault hrealloc
    cases h
    exact realloc_ne_endless hrealloc
  · split at h
    · cases h
    · split at h
      · split at h
        · rename_i fault hwrite
          cases h
          exact writeCells_ne_endless hwrite
        · cases h
      · cases h

/-- The reserve for some elements gives them a block. -/
theorem reserve_ok (h : Fits (element T) a) (hsmall : n ≤ 2 ^ 31)
    (hzero : n = 0 → a.isNull = false → a.capacity ≠ 0) :
    ∃ a', a.reserve (element T) (some given) n = .ok (true, a') ∧ Fits (element T) a' ∧
      a'.isNull = false ∧ n ≤ a'.capacity := by
  obtain ⟨wanted, hwanted, -⟩ := wantedCapacity_ok a hsmall
  have hbytes : ∀ wanted, a.wantedCapacity n = .ok wanted →
      wanted * (element T).dataSize < 2 ^ 63 := fun _ => wanted_bytes_lt h hsmall
  have hreserves : ArrayState.Reserves (element T) (some given) a n true
      (a.internalReserve (element T) (some given) n true) := by
    refine ArrayState.reserves_internalReserve h (fun wanted hw => ?_) fun hnull wanted hw => ?_
    · exact (hbytes wanted hw).trans (by omega)
    · have hle := ArrayState.wantedCapacity_le hw
      have hpos := fun hn => hzero hn hnull
      omega
  have hends := @internalReserve_ne_endless a n (element T) (some given) true wanted hwanted
  rw [ArrayState.reserve]
  generalize a.internalReserve (element T) (some given) n true = r at hreserves hends
  cases hreserves with
  | endless => exact absurd rfl hends
  | refused hrefused =>
    refine absurd (fun wanted hw => ?_) hrefused
    rw [granted, if_pos (hbytes wanted hw)]
    exact Option.some_ne_none _
  | grown cells given' ho hobtains hle hcapacity hroom hcells hclear =>
    refine ⟨_, rfl, ⟨rfl, ?_, hroom, rfl⟩, rfl, hle⟩
    exact (ArrayState.size_le_capacity h).trans hcapacity

theorem resize_zero (hnull : a.isNull = false) {o : Option (Given Int)} :
    a.resize (element T) o 0 = .ok (true, { a with size := 0 }) := by
  have hnull' : ({ a with size := 0 } : ArrayState Int).isNull = false := hnull
  simp [ArrayState.resize, ArrayState.internalResize, hnull, bind, Except.bind, Except.map]

/-- A push inside the capacity. -/
theorem pushBackValue_of_lt (h : Fits (element T) a) (hlt : a.size < a.capacity) (value : Int)
    {o : Option (Given Int)} :
    ∃ a', a.pushBackValue (element T) o (.outside value) = .ok (true, a') ∧
      Fits (element T) a' ∧ a'.isNull = false ∧ a'.capacity = a.capacity ∧
      a'.size = a.size + 1 ∧ a'.toList = a.toList ++ [value] := by
  have hroom := (Nat.le_mul_of_pos_right a.capacity (element T).pos).trans_lt
    (capacity_bytes_lt h)
  obtain ⟨buf, size, capacity, hasOwnership⟩ := a
  cases buf with
  | null =>
    obtain ⟨-, hcapacity, -⟩ := h
    dsimp only at hcapacity hlt
    omega
  | released => exact h.elim
  | block cells =>
    obtain ⟨hlength, -, hbytes, hownership⟩ := h
    dsimp only at hlength hbytes hownership hlt hroom
    have hfits : size + 1 ≤ cells.length := by omega
    have hwrite : (overwrite cells size [value]).length = capacity := by
      rw [overwrite_length (by simpa using hfits), hlength]
    have htake : (overwrite cells size [value]).take (size + 1) = cells.take size ++ [value] :=
      @overwrite_take_end _ cells [value] size (by omega)
    refine ⟨⟨.block (overwrite cells size [value]), size + 1, capacity, hasOwnership⟩, ?_,
      ⟨hwrite, hlt, hbytes, hownership⟩, rfl, rfl, rfl, htake⟩
    have hmod : (size + 1) % 2 ^ 64 = size + 1 := Nat.mod_eq_of_lt (by omega)
    have hle : size + 1 ≤ capacity := hlt
    have hresize : ArrayState.internalResize (element T) o
        ⟨.block cells, size, capacity, hasOwnership⟩ (size + 1) false =
          .ok (true, false, ⟨.block cells, size + 1, capacity, hasOwnership⟩) := by
      have hnot : decide (capacity < size + 1) = false := decide_eq_false (Nat.not_lt.mpr hle)
      simp only [ArrayState.internalResize, ArrayState.isNull, hnot, Bool.or_false,
        Bool.false_eq_true, if_false, bind, Except.bind]
      simp [hle]
    simp only [ArrayState.pushBackValue, hmod, hresize]
    simp [ArrayState.isNull, ArrayState.readSource, Value.source, Source.read, ArrayState.write,
      writeCells, hfits, bind, Except.bind, Except.map]

/-- The pushes of values that there is room for. -/
theorem pushSplits_spec (h : Fits (element T) a) (hnull : a.isNull = false) (k : Nat)
    {splits : List (List UInt8)} (hroom : a.size + splits.length ≤ a.capacity)
    (given : Nat → Given Int) :
    match splits.mapM fun s => convertFromString T s 10 with
    | some values => ∃ a', pushSplits T given k a splits = .ok (true, a') ∧
        Fits (element T) a' ∧ a'.toList = a.toList ++ values
    | none => ∃ a', pushSplits T given k a splits = .ok (false, a') := by
  induction splits generalizing a k with
  | nil => exact ⟨a, rfl, h, by simp⟩
  | cons s splits ih =>
    rw [List.mapM_cons, pushSplits]
    cases hread : convertFromString T s 10 with
    | none => exact ⟨a, rfl⟩
    | some value =>
      rw [List.length_cons] at hroom
      obtain ⟨a', hpush, hfits, hnull', hcapacity, hsize, hlist⟩ :=
        @pushBackValue_of_lt T a h (by omega) value (some (given k))
      have ih := ih hfits hnull' (k + 1) (by omega)
      have hnext : pushSplits T given k a (s :: splits) = pushSplits T given (k + 1) a' splits := by
        rw [pushSplits, hread]
        simp only [hpush, bind, Except.bind]
      rw [pushSplits, hread] at hnext
      dsimp only at hnext ⊢
      rw [hnext]
      cases hrest : splits.mapM fun s => convertFromString T s 10 with
      | none =>
        rw [hrest] at ih
        exact ih
      | some values =>
        rw [hrest] at ih
        obtain ⟨a'', hloop, hfits'', hlist''⟩ := ih
        refine ⟨a'', hloop, hfits'', ?_⟩
        rw [hlist'', hlist, List.append_assoc, List.singleton_append]

theorem intSize_lt (size : Nat) : intSize size < 2 ^ 31 := by
  have hlt := BitVec.toInt_lt (x := BitVec.ofNat 32 size)
  rw [intSize]
  omega

theorem length_pieces_le (d : UInt8) (s : List UInt8) : (pieces [d] s).length ≤ s.length + 1 := by
  induction s with
  | nil => simp
  | cons c s ih =>
    by_cases hc : c = d
    · subst hc
      rw [pieces_char_cons_self, List.length_cons, List.length_cons]
      omega
    · rw [pieces_char_cons hc, List.length_modifyHead, List.length_cons]
      omega

theorem length_splits_le (data : List UInt8) (d : UInt8) : (splits data d).length ≤ 2 ^ 31 := by
  have hsize := intSize_lt data.length
  have hfilter := List.length_filter_le (fun p : List UInt8 => decide (p ≠ []))
    (pieces [d] (data.take (intSize data.length)))
  have hpieces := length_pieces_le d (data.take (intSize data.length))
  rw [List.length_take] at hpieces
  rw [splits, split_eq (List.cons_ne_nil d [])]
  omega

/-- A receiver with room, or that is given a block, has what is read. -/
theorem fromStr_spec (h : Fits (element T) a) (given : Nat → Given Int) (data : List UInt8)
    (d : UInt8) (htakes : (splits data d).length = 0 → a.isNull = false → a.capacity ≠ 0) :
    match (splits data d).mapM fun s => convertFromString T s 10 with
    | some values => ∃ a', fromStr T given a data d = .ok (true, a') ∧
        Fits (element T) a' ∧ a'.toList = values
    | none => ∃ a', fromStr T given a data d = .ok (false, a') := by
  obtain ⟨a₁, hreserve, hfits, hnull, hle⟩ :=
    @reserve_ok T a _ (given 0) h (length_splits_le data d) htakes
  have hresize := @resize_zero T a₁ hnull (some (given 1))
  have hloop : fromStr T given a data d =
      pushSplits T given 2 { a₁ with size := 0 } (splits data d) := by
    simp only [fromStr, hreserve, hresize, bind, Except.bind]
  rw [hloop]
  have hempty : Fits (element T) { a₁ with size := 0 } := by
    obtain ⟨buf, size, capacity, hasOwnership⟩ := a₁
    cases buf with
    | null => cases hnull
    | released => exact hfits.elim
    | block cells => exact ⟨hfits.1, Nat.zero_le _, hfits.2.2⟩
  have hlist : ({ a₁ with size := 0 } : ArrayState Int).toList = [] := by
    rw [ArrayState.toList_eq, List.take_zero]
  have hspec := @pushSplits_spec T { a₁ with size := 0 } hempty hnull 2 (splits data d)
    (by simpa using hle) given
  rwa [hlist] at hspec

/-- An empty array takes the block of a receiver whose capacity is 0. -/
theorem fromStr_releases (h : Fits (element T) a) (given : Nat → Given Int) {data : List UInt8}
    {d : UInt8} (hsplits : splits data d = []) (hnull : a.isNull = false)
    (hcapacity : a.capacity = 0) :
    ∃ a', fromStr T given a data d = .ok (true, a') ∧ ¬ Fits (element T) a' := by
  obtain ⟨buf, size, capacity, hasOwnership⟩ := a
  cases buf with
  | null => cases hnull
  | released => exact h.elim
  | block cells =>
    dsimp only at hcapacity
    subst hcapacity
    have hreserve : ArrayState.reserve (element T) (some (given 0))
        ⟨.block cells, size, 0, hasOwnership⟩ 0 =
          .ok (false, ⟨.released, size, 0, hasOwnership⟩) := by
      simp [ArrayState.reserve, ArrayState.internalReserve, ArrayState.wantedCapacity, realloc,
        bind, Except.bind, Except.map]
    have hresize := @resize_zero T ⟨.released, size, 0, hasOwnership⟩ rfl (some (given 1))
    refine ⟨⟨.released, 0, 0, hasOwnership⟩, ?_, id⟩
    simp only [fromStr, hsplits, List.length_nil, hreserve, hresize, bind, Except.bind]
    rfl

/-- A text is read as some values exactly when its tokens are, and the block is not lost. -/
theorem fromStr_iff (h : Fits (element T) a) (given : Nat → Given Int) (data : List UInt8)
    (d : UInt8) (values : List Int) :
    (∃ a', fromStr T given a data d = .ok (true, a') ∧ Fits (element T) a' ∧
        a'.toList = values) ↔
      (splits data d).mapM (fun s => convertFromString T s 10) = some values ∧
        ((splits data d).length = 0 → a.isNull = false → a.capacity ≠ 0) := by
  by_cases htakes : (splits data d).length = 0 → a.isNull = false → a.capacity ≠ 0
  · have hspec := fromStr_spec h given data d htakes
    rw [and_iff_left htakes]
    constructor
    · rintro ⟨a', hrun, -, hlist⟩
      cases hmap : (splits data d).mapM fun s => convertFromString T s 10 with
      | none =>
        rw [hmap] at hspec
        obtain ⟨a'', hfails⟩ := hspec
        cases hrun.symm.trans hfails
      | some values' =>
        rw [hmap] at hspec
        obtain ⟨a'', hreads, -, hlist''⟩ := hspec
        cases hrun.symm.trans hreads
        rw [← hlist'', hlist]
    · intro hmap
      rwa [hmap] at hspec
  · refine iff_of_false ?_ fun hread => htakes hread.2
    rw [Classical.not_imp, Classical.not_imp, not_not] at htakes
    obtain ⟨hnone, hnull, hcapacity⟩ := htakes
    obtain ⟨a', hrun, hlost⟩ := fromStr_releases h given
      (List.length_eq_zero_iff.mp hnone) hnull hcapacity
    rintro ⟨a'', hrun'', hfits, -⟩
    cases hrun.symm.trans hrun''
    exact hlost hfits

end Receiver

/-! ## The text -/

section Text

variable {T : IntType} {d : UInt8} {z : Int}

theorem digitsValue_append (p q : List UInt8) :
    digitsValue (p ++ q) = digitsValue p * 10 ^ q.length + digitsValue q := by
  have hfoldl : ∀ (q : List UInt8) (n : Nat),
      q.foldl (fun n c => 10 * n + (c.toNat - 48)) n = n * 10 ^ q.length + digitsValue q := by
    intro q
    induction q with
    | nil => simp [digitsValue]
    | cons c q ih =>
      intro n
      rw [digitsValue, List.foldl_cons, List.foldl_cons, ih, ih (10 * 0 + (c.toNat - 48)),
        List.length_cons, Nat.pow_succ]
      ring
  rw [digitsValue, List.foldl_append, hfoldl]
  rfl

/-- A number that is cut off before the end of its digits is a smaller one. -/
theorem digitsValue_lt {p q : List UInt8} {n : Nat} (h : decimal n = p ++ q) (hp : p ≠ [])
    (hq : q ≠ []) : digitsValue p < n := by
  have hvalue := digitsValue_decimal n
  rw [h, digitsValue_append] at hvalue
  have hn : n ≠ 0 := by
    rintro rfl
    have hlength := congrArg List.length h
    have hp := List.length_pos_of_ne_nil hp
    have hq := List.length_pos_of_ne_nil hq
    have hone : (decimal 0).length = 1 := rfl
    rw [List.length_append] at hlength
    omega
  have hpow : 10 ≤ 10 ^ q.length := Nat.le_self_pow (List.length_pos_of_ne_nil hq).ne' 10
  have hle := Nat.mul_le_mul_left (digitsValue p) hpow
  omega

/-- Digits with a sign are converted to their number. -/
theorem convertFromString_ten (T : IntType) (sign : Option Bool) {digits : List UInt8}
    (hdigits : ∀ c ∈ digits, isDecimalDigit c = true) :
    convertFromString T (signText sign ++ digits) 10 =
      if digits ≠ [] ∧ T.Reads (digitsValue digits) then
        some (T.cast (signed sign (digitsValue digits)))
      else none := by
  have hten : ReadsIn 10 [] 10 := ⟨by decide, by decide, .inl ⟨rfl, .inl rfl⟩⟩
  have hradix : ∀ c ∈ digits, Radix.isDigit 10 c = true := by
    intro c hc
    rw [Radix.isDigit_ten, hdigits c hc]
  have hconvert := convertFromString_digits T hten sign hradix
  rwa [List.nil_append, Radix.value_ten hdigits] at hconvert

theorem decimalInt_eq (z : Int) :
    decimalInt z = signText (if z < 0 then some true else none) ++ decimal z.natAbs := by
  rw [decimalInt]
  split <;> rfl

/-- A type holds the integers between one of its own and 0. -/
theorem inRange_signed (hz : T.InRange z) {n : Nat} (hn : n ≤ z.natAbs) :
    T.InRange (signed (if z < 0 then some true else none) n) := by
  have hbetween : z ≤ signed (if z < 0 then some true else none) n ∧
      signed (if z < 0 then some true else none) n ≤ 0 ∨
        0 ≤ signed (if z < 0 then some true else none) n ∧
          signed (if z < 0 then some true else none) n ≤ z := by
    by_cases hneg : z < 0
    · rw [if_pos hneg, signed, if_pos rfl]
      omega
    · rw [if_neg hneg, signed, if_neg (by decide)]
      omega
  generalize signed (if z < 0 then some true else none) n = v at hbetween
  rw [IntType.InRange] at hz ⊢
  cases T <;>
    simp only [IntType.isSigned, IntType.width, if_true, if_false, Bool.false_eq_true] at hz ⊢ <;>
    omega

/-- Digits of a smaller number are not read as an integer. -/
theorem convertFromString_ne_of_lt (hz : T.InRange z) {digits : List UInt8}
    (hdigits : ∀ c ∈ digits, isDecimalDigit c = true)
    (hlt : digits ≠ [] → digitsValue digits < z.natAbs) :
    convertFromString T (signText (if z < 0 then some true else none) ++ digits) 10 ≠ some z := by
  intro h
  rw [convertFromString_ten T _ hdigits] at h
  split at h
  · rename_i hreads
    have hlt := hlt hreads.1
    rw [IntType.cast_of_inRange (inRange_signed hz hlt.le), Option.some_inj] at h
    have habs := congrArg Int.natAbs h
    rw [natAbs_signed] at habs
    omega
  · cases h

/-- The start of an integer is not read as it. -/
theorem convertFromString_ne {p q : List UInt8} (hz : T.InRange z) (h : decimalInt z = p ++ q)
    (hq : q ≠ []) : convertFromString T p 10 ≠ some z := by
  have hnil : convertFromString T [] 10 = none := by
    cases T <;> rfl
  have hstart : ∀ p', decimal z.natAbs = p' ++ q →
      convertFromString T (signText (if z < 0 then some true else none) ++ p') 10 ≠ some z := by
    intro p' hp'
    refine convertFromString_ne_of_lt hz (fun c hc => ?_) fun hne => digitsValue_lt hp' hne hq
    exact isDecimalDigit_of_mem (hp' ▸ List.mem_append_left q hc)
  rw [decimalInt] at h
  split at h
  · rename_i hneg
    cases p with
    | nil =>
      rw [hnil]
      exact (Option.some_ne_none z).symm
    | cons c p =>
      rw [List.cons_append, List.cons.injEq] at h
      have hread := hstart p h.2
      rw [if_pos hneg] at hread
      rwa [← h.1]
  · rename_i hneg
    have hread := hstart p h
    rwa [if_neg hneg] at hread

/-- An integer is read back but for one. -/
theorem convertFromString_decimalInt (hz : T.InRange z) :
    convertFromString T (decimalInt z) 10 = some z ↔ z ≠ -2 ^ 63 := by
  rw [decimalInt_eq, convertFromString_ten T _ fun _ => isDecimalDigit_of_mem,
    digitsValue_decimal, signed_natAbs, IntType.cast_of_inRange hz]
  constructor
  · intro h
    split at h
    · rename_i hreads
      rintro rfl
      revert hreads hz
      cases T <;> decide
    · cases h
  · intro hne
    rw [if_pos ⟨decimal_ne_nil _, IntType.reads_of_inRange hz hne⟩]

theorem split_append_cons {w : List UInt8} (hw : d ∉ w) (hne : w ≠ []) (s : List UInt8) :
    Str.split (w ++ d :: s) [d] = w :: Str.split s [d] := by
  rw [split_eq (List.cons_ne_nil d []), split_eq (List.cons_ne_nil d []),
    pieces_char_append_cons hw, List.filter_cons_of_pos (by simpa using hne)]

theorem split_of_not_mem {w : List UInt8} (hw : d ∉ w) :
    Str.split w [d] = if w = [] then [] else [w] := by
  rw [split_eq (List.cons_ne_nil d []), pieces_char_of_not_mem hw]
  by_cases hnil : w = []
  · simp [hnil]
  · simp [hnil]

theorem decimalInt_ne_nil (z : Int) : decimalInt z ≠ [] := by
  rw [decimalInt]
  split
  · exact List.cons_ne_nil _ _
  · exact decimal_ne_nil _

theorem str_cons_cons (d : UInt8) (z z' : Int) (values : List Int) :
    str d (z :: z' :: values) = decimalInt z ++ d :: str d (z' :: values) := by
  simp [str, List.intercalate_cons_cons]

/-- What is read from a text that begins with a token. -/
theorem mapM_cons_eq_some_iff {f : List UInt8 → Option Int} {s : List UInt8}
    {l : List (List UInt8)} {values : List Int} :
    (s :: l).mapM f = some (z :: values) ↔ f s = some z ∧ l.mapM f = some values := by
  rw [List.mapM_cons]
  cases f s with
  | none => simp
  | some v =>
    cases l.mapM f with
    | none => simp
    | some vs => simp

/-- The start of a text is not read as its values. -/
theorem mapM_split_take_ne (hd : isDecimalDigit d = false) (hminus : d ≠ minus)
    {values : List Int} (hvalues : ∀ z ∈ values, T.InRange z) {m : Nat}
    (hm : m < (str d values).length) :
    (Str.split ((str d values).take m) [d]).mapM (fun s => convertFromString T s 10) ≠
      some values := by
  induction values generalizing m with
  | nil => simp [str] at hm
  | cons z values ih =>
    rw [List.forall_mem_cons] at hvalues
    have hnot : d ∉ decimalInt z := not_mem_decimalInt hd hminus
    have hstart : ∀ p q, decimalInt z = p ++ q → q ≠ [] ∨ values ≠ [] →
        (Str.split p [d]).mapM (fun s => convertFromString T s 10) ≠ some (z :: values) := by
      intro p q hpq hrest h
      have hp : d ∉ p := fun hmem => hnot (hpq ▸ List.mem_append_left q hmem)
      rw [split_of_not_mem hp] at h
      split at h
      · simp at h
      · rw [mapM_cons_eq_some_iff] at h
        rcases hrest with hq | hvalues'
        · exact convertFromString_ne hvalues.1 hpq hq h.1
        · exact hvalues' (by simpa using h.2.symm)
    cases values with
    | nil =>
      have hstr : str d [z] = decimalInt z := by simp [str]
      rw [hstr] at hm ⊢
      refine hstart _ _ (List.take_append_drop m _).symm (.inl ?_)
      rwa [ne_eq, List.drop_eq_nil_iff, not_le]
    | cons z' values =>
      rw [str_cons_cons] at hm ⊢
      by_cases hle : m ≤ (decimalInt z).length
      · rw [List.take_append_of_le_length hle]
        exact hstart _ _ (List.take_append_drop m _).symm (.inr (List.cons_ne_nil _ _))
      · obtain ⟨k, rfl⟩ : ∃ k, m = (decimalInt z).length + (k + 1) :=
          ⟨m - (decimalInt z).length - 1, by omega⟩
        rw [List.length_append, List.length_cons] at hm
        rw [List.take_length_add_append, List.take_succ_cons,
          split_append_cons hnot (decimalInt_ne_nil z), ne_eq, mapM_cons_eq_some_iff, not_and]
        intro _
        exact ih hvalues.2 (by omega)

theorem split_str (hd : isDecimalDigit d = false) (hminus : d ≠ minus) (values : List Int) :
    Str.split (str d values) [d] = values.map decimalInt := by
  refine split_intercalate fun w hw => ?_
  obtain ⟨z, -, rfl⟩ := List.mem_map.mp hw
  exact ⟨decimalInt_ne_nil z, not_mem_decimalInt hd hminus⟩

/-- The whole text is read as its values, but for one integer. -/
theorem mapM_decimalInt_iff {values : List Int} (hvalues : ∀ z ∈ values, T.InRange z) :
    (values.map decimalInt).mapM (fun s => convertFromString T s 10) = some values ↔
      ∀ z ∈ values, z ≠ -2 ^ 63 := by
  induction values with
  | nil => simp
  | cons z values ih =>
    rw [List.forall_mem_cons] at hvalues ⊢
    rw [List.map_cons, mapM_cons_eq_some_iff, convertFromString_decimalInt hvalues.1,
      ih hvalues.2]

theorem intSize_of_lt {n : Nat} (h : n < 2 ^ 31) : intSize n = n := by
  rw [intSize, BitVec.toInt_eq_toNat_of_lt]
  · rw [Int.toNat_natCast, BitVec.toNat_ofNat, Nat.mod_eq_of_lt (by omega)]
  · rw [BitVec.toNat_ofNat]
    omega

/-- What is split off a text is read as its values exactly when it is short and has not
the one integer. -/
theorem mapM_splits_iff (hd : isDecimalDigit d = false) (hminus : d ≠ minus)
    {values : List Int} (hvalues : ∀ z ∈ values, T.InRange z) :
    (splits (str d values) d).mapM (fun s => convertFromString T s 10) = some values ↔
      (str d values).length < 2 ^ 31 ∧ ∀ z ∈ values, z ≠ -2 ^ 63 := by
  by_cases hshort : (str d values).length < 2 ^ 31
  · rw [splits, intSize_of_lt hshort, List.take_length, split_str hd hminus,
      mapM_decimalInt_iff hvalues, and_iff_right hshort]
  · have hlt : intSize (str d values).length < (str d values).length :=
      (intSize_lt _).trans_le (not_lt.mp hshort)
    exact iff_of_false (mapM_split_take_ne hd hminus hvalues hlt) fun h => hshort h.1

end Text

/-! ## The round trip -/

/-- The text of an array is read back exactly when it is shorter than `2 ^ 31` characters,
the array does not hold the least integer of 64 bits, and the receiver takes it. -/
theorem roundTrips_iff {T : IntType} (given : Nat → Given Int) (values : Values T)
    (delimiter : Delimiter) (receiver : Receiver T) :
    RoundTrips given values delimiter receiver ↔
      (str delimiter (values.map Subtype.val)).length < 2 ^ 31 ∧
        (∀ z ∈ values, z.1 ≠ -2 ^ 63) ∧ receiver.Takes values.length := by
  have hvalues : ∀ z ∈ values.map Subtype.val, T.InRange z := by
    intro z hz
    obtain ⟨z, -, rfl⟩ := List.mem_map.mp hz
    exact z.2
  have hread := mapM_splits_iff delimiter.2.1 delimiter.2.2 hvalues
  have hleast : (∀ z ∈ values.map Subtype.val, z ≠ -2 ^ 63) ↔ ∀ z ∈ values, z.1 ≠ -2 ^ 63 := by
    simp
  rw [hleast] at hread
  cases receiver with
  | lent =>
    refine iff_of_false ?_ fun h => h.2.2
    rintro ⟨a, hrun, -⟩
    cases hrun
  | array a fits =>
    have hlength : (str delimiter (values.map Subtype.val)).length < 2 ^ 31 →
        (splits (str delimiter (values.map Subtype.val)) delimiter).length = values.length := by
      intro hshort
      rw [splits, intSize_of_lt hshort, List.take_length, split_str delimiter.2.1 delimiter.2.2,
        List.length_map, List.length_map]
    rw [← and_assoc, ← hread]
    refine (fromStr_iff fits given _ _ _).trans (and_congr_right fun hmap => ?_)
    rw [hlength (hread.mp hmap).1]
    rfl

/-- An array with nothing. -/
def emptyReceiver (T : IntType) : Receiver T := .array {} ⟨rfl, rfl, rfl⟩

/-- The least `int64_t` is written and not read. -/
theorem not_roundTrips_least :
    ¬ RoundTrips (fun _ => ⟨false, fun _ => 0⟩) [⟨-2 ^ 63, by decide⟩] ⟨44, by decide⟩
      (emptyReceiver .int64) := by
  rintro ⟨a, hrun, -, -⟩
  have hspec := @fromStr_spec .int64 {} ⟨rfl, rfl, rfl⟩ (fun _ => ⟨false, fun _ => 0⟩)
    (str 44 [-2 ^ 63]) 44 fun _ hnull => absurd hnull (by decide)
  have hsplits : splits (str 44 [-2 ^ 63]) 44 = [decimalInt (-2 ^ 63)] := by
    rw [splits, intSize_of_lt (by decide), List.take_length, split_str (by decide) (by decide)]
    rfl
  have hread : convertFromString .int64 (decimalInt (-2 ^ 63)) 10 = none := by
    decide
  rw [hsplits, List.mapM_cons, hread] at hspec
  obtain ⟨a', hfails⟩ := hspec
  cases hrun.symm.trans hfails

end Sihd.Util.ArrayText
