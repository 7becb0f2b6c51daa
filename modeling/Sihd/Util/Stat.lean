import Mathlib.Algebra.BigOperators.Fin
import Mathlib.Algebra.Order.Chebyshev
import Sihd.Util.Str.Convert

/-!
# Statistics of samples

A `Stat` keeps the number, the bounds, the sum and the sum of the squares of the samples that
it is given, in the type of a sample, but for the number, which is a `size_t`. A signed sum
that is divided by it is converted to an unsigned integer first.
-/

namespace Sihd.Util

/-- The integral types that are not promoted to another one. -/
inductive SampleType
  | int32 | int64 | uint32 | uint64
  deriving DecidableEq

namespace SampleType

def intType : SampleType → Str.IntType
  | int32 => .int32
  | int64 => .int64
  | uint32 => .uint32
  | uint64 => .uint64

def InRange (T : SampleType) (z : Int) : Prop := T.intType.InRange z

instance (T : SampleType) (z : Int) : Decidable (T.InRange z) :=
  inferInstanceAs (Decidable (T.intType.InRange z))

def width (T : SampleType) : Nat := T.intType.width

/-- A conversion to the type. -/
def cast (T : SampleType) (z : Int) : Int :=
  if T.intType.isSigned then z.bmod (2 ^ T.width) else z % 2 ^ T.width

/-- What a sum or a product is. A signed one is not defined when it overflows. -/
def arith (T : SampleType) (z : Int) : Option Int :=
  if T.intType.isSigned then if T.InRange z then some z else none else some (z % 2 ^ T.width)

end SampleType

/-- A conversion to `size_t`. -/
def toSize (z : Int) : Int := z % 2 ^ 64

structure Stat where
  samples : Nat := 0
  min : Int := 0
  sum : Int := 0
  square : Int := 0
  max : Int := 0
  deriving DecidableEq

namespace Stat

variable (T : SampleType)

def addSample (s : Stat) (sample : Int) : Option Stat := do
  let sum ← T.arith (s.sum + sample)
  let squared ← T.arith (sample * sample)
  let square ← T.arith (s.square + squared)
  some {
    samples := (s.samples + 1) % 2 ^ 64
    min := if s.samples = 0 then sample else if sample < s.min then sample else s.min
    sum := sum
    square := square
    max := if s.samples = 0 then sample else if s.max < sample then sample else s.max }

def addSamples (samples : List Int) : Option Stat := samples.foldlM (addSample T) {}

def average (s : Stat) : Int :=
  if s.samples = 0 then 0 else T.cast (toSize s.sum / s.samples)

def variance (s : Stat) : Option Int :=
  if s.samples = 0 then some 0
  else do
    let average := s.average T
    let product ← T.arith (average * average)
    some (T.cast (toSize (toSize s.square / s.samples - toSize product)))

/-! ### Samples -/

def squares (samples : List Int) : Int := (samples.map (· ^ 2)).sum

end Stat

/-- Samples whose sum and sum of squares are in the type. -/
structure Samples (T : SampleType) where
  list : List Int
  ne_nil : list ≠ []
  inRange : ∀ x ∈ list, T.InRange x
  sum_inRange : T.InRange list.sum
  squares_inRange : T.InRange (Stat.squares list)

namespace Stat

/-- The results that some samples should have. -/
structure Describes (T : SampleType) (samples : List Int) (s : Stat) : Prop where
  min : IsLeast {x | x ∈ samples} s.min
  max : IsGreatest {x | x ∈ samples} s.max
  average : s.average T = samples.sum.tdiv samples.length
  min_le : s.min ≤ s.average T
  le_max : s.average T ≤ s.max
  variance : s.variance T =
    some ((squares samples).tdiv samples.length - s.average T ^ 2)
  nonneg : ∀ v ∈ s.variance T, 0 ≤ v

/-- In any order samples have their results, which are the same. -/
def IsExact (T : SampleType) (samples : Samples T) : Prop :=
  ∃ results : Int × Int × Int × Option Int, ∀ order, order.Perm samples.list →
    ∃ s, addSamples T order = some s ∧ Describes T samples.list s ∧
      (s.min, s.max, s.average T, s.variance T) = results

/-- The quotient of a sum that is not negative is right, and the one of a negative sum when the
multiples of the number in the sum leave a multiple of the power of the type. -/
def DividesRight (T : SampleType) (samples : List Int) : Prop :=
  let n := samples.length
  let magnitude := (-samples.sum).toNat
  0 ≤ samples.sum ∨
    if magnitude % n ≤ 2 ^ 64 % n then 2 ^ T.width ∣ 2 ^ 64 / n else 2 ^ T.width ∣ 2 ^ 64 / n - 1

/-- The number of samples is counted, and the sum is divided as it should be. -/
def IsRight (T : SampleType) (samples : List Int) : Prop :=
  samples.length = 2 ^ 64 ∨ (∀ x ∈ samples, x = 0) ∨
    samples.length < 2 ^ 64 ∧ DividesRight T samples

end Stat

/-! ### The arithmetic of a type -/

namespace SampleType

variable {T : SampleType} {y z : Int}

theorem inRange_iff : T.InRange z ↔
    if T.intType.isSigned then -2 ^ (T.width - 1) ≤ z ∧ z < 2 ^ (T.width - 1)
    else 0 ≤ z ∧ z < 2 ^ T.width := Iff.rfl

/-- A conversion is the value of the type that is congruent. -/
theorem cast_eq_iff (h : T.InRange y) : T.cast z = y ↔ (2 ^ T.width : Int) ∣ z - y := by
  rw [inRange_iff] at h
  cases T <;> simp [cast, width, intType, Str.IntType.isSigned, Str.IntType.width, Int.bmod] at * <;>
    omega

theorem cast_of_inRange (h : T.InRange z) : T.cast z = z := by
  simp [cast_eq_iff h]

theorem arith_of_inRange (h : T.InRange z) : T.arith z = some z := by
  have hrange := h
  rw [inRange_iff] at hrange
  rw [arith, if_pos h]
  split
  · rfl
  · next hsigned =>
    rw [if_neg hsigned] at hrange
    rw [Int.emod_eq_of_lt hrange.1 hrange.2]

theorem nonneg_of_inRange (h : T.InRange z) (hsigned : T.intType.isSigned = false) : 0 ≤ z := by
  rw [inRange_iff, hsigned, if_neg Bool.false_ne_true] at h
  exact h.1

/-- The type has what is not larger than one of its integers, with a sign if it has signs. -/
theorem inRange_of_abs_le (h : T.InRange z) (hle : |y| ≤ z)
    (hnonneg : T.intType.isSigned = false → 0 ≤ y) : T.InRange y := by
  obtain ⟨hlow, hhigh⟩ := abs_le.mp hle
  rw [inRange_iff] at h ⊢
  split
  · next hsigned =>
    rw [if_pos hsigned] at h
    exact ⟨by omega, by omega⟩
  · next hsigned =>
    rw [if_neg hsigned] at h
    exact ⟨hnonneg (Bool.eq_false_iff.mpr hsigned), by omega⟩

theorem lt_of_inRange (h : T.InRange z) : z < 2 ^ 64 := by
  rw [inRange_iff] at h
  cases T <;>
    simp [width, intType, Str.IntType.isSigned, Str.IntType.width] at * <;> omega

theorem toSize_of_inRange (h : T.InRange z) (hnonneg : 0 ≤ z) : toSize z = z :=
  Int.emod_eq_of_lt hnonneg (lt_of_inRange h)

end SampleType

/-! ### What is counted -/

namespace Stat

variable {T : SampleType} {l : List Int}

theorem squares_append (l l' : List Int) : squares (l ++ l') = squares l + squares l' := by
  rw [squares, List.map_append, List.sum_append, squares, squares]

theorem squares_nonneg (l : List Int) : 0 ≤ squares l := by
  refine List.sum_nonneg fun y hy => ?_
  obtain ⟨x, -, rfl⟩ := List.mem_map.mp hy
  exact sq_nonneg x

theorem squares_perm {l' : List Int} (h : l.Perm l') : squares l = squares l' :=
  (h.map _).sum_eq

theorem abs_sum_le_squares (l : List Int) : |l.sum| ≤ squares l := by
  induction l with
  | nil => simp [squares]
  | cons x l ih =>
    have hx : |x| ≤ x ^ 2 := by
      rw [← Int.natCast_natAbs]
      exact Int.natAbs_le_self_sq x
    have hadd : |x + l.sum| ≤ |x| + |l.sum| := abs_add_le x l.sum
    rw [List.sum_cons, squares, List.map_cons, List.sum_cons, ← squares]
    omega

/-- What a `Stat` has of its samples. The bounds are those of all of them as long as the number
has not come back to zero. -/
structure Counts (l : List Int) (s : Stat) : Prop where
  samples : s.samples = l.length % 2 ^ 64
  sum : s.sum = l.sum
  square : s.square = squares l
  bounds : l ≠ [] → l.length ≤ 2 ^ 64 → IsLeast {x | x ∈ l} s.min ∧ IsGreatest {x | x ∈ l} s.max

theorem counts_nil : Counts [] {} := ⟨rfl, rfl, rfl, fun h => absurd rfl h⟩

theorem counts_addSample {s : Stat} {x : Int} (h : Counts l s)
    (hsum : T.InRange (l ++ [x]).sum) (hx : T.InRange (x * x))
    (hsquares : T.InRange (squares (l ++ [x]))) :
    ∃ s', addSample T s x = some s' ∧ Counts (l ++ [x]) s' := by
  have hsum' : s.sum + x = (l ++ [x]).sum := by simp [h.sum]
  have hsquares' : s.square + x * x = squares (l ++ [x]) := by
    rw [squares_append, h.square]
    simp [squares, sq]
  have hstep : addSample T s x = some {
      samples := (s.samples + 1) % 2 ^ 64
      min := if s.samples = 0 then x else if x < s.min then x else s.min
      sum := (l ++ [x]).sum
      square := squares (l ++ [x])
      max := if s.samples = 0 then x else if s.max < x then x else s.max } := by
    rw [addSample, hsum', SampleType.arith_of_inRange hsum, SampleType.arith_of_inRange hx]
    simp only [Option.bind_eq_bind, Option.bind_some, hsquares',
      SampleType.arith_of_inRange hsquares]
  refine ⟨_, hstep, by simp [h.samples], rfl, rfl, fun _ hlength => ?_⟩
  rw [List.length_append, List.length_singleton] at hlength
  have hsamples : s.samples = l.length := by
    rw [h.samples, Nat.mod_eq_of_lt (by omega)]
  by_cases hl : l = []
  · have hzero : s.samples = 0 := by rw [hsamples, hl, List.length_nil]
    simp [hzero, hl, isLeast_singleton, isGreatest_singleton]
  · have hne : s.samples ≠ 0 := hsamples ▸ (List.length_pos_iff.mpr hl).ne'
    obtain ⟨hmin, hmax⟩ := h.bounds hl (by omega)
    have hset : {y | y ∈ l ++ [x]} = insert x {y | y ∈ l} := by
      ext y
      simp [or_comm]
    have hless : (if x < s.min then x else s.min) = Min.min x s.min := by
      rw [min_def]
      split_ifs <;> omega
    have hmore : (if s.max < x then x else s.max) = Max.max x s.max := by
      rw [max_def]
      split_ifs <;> omega
    simp only [if_neg hne, hset, hless, hmore]
    exact ⟨hmin.insert x, hmax.insert x⟩

theorem counts_addSamples (hrange : ∀ x ∈ l, T.InRange x) (hsquares : T.InRange (squares l)) :
    ∃ s, addSamples T l = some s ∧ Counts l s := by
  induction l using List.reverseRecOn with
  | nil => exact ⟨{}, rfl, counts_nil⟩
  | append_singleton l x ih =>
    have hall : ∀ y ∈ l ++ [x], T.InRange y := hrange
    have hnonneg (hsigned : T.intType.isSigned = false) : 0 ≤ (l ++ [x]).sum :=
      List.sum_nonneg fun y hy => SampleType.nonneg_of_inRange (hall y hy) hsigned
    have hx : squares [x] = x * x := by simp [squares, sq]
    have hl := squares_nonneg l
    have hlast := squares_nonneg [x]
    have happend := squares_append l [x]
    have hbefore : T.InRange (squares l) := by
      refine SampleType.inRange_of_abs_le hsquares ?_ fun _ => hl
      rw [abs_of_nonneg hl]
      omega
    have hsquare : T.InRange (x * x) := by
      rw [← hx]
      refine SampleType.inRange_of_abs_le hsquares ?_ fun _ => hlast
      rw [abs_of_nonneg hlast]
      omega
    obtain ⟨s, hs, hcounts⟩ := ih (fun y hy => hall y (List.mem_append_left _ hy)) hbefore
    have hsum : T.InRange (l ++ [x]).sum :=
      SampleType.inRange_of_abs_le hsquares (abs_sum_le_squares _) hnonneg
    obtain ⟨s', hs', hcounts'⟩ := counts_addSample hcounts hsum hsquare hsquares
    refine ⟨s', ?_, hcounts'⟩
    rw [addSamples] at hs ⊢
    rw [List.foldlM_append, hs]
    simpa using hs'

/-! ### Quotients -/

/-- A difference is divided with or without a borrow. -/
theorem sub_div_add_div {m a n : Nat} (hle : a ≤ m) (hn : 0 < n) :
    (m - a) / n + a / n = if a % n ≤ m % n then m / n else m / n - 1 := by
  have hm := Nat.div_add_mod m n
  have ha := Nat.div_add_mod a n
  have hm' := Nat.mod_lt m hn
  have ha' := Nat.mod_lt a hn
  have hdiv : a / n ≤ m / n := Nat.div_le_div_right hle
  generalize m / n = q, m % n = r, a / n = q', a % n = r' at *
  split
  · have hsplit : m - a = (r - r') + n * (q - q') := by
      rw [Nat.mul_sub]
      have hmul := Nat.mul_le_mul_left n hdiv
      omega
    rw [hsplit, Nat.add_mul_div_left _ _ hn, Nat.div_eq_of_lt (by omega)]
    omega
  · have hlt : q' < q := by
      refine lt_of_le_of_ne hdiv fun heq => ?_
      rw [heq] at ha
      omega
    have hsplit : m - a = (n + r - r') + n * (q - q' - 1) := by
      have hmul := Nat.mul_le_mul_left n hlt
      rw [Nat.mul_succ] at hmul
      rw [Nat.mul_sub, Nat.mul_sub, Nat.mul_one]
      omega
    rw [hsplit, Nat.add_mul_div_left _ _ hn, Nat.div_eq_of_lt (by omega)]
    omega

/-- A truncated quotient is between the bounds of the exact one. -/
theorem tdiv_bounds {low high n sum : Int} (hn : 0 < n) (hlow : low * n ≤ sum)
    (hhigh : sum ≤ high * n) : low ≤ sum.tdiv n ∧ sum.tdiv n ≤ high := by
  rcases Int.le_total 0 sum with hsum | hsum
  · rw [Int.tdiv_eq_ediv_of_nonneg hsum]
    exact ⟨(Int.le_ediv_iff_mul_le hn).mpr hlow, Int.ediv_le_of_le_mul hn hhigh⟩
  · have hneg : sum.tdiv n = -(-sum / n) := by
      rw [← Int.tdiv_eq_ediv_of_nonneg (by omega), Int.neg_tdiv, Int.neg_neg]
    have hleft : -sum / n ≤ -low := Int.ediv_le_of_le_mul hn (by rw [Int.neg_mul]; omega)
    have hright : -high ≤ -sum / n := (Int.le_ediv_iff_mul_le hn).mpr (by rw [Int.neg_mul]; omega)
    omega

theorem sq_sum_le (l : List Int) : l.sum ^ 2 ≤ l.length * squares l := by
  have hsum : ∑ i : Fin l.length, l[i.1] = l.sum := Fin.sum_univ_getElem l
  have hsquares : ∑ i : Fin l.length, l[i.1] ^ 2 = squares l := by
    rw [squares, ← List.sum_ofFn]
    congr 1
    exact List.ext_getElem (by simp) (by simp)
  have hle := sq_sum_le_card_mul_sum_sq (s := Finset.univ) (f := fun i : Fin l.length => l[i.1])
  rwa [hsum, hsquares, Finset.card_univ, Fintype.card_fin] at hle

/-- The square of a mean is not more than the mean of the squares, also when both are
truncated. -/
theorem sq_tdiv_le (hne : l ≠ []) :
    l.sum.tdiv l.length ^ 2 ≤ (squares l).tdiv l.length := by
  have hn : (0 : Int) < l.length := by
    exact_mod_cast List.length_pos_iff.mpr hne
  have habs : |l.sum.tdiv l.length * l.length| ≤ |l.sum| := by
    rw [Int.abs_eq_natAbs, Int.abs_eq_natAbs, Int.natAbs_mul, Int.natAbs_tdiv]
    exact_mod_cast Nat.div_mul_le_self _ _
  have hsq : (l.sum.tdiv l.length * l.length) ^ 2 ≤ l.length * squares l :=
    (sq_le_sq.mpr habs).trans (sq_sum_le l)
  rw [Int.tdiv_eq_ediv_of_nonneg (squares_nonneg l), Int.le_ediv_iff_mul_le hn]
  refine le_of_mul_le_mul_left ?_ hn
  calc (l.length : Int) * (l.sum.tdiv l.length ^ 2 * l.length)
      = (l.sum.tdiv l.length * l.length) ^ 2 := by ring
    _ ≤ l.length * squares l := hsq

/-! ### The average -/

/-- The exact mean is in the type. -/
theorem inRange_mean (hsum : T.InRange l.sum) (hsquares : T.InRange (squares l)) :
    T.InRange (l.sum.tdiv l.length) := by
  have hle : |l.sum.tdiv l.length| ≤ |l.sum| := by
    rw [Int.abs_eq_natAbs, Int.abs_eq_natAbs, Int.natAbs_tdiv]
    exact_mod_cast Nat.div_le_self _ _
  refine SampleType.inRange_of_abs_le hsquares (hle.trans (abs_sum_le_squares l)) fun hsigned => ?_
  exact Int.tdiv_nonneg (SampleType.nonneg_of_inRange hsum hsigned) (Int.natCast_nonneg _)

theorem average_eq_iff {s : Stat} (h : Counts l s) (hne : l ≠ []) (hlt : l.length < 2 ^ 64)
    (hsum : T.InRange l.sum) (hsquares : T.InRange (squares l)) :
    s.average T = l.sum.tdiv l.length ↔ DividesRight T l := by
  have hsamples : s.samples = l.length := by rw [h.samples, Nat.mod_eq_of_lt hlt]
  have hpos : 0 < l.length := List.length_pos_iff.mpr hne
  have hmean := inRange_mean hsum hsquares
  have habs := abs_le.mp (abs_sum_le_squares l)
  have hbound := SampleType.lt_of_inRange hsquares
  rw [average, hsamples, if_neg hpos.ne', h.sum, DividesRight]
  rcases Int.lt_or_le l.sum 0 with hneg | hnonneg
  · -- The sum is converted to an unsigned integer that is larger by `2 ^ 64`.
    obtain ⟨a, ha⟩ : ∃ a : Nat, l.sum = -a := ⟨(-l.sum).toNat, by omega⟩
    have hconverted : toSize l.sum = ((2 ^ 64 - a : Nat) : Int) := by
      rw [toSize]
      omega
    have htdiv : (-(a : Int)).tdiv l.length = -((a / l.length : Nat) : Int) := by
      rw [Int.neg_tdiv, Int.tdiv_eq_ediv_of_nonneg (by omega), Int.natCast_ediv]
    have hborrow := sub_div_add_div (show a ≤ 2 ^ 64 by omega) hpos
    rw [SampleType.cast_eq_iff hmean, hconverted, ha, htdiv, ← Int.natCast_ediv, sub_neg_eq_add,
      ← Int.natCast_add, hborrow]
    have hmagnitude : (-(-(a : Int))).toNat = a := by omega
    have hnot : ¬ 0 ≤ -(a : Int) := by omega
    have hpower : (2 ^ T.width : Int) = ((2 ^ T.width : Nat) : Int) := by simp
    simp only [hmagnitude, or_iff_right hnot, hpower, Int.natCast_dvd_natCast]
    split <;> rfl
  · rw [SampleType.toSize_of_inRange hsum hnonneg, ← Int.tdiv_eq_ediv_of_nonneg hnonneg,
      SampleType.cast_of_inRange hmean]
    exact iff_of_true rfl (.inl hnonneg)

theorem variance_eq {s : Stat} (h : Counts l s) (hne : l ≠ []) (hlt : l.length < 2 ^ 64)
    (hsquares : T.InRange (squares l)) (haverage : s.average T = l.sum.tdiv l.length) :
    s.variance T = some ((squares l).tdiv l.length - s.average T ^ 2) := by
  have hsamples : s.samples = l.length := by rw [h.samples, Nat.mod_eq_of_lt hlt]
  have hpos : 0 < l.length := List.length_pos_iff.mpr hne
  have hnonneg := squares_nonneg l
  have hle : s.average T ^ 2 ≤ (squares l).tdiv l.length := haverage ▸ sq_tdiv_le hne
  have hmean : (squares l).tdiv l.length ≤ squares l := by
    rw [Int.tdiv_eq_ediv_of_nonneg hnonneg]
    exact Int.ediv_le_self _ hnonneg
  generalize hv : s.average T = average at hle
  have hsq := sq_nonneg average
  have hproduct : T.InRange (average ^ 2) := by
    refine SampleType.inRange_of_abs_le hsquares ?_ fun _ => hsq
    rw [abs_of_nonneg hsq]
    omega
  have hvariance : T.InRange ((squares l).tdiv l.length - average ^ 2) := by
    refine SampleType.inRange_of_abs_le hsquares ?_ fun _ => by omega
    rw [abs_of_nonneg (by omega)]
    omega
  rw [variance, hsamples, if_neg hpos.ne']
  simp only [hv, ← sq, SampleType.arith_of_inRange hproduct, Option.bind_eq_bind, Option.bind_some]
  rw [h.square, SampleType.toSize_of_inRange hsquares hnonneg,
    ← Int.tdiv_eq_ediv_of_nonneg hnonneg, SampleType.toSize_of_inRange hproduct hsq, SampleType.toSize_of_inRange hvariance (by omega), SampleType.cast_of_inRange hvariance]

/-! ### Results -/

theorem Counts.perm {l' : List Int} {s : Stat} (h : Counts l s) (hperm : l.Perm l') :
    Counts l' s where
  samples := hperm.length_eq ▸ h.samples
  sum := h.sum.trans hperm.sum_eq
  square := h.square.trans (squares_perm hperm)
  bounds hne hle := by
    have hset : {x | x ∈ l'} = {x | x ∈ l} := by
      ext x
      exact hperm.mem_iff.symm
    rw [hset]
    refine h.bounds (fun hnil => hne ?_) (hperm.length_eq ▸ hle)
    rw [hnil, List.nil_perm] at hperm
    exact hperm

/-- The mean of samples is between their bounds. -/
theorem mean_bounds {low high : Int} (hne : l ≠ []) (hlow : IsLeast {x | x ∈ l} low)
    (hhigh : IsGreatest {x | x ∈ l} high) :
    low ≤ l.sum.tdiv l.length ∧ l.sum.tdiv l.length ≤ high := by
  have hleft := List.card_nsmul_le_sum l low fun x hx => hlow.2 hx
  have hright := List.sum_le_card_nsmul l high fun x hx => hhigh.2 hx
  rw [nsmul_eq_mul, mul_comm] at hleft hright
  exact tdiv_bounds (by exact_mod_cast List.length_pos_iff.mpr hne) hleft hright

/-- Samples have their results when their average and their variance are right. -/
theorem Counts.describes {s : Stat} (h : Counts l s) (hne : l ≠ []) (hle : l.length ≤ 2 ^ 64)
    (haverage : s.average T = l.sum.tdiv l.length)
    (hvariance : s.variance T = some ((squares l).tdiv l.length - s.average T ^ 2)) :
    Describes T l s := by
  obtain ⟨hmin, hmax⟩ := h.bounds hne hle
  obtain ⟨hlow, hhigh⟩ := mean_bounds hne hmin hmax
  refine ⟨hmin, hmax, haverage, haverage ▸ hlow, haverage ▸ hhigh, hvariance, fun v hv => ?_⟩
  rw [hvariance, Option.mem_some] at hv
  have hsq := sq_tdiv_le hne
  rw [← haverage] at hsq
  omega

theorem describes_iff {s : Stat} (h : Counts l s) (hne : l ≠ []) (hlt : l.length < 2 ^ 64)
    (hsum : T.InRange l.sum) (hsquares : T.InRange (squares l)) :
    Describes T l s ↔ DividesRight T l := by
  rw [← average_eq_iff h hne hlt hsum hsquares]
  constructor
  · intro hdescribes
    exact hdescribes.average
  · intro haverage
    exact h.describes hne hlt.le haverage (variance_eq h hne hlt hsquares haverage)

theorem Describes.results_eq {s s' : Stat} (h : Describes T l s) (h' : Describes T l s') :
    (s.min, s.max, s.average T, s.variance T) =
      (s'.min, s'.max, s'.average T, s'.variance T) := by
  rw [h.min.unique h'.min, h.max.unique h'.max, h.variance, h'.variance, h.average, h'.average]

theorem isExact_iff_forall (samples : Samples T) :
    IsExact T samples ↔ ∀ order, order.Perm samples.list →
      ∃ s, addSamples T order = some s ∧ Describes T samples.list s := by
  constructor
  · rintro ⟨results, h⟩ order hperm
    obtain ⟨s, hs, hdescribes, -⟩ := h order hperm
    exact ⟨s, hs, hdescribes⟩
  · intro h
    obtain ⟨s, -, hdescribes⟩ := h samples.list (List.Perm.refl _)
    refine ⟨(s.min, s.max, s.average T, s.variance T), fun order hperm => ?_⟩
    obtain ⟨s', hs', hdescribes'⟩ := h order hperm
    exact ⟨s', hs', hdescribes', hdescribes'.results_eq hdescribes⟩

theorem exists_counts_of_append (samples : Samples T) {order rest : List Int}
    (hperm : (order ++ rest).Perm samples.list) :
    ∃ s, addSamples T order = some s ∧ Counts order s := by
  have hsquares := squares_perm hperm
  rw [squares_append] at hsquares
  have hrest := squares_nonneg rest
  have horder := squares_nonneg order
  refine counts_addSamples (fun x hx => ?_) ?_
  · exact samples.inRange x (hperm.mem_iff.mp (List.mem_append_left rest hx))
  · refine SampleType.inRange_of_abs_le samples.squares_inRange ?_ fun _ => horder
    rw [abs_of_nonneg horder]
    omega

theorem exists_counts (samples : Samples T) {order : List Int} (hperm : order.Perm samples.list) :
    ∃ s, addSamples T order = some s ∧ Counts order s :=
  @exists_counts_of_append T samples order [] (by rwa [List.append_nil])

/-! ### More samples than are counted -/

theorem addSample_zero {s s' : Stat} (h : s.samples = 0 ∨ s.min = 0 ∧ s.max = 0)
    (hstep : addSample T s 0 = some s') : s'.min = 0 ∧ s'.max = 0 := by
  rw [addSample] at hstep
  simp only [Option.bind_eq_bind, Option.bind_eq_some_iff, Option.some.injEq] at hstep
  obtain ⟨sum, -, squared, -, square, -, rfl⟩ := hstep
  rcases h with hsamples | ⟨hmin, hmax⟩
  · simp [hsamples]
  · simp [hmin, hmax]

theorem foldlM_zeros {n : Nat} {s s' : Stat} (hmin : s.min = 0 ∧ s.max = 0)
    (hsteps : (List.replicate n 0).foldlM (addSample T) s = some s') :
    s'.min = 0 ∧ s'.max = 0 := by
  induction n generalizing s with
  | zero =>
    obtain rfl : s = s' := by simpa using hsteps
    exact hmin
  | succ n ih =>
    rw [List.replicate_succ, List.foldlM_cons, Option.bind_eq_bind, Option.bind_eq_some_iff] at hsteps
    obtain ⟨s₁, hs₁, hrest⟩ := hsteps
    exact ih (addSample_zero (.inr hmin) hs₁) hrest

theorem length_filter_le_squares (l : List Int) :
    ((l.filter (· ≠ 0)).length : Int) ≤ squares l := by
  induction l with
  | nil => simp [squares]
  | cons x l ih =>
    have hcons : squares (x :: l) = x ^ 2 + squares l := by simp [squares]
    rw [hcons]
    by_cases hx : x = 0
    · rw [List.filter_cons_of_neg (by simp [hx]), hx]
      omega
    · have hsq : 0 < x ^ 2 := sq_pos_of_ne_zero hx
      rw [List.filter_cons_of_pos (by simp [hx]), List.length_cons]
      omega

/-- In an order with the zeros at the end the bounds of too many samples are zero. -/
theorem exists_zero_bounds (samples : Samples T) (hlength : 2 ^ 64 < samples.list.length) :
    ∃ order s, order.Perm samples.list ∧ addSamples T order = some s ∧ s.min = 0 ∧ s.max = 0 := by
  have hfilter := length_filter_le_squares samples.list
  have hlt := SampleType.lt_of_inRange samples.squares_inRange
  have hsplit := List.filter_append_perm (· ≠ 0) samples.list
  generalize hothers : samples.list.filter (· ≠ 0) = others at hfilter hsplit
  have hzeros : samples.list.filter (fun x => !decide (x ≠ 0)) =
      List.replicate (samples.list.length - others.length) 0 := by
    have htotal := hsplit.length_eq
    rw [List.length_append] at htotal
    refine List.eq_replicate_iff.mpr ⟨by omega, fun x hx => ?_⟩
    simpa using (List.mem_filter.mp hx).2
  obtain ⟨k, hk⟩ : ∃ k, 2 ^ 64 = others.length + k := ⟨2 ^ 64 - others.length, by omega⟩
  obtain ⟨m, hm⟩ : ∃ m, samples.list.length = 2 ^ 64 + (m + 1) :=
    ⟨samples.list.length - 2 ^ 64 - 1, by omega⟩
  have horder : (others ++ List.replicate k 0 ++ 0 :: List.replicate m 0).Perm samples.list := by
    rw [hzeros] at hsplit
    convert hsplit using 1
    rw [show samples.list.length - others.length = k + (m + 1) by omega, List.replicate_add,
      List.replicate_succ, List.append_assoc]
  obtain ⟨s, hs, -⟩ := exists_counts samples horder
  refine ⟨_, s, horder, hs, ?_⟩
  rw [addSamples, List.foldlM_append, Option.bind_eq_bind, Option.bind_eq_some_iff] at hs
  obtain ⟨mid, hmid, hrest⟩ := hs
  rw [List.foldlM_cons, Option.bind_eq_bind, Option.bind_eq_some_iff] at hrest
  obtain ⟨first, hfirst, hrest⟩ := hrest
  have hsamples : mid.samples = 0 := by
    obtain ⟨mid', hmid', hcounts⟩ := exists_counts_of_append samples horder
    obtain rfl : mid = mid' := Option.some.inj (hmid.symm.trans hmid')
    rw [hcounts.samples, List.length_append, List.length_replicate, ← hk, Nat.mod_self]
  exact foldlM_zeros (addSample_zero (.inl hsamples) hfirst) hrest

/-- Samples that are all zero have their results, however many they are. -/
theorem describes_of_zeros {samples : Samples T} (hzero : ∀ x ∈ samples.list, x = 0) {s : Stat}
    (h : Counts samples.list s) (hs : addSamples T samples.list = some s) :
    Describes T samples.list s := by
  have hlist := List.eq_replicate_of_mem hzero
  have hsum : samples.list.sum = 0 := by
    rw [hlist]
    simp
  have hsquares : squares samples.list = 0 := by
    rw [hlist]
    simp [squares]
  have hinRange : T.InRange 0 := hsum ▸ samples.sum_inRange
  have hcast : T.cast 0 = 0 := SampleType.cast_of_inRange hinRange
  have harith : T.arith 0 = some 0 := SampleType.arith_of_inRange hinRange
  have haverage : s.average T = 0 := by
    simp [average, h.sum, hsum, toSize, hcast]
  have hvariance : s.variance T = some 0 := by
    simp [variance, haverage, h.square, hsquares, toSize, hcast, harith]
  obtain ⟨x, hx⟩ := List.exists_mem_of_ne_nil _ samples.ne_nil
  have hmem : (0 : Int) ∈ samples.list := hzero x hx ▸ hx
  obtain ⟨hmin, hmax⟩ : s.min = 0 ∧ s.max = 0 := by
    rw [hlist, addSamples] at hs
    exact foldlM_zeros ⟨rfl, rfl⟩ hs
  refine ⟨?_, ?_, ?_, ?_, ?_, ?_, ?_⟩
  · rw [hmin]
    exact ⟨hmem, fun y hy => (hzero y hy).ge⟩
  · rw [hmax]
    exact ⟨hmem, fun y hy => (hzero y hy).le⟩
  · rw [haverage, hsum, Int.zero_tdiv]
  · rw [hmin, haverage]
  · rw [hmax, haverage]
  · rw [hvariance, haverage, hsquares, Int.zero_tdiv]
    rfl
  · rw [hvariance]
    simp

/-- A count of `2 ^ 64` is zero, and the average and the variance are then less than one. -/
theorem describes_of_full {samples : Samples T} (hlength : samples.list.length = 2 ^ 64) {s : Stat}
    (h : Counts samples.list s) : Describes T samples.list s := by
  have hsamples : s.samples = 0 := by rw [h.samples, hlength, Nat.mod_self]
  have habs := abs_le.mp (abs_sum_le_squares samples.list)
  have hlt := SampleType.lt_of_inRange samples.squares_inRange
  have hnonneg := squares_nonneg samples.list
  have hless (z : Int) (hz : z.natAbs < samples.list.length) :
      z.tdiv samples.list.length = 0 := by
    rw [← Int.natAbs_eq_zero, Int.natAbs_tdiv]
    exact Nat.div_eq_of_lt hz
  have hmean := hless samples.list.sum (by omega)
  have hsquares := hless (squares samples.list) (by omega)
  have haverage : s.average T = 0 := by rw [average, if_pos hsamples]
  refine h.describes samples.ne_nil hlength.le (haverage.trans hmean.symm) ?_
  rw [variance, if_pos hsamples, hsquares, haverage]
  rfl

theorem isExact_iff (samples : Samples T) : IsExact T samples ↔ IsRight T samples.list := by
  rw [isExact_iff_forall]
  constructor
  · intro hexact
    rcases lt_trichotomy samples.list.length (2 ^ 64) with hlt | heq | hgt
    · obtain ⟨s, hs, hcounts⟩ := exists_counts samples (List.Perm.refl _)
      obtain ⟨s', hs', hdescribes⟩ := hexact samples.list (List.Perm.refl _)
      obtain rfl : s = s' := Option.some.inj (hs.symm.trans hs')
      exact .inr (.inr ⟨hlt, (describes_iff hcounts samples.ne_nil hlt samples.sum_inRange
        samples.squares_inRange).mp hdescribes⟩)
    · exact .inl heq
    · obtain ⟨order, s, hperm, hs, hmin, hmax⟩ := exists_zero_bounds samples hgt
      obtain ⟨s', hs', hdescribes⟩ := hexact order hperm
      obtain rfl : s = s' := Option.some.inj (hs.symm.trans hs')
      refine .inr (.inl fun x hx => ?_)
      have hlow := hdescribes.min.2 hx
      have hhigh := hdescribes.max.2 hx
      omega
  · rintro (heq | hzero | ⟨hlt, hdivides⟩) order hperm
    · obtain ⟨s, hs, hcounts⟩ := exists_counts samples hperm
      exact ⟨s, hs, describes_of_full heq (hcounts.perm hperm)⟩
    · obtain rfl : order = samples.list := by
        rw [List.eq_replicate_of_mem hzero] at hperm ⊢
        exact List.perm_replicate.mp hperm
      obtain ⟨s, hs, hcounts⟩ := exists_counts samples hperm
      exact ⟨s, hs, describes_of_zeros hzero hcounts hs⟩
    · obtain ⟨s, hs, hcounts⟩ := exists_counts samples hperm
      exact ⟨s, hs, (describes_iff (hcounts.perm hperm) samples.ne_nil hlt samples.sum_inRange
        samples.squares_inRange).mpr hdivides⟩

/-- `-1` and `-2` of 32 bits. -/
def negativeSamples : Samples .int32 where
  list := [-1, -2]
  ne_nil := by decide
  inRange := by decide
  sum_inRange := by decide
  squares_inRange := by decide

/-- Half of `2 ^ 64 - 3` is `-2` for an `int`, and the mean of `-1` and `-2` is `-1`. -/
theorem not_isExact_negativeSamples : ¬ IsExact .int32 negativeSamples := by
  intro h
  obtain ⟨s, hs, hdescribes⟩ := (isExact_iff_forall _).mp h [-1, -2] (List.Perm.refl _)
  have haverage := hdescribes.average
  obtain rfl := Option.some.inj (hs.symm.trans (show addSamples .int32 [-1, -2] =
    some ⟨2, -2, -3, 5, -1⟩ by decide))
  revert haverage
  decide

end Stat

end Sihd.Util
