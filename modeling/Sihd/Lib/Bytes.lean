import Mathlib.Data.List.Basic
import Mathlib.Tactic.Common
import Mathlib.Tactic.Ring

/-!
# Bytes of a little-endian memory

`littleEndian w n` are the `w` bytes that a word of value `n` has in memory and
`wordOf` reads them back. `overwrite l i b` is the memory `l` after the bytes
`b` were copied to the offset `i`; reading the range that was written gives
them back and the rest of the memory is what it was.

`byteSwap` turns a word of four bytes around, and `highMask w k` are the `k`
highest bits of a word.
-/

/-- The first `w` bytes of `n`, the lowest first. -/
def littleEndian : Nat → Nat → List UInt8
  | 0, _ => []
  | w + 1, n => UInt8.ofNat n :: littleEndian w (n / 256)

/-- The number whose bytes these are. -/
def wordOf : List UInt8 → Nat
  | [] => 0
  | b :: bs => b.toNat + 256 * wordOf bs

@[simp] theorem littleEndian_length (w n : Nat) : (littleEndian w n).length = w := by
  induction w generalizing n with
  | zero => rfl
  | succ w ih => rw [littleEndian, List.length_cons, ih]

/-- The lowest bytes of a word are the bytes of a smaller one. -/
theorem littleEndian_take {k w : Nat} (h : k ≤ w) (n : Nat) :
    (littleEndian w n).take k = littleEndian k n := by
  induction k generalizing w n with
  | zero => simp [littleEndian]
  | succ k ih =>
      cases w with
      | zero => omega
      | succ w => rw [littleEndian, List.take_succ_cons, ih (by omega), littleEndian]

/-- The bytes of a word are those of its lower part, and those of the rest. -/
theorem littleEndian_add (w v n : Nat) :
    littleEndian (w + v) n = littleEndian w n ++ littleEndian v (n / 256 ^ w) := by
  induction w generalizing n with
  | zero => simp [littleEndian]
  | succ w ih =>
      rw [Nat.succ_add, littleEndian, ih, littleEndian, List.cons_append, Nat.div_div_eq_div_mul,
        pow_succ']

/-- What is above a word does not change its bytes. -/
theorem littleEndian_add_mul (w n m : Nat) :
    littleEndian w (n + m * 256 ^ w) = littleEndian w n := by
  induction w generalizing n with
  | zero => rfl
  | succ w ih =>
      have hmul : m * 256 ^ (w + 1) = 256 * (m * 256 ^ w) := by ring
      have hbyte : UInt8.ofNat (n + 256 * (m * 256 ^ w)) = UInt8.ofNat n := by
        refine UInt8.toNat_inj.mp ?_
        simp [Nat.add_mul_mod_self_left]
      rw [hmul, littleEndian, hbyte, Nat.add_mul_div_left _ _ (by simp), ih, littleEndian]

theorem wordOf_littleEndian (w n : Nat) : wordOf (littleEndian w n) = n % 256 ^ w := by
  induction w generalizing n with
  | zero => simp [littleEndian, wordOf, Nat.mod_one]
  | succ w ih =>
      have hbyte : (UInt8.ofNat n).toNat = n % 256 := by simp
      rw [littleEndian, wordOf, ih, hbyte, pow_succ', Nat.mod_mul]

theorem wordOf_lt (l : List UInt8) : wordOf l < 256 ^ l.length := by
  induction l with
  | nil => simp [wordOf]
  | cons b l ih =>
      have hb : b.toNat < 256 := b.toNat_lt
      rw [wordOf, List.length_cons, pow_succ']
      omega

/-- The memory after a copy of `b` to the offset `i`. -/
def overwrite {α : Type*} (l : List α) (i : Nat) (b : List α) : List α :=
  l.take i ++ b ++ l.drop (i + b.length)

section Overwrite

variable {α : Type*}

theorem overwrite_length {l b : List α} {i : Nat} (h : i + b.length ≤ l.length) :
    (overwrite l i b).length = l.length := by
  simp only [overwrite, List.length_append, List.length_take, List.length_drop]
  omega

@[simp] theorem overwrite_nil (l : List α) (i : Nat) : overwrite l i [] = l := by
  rw [overwrite, List.append_nil, List.length_nil, Nat.add_zero, List.take_append_drop]

theorem getElem?_overwrite {l b : List α} {i : Nat} (h : i ≤ l.length) (k : Nat) :
    (overwrite l i b)[k]? = if i ≤ k ∧ k < i + b.length then b[k - i]? else l[k]? := by
  have hi : (l.take i).length = i := List.length_take_of_le h
  rw [overwrite, List.append_assoc]
  split_ifs with hk
  · rw [List.getElem?_append_right (by omega), hi, List.getElem?_append_left (by omega)]
  · by_cases hbefore : k < i
    · rw [List.getElem?_append_left (by omega), List.getElem?_take_of_lt hbefore]
    · rw [List.getElem?_append_right (by omega), hi, List.getElem?_append_right (by omega),
        List.getElem?_drop]
      congr 1
      omega

/-- What was written is read back. -/
theorem overwrite_read {l b : List α} {i : Nat} (h : i + b.length ≤ l.length) :
    ((overwrite l i b).drop i).take b.length = b := by
  have hi : (l.take i).length = i := List.length_take_of_le (by omega)
  rw [overwrite, List.append_assoc, List.drop_left' hi, List.take_left]

/-- The memory up to the end of what was written. -/
theorem overwrite_take_end {l b : List α} {i : Nat} (h : i ≤ l.length) :
    (overwrite l i b).take (i + b.length) = l.take i ++ b := by
  have hi : (l.take i ++ b).length = i + b.length := by
    rw [List.length_append, List.length_take_of_le h]
  rw [overwrite, List.take_left' hi]

/-- The memory before what was written. -/
theorem overwrite_take_of_le {l b : List α} {i n : Nat} (h : n ≤ i) (hi : i ≤ l.length) :
    (overwrite l i b).take n = l.take n := by
  have hlength : n ≤ (l.take i).length := by
    rw [List.length_take_of_le hi]
    exact h
  rw [overwrite, List.append_assoc, List.take_append_of_le_length hlength, List.take_take,
    Nat.min_eq_left h]

/-- Two copies that follow each other, the later one first. -/
theorem overwrite_before {l b c : List α} {i : Nat} (h : i + b.length ≤ l.length) :
    overwrite (overwrite l (i + b.length) c) i b = overwrite l i (b ++ c) := by
  have hstart : (l.take (i + b.length)).length = i + b.length := List.length_take_of_le h
  have hdrop : (overwrite l (i + b.length) c).drop (i + b.length) =
      c ++ l.drop (i + b.length + c.length) := by
    rw [overwrite, List.append_assoc, List.drop_left' hstart]
  rw [overwrite, overwrite_take_of_le (Nat.le_add_right ..) h, hdrop, overwrite,
    List.length_append, ← Nat.add_assoc]
  simp only [List.append_assoc]

/-- A copy changes nothing exactly when the bytes are already there. -/
theorem overwrite_eq_self_iff {l b : List α} {i : Nat} (h : i + b.length ≤ l.length) :
    overwrite l i b = l ↔ (l.drop i).take b.length = b := by
  constructor
  · intro heq
    have hread := overwrite_read h
    rwa [heq] at hread
  · intro heq
    rw [overwrite, ← List.drop_drop]
    calc l.take i ++ b ++ (l.drop i).drop b.length
        = l.take i ++ (l.drop i).take b.length ++ (l.drop i).drop b.length := by rw [heq]
      _ = l := by rw [List.append_assoc, List.take_append_drop, List.take_append_drop]

theorem overwrite_take {l b : List α} {i n : Nat} (h : i + b.length ≤ n)
    (hn : n ≤ l.length) : (overwrite l i b).take n = overwrite (l.take n) i b := by
  have hi : (l.take i ++ b).length = i + b.length := by
    rw [List.length_append, List.length_take_of_le (by omega)]
  rw [overwrite, overwrite, List.take_append, List.take_of_length_le (by omega),
    List.take_take, Nat.min_eq_left (by omega), List.drop_take, hi]

end Overwrite

/-! ### Words -/

/-- The highest `k` bits of a word, and all of them from `w` on. -/
def highMask (w k : Nat) : BitVec w := BitVec.allOnes w <<< (w - k)

/-- A word of four bytes, the other way round. -/
def byteSwap (x : BitVec 32) : BitVec 32 :=
  x.extractLsb' 0 8 ++ x.extractLsb' 8 8 ++ x.extractLsb' 16 8 ++ x.extractLsb' 24 8

theorem getMsbD_highMask (w k i : Nat) :
    (highMask w k).getMsbD i = (decide (i < w) && decide (i < k)) := by
  rw [highMask, BitVec.getMsbD_shiftLeft, BitVec.getMsbD_allOnes, ← Bool.decide_and]
  exact decide_eq_decide.mpr (by omega)

theorem highMask_of_le {w k : Nat} (h : w ≤ k) : highMask w k = BitVec.allOnes w := by
  rw [highMask, Nat.sub_eq_zero_of_le h, BitVec.shiftLeft_zero]

theorem highMask_zero (w : Nat) : highMask w 0 = 0 := by
  refine BitVec.eq_of_getMsbD_eq fun i _ => ?_
  rw [getMsbD_highMask, decide_eq_false (Nat.not_lt_zero i), Bool.and_false]
  exact BitVec.getMsbD_zero.symm

/-- Words are the same under a mask when their highest bits are. -/
theorem and_highMask_eq_iff {w : Nat} (k : Nat) (x y : BitVec w) :
    x &&& highMask w k = y &&& highMask w k ↔
      ∀ i < min k w, x.getMsbD i = y.getMsbD i := by
  constructor
  · intro h i hi
    have hbit := congrArg (BitVec.getMsbD · i) h
    have hmask : (highMask w k).getMsbD i = true := by
      rw [getMsbD_highMask, decide_eq_true (by omega), decide_eq_true (by omega)]
      rfl
    simpa only [BitVec.getMsbD_and, hmask, Bool.and_true] using hbit
  · intro h
    refine BitVec.eq_of_getMsbD_eq fun i hi => ?_
    rw [BitVec.getMsbD_and, BitVec.getMsbD_and, getMsbD_highMask]
    by_cases hk : i < k
    · rw [h i (by omega)]
    · rw [decide_eq_false hk, Bool.and_false, Bool.and_false, Bool.and_false]

theorem toNat_and_highMask {w : Nat} (k : Nat) (x : BitVec w) :
    (x &&& highMask w k).toNat = x.toNat / 2 ^ (w - k) * 2 ^ (w - k) := by
  have hshift : x &&& highMask w k = (x >>> (w - k)) <<< (w - k) := by
    refine BitVec.eq_of_getLsbD_eq fun i hi => ?_
    rw [highMask]
    by_cases hk : i < w - k
    · simp [hk]
    · have : w - k + (i - (w - k)) = i := by omega
      simp [hk, hi, this]
  have hle := Nat.div_mul_le_self x.toNat (2 ^ (w - k))
  rw [hshift, BitVec.toNat_shiftLeft, BitVec.toNat_ushiftRight, Nat.shiftRight_eq_div_pow,
    Nat.shiftLeft_eq, Nat.mod_eq_of_lt (hle.trans_lt x.isLt)]

theorem toNat_not_highMask (w k : Nat) : (~~~highMask w k).toNat = 2 ^ (w - k) - 1 := by
  have hmask := toNat_and_highMask k (BitVec.allOnes w)
  rw [BitVec.allOnes_and, BitVec.toNat_allOnes] at hmask
  rw [BitVec.toNat_not, hmask]
  obtain ⟨m, hm⟩ : 2 ^ (w - k) ∣ 2 ^ w := pow_dvd_pow 2 (Nat.sub_le w k)
  have hpos : 0 < 2 ^ (w - k) := Nat.two_pow_pos _
  have hm0 : 0 < m := by
    rcases Nat.eq_zero_or_pos m with rfl | h
    · have := Nat.two_pow_pos w
      omega
    · exact h
  obtain ⟨m, rfl⟩ := Nat.exists_eq_succ_of_ne_zero hm0.ne'
  have hdiv : (2 ^ w - 1) / 2 ^ (w - k) = m := by
    rw [hm]
    refine Nat.div_eq_of_lt_le ?_ ?_
    · rw [Nat.mul_succ, Nat.mul_comm m]
      omega
    · rw [Nat.mul_comm (m + 1), Nat.mul_succ]
      omega
  rw [hdiv, hm, Nat.mul_succ, Nat.mul_comm m]
  omega

theorem getLsbD_byteSwap (x : BitVec 32) {i : Nat} (hi : i < 32) :
    (byteSwap x).getLsbD i = x.getLsbD (8 * (3 - i / 8) + i % 8) := by
  have hbyte : ∀ s j, j < 8 → (x.extractLsb' s 8).getLsbD j = x.getLsbD (s + j) := by
    intro s j hj
    rw [BitVec.getLsbD_extractLsb', decide_eq_true hj, Bool.true_and]
  change (x.extractLsb' 0 8 ++ x.extractLsb' 8 8 ++ x.extractLsb' 16 8 ++
    x.extractLsb' 24 8 : BitVec (8 + 8 + 8 + 8)).getLsbD i = _
  rw [BitVec.getLsbD_append, BitVec.getLsbD_append, BitVec.getLsbD_append]
  split_ifs with h₁ h₂ h₃
  · rw [hbyte _ _ h₁]
    congr 1
    omega
  · rw [hbyte _ _ h₂]
    congr 1
    omega
  · rw [hbyte _ _ h₃]
    congr 1
    omega
  · rw [hbyte _ _ (by omega)]
    congr 1
    omega

theorem byteSwap_byteSwap (x : BitVec 32) : byteSwap (byteSwap x) = x := by
  refine BitVec.eq_of_getLsbD_eq fun i hi => ?_
  rw [getLsbD_byteSwap _ hi, getLsbD_byteSwap _ (by omega)]
  congr 1
  omega

theorem byteSwap_and (x y : BitVec 32) : byteSwap (x &&& y) = byteSwap x &&& byteSwap y := by
  refine BitVec.eq_of_getLsbD_eq fun i hi => ?_
  rw [BitVec.getLsbD_and, getLsbD_byteSwap _ hi, getLsbD_byteSwap _ hi, getLsbD_byteSwap _ hi,
    BitVec.getLsbD_and]

theorem byteSwap_or (x y : BitVec 32) : byteSwap (x ||| y) = byteSwap x ||| byteSwap y := by
  refine BitVec.eq_of_getLsbD_eq fun i hi => ?_
  rw [BitVec.getLsbD_or, getLsbD_byteSwap _ hi, getLsbD_byteSwap _ hi, getLsbD_byteSwap _ hi,
    BitVec.getLsbD_or]

theorem byteSwap_not (x : BitVec 32) : byteSwap (~~~x) = ~~~byteSwap x := by
  refine BitVec.eq_of_getLsbD_eq fun i hi => ?_
  rw [BitVec.getLsbD_not, getLsbD_byteSwap _ hi, getLsbD_byteSwap _ hi, BitVec.getLsbD_not,
    decide_eq_true hi, decide_eq_true (by omega)]

/-!
## Copies between two memories

A copy takes a range of a source to a place of a destination. `copyWhile` makes the
copies of a loop that stops at the first one its test refuses, and `Copied` says that
a range was taken over by some of the copies made.
-/

/-- The range `src .. src + len` of the source, to the offset `dst`. -/
structure Copy where
  dst : Nat
  src : Nat
  len : Nat
  deriving DecidableEq

namespace Copy

/-- The destination after a copy; what falls behind its end is none of it. -/
def memcpy (source destination : List UInt8) (c : Copy) : List UInt8 :=
  (overwrite destination c.dst ((source.drop c.src).take c.len)).take destination.length

def Inside (c : Copy) (source destination : Nat) : Prop :=
  c.src + c.len ≤ source ∧ c.dst + c.len ≤ destination

/-- The copies of a loop over the next `n` rows, and whether it made them all. -/
def copyWhile (fits : Nat → Bool) (row : Nat → Copy) : Nat → Nat → Bool × List Copy
  | 0, _ => (true, [])
  | n + 1, y =>
      if fits y then
        let (success, copies) := copyWhile fits row n (y + 1)
        (success, row y :: copies)
      else (false, [])

/-- The bytes of a range of the source each went to their place. -/
def Copied (copies : List Copy) (dst src len : Nat) : Prop :=
  ∀ i < len, ∃ c ∈ copies, ∃ j < c.len, c.src + j = src + i ∧ c.dst + j = dst + i

section Memcpy

variable (source destination : List UInt8)

theorem memcpy_length (c : Copy) :
    (memcpy source destination c).length = destination.length := by
  simp only [memcpy, overwrite, List.length_take, List.length_append, List.length_drop]
  omega

theorem foldl_memcpy_length (copies : List Copy) :
    (copies.foldl (memcpy source) destination).length = destination.length := by
  induction copies generalizing destination with
  | nil => rfl
  | cons c copies ih => rw [List.foldl_cons, ih, memcpy_length]

variable {source destination}

/-- The byte at an offset after a copy. -/
theorem getElem?_memcpy {c : Copy} (h : c.Inside source.length destination.length) (k : Nat) :
    (memcpy source destination c)[k]? =
      if c.dst ≤ k ∧ k < c.dst + c.len then source[c.src + (k - c.dst)]? else destination[k]? := by
  obtain ⟨hsrc, hdst⟩ := h
  have hlength : ((source.drop c.src).take c.len).length = c.len := by
    rw [List.length_take, List.length_drop]
    omega
  rw [memcpy, List.getElem?_take, getElem?_overwrite (by omega), hlength]
  split_ifs with hk hin hin
  · rw [List.getElem?_take_of_lt (by omega), List.getElem?_drop]
  · rfl
  · omega
  · rw [List.getElem?_eq_none (by omega)]

/-- A byte that is copied is one of the source when all copies of it take the same. -/
theorem getElem?_foldl_memcpy {copies : List Copy} {k s : Nat}
    (hinside : ∀ c ∈ copies, c.Inside source.length destination.length)
    (hsame : ∀ c ∈ copies, c.dst ≤ k → k < c.dst + c.len → c.src + (k - c.dst) = s)
    (hcopied : destination[k]? = source[s]? ∨ ∃ c ∈ copies, c.dst ≤ k ∧ k < c.dst + c.len) :
    (copies.foldl (memcpy source) destination)[k]? = source[s]? := by
  induction copies generalizing destination with
  | nil =>
    rcases hcopied with hdone | ⟨c, hc, -⟩
    · exact hdone
    · cases hc
  | cons c copies ih =>
    rw [List.forall_mem_cons] at hinside hsame
    rw [List.foldl_cons]
    refine ih (fun c' hc' => ?_) hsame.2 ?_
    · rw [memcpy_length]
      exact hinside.2 c' hc'
    · rw [getElem?_memcpy hinside.1]
      split
      · rename_i hin
        rw [hsame.1 hin.1 hin.2]
        exact .inl rfl
      · rename_i hout
        rcases hcopied with hdone | ⟨c', hc', hin⟩
        · exact .inl hdone
        · rcases List.mem_cons.mp hc' with rfl | hc'
          · exact absurd hin hout
          · exact .inr ⟨c', hc', hin⟩

end Memcpy

section CopyWhile

variable {fits : Nat → Bool} {row : Nat → Copy} {n y : Nat}

theorem mem_copyWhile {c : Copy} (h : c ∈ (copyWhile fits row n y).2) :
    ∃ i, y ≤ i ∧ i < y + n ∧ fits i = true ∧ c = row i := by
  induction n generalizing y with
  | zero => cases h
  | succ n ih =>
    rw [copyWhile] at h
    split at h
    · rename_i hfits
      obtain rfl | hrest := List.mem_cons.mp h
      · exact ⟨y, le_rfl, by omega, hfits, rfl⟩
      · obtain ⟨i, hle, hlt, hi, hc⟩ := ih hrest
        exact ⟨i, by omega, by omega, hi, hc⟩
    · cases h

/-- Where a row that fits has all the rows before it fit, the loop copies it. -/
theorem row_mem_copyWhile (hmono : ∀ i j, i ≤ j → fits j = true → fits i = true) {i : Nat}
    (hle : y ≤ i) (hlt : i < y + n) (hi : fits i = true) :
    row i ∈ (copyWhile fits row n y).2 := by
  induction n generalizing y with
  | zero => omega
  | succ n ih =>
    rw [copyWhile, if_pos (hmono y i hle hi)]
    by_cases hy : i = y
    · exact hy ▸ List.mem_cons_self
    · exact List.mem_cons_of_mem _ (ih (by omega) (by omega))

theorem copyWhile_fst_eq_true_iff :
    (copyWhile fits row n y).1 = true ↔ ∀ i, y ≤ i → i < y + n → fits i = true := by
  induction n generalizing y with
  | zero =>
    simp only [copyWhile, true_iff]
    intro i hle hlt
    omega
  | succ n ih =>
    rw [copyWhile]
    split
    · rename_i hfits
      rw [ih]
      constructor
      · intro h i hle hlt
        by_cases hy : i = y
        · exact hy ▸ hfits
        · exact h i (by omega) (by omega)
      · exact fun h i hle hlt => h i (by omega) (by omega)
    · rename_i hfits
      refine iff_of_false Bool.false_ne_true fun h => hfits (h y le_rfl (by omega))

end CopyWhile

end Copy
