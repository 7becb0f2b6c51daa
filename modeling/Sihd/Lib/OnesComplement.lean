import Mathlib.Data.List.Basic
import Mathlib.Tactic.Common
import Mathlib.Tactic.Ring

/-!
# Sums with an end-around carry

In one's complement a word of `m + 1` values has two zeros, 0 and `m`: `endAround`
adds two words and the carry out of them. The sum of many words is the `residue`
of their sum modulo `m`, which is 0 for nothing but 0. So is what `foldCarries`
makes of a number of two words.
-/

variable {m n a b : Nat}

/-- A carry out of the word is added to it. -/
def endAround (m a b : Nat) : Nat := if a + b < m + 1 then a + b else a + b - (m + 1) + 1

def endAroundSum (m : Nat) (words : List Nat) : Nat := words.foldl (endAround m) 0

def residue (m n : Nat) : Nat := if n = 0 then 0 else (n - 1) % m + 1

/-- The high word is added to the low one, and the carry of that again. -/
def foldCarries (m n : Nat) : Nat :=
  let sum := n / (m + 1) + n % (m + 1)
  (sum + sum / (m + 1)) % (m + 1)

theorem residue_of_le (h : n ≤ m) : residue m n = n := by
  unfold residue
  split
  · rename_i hzero
    exact hzero.symm
  · rename_i hzero
    rw [Nat.mod_eq_of_lt (by omega)]
    omega

theorem residue_add_self (h : 0 < n) : residue m (n + m) = residue m n := by
  unfold residue
  have hsub : n + m - 1 = n - 1 + m := by omega
  rw [if_neg (by omega), if_neg (by omega), hsub, Nat.add_mod_right]

theorem residue_add_mul (h : 0 < n) (k : Nat) : residue m (n + m * k) = residue m n := by
  induction k with
  | zero => rfl
  | succ k ih => rw [Nat.mul_succ, ← Nat.add_assoc, residue_add_self (by omega), ih]

theorem residue_le (hm : 0 < m) (n : Nat) : residue m n ≤ m := by
  unfold residue
  split
  · exact Nat.zero_le m
  · exact Nat.mod_lt _ hm

theorem residue_eq_zero_iff : residue m n = 0 ↔ n = 0 := by
  unfold residue
  split
  · rename_i hzero
    simp [hzero]
  · rename_i hzero
    simp [hzero]

/-- A number is its residue and a multiple of `m`. -/
theorem exists_eq_residue_add (m n : Nat) : ∃ k, n = residue m n + m * k := by
  unfold residue
  split
  · rename_i hzero
    exact ⟨0, by simp [hzero]⟩
  · rename_i hzero
    have hdiv := Nat.mod_add_div (n - 1) m
    exact ⟨(n - 1) / m, by omega⟩

theorem residue_residue_add (m n b : Nat) : residue m (residue m n + b) = residue m (n + b) := by
  obtain ⟨k, hk⟩ := exists_eq_residue_add m n
  by_cases hzero : n = 0
  · rw [residue_eq_zero_iff.mpr hzero, hzero]
  · have hpos : 0 < residue m n := Nat.pos_of_ne_zero (residue_eq_zero_iff.not.mpr hzero)
    have hadd : n + b = residue m n + b + m * k := by omega
    rw [hadd, residue_add_mul (by omega)]

theorem endAround_eq (ha : a ≤ m) (hb : b ≤ m) : endAround m a b = residue m (a + b) := by
  unfold endAround
  split
  · rename_i hlt
    exact (residue_of_le (Nat.le_of_lt_succ hlt)).symm
  · rename_i hge
    have hsub : a + b = a + b - m + m := by omega
    rw [hsub, residue_add_self (by omega), residue_of_le (by omega)]
    omega

theorem endAroundSum_eq (hm : 0 < m) {words : List Nat} (h : ∀ w ∈ words, w ≤ m) :
    endAroundSum m words = residue m words.sum := by
  have hfold : ∀ n, words.foldl (endAround m) (residue m n) = residue m (n + words.sum) := by
    induction words with
    | nil => simp
    | cons w words ih =>
      rw [List.forall_mem_cons] at h
      intro n
      rw [List.foldl_cons, endAround_eq (residue_le hm n) h.1, residue_residue_add, ih h.2,
        List.sum_cons, Nat.add_assoc]
  simpa [endAroundSum, residue] using hfold 0

theorem foldCarries_eq (h : n < (m + 1) * (m + 1)) : foldCarries m n = residue m n := by
  have hhigh : n / (m + 1) < m + 1 := Nat.div_lt_of_lt_mul h
  have hlow : n % (m + 1) < m + 1 := Nat.mod_lt _ (Nat.succ_pos m)
  have hsplit : n = n / (m + 1) + n % (m + 1) + m * (n / (m + 1)) := by
    have hdiv := Nat.mod_add_div n (m + 1)
    rw [Nat.add_mul, Nat.one_mul] at hdiv
    omega
  unfold foldCarries
  generalize n / (m + 1) = high at hhigh hsplit ⊢
  generalize n % (m + 1) = low at hlow hsplit ⊢
  dsimp only
  by_cases hzero : high + low = 0
  · obtain ⟨rfl, rfl⟩ := Nat.add_eq_zero_iff.mp hzero
    simp [hsplit, residue]
  · rw [hsplit, residue_add_mul (Nat.pos_of_ne_zero hzero)]
    by_cases hcarry : high + low ≤ m
    · rw [Nat.div_eq_of_lt (by omega), residue_of_le hcarry, Nat.add_zero,
        Nat.mod_eq_of_lt (by omega)]
    · have hsum : high + low = high + low - m + m := by omega
      have hdiv : (high + low) / (m + 1) = 1 :=
        Nat.div_eq_of_lt_le (by omega) (by omega)
      have hadd : high + low + 1 = high + low - m + (m + 1) := by omega
      rw [hdiv, hadd, Nat.add_mod_right, Nat.mod_eq_of_lt (by omega)]
      rw [hsum, residue_add_self (by omega), Nat.add_sub_cancel, residue_of_le (by omega)]

/-- The complement of a sum makes it all ones; for 0, which needs all ones to do so,
they are the complement as well. -/
theorem residue_add_complement (hm : 0 < m) (n : Nat) :
    residue m (n + if m - residue m n = 0 then m else m - residue m n) = m := by
  have hle := residue_le hm n
  rw [← residue_residue_add]
  split
  · rename_i hzero
    have heq : residue m n = m := by omega
    rw [heq, residue_add_self hm, residue_of_le le_rfl]
  · rw [Nat.add_sub_cancel' hle, residue_of_le le_rfl]
