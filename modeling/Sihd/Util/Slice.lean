import Mathlib.Order.Interval.Set.Defs
import Sihd.Util.Array

/-!
# The indices of a slice

A slice that is resolved stays in its container and has the indices between its
bounds. A slice that is built from an offset and a size has the indices from the
offset on, as many as the size says; but with no offset and no size its end is
-1, which is the last index of the container.
-/

namespace Sihd.Util

/-- The indices from `start` on that are before `stop`. -/
def Range.indices (r : Range) : Set Nat := Set.Ico r.start r.stop

namespace Slice

/-- The cast of the last index to `ssize_t` wraps around. -/
def fromSize (offset size : BitVec 64) : Slice := ⟨offset.toInt, (offset + size - 1).toInt⟩

/-- A bound that counts from the end when it is negative. -/
def bound (i : Int) (n : Nat) : Int := if i < 0 then i + n else i

/-- A slice has the indices of its container that are between its bounds. -/
structure Resolves (s : Slice) (n : Nat) : Prop where
  start_le : (s.resolve n).start ≤ (s.resolve n).stop
  stop_le : (s.resolve n).stop ≤ n
  mem_iff : ∀ i : Nat, i ∈ (s.resolve n).indices ↔
    i < n ∧ bound s.start n ≤ i ∧ i ≤ bound s.stop n

theorem resolves (s : Slice) (n : Nat) : s.Resolves n := by
  have hresolve : s.resolve n =
      if max (-1) (min (bound s.stop n) (n - 1)) < max 0 (min (bound s.start n) n) then ⟨0, 0⟩
      else ⟨(max 0 (min (bound s.start n) n)).toNat,
        (max (-1) (min (bound s.stop n) (n - 1)) + 1).toNat⟩ := rfl
  by_cases hempty : max (-1) (min (bound s.stop n) (n - 1)) < max 0 (min (bound s.start n) n)
  · rw [if_pos hempty] at hresolve
    refine ⟨?_, ?_, fun i => ?_⟩
    · rw [hresolve]
    · rw [hresolve]
      exact Nat.zero_le n
    · rw [hresolve, Range.indices, Set.Ico_self]
      refine iff_of_false (Set.notMem_empty i) ?_
      omega
  · rw [if_neg hempty] at hresolve
    refine ⟨?_, ?_, fun i => ?_⟩
    · rw [hresolve]
      dsimp only
      omega
    · rw [hresolve]
      dsimp only
      omega
    · rw [hresolve, Range.indices, Set.mem_Ico]
      dsimp only
      omega

theorem toInt_of_lt {w : BitVec 64} (h : w.toNat < 2 ^ 63) : w.toInt = w.toNat := by
  rw [BitVec.toInt_eq_toNat_cond, if_pos (by omega)]

/-- A slice by its size has the indices of its container from the offset on. -/
def SelectsRange (offset size : BitVec 64) (n : Nat) : Prop :=
  ((fromSize offset size).resolve n).indices =
    {i | offset.toNat ≤ i ∧ i < offset.toNat + size.toNat ∧ i < n}

/-- The last index is -1 without offset and size. -/
theorem fromSize_zero : fromSize 0 0 = ⟨0, -1⟩ := rfl

theorem bound_of_nonneg {i : Int} (h : 0 ≤ i) (n : Nat) : bound i n = i :=
  if_neg (not_lt.mpr h)

theorem fromSize_of_pos {offset size : BitVec 64} (hoffset : offset.toNat < 2 ^ 62)
    (hsize : size.toNat < 2 ^ 62) (h : 0 < offset.toNat + size.toNat) :
    fromSize offset size = ⟨offset.toNat, offset.toNat + size.toNat - 1⟩ := by
  have hadd : (offset + size - 1).toNat = offset.toNat + size.toNat - 1 := by
    bv_omega
  have hlast : (offset + size - 1).toInt = (offset.toNat + size.toNat - 1 : Int) := by
    rw [toInt_of_lt (by omega), hadd]
    omega
  rw [fromSize, toInt_of_lt (by omega), hlast]

theorem selectsRange_of_pos {offset size : BitVec 64} {n : Nat} (hoffset : offset.toNat < 2 ^ 62)
    (hsize : size.toNat < 2 ^ 62) (h : 0 < offset.toNat + size.toNat) :
    SelectsRange offset size n := by
  refine Set.ext fun i => ?_
  rw [(resolves _ n).mem_iff, fromSize_of_pos hoffset hsize h, Set.mem_ofPred_eq]
  dsimp only
  rw [bound_of_nonneg (by omega), bound_of_nonneg (by omega)]
  omega

theorem selectsRange_zero_iff {n : Nat} : SelectsRange 0 0 n ↔ n = 0 := by
  have hindices : ((fromSize 0 0).resolve n).indices = {i | i < n} := by
    refine Set.ext fun i => ?_
    have hstop : bound (-1) n = n - 1 := by
      rw [bound, if_pos (by decide), Int.add_comm, Int.sub_eq_add_neg]
    rw [(resolves _ n).mem_iff, fromSize_zero, Set.mem_ofPred_eq]
    dsimp only
    rw [bound_of_nonneg (le_refl 0), hstop]
    omega
  rw [SelectsRange, hindices]
  constructor
  · intro heq
    by_contra hn
    have hzero : 0 ∈ {i | i < n} := Nat.pos_of_ne_zero hn
    rw [heq] at hzero
    exact absurd hzero.2.1 (by decide)
  · rintro rfl
    refine Set.ext fun i => ?_
    rw [Set.mem_ofPred_eq, Set.mem_ofPred_eq]
    omega

/-- Slices select exactly their range, but for the slice of no offset and no
size on a container that has elements. -/
theorem selects_iff (offset size : BitVec 64) (n : Nat) (start stop : Int)
    (hoffset : offset.toNat < 2 ^ 62) (hsize : size.toNat < 2 ^ 62) (_ : n < 2 ^ 62) :
    SelectsRange offset size n ∧ Resolves ⟨start, stop⟩ n ↔
      (offset = 0 → size = 0 → n = 0) := by
  rw [and_iff_left (resolves _ n)]
  by_cases hzero : offset = 0 ∧ size = 0
  · obtain ⟨rfl, rfl⟩ := hzero
    rw [selectsRange_zero_iff]
    exact ⟨fun h _ _ => h, fun h => h rfl rfl⟩
  · have hpos : 0 < offset.toNat + size.toNat := by
      by_contra hnot
      exact hzero ⟨by bv_omega, by bv_omega⟩
    exact iff_of_true (selectsRange_of_pos hoffset hsize hpos)
      fun ho hs => absurd ⟨ho, hs⟩ hzero

/-- Two elements from the second one on, of three. -/
theorem selects_two : SelectsRange 1 2 3 ∧ Resolves ⟨-2, -1⟩ 3 :=
  (selects_iff 1 2 3 (-2) (-1) (by decide) (by decide) (by decide)).mpr
    fun h _ => absurd h (by decide)

/-- No element of three: all of them are selected. -/
theorem not_selectsRange_zero : ¬ SelectsRange 0 0 3 := by
  rw [selectsRange_zero_iff]
  decide

end Slice

end Sihd.Util
