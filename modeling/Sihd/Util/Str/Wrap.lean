import Mathlib.Data.BitVec
import Mathlib.Order.Nat
import Sihd.Util.Str

/-!
# Cutting a string to a width

`wrap` keeps a string that is short enough, and otherwise cuts it and puts a
marker behind it. The sizes are of type `size_t`: their differences wrap around,
and the characters that are kept are looked at through a view, which must not be
longer than the string.
-/

namespace Sihd.Util.Str

/-- What `wrap` gives back: no text when it has read outside of the string, and
whether a difference of sizes has wrapped around. -/
structure Wrapped where
  text : Option (List UInt8)
  underflow : Bool
  deriving DecidableEq

/-- `std::string_view(s.data(), size)`. -/
def view (s : List UInt8) (size : BitVec 64) : Option (List UInt8) :=
  if size.toNat ≤ s.length then some (s.take size.toNat) else none

def wrap (s : List UInt8) (maxWidth : BitVec 64) (endWith : List UInt8) : Wrapped :=
  let endSize := BitVec.ofNat 64 endWith.length
  if maxWidth.toNat < endWith.length then ⟨some (endWith.take maxWidth.toNat), false⟩
  else
    let width := maxWidth - endSize
    if s.length < width.toNat then ⟨some s, maxWidth.usubOverflow endSize⟩
    else
      -- the size of the marker is subtracted from the width a second time
      ⟨(view s (width - endSize)).map (· ++ endWith),
        maxWidth.usubOverflow endSize || width.usubOverflow endSize⟩

/-- The string is short enough to be kept. -/
def IsKept (s : List UInt8) (maxWidth : BitVec 64) (endWith : List UInt8) : Prop :=
  s.length + endWith.length < maxWidth.toNat

/-- A text within the width: the string, or its start and the marker, or the
start of the marker when there is no room for more. -/
structure FitsWidth (s : List UInt8) (maxWidth : BitVec 64) (endWith text : List UInt8) :
    Prop where
  length_le : text.length ≤ maxWidth.toNat
  eq_of_isKept : IsKept s maxWidth endWith → text = s
  eq_append : ¬ IsKept s maxWidth endWith → endWith.length ≤ maxWidth.toNat →
    ∃ p, p <+: s ∧ text = p ++ endWith
  isPrefix : maxWidth.toNat < endWith.length → text <+: endWith

/-- `wrap` gives a text within the width, and no difference wraps around. -/
def Wraps (s : List UInt8) (maxWidth : BitVec 64) (endWith : List UInt8) : Prop :=
  (wrap s maxWidth endWith).underflow = false ∧
    ∃ text, (wrap s maxWidth endWith).text = some text ∧ FitsWidth s maxWidth endWith text

section Cases

variable {s endWith : List UInt8} {maxWidth : BitVec 64}

theorem wrap_of_lt (h : maxWidth.toNat < endWith.length) :
    wrap s maxWidth endWith = ⟨some (endWith.take maxWidth.toNat), false⟩ := if_pos h

/-- What is left of the width beside the marker. -/
theorem toNat_sub_length (h : endWith.length ≤ maxWidth.toNat) :
    (maxWidth - BitVec.ofNat 64 endWith.length).toNat = maxWidth.toNat - endWith.length := by
  have hlt := maxWidth.isLt
  have hsize : (BitVec.ofNat 64 endWith.length).toNat = endWith.length := by
    rw [BitVec.toNat_ofNat, Nat.mod_eq_of_lt (lt_of_le_of_lt h hlt)]
  rw [BitVec.toNat_sub_of_le (by rwa [BitVec.le_def, hsize]), hsize]

theorem usubOverflow_length (h : endWith.length < 2 ^ 64) :
    maxWidth.usubOverflow (BitVec.ofNat 64 endWith.length) =
      decide (maxWidth.toNat < endWith.length) := by
  rw [BitVec.usubOverflow, BitVec.toNat_ofNat, Nat.mod_eq_of_lt h]

theorem wrap_of_isKept (h : IsKept s maxWidth endWith) :
    wrap s maxWidth endWith = ⟨some s, false⟩ := by
  have hle : endWith.length ≤ maxWidth.toNat := by
    rw [IsKept] at h
    omega
  have hlt : endWith.length < 2 ^ 64 := lt_of_le_of_lt hle maxWidth.isLt
  rw [wrap, if_neg (not_lt.mpr hle)]
  dsimp only
  rw [toNat_sub_length hle, if_pos (by rw [IsKept] at h; omega), usubOverflow_length hlt, decide_eq_false (not_lt.mpr hle)]

theorem wrap_of_not_isKept (h : ¬ IsKept s maxWidth endWith)
    (hle : endWith.length ≤ maxWidth.toNat) :
    wrap s maxWidth endWith =
      ⟨(view s (maxWidth - BitVec.ofNat 64 endWith.length - BitVec.ofNat 64 endWith.length)).map
          (· ++ endWith),
        decide (maxWidth.toNat < 2 * endWith.length)⟩ := by
  have hlt : endWith.length < 2 ^ 64 := lt_of_le_of_lt hle maxWidth.isLt
  have hiff : maxWidth.toNat - endWith.length < endWith.length ↔
      maxWidth.toNat < 2 * endWith.length := by
    omega
  rw [wrap, if_neg (not_lt.mpr hle)]
  dsimp only
  rw [toNat_sub_length hle, if_neg (by rw [IsKept] at h; omega), usubOverflow_length hlt,
    usubOverflow_length hlt, decide_eq_false (not_lt.mpr hle), Bool.false_or,
    toNat_sub_length hle, decide_eq_decide.mpr hiff]

end Cases

/-- The strings that `wrap` cuts to the width are those that it keeps, and those
that it cuts when the width is less than the marker or at least two of them. -/
theorem wraps_iff (s : List UInt8) (maxWidth : BitVec 64) (endWith : List UInt8) :
    Wraps s maxWidth endWith ↔ maxWidth.toNat < endWith.length ∨
      s.length + endWith.length < maxWidth.toNat ∨ 2 * endWith.length ≤ maxWidth.toNat := by
  by_cases hlt : maxWidth.toNat < endWith.length
  · refine iff_of_true ?_ (.inl hlt)
    rw [Wraps, wrap_of_lt hlt]
    refine ⟨rfl, _, rfl, List.length_take_le _ _, fun hkept => ?_,
      fun _ hle => absurd hlt (not_lt.mpr hle), fun _ => List.take_prefix _ _⟩
    rw [IsKept] at hkept
    omega
  have hle : endWith.length ≤ maxWidth.toNat := not_lt.mp hlt
  by_cases hkept : IsKept s maxWidth endWith
  · refine iff_of_true ?_ (.inr (.inl hkept))
    rw [Wraps, wrap_of_isKept hkept]
    refine ⟨rfl, s, rfl, ?_, fun _ => rfl, fun hnot => absurd hkept hnot,
      fun h => absurd h hlt⟩
    rw [IsKept] at hkept
    omega
  have hsmall : ¬ s.length + endWith.length < maxWidth.toNat := hkept
  rw [or_iff_right hlt, or_iff_right hsmall, Wraps, wrap_of_not_isKept hkept hle]
  constructor
  · exact fun h => not_lt.mp (of_decide_eq_false h.1)
  · intro htwo
    have htoNat : (maxWidth - BitVec.ofNat 64 endWith.length -
        BitVec.ofNat 64 endWith.length).toNat = maxWidth.toNat - 2 * endWith.length := by
      rw [toNat_sub_length (by rw [toNat_sub_length hle]; omega), toNat_sub_length hle]
      omega
    refine ⟨decide_eq_false (not_lt.mpr htwo),
      s.take (maxWidth.toNat - 2 * endWith.length) ++ endWith, ?_, ?_,
      fun h => absurd h hkept, fun _ _ => ⟨_, List.take_prefix _ _, rfl⟩, fun h => absurd h hlt⟩
    · rw [view, htoNat, if_pos (by omega)]
      rfl
    · rw [List.length_append, List.length_take]
      omega

/-- Six characters in four places, with a marker of three: the view is of nearly
all the memory. -/
theorem not_wraps_four : ¬ Wraps [97, 98, 99, 100, 101, 102] 4 [46, 46, 46] := by
  rintro ⟨hunderflow, -⟩
  exact absurd hunderflow (by decide)

end Sihd.Util.Str
