import Mathlib.Data.Fin.Tuple.Basic
import Mathlib.Data.List.GetD
import Mathlib.Data.List.Induction
import Mathlib.Data.Int.ConditionallyCompleteOrder
import Mathlib.Data.List.Sort
import Mathlib.Data.Rat.Floor
import Mathlib.Order.Bounds.Basic
import Mathlib.Tactic.FieldSimp
import Mathlib.Tactic.FinCases
import Mathlib.Tactic.Linarith

/-!
# The P-Square estimator

Five markers stand for the samples: the least one, the greatest one, the quantile
and two between them. Each has a position among the samples and a height. A
sample moves the markers behind it by one position; then a marker that is too far
from where it should be moves by one, and its height is interpolated. Samples and
heights are rational numbers here, and a division by zero gives no result.
-/

namespace Sihd.Util

/-- A division that fails for a divisor of zero. -/
def divide (a b : ℚ) : Option ℚ := if b = 0 then none else some (a / b)

/-- The positions and the heights of the markers. -/
structure Markers where
  n : Fin 5 → Int
  q : Fin 5 → ℚ

structure PSquareEstimator where
  p : ℚ
  count : Nat
  markers : Markers
  init : List ℚ

section Update

variable {ι α : Type*} [LinearOrder ι] [Preorder α] {f : ι → α} {i : ι} {v : α}

/-- A value between those before `i` and those behind it keeps the order. -/
theorem update_strictMono (hf : StrictMono f) (hlow : ∀ j < i, f j < v) (hhigh : ∀ j > i, v < f j) :
    StrictMono (Function.update f i v) := by
  intro a b hab
  by_cases ha : a = i
  · subst ha
    simpa [hab.ne'] using hhigh b hab
  · by_cases hb : b = i
    · subst hb
      simpa [hab.ne] using hlow a hab
    · simpa [ha, hb] using hf hab

theorem update_monotone (hf : Monotone f) (hlow : ∀ j < i, f j ≤ v) (hhigh : ∀ j > i, v ≤ f j) :
    Monotone (Function.update f i v) := by
  intro a b hab
  by_cases ha : a = i
  · subst ha
    rcases hab.eq_or_lt with rfl | hlt
    · exact le_rfl
    · simpa [hlt.ne'] using hhigh b hlt
  · by_cases hb : b = i
    · subst hb
      simpa [ha] using hlow a (lt_of_le_of_ne hab ha)
    · simpa [ha, hb] using hf hab

end Update

namespace Markers

/-- The heights with the sample `x`, and the marker that it comes behind. -/
def place (q : Fin 5 → ℚ) (x : ℚ) : (Fin 5 → ℚ) × Fin 5 :=
  if x < q 0 then (Function.update q 0 x, 0)
  else if x < q 1 then (q, 0)
  else if x < q 2 then (q, 1)
  else if x < q 3 then (q, 2)
  else if x < q 4 then (q, 3)
  else (Function.update q 4 x, 3)

/-- The loop that moves the markers behind `k`. -/
def moveBehind (n : Fin 5 → Int) (k : Fin 5) : Fin 5 → Int := fun i => if k < i then n i + 1 else n i

/-- The parabolic interpolation of the height of the marker `i`. -/
def parabolic (m : Markers) (i : Fin 5) (sign : Int) : Option ℚ := do
  let ni := m.n i
  let nip1 := m.n (i + 1)
  let nim1 := m.n (i - 1)
  let outer ← divide sign (nip1 - nim1)
  let upper ← divide ((ni - nim1 + sign) * (m.q (i + 1) - m.q i)) (nip1 - ni)
  let lower ← divide ((nip1 - ni - sign) * (m.q i - m.q (i - 1))) (ni - nim1)
  return m.q i + outer * (upper + lower)

/-- The linear interpolation, to the marker `j` beside it. -/
def linear (m : Markers) (i j : Fin 5) (sign : Int) : Option ℚ := do
  let step ← divide (sign * (m.q j - m.q i)) (m.n j - m.n i)
  return m.q i + step

/-- The marker `i` is at least one position from `nd`, and there is room for it. -/
def Moves (m : Markers) (nd : ℚ) (i : Fin 5) : Prop :=
  (nd - m.n i ≥ 1 ∧ m.n (i + 1) - m.n i > 1) ∨ (nd - m.n i ≤ -1 ∧ m.n (i - 1) - m.n i < -1)

instance (m : Markers) (nd : ℚ) (i : Fin 5) : Decidable (m.Moves nd i) :=
  inferInstanceAs (Decidable (_ ∨ _))

/-- The loop over the markers that move, for the marker `i` that should be at `nd`. -/
def adjust (m : Markers) (nd : ℚ) (i : Fin 5) : Option Markers :=
  if m.Moves nd i then do
    let sign : Int := if nd - m.n i > 0 then 1 else -1
    let j := if nd - m.n i > 0 then i + 1 else i - 1
    let qnew ← m.parabolic i sign
    let height ←
      if m.q (i - 1) < qnew ∧ qnew < m.q (i + 1) then some qnew else m.linear i j sign
    return ⟨Function.update m.n i (m.n i + sign), Function.update m.q i height⟩
  else some m

/-- The positions and the heights are in order. -/
structure Ordered (m : Markers) : Prop where
  n_strictMono : StrictMono m.n
  q_monotone : Monotone m.q

/-- The outer markers of `m'` are those of `m`. -/
structure SameEnds (m m' : Markers) : Prop where
  n_zero : m'.n 0 = m.n 0
  n_last : m'.n 4 = m.n 4
  q_zero : m'.q 0 = m.q 0
  q_last : m'.q 4 = m.q 4

theorem SameEnds.trans {m m' m'' : Markers} (h : SameEnds m m') (h' : SameEnds m' m'') :
    SameEnds m m'' :=
  ⟨h'.n_zero.trans h.n_zero, h'.n_last.trans h.n_last, h'.q_zero.trans h.q_zero,
    h'.q_last.trans h.q_last⟩

theorem pred_lt : ∀ {i : Fin 5}, i ≠ 0 → i - 1 < i := by decide

theorem lt_succ : ∀ {i : Fin 5}, i ≠ 4 → i < i + 1 := by decide

theorem le_pred : ∀ {i j : Fin 5}, j < i → j ≤ i - 1 := by decide

theorem succ_le : ∀ {i j : Fin 5}, i < j → i + 1 ≤ j := by decide

section Adjust

variable {m : Markers} {i : Fin 5}

/-- No divisor of the parabolic interpolation is zero. -/
theorem parabolic_isSome (hm : m.Ordered) (h0 : i ≠ 0) (h4 : i ≠ 4) (sign : Int) :
    ∃ qnew, m.parabolic i sign = some qnew := by
  have hlow : m.n (i - 1) < m.n i := hm.n_strictMono (pred_lt h0)
  have hhigh : m.n i < m.n (i + 1) := hm.n_strictMono (lt_succ h4)
  have h1 : (m.n (i + 1) - m.n (i - 1) : ℚ) ≠ 0 := by
    have : (m.n (i - 1) : ℚ) < m.n (i + 1) := by exact_mod_cast hlow.trans hhigh
    linarith
  have h2 : (m.n (i + 1) - m.n i : ℚ) ≠ 0 := by
    have : (m.n i : ℚ) < m.n (i + 1) := by exact_mod_cast hhigh
    linarith
  have h3 : (m.n i - m.n (i - 1) : ℚ) ≠ 0 := by
    have : (m.n (i - 1) : ℚ) < m.n i := by exact_mod_cast hlow
    linarith
  simp [parabolic, divide, h1, h2, h3]

/-- A height divided by a gap of at least one position. -/
theorem div_gap {height : ℚ} {gap : Int} (hheight : 0 ≤ height) (hgap : 1 < gap) :
    0 ≤ height / gap ∧ height / gap ≤ height := by
  have hgap' : (1 : ℚ) ≤ gap := by exact_mod_cast hgap.le
  constructor
  · exact div_nonneg hheight (by linarith)
  · exact div_le_self hheight hgap'

/-- The step to the marker behind stays below it. -/
theorem linear_succ (hq : m.q i ≤ m.q (i + 1)) (hgap : m.n (i + 1) - m.n i > 1) :
    ∃ height, m.linear i (i + 1) 1 = some height ∧ m.q i ≤ height ∧ height ≤ m.q (i + 1) := by
  have hgap' : (m.n (i + 1) - m.n i : ℚ) ≠ 0 := by
    have : (1 : ℚ) < m.n (i + 1) - m.n i := by exact_mod_cast hgap
    linarith
  obtain ⟨hnonneg, hle⟩ := div_gap (sub_nonneg.mpr hq) hgap
  push_cast at hnonneg hle
  refine ⟨_, by simp only [linear, divide, if_neg hgap']; rfl, ?_, ?_⟩
  · simpa using hnonneg
  · simp only [Int.cast_one, one_mul]
    linarith

/-- The step to the marker before stays above it. -/
theorem linear_pred (hq : m.q (i - 1) ≤ m.q i) (hgap : m.n (i - 1) - m.n i < -1) :
    ∃ height, m.linear i (i - 1) (-1) = some height ∧ m.q (i - 1) ≤ height ∧ height ≤ m.q i := by
  have hgap' : (m.n (i - 1) - m.n i : ℚ) ≠ 0 := by
    have : (m.n (i - 1) - m.n i : ℚ) < -1 := by exact_mod_cast hgap
    linarith
  have hgap_pos : 1 < m.n i - m.n (i - 1) := by omega
  obtain ⟨hnonneg, hle⟩ := div_gap (sub_nonneg.mpr hq) hgap_pos
  have hflip : (-1 * (m.q (i - 1) - m.q i)) / (m.n (i - 1) - m.n i : ℚ) =
      -((m.q i - m.q (i - 1)) / ((m.n i - m.n (i - 1) : Int) : ℚ)) := by
    have hgap'' : (m.n i - m.n (i - 1) : ℚ) ≠ 0 := by
      intro h
      exact hgap' (by linarith)
    push_cast
    field_simp
    ring
  refine ⟨_, by simp only [linear, divide, if_neg hgap']; rfl, ?_, ?_⟩
  · simp only [Int.cast_neg, Int.cast_one]
    rw [hflip]
    linarith
  · simp only [Int.cast_neg, Int.cast_one]
    rw [hflip]
    linarith

/-- A marker that moves inside its gap, to a height between its neighbours, keeps the order. -/
theorem Ordered.update (hm : m.Ordered) (h0 : i ≠ 0) (h4 : i ≠ 4) {pos : Int} {height : ℚ}
    (hpos : m.n (i - 1) < pos ∧ pos < m.n (i + 1))
    (hheight : m.q (i - 1) ≤ height ∧ height ≤ m.q (i + 1)) :
    let m' : Markers := ⟨Function.update m.n i pos, Function.update m.q i height⟩
    m'.Ordered ∧ m.SameEnds m' := by
  refine ⟨⟨?_, ?_⟩, ?_⟩
  · apply update_strictMono hm.n_strictMono
    · intro j hj
      exact (hm.n_strictMono.monotone (le_pred hj)).trans_lt hpos.1
    · intro j hj
      exact hpos.2.trans_le (hm.n_strictMono.monotone (succ_le hj))
  · apply update_monotone hm.q_monotone
    · intro j hj
      exact (hm.q_monotone (le_pred hj)).trans hheight.1
    · intro j hj
      exact hheight.2.trans (hm.q_monotone (succ_le hj))
  · constructor <;> simp [h0.symm, h4.symm]

/-- The height is between the neighbours whichever interpolation gives it. -/
theorem height_spec {α : Type*} (f : ℚ → α) {low high : ℚ} {linear : Option ℚ} (qnew : ℚ)
    (hlinear : ∃ height, linear = some height ∧ low ≤ height ∧ height ≤ high) :
    ∃ height, (if low < qnew ∧ qnew < high then some (f qnew) else
        linear.bind fun height => some (f height)) = some (f height) ∧
      low ≤ height ∧ height ≤ high := by
  by_cases hbetween : low < qnew ∧ qnew < high
  · exact ⟨qnew, if_pos hbetween, hbetween.1.le, hbetween.2.le⟩
  · obtain ⟨height, rfl, hlow, hhigh⟩ := hlinear
    exact ⟨height, if_neg hbetween, hlow, hhigh⟩

theorem adjust_spec (hm : m.Ordered) (h0 : i ≠ 0) (h4 : i ≠ 4) (nd : ℚ) :
    ∃ m', m.adjust nd i = some m' ∧ m'.Ordered ∧ m.SameEnds m' := by
  by_cases hmoves : m.Moves nd i
  · have hlow : m.n (i - 1) < m.n i := hm.n_strictMono (pred_lt h0)
    have hhigh : m.n i < m.n (i + 1) := hm.n_strictMono (lt_succ h4)
    have hqlow : m.q (i - 1) ≤ m.q i := hm.q_monotone (pred_lt h0).le
    have hqhigh : m.q i ≤ m.q (i + 1) := hm.q_monotone (lt_succ h4).le
    by_cases hd : nd - m.n i > 0
    · have hgap : m.n (i + 1) - m.n i > 1 := by
        rcases hmoves with h | h
        · exact h.2
        · linarith [h.1]
      obtain ⟨qnew, hqnew⟩ := parabolic_isSome hm h0 h4 1
      obtain ⟨linear, hlinear, hge, hle⟩ := linear_succ hqhigh hgap
      obtain ⟨height, hheight, hbetween⟩ :=
        height_spec (fun height => Markers.mk (Function.update m.n i (m.n i + 1))
          (Function.update m.q i height)) qnew ⟨linear, hlinear, hqlow.trans hge, hle⟩
      refine ⟨_, by simpa [adjust, hmoves, hd, hqnew] using hheight, ?_⟩
      exact hm.update h0 h4 ⟨by omega, by omega⟩ hbetween
    · have hgap : m.n (i - 1) - m.n i < -1 := by
        rcases hmoves with h | h
        · linarith [h.1]
        · exact h.2
      obtain ⟨qnew, hqnew⟩ := parabolic_isSome hm h0 h4 (-1)
      obtain ⟨linear, hlinear, hge, hle⟩ := linear_pred hqlow hgap
      obtain ⟨height, hheight, hbetween⟩ :=
        height_spec (fun height => Markers.mk (Function.update m.n i (m.n i + -1))
          (Function.update m.q i height)) qnew ⟨linear, hlinear, hge, hle.trans hqhigh⟩
      refine ⟨_, by simpa [adjust, hmoves, hd, hqnew] using hheight, ?_⟩
      exact hm.update h0 h4 ⟨by omega, by omega⟩ hbetween
  · exact ⟨m, by simp [adjust, hmoves], hm, ⟨rfl, rfl, rfl, rfl⟩⟩

end Adjust

section Place

variable {q : Fin 5 → ℚ}

theorem place_spec (hq : Monotone q) (x : ℚ) :
    Monotone (place q x).1 ∧ (place q x).1 0 = min (q 0) x ∧ (place q x).1 4 = max (q 4) x ∧
      (place q x).2 ≤ 3 := by
  have inside : q 0 ≤ x → x < q 4 →
      Monotone q ∧ q 0 = min (q 0) x ∧ q 4 = max (q 4) x := by
    intro hlow hhigh
    exact ⟨hq, (min_eq_left hlow).symm, (max_eq_left hhigh.le).symm⟩
  have below : ∀ j : Fin 5, x < q j → x < q 4 := by
    intro j hj
    exact hj.trans_le (hq (Fin.le_last j))
  unfold place
  split_ifs with h0 h1 h2 h3 h4
  · refine ⟨?_, ?_, ?_, Fin.zero_le 3⟩
    · apply update_monotone hq
      · intro j hj
        exact absurd hj (Fin.not_lt_zero j)
      · intro j _
        exact h0.le.trans (hq (Fin.zero_le j))
    · simp [min_eq_right h0.le]
    · simp [(below 0 h0).le]
  · obtain ⟨hmono, hmin, hmax⟩ := inside (not_lt.mp h0) (below 1 h1)
    exact ⟨hmono, hmin, hmax, Fin.zero_le 3⟩
  · obtain ⟨hmono, hmin, hmax⟩ := inside (not_lt.mp h0) (below 2 h2)
    exact ⟨hmono, hmin, hmax, (by decide : (1 : Fin 5) ≤ 3)⟩
  · obtain ⟨hmono, hmin, hmax⟩ := inside (not_lt.mp h0) (below 3 h3)
    exact ⟨hmono, hmin, hmax, (by decide : (2 : Fin 5) ≤ 3)⟩
  · obtain ⟨hmono, hmin, hmax⟩ := inside (not_lt.mp h0) h4
    exact ⟨hmono, hmin, hmax, le_rfl⟩
  · refine ⟨?_, ?_, ?_, le_rfl⟩
    · apply update_monotone hq
      · intro j _
        exact (hq (Fin.le_last j)).trans (not_lt.mp h4)
      · intro j hj
        exact absurd hj (Fin.le_last j).not_gt
    · simpa using not_lt.mp h0
    · simp [max_eq_right (not_lt.mp h4)]

theorem moveBehind_strictMono {n : Fin 5 → Int} (hn : StrictMono n) (k : Fin 5) :
    StrictMono (moveBehind n k) := by
  intro i j hij
  have hlt := hn hij
  unfold moveBehind
  split_ifs with hi hj hj
  · omega
  · exact absurd (hi.trans hij) hj
  · omega
  · exact hlt

end Place

end Markers

namespace PSquareEstimator

/-- An estimator without samples. -/
def new (p : ℚ) : PSquareEstimator := ⟨p, 0, ⟨fun i => i + 1, fun _ => 0⟩, []⟩

/-- The position where each marker should be. -/
def desired (p : ℚ) (count : Nat) : Fin 5 → ℚ
  | 0 => 1
  | 1 => 1 + (count - 1) * p / 2
  | 2 => 1 + (count - 1) * p
  | 3 => 1 + (count - 1) * (1 + p) / 2
  | 4 => count

def add (s : PSquareEstimator) (x : ℚ) : Option PSquareEstimator :=
  if s.count < 5 then
    let init := s.init ++ [x]
    let count := s.count + 1
    if count = 5 then
      let init := init.insertionSort (· ≤ ·)
      some { s with count, init, markers.q := fun i => init.getD i 0 }
    else some { s with count, init }
  else do
    let count := s.count + 1
    let (q, k) := Markers.place s.markers.q x
    let m : Markers := ⟨Markers.moveBehind s.markers.n k, q⟩
    let m ← m.adjust (desired s.p count 1) 1
    let m ← m.adjust (desired s.p count 2) 2
    let m ← m.adjust (desired s.p count 3) 3
    return { s with count, markers := m }

def estimate (s : PSquareEstimator) : ℚ :=
  if s.count = 0 then 0
  else if s.count < 5 then
    (s.init.insertionSort (· ≤ ·)).getD (min ⌊s.p * (s.count - 1)⌋₊ (s.count - 1)) 0
  else s.markers.q 2

/-- An estimator after some samples. -/
def run (p : ℚ) (samples : List ℚ) : Option PSquareEstimator := samples.foldlM add (new p)

theorem run_append (p : ℚ) (samples : List ℚ) (x : ℚ) :
    run p (samples ++ [x]) = (run p samples).bind fun s => s.add x := by
  simp [run, List.foldlM_append]

/-- The first samples wait in `init`. -/
structure Filling (s : PSquareEstimator) (samples : List ℚ) : Prop where
  count_eq : s.count = samples.length
  init_eq : s.init = samples
  n_eq : ∀ i, s.markers.n i = i + 1

/-- The markers stand in order between the least sample and the greatest one. -/
structure Marked (s : PSquareEstimator) (samples : List ℚ) : Prop where
  count_eq : s.count = samples.length
  n_zero : s.markers.n 0 = 1
  n_strictMono : StrictMono s.markers.n
  n_last : s.markers.n 4 = s.count
  q_zero : IsLeast {x | x ∈ samples} (s.markers.q 0)
  q_monotone : Monotone s.markers.q
  q_last : IsGreatest {x | x ∈ samples} (s.markers.q 4)

variable {s : PSquareEstimator} {samples : List ℚ}

theorem isLeast_append {low : ℚ} (h : IsLeast {x | x ∈ samples} low) (x : ℚ) :
    IsLeast {y | y ∈ samples ++ [x]} (min low x) := by
  have hset : {y | y ∈ samples ++ [x]} = {y | y ∈ samples} ∪ {x} := by
    ext y
    simp [or_comm]
  rw [hset]
  exact h.union isLeast_singleton

theorem isGreatest_append {high : ℚ} (h : IsGreatest {x | x ∈ samples} high) (x : ℚ) :
    IsGreatest {y | y ∈ samples ++ [x]} (max high x) := by
  have hset : {y | y ∈ samples ++ [x]} = {y | y ∈ samples} ∪ {x} := by
    ext y
    simp [or_comm]
  rw [hset]
  exact h.union isGreatest_singleton

theorem Marked.add (h : Marked s samples) (hcount : 5 ≤ samples.length) (x : ℚ) :
    ∃ s', s.add x = some s' ∧ Marked s' (samples ++ [x]) := by
  have hnot : ¬ s.count < 5 := by
    rw [h.count_eq]
    omega
  obtain ⟨hmono, hmin, hmax, hk⟩ := Markers.place_spec h.q_monotone x
  have hordered : Markers.Ordered ⟨Markers.moveBehind s.markers.n (Markers.place s.markers.q x).2,
      (Markers.place s.markers.q x).1⟩ :=
    ⟨Markers.moveBehind_strictMono h.n_strictMono _, hmono⟩
  obtain ⟨m1, hadjust1, hm1, hends1⟩ :=
    Markers.adjust_spec hordered (by decide : (1 : Fin 5) ≠ 0) (by decide)
      (desired s.p (s.count + 1) 1)
  obtain ⟨m2, hadjust2, hm2, hends2⟩ :=
    Markers.adjust_spec hm1 (by decide : (2 : Fin 5) ≠ 0) (by decide)
      (desired s.p (s.count + 1) 2)
  obtain ⟨m3, hadjust3, hm3, hends3⟩ :=
    Markers.adjust_spec hm2 (by decide : (3 : Fin 5) ≠ 0) (by decide)
      (desired s.p (s.count + 1) 3)
  have hends := (hends1.trans hends2).trans hends3
  refine ⟨{ s with count := s.count + 1, markers := m3 }, ?_, ?_⟩
  · simp only [PSquareEstimator.add, if_neg hnot]
    simp only [Option.bind_eq_bind, hadjust1, hadjust2, hadjust3, Option.bind_some]
    rfl
  · constructor
    · simp [h.count_eq]
    · simpa [hends.n_zero, Markers.moveBehind] using h.n_zero
    · exact hm3.n_strictMono
    · have hbehind : (Markers.place s.markers.q x).2 < 4 := lt_of_le_of_lt hk (by decide)
      simp [hends.n_last, Markers.moveBehind, hbehind, h.n_last]
    · simpa only [hends.q_zero, hmin] using isLeast_append h.q_zero x
    · exact hm3.q_monotone
    · simpa only [hends.q_last, hmax] using isGreatest_append h.q_last x

theorem new_filling (p : ℚ) : Filling (new p) [] := ⟨rfl, rfl, fun _ => rfl⟩

theorem Filling.add (h : Filling s samples) (hcount : samples.length < 4) (x : ℚ) :
    ∃ s', s.add x = some s' ∧ Filling s' (samples ++ [x]) := by
  have hlt : s.count < 4 := by
    rw [h.count_eq]
    exact hcount
  refine ⟨{ s with count := s.count + 1, init := s.init ++ [x] }, ?_, ?_⟩
  · have hne : s.count + 1 ≠ 5 := by omega
    simp [PSquareEstimator.add, show s.count < 5 by omega, hne]
  · constructor
    · simp [h.count_eq]
    · simp [h.init_eq]
    · exact h.n_eq

section Sorted

variable {l : List ℚ}

/-- A sorted list of five samples read through its indices. -/
theorem getD_monotone (hl : l.Pairwise (· ≤ ·)) (hlength : l.length = 5) :
    Monotone fun i : Fin 5 => l.getD i 0 := by
  intro i j hij
  have hi : (i : Nat) < l.length := by omega
  have hj : (j : Nat) < l.length := by omega
  change l.getD i 0 ≤ l.getD j 0
  rw [List.getD_eq_getElem l 0 hi, List.getD_eq_getElem l 0 hj]
  rcases hij.eq_or_lt with rfl | hlt
  · exact le_rfl
  · exact List.pairwise_iff_getElem.mp hl i j hi hj hlt

theorem exists_getD {x : ℚ} (hx : x ∈ l) (hlength : l.length = 5) :
    ∃ i : Fin 5, l.getD i 0 = x := by
  obtain ⟨k, hk, rfl⟩ := List.getElem_of_mem hx
  exact ⟨⟨k, hlength ▸ hk⟩, List.getD_eq_getElem l 0 hk⟩

theorem getD_mem (hlength : l.length = 5) (i : Fin 5) : l.getD i 0 ∈ l := by
  have hi : (i : Nat) < l.length := by omega
  rw [List.getD_eq_getElem l 0 hi]
  exact List.getElem_mem hi

end Sorted

/-- The fifth sample gives the markers their heights. -/
theorem Filling.add_fifth (h : Filling s samples) (hcount : samples.length = 4) (x : ℚ) :
    ∃ s', s.add x = some s' ∧ Marked s' (samples ++ [x]) := by
  have hs : s.count = 4 := h.count_eq.trans hcount
  set l := (samples ++ [x]).insertionSort (· ≤ ·) with hl
  have hlength : l.length = 5 := by simp [hl, hcount]
  have hmem : ∀ y, y ∈ l ↔ y ∈ samples ++ [x] := fun y => List.mem_insertionSort _
  have hmono := getD_monotone (List.pairwise_insertionSort (· ≤ ·) (samples ++ [x])) hlength
  refine ⟨{ s with count := 5, init := l, markers.q := fun i => l.getD i 0 }, ?_, ?_⟩
  · simp [PSquareEstimator.add, hs, h.init_eq, hl]
  · constructor
    · simp [hcount]
    · simp [h.n_eq]
    · intro i j hij
      simp only [h.n_eq]
      omega
    · simp [h.n_eq]
    · constructor
      · exact (hmem _).mp (getD_mem hlength 0)
      · intro y hy
        obtain ⟨i, rfl⟩ := exists_getD ((hmem y).mpr hy) hlength
        exact hmono (Fin.zero_le i)
    · exact hmono
    · constructor
      · exact (hmem _).mp (getD_mem hlength 4)
      · intro y hy
        obtain ⟨i, rfl⟩ := exists_getD ((hmem y).mpr hy) hlength
        exact hmono (Fin.le_last i)

/-- No sample makes an estimator divide by zero, and five of them set the markers. -/
theorem run_marked (p : ℚ) (samples : List ℚ) :
    ∃ s, run p samples = some s ∧ (samples.length < 5 → Filling s samples) ∧
      (5 ≤ samples.length → Marked s samples) := by
  induction samples using List.reverseRecOn with
  | nil => exact ⟨new p, rfl, fun _ => new_filling p, fun h => absurd h (by decide)⟩
  | append_singleton samples x ih =>
      obtain ⟨s, hrun, hfilling, hmarked⟩ := ih
      rw [run_append, hrun, Option.bind_some, List.length_append, List.length_singleton]
      rcases lt_trichotomy samples.length 4 with hlt | heq | hgt
      · obtain ⟨s', hadd, h'⟩ := (hfilling (by omega)).add hlt x
        exact ⟨s', hadd, fun _ => h', fun h => by omega⟩
      · obtain ⟨s', hadd, h'⟩ := (hfilling (by omega)).add_fifth heq x
        exact ⟨s', hadd, fun h => by omega, fun _ => h'⟩
      · obtain ⟨s', hadd, h'⟩ := (hmarked hgt).add hgt x
        exact ⟨s', hadd, fun h => by omega, fun _ => h'⟩

/-- Five samples or more leave the markers in order, and the estimate between the ends. -/
theorem run_spec (p : ℚ) (samples : List ℚ) (hcount : 5 ≤ samples.length) :
    ∃ s, run p samples = some s ∧ Marked s samples ∧
      ∃ low high, IsLeast {x | x ∈ samples} low ∧ IsGreatest {x | x ∈ samples} high ∧
        low ≤ s.estimate ∧ s.estimate ≤ high := by
  obtain ⟨s, hrun, -, hmarked⟩ := run_marked p samples
  have h := hmarked hcount
  have hestimate : s.estimate = s.markers.q 2 := by
    have hge : 5 ≤ s.count := h.count_eq ▸ hcount
    rw [estimate, if_neg (by omega), if_neg (by omega)]
  refine ⟨s, hrun, h, s.markers.q 0, s.markers.q 4, h.q_zero, h.q_last, ?_, ?_⟩
  · rw [hestimate]
    exact h.q_monotone (Fin.zero_le 2)
  · rw [hestimate]
    exact h.q_monotone (Fin.le_last 2)

theorem run_spec_six :
    ∃ s, run (1 / 2) [3, 1, 4, 1, 5, 9] = some s ∧ Marked s [3, 1, 4, 1, 5, 9] ∧
      ∃ low high, IsLeast {x | x ∈ [3, 1, 4, 1, 5, 9]} low ∧
        IsGreatest {x | x ∈ [3, 1, 4, 1, 5, 9]} high ∧ low ≤ s.estimate ∧ s.estimate ≤ high :=
  run_spec (1 / 2) [3, 1, 4, 1, 5, 9] (by decide)

end PSquareEstimator

end Sihd.Util
