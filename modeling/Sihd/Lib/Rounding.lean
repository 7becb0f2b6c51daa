import Mathlib.Algebra.Order.Floor.Semifield
import Mathlib.Data.Int.Log
import Mathlib.Data.Rat.Floor
import Mathlib.Tactic.FieldSimp
import Mathlib.Tactic.Linarith
import Mathlib.Tactic.Positivity

/-!
# Rounding to significant bits

The result of a floating point operation of precision `p` is the rational number
of `p` significant bits that is nearest to the exact result, and of two nearest
ones the even one. A quotient of two positive numbers that have `p` bits is
rounded to a number with the same ceiling.
-/

/-- The nearest integer, and of two nearest ones the even one. -/
def roundEven (x : ℚ) : ℤ :=
  if x - ⌊x⌋ < 1 / 2 ∨ x - ⌊x⌋ = 1 / 2 ∧ ⌊x⌋ % 2 = 0 then ⌊x⌋ else ⌊x⌋ + 1

/-- The nearest number of `p` significant bits. -/
def roundBits (p : ℕ) (x : ℚ) : ℚ :=
  roundEven (x / 2 ^ (Int.log 2 |x| - (p - 1 : ℤ))) * 2 ^ (Int.log 2 |x| - (p - 1 : ℤ))

section RoundEven

variable {x : ℚ} {m : ℤ}

theorem floor_le_roundEven : ⌊x⌋ ≤ roundEven x := by
  rw [roundEven]
  split_ifs <;> omega

@[simp] theorem roundEven_intCast (m : ℤ) : roundEven m = m := by
  rw [roundEven, Int.floor_intCast, sub_self, if_pos (.inl (by norm_num))]

theorem roundEven_le (h : x ≤ m) : roundEven x ≤ m := by
  obtain rfl | hlt := h.eq_or_lt
  · exact (roundEven_intCast m).le
  · have hfloor := Int.floor_lt.mpr hlt
    rw [roundEven]
    split_ifs <;> omega

theorem lt_roundEven (h : (m : ℚ) + 1 / 2 < x) : m < roundEven x := by
  have hle : m ≤ ⌊x⌋ := Int.le_floor.mpr (by linarith)
  obtain heq | hlt := hle.eq_or_lt
  · rw [roundEven, ← heq, if_neg]
    · exact lt_add_one m
    · rintro (hsmall | ⟨hhalf, -⟩) <;> linarith
  · exact hlt.trans_le floor_le_roundEven

theorem roundEven_le_floor_add_one : roundEven x ≤ ⌊x⌋ + 1 := by
  rw [roundEven]
  split_ifs <;> omega

theorem abs_roundEven_sub_le : |(roundEven x : ℚ) - x| ≤ 1 / 2 := by
  have hle := Int.floor_le x
  have hlt := Int.lt_floor_add_one x
  rw [roundEven, abs_le]
  split_ifs with h
  · rcases h with h | ⟨h, -⟩ <;> constructor <;> linarith
  · have hhalf : 1 / 2 ≤ x - ⌊x⌋ := not_lt.mp fun hsmall => h (.inl hsmall)
    push_cast
    constructor <;> linarith

/-- A number is reached from half below it, at which only an even one is. -/
theorem roundEven_lt_iff (hm : m % 2 = 0 ∨ x ≠ m - 1 / 2) : roundEven x < m ↔ x < m - 1 / 2 := by
  constructor
  · intro h
    by_contra hge
    rw [not_lt] at hge
    have hfloor : m - 1 ≤ ⌊x⌋ := Int.le_floor.mpr (by push_cast; linarith)
    obtain heq | hlt := hfloor.eq_or_lt
    · have hcast : ((m - 1 : ℤ) : ℚ) = ⌊x⌋ := congrArg _ heq
      push_cast at hcast
      rw [roundEven, if_neg] at h
      · omega
      · rintro (hsmall | ⟨hhalf, heven⟩)
        · linarith
        · have hne : x = m - 1 / 2 := by linarith
          have hodd := hm.resolve_right (not_not.mpr hne)
          omega
    · have := floor_le_roundEven (x := x)
      omega
  · intro h
    have hlt : ⌊x⌋ < m := Int.floor_lt.mpr (by linarith)
    obtain heq | hlt' := (Int.le_sub_one_of_lt hlt).eq_or_lt
    · have hcast : (⌊x⌋ : ℚ) = ((m - 1 : ℤ) : ℚ) := congrArg _ heq
      push_cast at hcast
      rw [roundEven, if_pos (.inl (by linarith))]
      exact hlt
    · have := roundEven_le_floor_add_one (x := x)
      omega

/-- Between two numbers the even one is taken. -/
theorem roundEven_add_half (k : ℤ) :
    roundEven (k + 1 / 2) = if k % 2 = 0 then k else k + 1 := by
  have hfloor : ⌊(k : ℚ) + 1 / 2⌋ = k := by
    rw [Int.floor_eq_iff]
    constructor <;> linarith
  have hfrac : (k : ℚ) + 1 / 2 - k = 1 / 2 := by ring
  rw [roundEven, hfloor, hfrac]
  exact if_congr (by simp) rfl rfl

end RoundEven

section Quotient

variable {p n l : ℕ}

/-- The numbers of `p` bits near a number that has the integral part `k`. -/
theorem roundBits_of_floor {x : ℚ} {k : ℕ} (hk : 0 < k) (hlt : k < 2 ^ p) (hx : ⌊x⌋₊ = k) :
    roundBits p x =
      roundEven (x * (2 ^ (p - 1 - Nat.log 2 k) : ℕ)) / (2 ^ (p - 1 - Nat.log 2 k) : ℕ) := by
  have hone : 1 ≤ x := by
    have hfloor : 1 ≤ ⌊x⌋₊ := by omega
    exact_mod_cast Nat.le_floor_iff' one_ne_zero |>.mp hfloor
  have hlog : Nat.log 2 k ≤ p - 1 := by
    have hltlog := Nat.log_lt_of_lt_pow hk.ne' hlt
    omega
  have hp : 0 < p := by
    by_contra hzero
    rw [Nat.eq_zero_of_not_pos hzero] at hlt
    omega
  have hexp : Int.log 2 |x| - (p - 1 : ℤ) = -((p - 1 - Nat.log 2 k : ℕ) : ℤ) := by
    rw [abs_of_nonneg (by linarith), Int.log_of_one_le_right 2 hone, hx]
    omega
  rw [roundBits, hexp, zpow_neg, zpow_natCast, div_inv_eq_mul, ← div_eq_mul_inv]
  push_cast
  rfl

/-- A natural number of `p` bits is not rounded. -/
theorem roundBits_natCast (h : n < 2 ^ p) : roundBits p n = n := by
  obtain rfl | hpos := Nat.eq_zero_or_pos n
  · rw [roundBits, Nat.cast_zero, zero_div]
    have hzero : roundEven 0 = 0 := roundEven_intCast 0
    rw [hzero, Int.cast_zero, zero_mul]
  · rw [roundBits_of_floor hpos h (Nat.floor_natCast n)]
    have hcast : (n : ℚ) * (2 ^ (p - 1 - Nat.log 2 n) : ℕ) =
        ((n * 2 ^ (p - 1 - Nat.log 2 n) : ℕ) : ℤ) := by
      push_cast
      rfl
    rw [hcast, roundEven_intCast, ← hcast]
    have hne : ((2 ^ (p - 1 - Nat.log 2 n) : ℕ) : ℚ) ≠ 0 := by positivity
    exact mul_div_cancel_right₀ _ hne

/-- The distance of a quotient to the integer below it is more than half of the
distance of the numbers of `p` bits. -/
theorem lt_two_mul_pow {k : ℕ} (hk : 0 < k) (hkn : k < 2 ^ p) (hle : k * l < 2 ^ p) :
    l < 2 * 2 ^ (p - 1 - Nat.log 2 k) := by
  have hlog : Nat.log 2 k < p := Nat.log_lt_of_lt_pow hk.ne' hkn
  have hpow : 2 ^ Nat.log 2 k ≤ k := Nat.pow_log_le_self 2 hk.ne'
  have hsplit : 2 ^ p = 2 ^ Nat.log 2 k * (2 * 2 ^ (p - 1 - Nat.log 2 k)) := by
    rw [← pow_succ', ← pow_add]
    congr 1
    omega
  have hmul : 2 ^ Nat.log 2 k * l < 2 ^ Nat.log 2 k * (2 * 2 ^ (p - 1 - Nat.log 2 k)) :=
    hsplit ▸ (Nat.mul_le_mul_right l hpow).trans_lt hle
  exact lt_of_mul_lt_mul_left hmul (Nat.zero_le _)

/-- The ceiling of a quotient of two numbers of `p` bits is that of the quotient
that is rounded to `p` bits. -/
theorem ceil_roundBits_div (hl : 0 < l) (hle : l ≤ n) (hn : n < 2 ^ p) :
    ⌈roundBits p ((n : ℚ) / l)⌉₊ = ⌈(n : ℚ) / l⌉₊ := by
  have hpos : 0 < n / l := Nat.div_pos hle hl
  have hlt : n / l < 2 ^ p := (Nat.div_le_self n l).trans_lt hn
  have hl' : (0 : ℚ) < l := by exact_mod_cast hl
  have hdecomp : (n : ℚ) = (n / l : ℕ) * l + (n % l : ℕ) := by
    have hnat := Nat.div_add_mod' n l
    exact_mod_cast hnat.symm
  obtain hzero | hmod := Nat.eq_zero_or_pos (n % l)
  · -- the quotient is an integer
    have hquot : (n : ℚ) / l = (n / l : ℕ) := by
      rw [hdecomp, hzero, Nat.cast_zero, add_zero]
      exact mul_div_cancel_right₀ _ hl'.ne'
    rw [hquot, roundBits_natCast hlt]
  · have hfloor : ⌊(n : ℚ) / l⌋₊ = n / l := Nat.floor_div_eq_div n l
    have hmodlt : n % l < l := Nat.mod_lt n hl
    have hmul : n / l * l ≤ n := Nat.div_mul_le_self n l
    generalize n / l = k at *
    generalize n % l = r at *
    have hquot : (n : ℚ) / l = k + r / l := by
      rw [eq_comm, eq_div_iff hl'.ne', add_mul, div_mul_cancel₀ _ hl'.ne', ← hdecomp]
    have hfrac : (0 : ℚ) < r / l := div_pos (by exact_mod_cast hmod) hl'
    have hfrac' : (r : ℚ) / l < 1 := (div_lt_one hl').mpr (by exact_mod_cast hmodlt)
    have hbits := lt_two_mul_pow hpos hlt (hmul.trans_lt hn)
    rw [roundBits_of_floor hpos hlt hfloor]
    have hSpos : (0 : ℚ) < (2 ^ (p - 1 - Nat.log 2 k) : ℕ) := by positivity
    generalize 2 ^ (p - 1 - Nat.log 2 k) = S at *
    have hhalf : (1 : ℚ) / 2 < r / l * S := by
      rw [div_mul_eq_mul_div, lt_div_iff₀ hl']
      have hone : (1 : ℚ) ≤ r := by exact_mod_cast hmod
      have hlS : (l : ℚ) < 2 * S := by exact_mod_cast hbits
      nlinarith
    have hlower : (k * S : ℕ) < roundEven ((n : ℚ) / l * S) := by
      refine lt_roundEven ?_
      rw [hquot, add_mul]
      push_cast
      linarith
    have hupper : roundEven ((n : ℚ) / l * S) ≤ ((k + 1) * S : ℕ) := by
      refine roundEven_le ?_
      push_cast
      refine mul_le_mul_of_nonneg_right ?_ hSpos.le
      rw [hquot]
      linarith
    have hceil : ⌈(n : ℚ) / l⌉₊ = k + 1 := by
      rw [Nat.ceil_eq_iff (Nat.succ_ne_zero k), hquot]
      push_cast
      constructor <;> linarith
    rw [hceil, Nat.ceil_eq_iff (Nat.succ_ne_zero k), Nat.succ_sub_one, lt_div_iff₀ hSpos,
      div_le_iff₀ hSpos]
    have hboth := And.intro hlower hupper
    exact_mod_cast hboth

end Quotient

section Bits

variable {p n u : ℕ}

theorem roundBits_of_div_eq {x : ℚ} {m : ℤ} (h : x / 2 ^ (Int.log 2 |x| - (p - 1 : ℤ)) = m) :
    roundBits p x = x := by
  rw [roundBits, h, roundEven_intCast, ← h]
  exact div_mul_cancel₀ _ (zpow_ne_zero _ two_ne_zero)

theorem roundBits_nonneg {x : ℚ} (h : 0 ≤ x) : 0 ≤ roundBits p x := by
  refine mul_nonneg ?_ (zpow_nonneg zero_le_two _)
  have hfloor : 0 ≤ ⌊x / 2 ^ (Int.log 2 |x| - (p - 1 : ℤ))⌋ := 
    Int.floor_nonneg.mpr (div_nonneg h (zpow_nonneg zero_le_two _))
  exact_mod_cast hfloor.trans floor_le_roundEven


/-- The error is at most half of the last of the bits. -/
theorem abs_roundBits_sub_le {x : ℚ} (h : 0 < x) : |roundBits p x - x| ≤ x / 2 ^ p := by
  have hlog := Int.zpow_log_le_self (b := 2) one_lt_two h
  rw [roundBits, abs_of_pos h]
  push_cast at hlog
  generalize Int.log 2 x = l at hlog
  have hpow : (2 : ℚ) ^ (l - (p - 1 : ℤ)) = 2 ^ l / 2 ^ p * 2 := by
    rw [← zpow_natCast, ← zpow_sub₀ two_ne_zero, ← zpow_add_one₀ two_ne_zero]
    congr 1
    ring
  have hpos : (0 : ℚ) < 2 ^ (l - (p - 1 : ℤ)) := zpow_pos two_pos _
  have hsub : (roundEven (x / 2 ^ (l - (p - 1 : ℤ))) : ℚ) * 2 ^ (l - (p - 1 : ℤ)) - x =
      (roundEven (x / 2 ^ (l - (p - 1 : ℤ))) - x / 2 ^ (l - (p - 1 : ℤ))) *
        2 ^ (l - (p - 1 : ℤ)) := by
    rw [sub_mul, div_mul_cancel₀ _ hpos.ne']
  rw [hsub, abs_mul, abs_of_pos hpos]
  calc |(roundEven (x / 2 ^ (l - (p - 1 : ℤ))) : ℚ) - x / 2 ^ (l - (p - 1 : ℤ))| *
        2 ^ (l - (p - 1 : ℤ))
      ≤ 1 / 2 * 2 ^ (l - (p - 1 : ℤ)) :=
        mul_le_mul_of_nonneg_right abs_roundEven_sub_le hpos.le
    _ = 2 ^ l / 2 ^ p := by
        rw [hpow]
        ring
    _ ≤ x / 2 ^ p := div_le_div_of_nonneg_right hlog (by positivity)

/-- A natural number that ends in enough zero bits is not rounded. -/
theorem roundBits_natCast_of_dvd (hp : 0 < p) (h : 2 ^ (Nat.log 2 n - (p - 1)) ∣ n) :
    roundBits p n = n := by
  obtain hle | hlt := le_or_gt (p - 1) (Nat.log 2 n)
  · obtain ⟨m, hm⟩ := h
    refine roundBits_of_div_eq (m := m) ?_
    have hexp : Int.log 2 |(n : ℚ)| - (p - 1 : ℤ) = ((Nat.log 2 n - (p - 1) : ℕ) : ℤ) := by
      rw [Nat.abs_cast, Int.log_natCast]
      omega
    rw [hexp, zpow_natCast, div_eq_iff (by positivity)]
    have hcast : (n : ℚ) = (2 ^ (Nat.log 2 n - (p - 1)) * m : ℕ) := congrArg _ hm
    rw [hcast]
    push_cast
    ring
  · refine roundBits_natCast ?_
    have hpow := Nat.lt_pow_succ_log_self one_lt_two n
    exact hpow.trans_le (Nat.pow_le_pow_right two_pos (by omega))

/-- What is rounded to a natural number, but for a part behind the point, gives one that ends in
enough zero bits. -/
theorem dvd_of_floor_roundBits {x : ℚ} (hx : 0 ≤ x) (hp : 0 < p)
    (h : ⌊roundBits p x⌋ = (n : ℤ)) : 2 ^ (Nat.log 2 n - (p - 1)) ∣ n := by
  -- a number up to a power of two, with the zero bits that its bound asks for
  have hbound : ∀ e : ℕ, n ≤ 2 ^ (p + e) → 2 ^ e ∣ n → 2 ^ (Nat.log 2 n - (p - 1)) ∣ n := by
    intro e hle hdvd
    obtain rfl | hlt := hle.eq_or_lt
    · rw [Nat.log_pow one_lt_two]
      exact pow_dvd_pow 2 (by omega)
    · obtain rfl | hn := Nat.eq_zero_or_pos n
      · exact dvd_zero _
      · have hlog := Nat.log_lt_of_lt_pow hn.ne' hlt
        exact (pow_dvd_pow 2 (by omega)).trans hdvd
  obtain rfl | hpos := hx.eq_or_lt
  · have hzero : (0 : ℤ) = n := by
      rw [← h, roundBits, zero_div]
      have hround : roundEven 0 = 0 := roundEven_intCast 0
      rw [hround, Int.cast_zero, zero_mul, Int.floor_zero]
    obtain rfl : n = 0 := by exact_mod_cast hzero.symm
    exact dvd_zero _
  have hlt := Int.lt_zpow_succ_log_self (b := 2) one_lt_two x
  push_cast at hlt
  rw [roundBits, abs_of_pos hpos] at h
  generalize Int.log 2 x = l at hlt h
  have hepos : (0 : ℚ) < 2 ^ (l - (p - 1 : ℤ)) := zpow_pos two_pos _
  have hround : roundEven (x / 2 ^ (l - (p - 1 : ℤ))) ≤ ((2 ^ p : ℕ) : ℤ) := by
    refine roundEven_le ?_
    rw [div_le_iff₀ hepos]
    push_cast
    rw [← zpow_natCast, ← zpow_add₀ two_ne_zero]
    refine hlt.le.trans_eq ?_
    congr 1
    ring
  generalize roundEven (x / 2 ^ (l - (p - 1 : ℤ))) = r at h hround
  obtain hneg | hnonneg := le_or_gt (l - (p - 1 : ℤ)) 0
  · refine hbound 0 ?_ (by rw [pow_zero]; exact one_dvd n)
    have hle : ((n : ℤ) : ℚ) ≤ (r : ℚ) * 2 ^ (l - (p - 1 : ℤ)) := h ▸ Int.floor_le _
    have hone : (2 : ℚ) ^ (l - (p - 1 : ℤ)) ≤ 1 := zpow_le_one_of_nonpos₀ one_le_two hneg
    have hr : (r : ℚ) ≤ 2 ^ p := by exact_mod_cast hround
    have hfinal : (n : ℚ) ≤ 2 ^ p := by
      calc (n : ℚ) ≤ r * 2 ^ (l - (p - 1 : ℤ)) := by exact_mod_cast hle
        _ ≤ 2 ^ p * 2 ^ (l - (p - 1 : ℤ)) := mul_le_mul_of_nonneg_right hr hepos.le
        _ ≤ 2 ^ p * 1 := mul_le_mul_of_nonneg_left hone (by positivity)
        _ = 2 ^ p := mul_one _
    rw [Nat.add_zero]
    exact_mod_cast hfinal
  · obtain ⟨e, he⟩ := Int.eq_ofNat_of_zero_le hnonneg.le
    have hint : (r : ℚ) * 2 ^ (l - (p - 1 : ℤ)) = ((r * 2 ^ e : ℤ) : ℚ) := by
      rw [he]
      push_cast
      rfl
    rw [hint, Int.floor_intCast] at h
    refine hbound e ?_ ?_
    · have hle : (n : ℤ) ≤ ((2 ^ p : ℕ) : ℤ) * 2 ^ e :=
        h ▸ mul_le_mul_of_nonneg_right hround (by positivity)
      rw [pow_add]
      exact_mod_cast hle
    · have hdvd : ((2 ^ e : ℕ) : ℤ) ∣ (n : ℤ) := ⟨r, by rw [← h]; push_cast; ring⟩
      exact_mod_cast hdvd


/-- A quotient below 1 is not rounded up to it. -/
theorem floor_roundBits_div_of_lt (h : n < u) (hu : u < 2 ^ p) :
    ⌊roundBits p ((n : ℚ) / u)⌋ = 0 := by
  have hupos : (0 : ℚ) < u := by exact_mod_cast (Nat.zero_le n).trans_lt h
  have hnonneg : (0 : ℚ) ≤ n / u := div_nonneg (Nat.cast_nonneg n) hupos.le
  obtain hzero | hpos := hnonneg.eq_or_lt
  · have hround : roundBits p 0 = 0 := by exact_mod_cast roundBits_natCast (p := p) (n := 0) (by positivity)
    rw [← hzero, hround, Int.floor_zero]
  · rw [Int.floor_eq_zero_iff]
    refine ⟨roundBits_nonneg hnonneg, ?_⟩
    have herror := (abs_le.mp (abs_roundBits_sub_le (p := p) hpos)).2
    have hpow : (u : ℚ) < 2 ^ p := by exact_mod_cast hu
    have hn : (n : ℚ) ≤ u - 1 := by
      have hnat : n + 1 ≤ u := h
      have hcast : ((n + 1 : ℕ) : ℚ) ≤ u := by exact_mod_cast hnat
      push_cast at hcast
      linarith
    have hsmall : (n : ℚ) / u / 2 ^ p < 1 / u := by
      rw [div_div, div_lt_div_iff₀ (by positivity) hupos]
      nlinarith
    have hle : (n : ℚ) / u + 1 / u ≤ 1 := by
      rw [← add_div, div_le_one hupos]
      linarith
    linarith

/-- When a quotient is rounded up to the next integer. -/
theorem floor_roundBits_div_eq_iff (hu : 0 < u) (hpos : 0 < n / u) (hlt : n / u < 2 ^ p)
    (hhalf : n / u < 2 ^ (p - 1) ∨ 2 * (n % u) ≠ u) :
    ⌊roundBits p ((n : ℚ) / u)⌋ = (n / u : ℕ) ↔
      u < (u - n % u) * 2 ^ (p - Nat.log 2 (n / u)) := by
  have hlog : Nat.log 2 (n / u) < p := Nat.log_lt_of_lt_pow hpos.ne' hlt
  have hfloor : ⌊(n : ℚ) / u⌋₊ = n / u := Nat.floor_div_eq_div n u
  have hmod : n % u < u := Nat.mod_lt n hu
  have hdecomp : (n : ℚ) = (n / u : ℕ) * u + (n % u : ℕ) := by
    have hnat := Nat.div_add_mod' n u
    exact_mod_cast hnat.symm
  have hpow : 2 ^ (p - Nat.log 2 (n / u)) = 2 * 2 ^ (p - 1 - Nat.log 2 (n / u)) := by
    rw [← pow_succ']
    congr 1
    omega
  have heven : 2 ∣ 2 ^ (p - 1 - Nat.log 2 (n / u)) ∨
      2 ^ (p - 1 - Nat.log 2 (n / u)) = 1 ∧ 2 * (n % u) ≠ u := by
    obtain heq | hlt' := (Nat.le_sub_one_of_lt hlog).eq_or_lt
    · refine .inr ⟨by rw [heq, Nat.sub_self, pow_zero], hhalf.resolve_left ?_⟩
      rw [not_lt, ← heq]
      exact Nat.pow_log_le_self 2 hpos.ne'
    · exact .inl (dvd_pow_self 2 (Nat.sub_pos_of_lt hlt').ne')
  have hu' : (0 : ℚ) < u := by exact_mod_cast hu
  rw [roundBits_of_floor hpos hlt hfloor, hpow]
  have hS : 0 < 2 ^ (p - 1 - Nat.log 2 (n / u)) := by positivity
  generalize 2 ^ (p - 1 - Nat.log 2 (n / u)) = S at heven hS ⊢
  generalize n / u = k at *
  generalize n % u = r at *
  have hS' : (0 : ℚ) < S := by exact_mod_cast hS
  have hquot : (n : ℚ) / u * S = (k + r / u) * S := by
    rw [hdecomp, add_div, mul_div_cancel_right₀ _ hu'.ne']
  have hlower : ((k * S : ℕ) : ℤ) ≤ roundEven ((n : ℚ) / u * S) := by
    refine (Int.le_floor.mpr ?_).trans floor_le_roundEven
    rw [hquot]
    push_cast
    exact mul_le_mul_of_nonneg_right (le_add_of_nonneg_right (by positivity)) hS'.le
  have htie : (((k + 1) * S : ℕ) : ℤ) % 2 = 0 ∨
      (n : ℚ) / u * S ≠ ((((k + 1) * S : ℕ) : ℤ) : ℚ) - 1 / 2 := by
    refine heven.imp (fun hdvd => ?_) ?_
    · exact_mod_cast Nat.mod_eq_zero_of_dvd (hdvd.mul_left (k + 1))
    · rintro ⟨rfl, hne⟩ heq
      rw [hquot] at heq
      push_cast at heq
      have hfrac : (r : ℚ) / u = 1 / 2 := by linarith
      rw [div_eq_div_iff hu'.ne' two_ne_zero, one_mul] at hfrac
      refine hne ?_
      rw [mul_comm]
      exact_mod_cast hfrac
  have hupper := roundEven_lt_iff htie
  rw [hquot] at hupper
  have hiff : (k + r / u : ℚ) * S < ((((k + 1) * S : ℕ) : ℤ) : ℚ) - 1 / 2 ↔
      u < (u - r) * (2 * S) := by
    have hfrac : (r : ℚ) / u * u = r := div_mul_cancel₀ _ hu'.ne'
    have hcast : (((u - r) * (2 * S) : ℕ) : ℚ) = (u - r) * (2 * S) := by
      push_cast [Nat.cast_sub hmod.le]
      ring
    have hcast' : u < (u - r) * (2 * S) ↔ (u : ℚ) < (u - r) * (2 * S) := by
      rw [← hcast, Nat.cast_lt]
    rw [hcast', ← mul_lt_mul_iff_of_pos_right hu']
    push_cast
    constructor <;> intro h <;> nlinarith
  rw [Int.floor_eq_iff, le_div_iff₀ hS', div_lt_iff₀ hS', ← hiff, ← hupper, ← hquot]
  constructor
  · rintro ⟨-, h⟩
    exact_mod_cast h
  · intro h
    exact ⟨by exact_mod_cast hlower, by exact_mod_cast h⟩

/-- A quotient with an integer part of `p` bits and no more is rounded to that part, when the bits
behind it are more than one. -/
theorem floor_roundBits_of_dvd {x : ℚ} {k : ℕ} (hp : 0 < p) (hk : 2 ^ p ≤ k) (hx : ⌊x⌋₊ = k)
    (h : 2 ^ (Nat.log 2 k - (p - 1)) ∣ k) : ⌊roundBits p x⌋ = (k : ℤ) := by
  have hkpos : 0 < k := (Nat.two_pow_pos p).trans_le hk
  have hone : 1 ≤ x := by
    have hfloor : 1 ≤ ⌊x⌋₊ := by omega
    exact_mod_cast Nat.le_floor_iff' one_ne_zero |>.mp hfloor
  have hlog : p ≤ Nat.log 2 k := Nat.le_log_of_pow_le one_lt_two hk
  have hexp : Int.log 2 |x| - (p - 1 : ℤ) = ((Nat.log 2 k - (p - 1) : ℕ) : ℤ) := by
    rw [abs_of_nonneg (by linarith), Int.log_of_one_le_right 2 hone, hx]
    omega
  have heven : (2 : ℚ) ≤ (2 ^ (Nat.log 2 k - (p - 1)) : ℕ) := by
    have hdvd : 2 ∣ 2 ^ (Nat.log 2 k - (p - 1)) := dvd_pow_self 2 (by omega)
    exact_mod_cast Nat.le_of_dvd (by positivity) hdvd
  rw [roundBits, hexp, zpow_natCast]
  obtain ⟨m, hm⟩ := h
  have hlower : (k : ℚ) ≤ x := by
    rw [← hx]
    exact Nat.floor_le (by linarith)
  have hupper : x < k + 1 := by
    rw [← hx]
    exact Nat.lt_floor_add_one x
  have hcast : (k : ℚ) = (2 ^ (Nat.log 2 k - (p - 1)) : ℕ) * m := by exact_mod_cast hm
  have hround : roundEven (x / (2 ^ (Nat.log 2 k - (p - 1)) : ℕ)) = m := by
    generalize 2 ^ (Nat.log 2 k - (p - 1)) = S at hcast heven ⊢
    have hS : (0 : ℚ) < S := by linarith
    have hfloor : ⌊x / S⌋ = (m : ℤ) := by
      rw [Int.floor_eq_iff, le_div_iff₀ hS, div_lt_iff₀ hS]
      push_cast
      constructor <;> nlinarith
    have hsmall : x / S - ((m : ℤ) : ℚ) < 1 / 2 := by
      rw [sub_lt_iff_lt_add, div_lt_iff₀ hS]
      push_cast
      nlinarith
    rw [roundEven, hfloor, if_pos (.inl hsmall)]
  push_cast at hround
  rw [hround]
  have hint : ((m : ℤ) : ℚ) * 2 ^ (Nat.log 2 k - (p - 1)) = ((k : ℤ) : ℚ) := by
    rw [Int.cast_natCast, Int.cast_natCast, hcast]
    push_cast
    ring
  rw [hint, Int.floor_intCast]

/-- In the middle between two numbers of `p` bits. -/
theorem roundBits_add_half {j : ℕ} (hp : 0 < p) (hle : 2 ^ (p - 1) ≤ j) (hlt : j < 2 ^ p) (k : ℕ) :
    roundBits p ((j + 1 / 2) * 2 ^ k) = ((if j % 2 = 0 then j else j + 1) * 2 ^ k : ℕ) := by
  have hj : (0 : ℚ) < j + 1 / 2 := by positivity
  have hlog : Int.log 2 (((j : ℚ) + 1 / 2) * 2 ^ k) = (p - 1 : ℤ) + k := by
    refine le_antisymm ?_ ?_
    · rw [← Int.lt_add_one_iff, ← Int.lt_zpow_iff_log_lt one_lt_two (by positivity)]
      have hexp : (p - 1 : ℤ) + k + 1 = ((p + k : ℕ) : ℤ) := by
        push_cast
        ring
      have hcast : ((j + 1 : ℕ) : ℚ) ≤ (2 ^ p : ℕ) := by exact_mod_cast hlt
      push_cast at hcast
      push_cast [hexp, zpow_natCast]
      rw [← Nat.cast_add, zpow_natCast, pow_add]
      exact mul_lt_mul_of_pos_right (by linarith) (by positivity)
    · rw [← Int.zpow_le_iff_le_log one_lt_two (by positivity)]
      have hexp : (p - 1 : ℤ) + k = ((p - 1 + k : ℕ) : ℤ) := by omega
      have hcast : ((2 ^ (p - 1) : ℕ) : ℚ) ≤ j := by exact_mod_cast hle
      push_cast at hcast
      rw [hexp, zpow_natCast, Nat.cast_ofNat, pow_add]
      exact mul_le_mul_of_nonneg_right (by linarith) (by positivity)
  have hexp : Int.log 2 |((j : ℚ) + 1 / 2) * 2 ^ k| - (p - 1 : ℤ) = k := by
    rw [abs_of_pos (by positivity), hlog]
    ring
  rw [roundBits, hexp, zpow_natCast, mul_div_cancel_right₀ _ (by positivity)]
  have hround := roundEven_add_half (j : ℤ)
  push_cast at hround
  rw [hround]
  have hparity : (j : ℤ) % 2 = 0 ↔ j % 2 = 0 := by omega
  simp only [hparity]
  split_ifs <;> push_cast <;> rfl

end Bits

/-- The integer that is left of a number without the part behind the point. -/
def truncate (x : ℚ) : ℤ := if 0 ≤ x then ⌊x⌋ else ⌈x⌉

theorem truncate_of_nonneg {x : ℚ} (h : 0 ≤ x) : truncate x = ⌊x⌋ := if_pos h
