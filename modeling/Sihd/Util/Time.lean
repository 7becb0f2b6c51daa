import Mathlib.Data.Nat.Prime.Basic
import Sihd.Lib.Rounding

/-!
# Seconds and nanoseconds

A time is a number of nanoseconds. It is divided and put together in doubles, and
its remainder is taken in integers.
-/

namespace Sihd.Util.Time

/-! ### Conversions -/

/-- The double of a number. -/
def toDouble (x : ℚ) : ℚ := roundBits 53 x

/-- A number over a unit: `nano / 1E9`, as an integer. -/
def quotient (nano : ℤ) (unit : ℕ) : ℤ := truncate (toDouble (toDouble nano / unit))

def toMicro (nano : ℤ) : ℤ := quotient nano 1000

def toMilli (nano : ℤ) : ℤ := quotient nano 1000000

def toSec (nano : ℤ) : ℤ := quotient nano 1000000000

structure Timespec where
  tvSec : ℤ
  tvNsec : ℤ

structure Timeval where
  tvSec : ℤ
  tvUsec : ℤ

def toTs (nano : ℤ) : Timespec where
  tvSec := quotient nano 1000000000
  tvNsec := nano.tmod 1000000000

/-- The microseconds are nanoseconds. -/
def toNanoTv (nano : ℤ) : Timeval where
  tvSec := quotient nano 1000000000
  tvUsec := nano.tmod 1000000000

/-- `sec * 1E9 + nsec`. -/
def combine (sec nsec : ℤ) : ℤ :=
  truncate (toDouble (toDouble (toDouble sec * 1000000000) + toDouble nsec))

def ts (t : Timespec) : ℤ := combine t.tvSec t.tvNsec

def nanoTv (tv : Timeval) : ℤ := combine tv.tvSec tv.tvUsec

/-! ### What is lossless -/

structure SplitsLosslessly (n : ℕ) : Prop where
  tvNsec_nonneg : 0 ≤ (toTs n).tvNsec
  tvNsec_lt : (toTs n).tvNsec < 1000000000
  sum_toTs : (toTs n).tvSec * 1000000000 + (toTs n).tvNsec = n
  ts_toTs : ts (toTs n) = n
  tvUsec_nonneg : 0 ≤ (toNanoTv n).tvUsec
  tvUsec_lt : (toNanoTv n).tvUsec < 1000000000
  sum_toNanoTv : (toNanoTv n).tvSec * 1000000000 + (toNanoTv n).tvUsec = n
  nanoTv_toNanoTv : nanoTv (toNanoTv n) = n
  toSec_eq : toSec n = (n / 1000000000 : ℕ)
  toMilli_eq : toMilli n = (n / 1000000 : ℕ)
  toMicro_eq : toMicro n = (n / 1000 : ℕ)

/-- A number is not too near to the next multiple of a unit, or a quotient of 54 bits is even. -/
def Divisible (n unit : ℕ) : Prop :=
  if n / unit < 2 ^ 53 then unit < (unit - n % unit) * 2 ^ (53 - Nat.log 2 (n / unit))
  else 2 ∣ n / unit

/-- The numbers that doubles split and put together again. -/
structure Splittable (n : ℕ) : Prop where
  /-- There are at most 53 significant bits. -/
  bits : 2 ^ (Nat.log 2 n - 52) ∣ n
  sec : Divisible n 1000000000
  milli : Divisible n 1000000
  micro : Divisible n 1000
  /-- Odd seconds from 2^62 on lose their last bit, and get it back only with an even sum. -/
  even : n < 2 ^ 62 ∨ 2048 ∣ n ∨ 2 ∣ n / 1000000000

/-! ### Quotients -/

variable {n : ℕ}

theorem toDouble_natCast (h : 2 ^ (Nat.log 2 n - 52) ∣ n) : toDouble n = n :=
  roundBits_natCast_of_dvd (by decide) h

theorem toDouble_of_lt (h : n < 2 ^ 53) : toDouble n = n := roundBits_natCast h

theorem toDouble_nonneg {x : ℚ} (h : 0 ≤ x) : 0 ≤ toDouble x := roundBits_nonneg h

/-- The quotient by a unit, when it is not rounded up. -/
theorem quotient_eq_iff (hbits : 2 ^ (Nat.log 2 n - 52) ∣ n) {unit : ℕ} (hpos : 0 < unit)
    (hunit : unit < 2 ^ 53) (hn : n / unit < 2 ^ 54)
    (hhalf : n / unit < 2 ^ 52 ∨ 2 * (n % unit) ≠ unit) :
    quotient n unit = (n / unit : ℕ) ↔ Divisible n unit := by
  have hdouble : toDouble ((n : ℤ) : ℚ) = n := toDouble_natCast hbits
  have hnonneg : (0 : ℚ) ≤ n / unit := by positivity
  rw [quotient, hdouble, truncate_of_nonneg (toDouble_nonneg hnonneg), toDouble, Divisible]
  obtain hzero | hquot := Nat.eq_zero_or_pos (n / unit)
  · have hlt : n < unit := (Nat.div_eq_zero_iff_lt hpos).mp hzero
    rw [floor_roundBits_div_of_lt hlt hunit, hzero, if_pos (by decide), Nat.mod_eq_of_lt hlt,
      Nat.log_zero_right]
    refine iff_of_true rfl ?_
    omega
  · split
    · rename_i hlt
      exact floor_roundBits_div_eq_iff hpos hquot hlt hhalf
    · rename_i hge
      rw [not_lt] at hge
      constructor
      · intro heq
        have hdvd := dvd_of_floor_roundBits hnonneg (by decide) heq
        have hlog : 53 ≤ Nat.log 2 (n / unit) := Nat.le_log_of_pow_le one_lt_two hge
        exact (dvd_pow_self 2 (by omega)).trans hdvd
      · intro hdvd
        have hlog : Nat.log 2 (n / unit) < 54 := Nat.log_lt_of_lt_pow hquot.ne' hn
        have hexp : 2 ^ (Nat.log 2 (n / unit) - (53 - 1)) ∣ n / unit :=
          (pow_dvd_pow 2 (by omega : _ ≤ 1)).trans (by rwa [pow_one])
        exact floor_roundBits_of_dvd (by decide) hge (Nat.floor_div_eq_div n unit) hexp

theorem toSec_eq_iff (hbits : 2 ^ (Nat.log 2 n - 52) ∣ n) (hn : n < 2 ^ 63) :
    toSec n = (n / 1000000000 : ℕ) ↔ Divisible n 1000000000 :=
  quotient_eq_iff hbits (by decide) (by decide) (by omega) (.inl (by omega))

theorem toMilli_eq_iff (hbits : 2 ^ (Nat.log 2 n - 52) ∣ n) (hn : n < 2 ^ 63) :
    toMilli n = (n / 1000000 : ℕ) ↔ Divisible n 1000000 :=
  quotient_eq_iff hbits (by decide) (by decide) (by omega) (.inl (by omega))

/-- A double with a quotient of 53 bits is a multiple of 512. -/
theorem toMicro_eq_iff (hbits : 2 ^ (Nat.log 2 n - 52) ∣ n) (hn : n < 2 ^ 63) :
    toMicro n = (n / 1000 : ℕ) ↔ Divisible n 1000 := by
  refine quotient_eq_iff hbits (by decide) (by decide) (by omega) ?_
  obtain hlt | hge := lt_or_ge (n / 1000) (2 ^ 52)
  · exact .inl hlt
  · have hlog : 61 ≤ Nat.log 2 n := Nat.le_log_of_pow_le one_lt_two (by omega)
    have hdvd : 2 ^ 9 ∣ n := (pow_dvd_pow 2 (by omega)).trans hbits
    exact .inr (by omega)

/-! ### Sums -/

theorem combine_eq (sec nsec : ℕ) (hsec : sec < 2 ^ 53) (hnsec : nsec < 2 ^ 53) :
    combine sec nsec = ⌊toDouble (toDouble (sec * 1000000000 : ℕ) + nsec)⌋ := by
  have hsec' : toDouble ((sec : ℤ) : ℚ) = sec := toDouble_of_lt hsec
  have hnsec' : toDouble ((nsec : ℤ) : ℚ) = nsec := toDouble_of_lt hnsec
  have hmul : (sec : ℚ) * 1000000000 = (sec * 1000000000 : ℕ) := by
    push_cast
    rfl
  rw [combine, hsec', hnsec', hmul, truncate_of_nonneg]
  exact toDouble_nonneg (add_nonneg (toDouble_nonneg (Nat.cast_nonneg _)) (Nat.cast_nonneg _))

theorem log_of_mem {n : ℕ} (hle : 2 ^ 62 ≤ n) (hlt : n < 2 ^ 63) : Nat.log 2 n = 62 :=
  (Nat.log_eq_iff (.inl (by decide))).mpr ⟨hle, hlt⟩

theorem pow_log_sub : 2 ^ (62 - 52) = 1024 := by norm_num

/-- Half way between two multiples of 1024. -/
theorem toDouble_of_half {j : ℕ} (hle : 2 ^ 52 ≤ j) (hlt : j < 2 ^ 53) :
    toDouble (1024 * j + 512 : ℕ) = (1024 * if j % 2 = 0 then j else j + 1 : ℕ) := by
  have hround := roundBits_add_half (p := 53) (by decide) hle hlt 10
  have hx : ((1024 * j + 512 : ℕ) : ℚ) = (j + 1 / 2) * 2 ^ 10 := by
    push_cast
    ring
  rw [toDouble, hx, hround, Nat.mul_comm]
  norm_num

theorem dvd_sec_mul_iff {sec : ℕ} : 1024 ∣ sec * 1000000000 ↔ 2 ∣ sec := by
  have hmul : sec * 1000000000 = 512 * (sec * 1953125) := by ring
  have hodd : ¬ 2 ∣ 1953125 := by decide
  have hcancel : 512 * 2 ∣ 512 * (sec * 1953125) ↔ 2 ∣ sec * 1953125 :=
    Nat.mul_dvd_mul_iff_left (by decide)
  rw [hmul, ← or_iff_left (a := 2 ∣ sec) hodd, ← Nat.prime_two.dvd_mul]
  exact hcancel

theorem exists_sec_mul {sec : ℕ} (h : ¬ 2 ∣ sec) : ∃ j, sec * 1000000000 = 1024 * j + 512 := by
  obtain ⟨t, rfl⟩ : ∃ t, sec = 2 * t + 1 := ⟨sec / 2, by omega⟩
  exact ⟨t * 1953125 + 976562, by ring⟩

/-- A number of whole seconds in doubles: the last bit of an odd one is lost from 2^62 on. -/
theorem dvd_sec_iff {sec : ℕ} (h : sec * 1000000000 < 2 ^ 63) :
    2 ^ (Nat.log 2 (sec * 1000000000) - 52) ∣ sec * 1000000000 ↔
      sec * 1000000000 < 2 ^ 62 ∨ 2 ∣ sec := by
  obtain hlt | hge := lt_or_ge (sec * 1000000000) (2 ^ 62)
  · refine iff_of_true ?_ (.inl hlt)
    have hlog : Nat.log 2 (sec * 1000000000) - 52 ≤ 9 := by
      have := Nat.log_lt_of_lt_pow' (b := 2) (by decide) hlt
      omega
    exact (pow_dvd_pow 2 hlog).trans (by omega)
  · rw [log_of_mem hge h, pow_log_sub, dvd_sec_mul_iff, or_iff_right (not_lt.mpr hge)]

/-- From half way between two multiples of 1024, the even one taken, on to a multiple of 1024: the
sum is half way again, above or below. -/
theorem exists_half {j k r : ℕ} (h : 1024 * j + 512 + r = 1024 * k) :
    ∃ i, (1024 * if j % 2 = 0 then j else j + 1) + r = 1024 * i + 512 ∧ j ≤ i ∧
      (i = k ∨ i + 1 = k) := by
  split
  · exact ⟨k - 1, by omega, by omega, by omega⟩
  · exact ⟨k, by omega, by omega, by omega⟩

/-- The sum of whole seconds and nanoseconds. -/
theorem combine_eq_self_iff (hbits : 2 ^ (Nat.log 2 n - 52) ∣ n) (hn : n < 2 ^ 63) :
    combine (n / 1000000000 : ℕ) (n % 1000000000 : ℕ) = n ↔
      n < 2 ^ 62 ∨ 2048 ∣ n ∨ 2 ∣ n / 1000000000 := by
  have hdecomp : n / 1000000000 * 1000000000 + n % 1000000000 = n := Nat.div_add_mod' n _
  have hlt : n / 1000000000 * 1000000000 < 2 ^ 63 := by omega
  rw [combine_eq _ _ (by omega) (by omega)]
  by_cases hsec : 2 ^ (Nat.log 2 (n / 1000000000 * 1000000000) - 52) ∣ n / 1000000000 * 1000000000
  · have hsum : toDouble (n / 1000000000 * 1000000000 : ℕ) + (n % 1000000000 : ℕ) = n := by
      rw [toDouble_natCast hsec, ← Nat.cast_add, hdecomp]
    rw [hsum, toDouble_natCast hbits, Int.floor_natCast]
    refine iff_of_true rfl ?_
    rw [dvd_sec_iff hlt] at hsec
    omega
  · rw [dvd_sec_iff hlt] at hsec
    have hlog := log_of_mem (n := n) (by omega) hn
    rw [hlog, pow_log_sub] at hbits
    obtain ⟨k, hk⟩ := hbits
    obtain ⟨hge, hodd⟩ := not_or.mp hsec
    obtain ⟨j, hj⟩ := exists_sec_mul hodd
    rw [hj] at hdecomp hlt hge ⊢
    obtain ⟨i, hi, hji, hik⟩ := exists_half (hdecomp.trans hk)
    have hj' : 2 ^ 52 ≤ j ∧ j < 2 ^ 53 := by omega
    have hi' : i < 2 ^ 53 := by omega
    have hk' : ¬ n < 2 ^ 62 := by omega
    rw [toDouble_of_half hj'.1 hj'.2, ← Nat.cast_add, hi, toDouble_of_half (hj'.1.trans hji) hi',
      Int.floor_natCast, Nat.cast_inj, or_iff_right hk', or_iff_left hodd, hk]
    split <;> omega

/-! ### Splitting -/

theorem tmod_natCast (n : ℕ) : (n : ℤ).tmod 1000000000 = (n % 1000000000 : ℕ) := rfl

/-- What is put together in doubles has 53 significant bits. -/
theorem dvd_of_combine_eq {sec nsec : ℤ} (hsec : 0 ≤ sec) (hnsec : 0 ≤ nsec)
    (h : combine sec nsec = n) : 2 ^ (Nat.log 2 n - 52) ∣ n := by
  have hsec' : (0 : ℚ) ≤ sec := by exact_mod_cast hsec
  have hnsec' : (0 : ℚ) ≤ nsec := by exact_mod_cast hnsec
  have hnonneg : 0 ≤ toDouble (toDouble sec * 1000000000) + toDouble nsec :=
    add_nonneg (toDouble_nonneg (mul_nonneg (toDouble_nonneg hsec') (by norm_num)))
      (toDouble_nonneg hnsec')
  rw [combine, truncate_of_nonneg (toDouble_nonneg hnonneg)] at h
  exact dvd_of_floor_roundBits hnonneg (by decide) h

theorem SplitsLosslessly.bits (h : SplitsLosslessly n) : 2 ^ (Nat.log 2 n - 52) ∣ n := by
  have hts : combine (toSec n) ((n : ℤ).tmod 1000000000) = n := h.ts_toTs
  rw [h.toSec_eq] at hts
  exact dvd_of_combine_eq (Int.natCast_nonneg _) h.tvNsec_nonneg hts

/-- A time is split without loss iff doubles hold it, and it is not too near to the next second,
millisecond and microsecond. -/
theorem splitsLosslessly_iff (n : ℕ) (hn : n < 2 ^ 63) : SplitsLosslessly n ↔ Splittable n := by
  have hquot : quotient n 1000000000 = toSec n := rfl
  constructor
  · intro h
    have hsec : toSec n = (n / 1000000000 : ℕ) := h.toSec_eq
    have hts : combine (n / 1000000000 : ℕ) (n % 1000000000 : ℕ) = n := by
      have hts := h.ts_toTs
      rwa [ts, toTs, hquot, hsec, tmod_natCast] at hts
    have hbits := h.bits
    exact ⟨hbits, (toSec_eq_iff hbits hn).mp hsec, (toMilli_eq_iff hbits hn).mp h.toMilli_eq,
      (toMicro_eq_iff hbits hn).mp h.toMicro_eq, (combine_eq_self_iff hbits hn).mp hts⟩
  · intro h
    have hsec := (toSec_eq_iff h.bits hn).mpr h.sec
    have hts := (combine_eq_self_iff h.bits hn).mpr h.even
    have hsum : toSec n * 1000000000 + (n : ℤ).tmod 1000000000 = n := by
      rw [hsec, tmod_natCast]
      exact_mod_cast Nat.div_add_mod' n 1000000000
    have hcombine : combine (toSec n) ((n : ℤ).tmod 1000000000) = n := by
      rw [hsec, tmod_natCast]
      exact hts
    have hnonneg : 0 ≤ (n : ℤ).tmod 1000000000 := Int.natCast_nonneg _
    have hlt : (n : ℤ).tmod 1000000000 < 1000000000 := by
      rw [tmod_natCast]
      omega
    exact ⟨hnonneg, hlt, hsum, hcombine, hnonneg, hlt, hsum, hcombine, hsec,
      (toMilli_eq_iff h.bits hn).mpr h.milli, (toMicro_eq_iff h.bits hn).mpr h.micro⟩

theorem divisible_of_lt (h : n < 2 ^ 53) {unit : ℕ} (hunit : 0 < unit) (hlt : unit < 2 ^ 53) :
    Divisible n unit := by
  have hquot : n / unit < 2 ^ 53 := (Nat.div_le_self n unit).trans_lt h
  have hmod : n % unit < unit := Nat.mod_lt n hunit
  rw [Divisible, if_pos hquot]
  suffices hpow : unit < 2 ^ (53 - Nat.log 2 (n / unit)) from
    hpow.trans_le (Nat.le_mul_of_pos_left _ (Nat.sub_pos_of_lt hmod))
  obtain hzero | hpos := Nat.eq_zero_or_pos (n / unit)
  · rw [hzero, Nat.log_zero_right]
    exact hlt
  · have hlog : Nat.log 2 (n / unit) < 53 := Nat.log_lt_of_lt_pow hpos.ne' hquot
    refine lt_of_mul_lt_mul_right (a := 2 ^ Nat.log 2 (n / unit)) ?_ (Nat.zero_le _)
    rw [← pow_add, Nat.sub_add_cancel hlog.le]
    calc unit * 2 ^ Nat.log 2 (n / unit)
        ≤ unit * (n / unit) := Nat.mul_le_mul_left _ (Nat.pow_log_le_self 2 hpos.ne')
      _ ≤ n := Nat.mul_div_le n unit
      _ < 2 ^ 53 := h

/-- The times up to 104 days. -/
theorem splittable_of_lt (h : n < 2 ^ 53) : Splittable n where
  bits := by
    have hlog := Nat.log_lt_of_lt_pow' (b := 2) (by decide) h
    rw [Nat.sub_eq_zero_of_le (Nat.le_of_lt_succ hlog), pow_zero]
    exact one_dvd n
  sec := divisible_of_lt h (by decide) (by decide)
  milli := divisible_of_lt h (by decide) (by decide)
  micro := divisible_of_lt h (by decide) (by decide)
  even := .inl (h.trans (by decide))

theorem splitsLosslessly_350 : SplitsLosslessly 350 :=
  (splitsLosslessly_iff 350 (by decide)).mpr (splittable_of_lt (by decide))

/-- A time of 2023, one nanosecond before a second. -/
theorem not_splitsLosslessly_2023 : ¬ SplitsLosslessly 1699999999999999999 := by
  intro h
  have hlog : Nat.log 2 1699999999999999999 = 60 :=
    (Nat.log_eq_iff (.inl (by decide))).mpr ⟨by decide, by decide⟩
  have hbits := h.bits
  rw [hlog] at hbits
  revert hbits
  decide

end Sihd.Util.Time
