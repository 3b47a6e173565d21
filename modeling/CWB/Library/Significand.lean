import Mathlib.Tactic
import Mathlib.Data.Int.Log
import Mathlib.Algebra.Order.Round

/-! Numbers with a significand of `p` bits, without bounds on the exponent: rounding to the nearest,
upwards from the middle. -/

namespace Significand

/-- The distance of the numbers next to `x`. -/
def ulp (p : ℕ) (x : ℚ) : ℚ := 2 ^ (Int.log 2 x + 1 - p)

def nearest (p : ℕ) (x : ℚ) : ℚ := if x ≤ 0 then 0 else round (x / ulp p x) * ulp p x

theorem ulp_pos (p : ℕ) (x : ℚ) : 0 < ulp p x := by
  unfold ulp
  positivity

theorem round_mono {x y : ℚ} (h : x ≤ y) : round x ≤ round y := by
  rw [round_eq, round_eq]
  exact Int.floor_mono (by linarith)

/-- The next power of two is `2 ^ p` steps away from zero. -/
theorem two_pow_mul_ulp (p : ℕ) (x : ℚ) : 2 ^ p * ulp p x = 2 ^ (Int.log 2 x + 1) := by
  rw [ulp, ← zpow_natCast, ← zpow_add₀ two_ne_zero]
  congr 1
  omega

theorem nearest_nonneg (p : ℕ) (x : ℚ) : 0 ≤ nearest p x := by
  unfold nearest
  split_ifs with h
  · exact le_rfl
  · have hround : (0 : ℤ) ≤ round (x / ulp p x) := by
      rw [← round_zero (α := ℚ)]
      exact round_mono (div_nonneg (not_le.mp h).le (ulp_pos p x).le)
    have := ulp_pos p x
    positivity

theorem nearest_le {p : ℕ} {x : ℚ} (h : 0 < x) : nearest p x ≤ 2 ^ (Int.log 2 x + 1) := by
  have hx : x / ulp p x ≤ ((2 ^ p : ℤ) : ℚ) := by
    rw [div_le_iff₀ (ulp_pos p x)]
    push_cast
    rw [two_pow_mul_ulp]
    exact_mod_cast (Int.lt_zpow_succ_log_self (R := ℚ) (b := 2) one_lt_two x).le
  have hround : round (x / ulp p x) ≤ 2 ^ p := by
    rw [← round_intCast (α := ℚ) (2 ^ p)]
    exact round_mono hx
  rw [nearest, if_neg (not_le.mpr h), ← two_pow_mul_ulp p]
  exact mul_le_mul_of_nonneg_right (by exact_mod_cast hround) (ulp_pos p x).le

theorem le_nearest {p : ℕ} (hp : 0 < p) {x : ℚ} (h : 0 < x) : 2 ^ Int.log 2 x ≤ nearest p x := by
  have hpow : (2 : ℚ) ^ Int.log 2 x = ((2 ^ (p - 1) : ℤ) : ℚ) * ulp p x := by
    push_cast
    rw [ulp, ← zpow_natCast, ← zpow_add₀ two_ne_zero]
    congr 1
    omega
  have hx : ((2 ^ (p - 1) : ℤ) : ℚ) ≤ x / ulp p x := by
    rw [le_div_iff₀ (ulp_pos p x), ← hpow]
    exact_mod_cast Int.zpow_log_le_self (R := ℚ) one_lt_two h
  have hround : 2 ^ (p - 1) ≤ round (x / ulp p x) := by
    rw [← round_intCast (α := ℚ) (2 ^ (p - 1))]
    exact round_mono hx
  rw [nearest, if_neg (not_le.mpr h), hpow]
  exact mul_le_mul_of_nonneg_right (by exact_mod_cast hround) (ulp_pos p x).le

theorem nearest_mono {p : ℕ} (hp : 0 < p) {x y : ℚ} (h : x ≤ y) : nearest p x ≤ nearest p y := by
  by_cases hx : x ≤ 0
  · rw [nearest, if_pos hx]
    exact nearest_nonneg p y
  · have hx : 0 < x := not_le.mp hx
    have hy : 0 < y := hx.trans_le h
    obtain hlt | heq := (Int.log_mono_right (b := 2) hx h).lt_or_eq
    · calc nearest p x
          ≤ 2 ^ (Int.log 2 x + 1) := nearest_le hx
        _ ≤ 2 ^ Int.log 2 y := zpow_le_zpow_right₀ one_le_two hlt
        _ ≤ nearest p y := le_nearest hp hy
    · have hulp : ulp p x = ulp p y := by rw [ulp, ulp, heq]
      rw [nearest, nearest, if_neg (not_le.mpr hx), if_neg (not_le.mpr hy), hulp]
      refine mul_le_mul_of_nonneg_right ?_ (ulp_pos p y).le
      exact_mod_cast round_mono (div_le_div_of_nonneg_right h (ulp_pos p y).le)

/-- What has such a significand is not rounded. -/
theorem nearest_exact {p m : ℕ} (hm : m < 2 ^ p) (e : ℕ) : nearest p (m / 2 ^ e) = m / 2 ^ e := by
  obtain rfl | hpos := Nat.eq_zero_or_pos m
  · simp [nearest]
  · have hx : (0 : ℚ) < m / 2 ^ e := by positivity
    have hlt : (m / 2 ^ e : ℚ) < ((2 : ℕ) : ℚ) ^ ((p : ℤ) - e) := by
      rw [Nat.cast_ofNat, zpow_sub₀ two_ne_zero, zpow_natCast, zpow_natCast]
      exact div_lt_div_of_pos_right (by exact_mod_cast hm) (by positivity)
    have hlog : Int.log 2 (m / 2 ^ e : ℚ) < (p : ℤ) - e := (Int.lt_zpow_iff_log_lt one_lt_two hx).mp hlt
    obtain ⟨k, hk⟩ := Int.eq_ofNat_of_zero_le (show 0 ≤ (p : ℤ) - e - (Int.log 2 (m / 2 ^ e : ℚ) + 1) by omega)
    have hdiv : (m / 2 ^ e : ℚ) = ((m * 2 ^ k : ℤ) : ℚ) * ulp p (m / 2 ^ e) := by
      rw [ulp]
      generalize Int.log 2 (m / 2 ^ e : ℚ) = log at hk
      push_cast
      rw [div_eq_mul_inv, mul_assoc, ← zpow_natCast 2 k, ← zpow_natCast 2 e, ← zpow_neg, ← zpow_add₀ two_ne_zero]
      congr 2
      omega
    have hquot : (m / 2 ^ e : ℚ) / ulp p (m / 2 ^ e) = ((m * 2 ^ k : ℤ) : ℚ) := by
      rw [div_eq_iff (ulp_pos p _).ne']
      exact hdiv
    rw [nearest, if_neg (not_le.mpr hx), hquot, round_intCast]
    exact hdiv.symm

end Significand
