import Mathlib
import ToneWatch.Numeric.Reading
import ToneWatch.Proofs.Numeric.Shortest

namespace ToneWatch

namespace Precision

/-- A number that is not tiny is changed by one part in `2 ^ 53` at most. -/
theorem double_near {q : ℚ} (hq : 2 ^ (-1022 : ℤ) ≤ q) : |double.round q - q| ≤ q * 2 ^ (-53 : ℤ) :=
  abs_round_sub_le_mul hq

theorem double_fits {v : ℚ} (m : ℕ) (e : ℤ) (hm : m ≤ 2 ^ 53) (he : -1074 ≤ e) (hv : v = m * 2 ^ e) :
    double.round v = v := by
  have hfits : double.Fits v := ⟨m, e, hm, he, hv⟩
  refine hfits.round_eq_self (by decide) ?_
  rw [hv]
  positivity

end Precision

namespace Scaled

open Precision

theorem power_near (n : ℕ) : |power n - 10 ^ n| ≤ 10 ^ n * 2 ^ (-53 : ℤ) := by
  have hone : (2 : ℚ) ^ (-1022 : ℤ) ≤ (10 ^ n : ℕ) := by
    calc (2 : ℚ) ^ (-1022 : ℤ) ≤ 1 := zpow_le_one_of_nonpos₀ one_le_two (by norm_num)
      _ ≤ (10 ^ n : ℕ) := by exact_mod_cast Nat.one_le_pow _ _ (by norm_num)
  have hnear := double_near hone
  push_cast at hnear
  exact_mod_cast hnear

theorem power_eq {n : ℕ} (hn : n ≤ 22) : power n = 10 ^ n := by
  have hfive : 5 ^ n ≤ 2 ^ 53 := (Nat.pow_le_pow_right (by norm_num) hn).trans (by norm_num)
  have hten : ((10 ^ n : ℕ) : ℚ) = (5 ^ n : ℕ) * 2 ^ (n : ℤ) := by
    rw [zpow_natCast]
    push_cast
    rw [← mul_pow]
    norm_num
  have hround := double_fits _ _ hfive (by omega) hten
  exact_mod_cast hround

/-- A significand in double precision, scaled in one step. -/
def scaled (m : ℕ) (e : ℤ) : ℚ :=
  if e < 0 then double.round (m / power e.natAbs) else double.round (m * power e.natAbs)

/-- How far a scaled number may be off, as a part of it. -/
def tolerance : ℚ := 2 ^ (-52 : ℤ) + 2 ^ (-72 : ℤ)

theorem round_mul_near {m t x : ℚ} (hm : 0 < m) (ht : 0 < t) (hx : |x - t| ≤ t * 2 ^ (-53 : ℤ))
    (hlow : 2 ^ (-1022 : ℤ) ≤ m * x) : |double.round (m * x) - m * t| ≤ tolerance * (m * t) := by
  have hround := double_near hlow
  have hfactor : |m * x - m * t| ≤ m * t * 2 ^ (-53 : ℤ) := by
    rw [← mul_sub, abs_mul, abs_of_pos hm, mul_assoc]
    gcongr
  have htop : m * x ≤ m * t + m * t * 2 ^ (-53 : ℤ) := by linarith [(abs_le.mp hfactor).2]
  have hpos : 0 < m * t := by positivity
  calc |double.round (m * x) - m * t|
      ≤ |double.round (m * x) - m * x| + |m * x - m * t| := abs_sub_le _ _ _
    _ ≤ m * x * 2 ^ (-53 : ℤ) + m * t * 2 ^ (-53 : ℤ) := add_le_add hround hfactor
    _ ≤ (m * t + m * t * 2 ^ (-53 : ℤ)) * 2 ^ (-53 : ℤ) + m * t * 2 ^ (-53 : ℤ) := by gcongr
    _ ≤ tolerance * (m * t) := by
      rw [tolerance]
      norm_num
      linarith

theorem round_div_near {m t x : ℚ} (hm : 0 < m) (ht : 0 < t) (hx : |x - t| ≤ t * 2 ^ (-53 : ℤ))
    (hlow : 2 ^ (-1022 : ℤ) ≤ m / x) : |double.round (m / x) - m / t| ≤ tolerance * (m / t) := by
  have hround := double_near hlow
  obtain ⟨hx1, hx2⟩ := abs_le.mp hx
  have hxpos : t * (1 - 2 ^ (-53 : ℤ)) ≤ x := by linarith
  have hx0 : 0 < x := lt_of_lt_of_le (mul_pos ht (by norm_num)) hxpos
  have hfactor : |m / x - m / t| ≤ m / x * 2 ^ (-53 : ℤ) := by
    have heq : m / x - m / t = m / x * ((t - x) / t) := by
      field_simp
    rw [heq, abs_mul, abs_of_pos (by positivity : 0 < m / x), abs_div, abs_of_pos ht, abs_sub_comm]
    gcongr
    rw [div_le_iff₀ ht]
    linarith
  have htop : m / x * (1 - 2 ^ (-53 : ℤ)) ≤ m / t := by linarith [(abs_le.mp hfactor).2]
  calc |double.round (m / x) - m / t|
      ≤ |double.round (m / x) - m / x| + |m / x - m / t| := abs_sub_le _ _ _
    _ ≤ m / x * 2 ^ (-53 : ℤ) + m / x * 2 ^ (-53 : ℤ) := add_le_add hround hfactor
    _ ≤ tolerance * (m / x * (1 - 2 ^ (-53 : ℤ))) := by
      have hpos : 0 < m / x := by positivity
      rw [tolerance]
      norm_num
      linarith
    _ ≤ tolerance * (m / t) := by
      have htol : 0 ≤ tolerance := by
        rw [tolerance]
        positivity
      gcongr

theorem power_bounds (n : ℕ) : 10 ^ n / 2 ≤ power n ∧ power n ≤ 2 * 10 ^ n := by
  have hpos : (0 : ℚ) < 10 ^ n := by positivity
  have hsmall : (10 : ℚ) ^ n * 2 ^ (-53 : ℤ) ≤ 10 ^ n / 2 := by
    rw [div_eq_mul_inv]
    gcongr
    norm_num
  obtain ⟨hlow, hhigh⟩ := abs_le.mp ((power_near n).trans hsmall)
  constructor <;> linarith

theorem tenPow_neg {e : ℤ} (he : e < 0) : (10 : ℚ) ^ e = (10 ^ e.natAbs)⁻¹ := by
  rw [← zpow_natCast, ← zpow_neg]
  congr 1
  omega

theorem tenPow_nonneg {e : ℤ} (he : ¬ e < 0) : (10 : ℚ) ^ e = 10 ^ e.natAbs := by
  rw [← zpow_natCast]
  congr 1
  omega

theorem scaled_near {m : ℕ} {e : ℤ} (hm : 0 < m) (he : -60 ≤ e) :
    |scaled m e - m * 10 ^ e| ≤ tolerance * (m * 10 ^ e) := by
  have hone : (1 : ℚ) ≤ m := by exact_mod_cast hm
  have hpos : (0 : ℚ) < 10 ^ e.natAbs := by positivity
  obtain ⟨hlow, hhigh⟩ := power_bounds e.natAbs
  unfold scaled
  split_ifs with hneg
  · have hn : (10 : ℚ) ^ e.natAbs ≤ 10 ^ 60 := pow_le_pow_right₀ (by norm_num) (by omega)
    have hpow : 0 < power e.natAbs := by linarith
    rw [tenPow_neg hneg, ← div_eq_mul_inv]
    refine round_div_near (by positivity) hpos (power_near _) ?_
    calc (2 : ℚ) ^ (-1022 : ℤ) ≤ 2 ^ (-201 : ℤ) := zpow_le_zpow_right₀ one_le_two (by norm_num)
      _ ≤ 1 / (2 * 10 ^ 60) := by norm_num
      _ ≤ m / power e.natAbs := by
        gcongr
        linarith
  · have hten : (1 : ℚ) ≤ 10 ^ e.natAbs := one_le_pow₀ (by norm_num)
    rw [tenPow_nonneg hneg]
    refine round_mul_near (by positivity) hpos (power_near _) ?_
    calc (2 : ℚ) ^ (-1022 : ℤ) ≤ 2 ^ (-1 : ℤ) := zpow_le_zpow_right₀ one_le_two (by norm_num)
      _ ≤ 1 * power e.natAbs := by
        norm_num
        linarith
      _ ≤ m * power e.natAbs := by
        gcongr
        linarith

theorem scaled_bounds {m : ℕ} {e : ℤ} (hm : 0 < m) (he : -60 ≤ e) :
    0 ≤ scaled m e ∧ scaled m e ≤ 2 * (m * 10 ^ e) := by
  have hpos : (0 : ℚ) < m * 10 ^ e := by positivity
  have htol : tolerance * (m * 10 ^ e) ≤ 1 * (m * 10 ^ e) := by
    gcongr
    rw [tolerance]
    norm_num
  obtain ⟨hlow, hhigh⟩ := abs_le.mp ((scaled_near hm he).trans htol)
  constructor <;> linarith

theorem scaled_eq {m j : ℕ} {e b : ℤ} (he : e.natAbs ≤ 22) (hj : j ≤ 2 ^ 53) (hb : -1074 ≤ b)
    (h : (m : ℚ) * 10 ^ e = j * 2 ^ b) : scaled m e = m * 10 ^ e := by
  unfold scaled
  split_ifs with hneg
  · rw [power_eq he, div_eq_mul_inv, ← tenPow_neg hneg]
    exact double_fits j b hj hb h
  · rw [power_eq he, ← tenPow_nonneg hneg]
    exact double_fits j b hj hb h

/-- A number in double precision scaled by a power of ten, if the result is in range. -/
def scale (q : ℚ) (e : ℤ) : Option ℚ :=
  if e < 0 then some (shrink q e.natAbs) else grow? q e.natAbs

theorem scale_eq {m : ℕ} {e : ℤ} (h0 : 0 < m) (hm : m ≤ 10 ^ 9) (hlow : -60 ≤ e) (hhigh : e ≤ 60) :
    scale m e = some (scaled m e) := by
  have hstride : e.natAbs ≤ stride := by
    rw [stride]
    omega
  obtain ⟨hnonneg, hle⟩ := scaled_bounds h0 hlow
  have hholds : double.holds (scaled m e) = true := by
    have habs : (scaled m e).abs = scaled m e := if_pos hnonneg
    rw [holds, habs, twoPow_eq]
    refine decide_eq_true (hle.trans_lt ?_)
    have hm' : (m : ℚ) ≤ 10 ^ 9 := by exact_mod_cast hm
    calc (2 : ℚ) * (m * 10 ^ e) ≤ 2 * (10 ^ 9 * 10 ^ (60 : ℤ)) := by
          gcongr
          norm_num
      _ < 2 ^ (231 : ℤ) := by norm_num
      _ ≤ 2 ^ double.top := zpow_le_zpow_right₀ one_le_two (by decide)
  unfold scale
  split_ifs with hneg
  · rw [shrink, if_pos hstride, scaled, if_pos hneg]
  · rw [scaled, if_neg hneg] at hholds ⊢
    rw [grow?, if_pos hstride, if_pos hholds]

end Scaled

end ToneWatch
