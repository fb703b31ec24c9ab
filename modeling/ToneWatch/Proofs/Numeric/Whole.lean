import Mathlib
import ToneWatch.Proofs.Numeric.Rounding

namespace ToneWatch

namespace Precision

variable {p : Precision} {v : ℚ}

theorem abs_eq (q : ℚ) : q.abs = |q| := by
  rw [Rat.abs]
  split_ifs with h
  · exact (abs_of_nonneg h).symm
  · exact (abs_of_neg (not_le.mp h)).symm

theorem unit_abs (p : Precision) (q : ℚ) : p.unit |q| = p.unit q := by
  rw [unit, unit, abs_eq, abs_eq, abs_abs]
  simp only [abs_eq_zero]

theorem Fits.round_eq_of_abs (hb : 0 < p.bits) (hv : p.Fits |v|) : p.round v = v := by
  obtain rfl | h0 := eq_or_ne v 0
  · exact round_zero
  have hwhole : ∃ k : ℤ, |v| = k * 2 ^ p.unit v := by
    rw [← unit_abs]
    obtain hk | ⟨hle, hpow⟩ := hv.cases hb (abs_pos.mpr h0)
    · exact hk
    · exact ⟨_, (le_antisymm hle (binaryExponent_spec (abs_pos.mpr h0)).1).trans hpow⟩
  obtain ⟨k, hk⟩ := hwhole
  obtain ⟨j, hj⟩ : ∃ j : ℤ, v = j * 2 ^ p.unit v := by
    obtain habs | habs := abs_choice v
    · exact ⟨k, by rw [← hk, habs]⟩
    · exact ⟨-k, by rw [Int.cast_neg, neg_mul, ← hk, habs, neg_neg]⟩
  have hle := round_le_mul hj.le
  have hge := mul_le_round hj.ge
  rw [← hj] at hle hge
  exact le_antisymm hle hge

theorem round_intCast (hb : 0 < p.bits) (hf : p.finest ≤ 0) {n : ℤ} (hn : n.natAbs ≤ 2 ^ p.bits) :
    p.round n = n := by
  apply Fits.round_eq_of_abs hb
  rw [← Int.cast_abs, Int.abs_eq_natAbs, Int.cast_natCast]
  exact Fits.natCast hf hn

end Precision

theorem truncate_intCast (n : ℤ) : truncate (n : ℚ) = n := by
  rw [truncate]
  split_ifs
  · exact Rat.ceil_intCast n
  · exact Rat.floor_intCast n

namespace Extended

theorem round_single_intCast {n : ℤ} (hn : n.natAbs ≤ 2 ^ 24) : round .single n = finite n := by
  have hround : Precision.single.round n = n := Precision.round_intCast (by decide) (by decide) hn
  have hle : |(n : ℚ)| ≤ 2 ^ 24 := by
    rw [← Int.cast_abs, Int.abs_eq_natAbs, Int.cast_natCast]
    exact_mod_cast hn
  have hholds : Precision.single.holds n = true := by
    rw [Precision.holds, Precision.abs_eq, twoPow_eq]
    exact decide_eq_true (hle.trans_lt (by norm_num [Precision.single]))
  unfold round
  simp only [hround]
  rw [if_pos hholds]

theorem add_single_intCast {m n : ℤ} (h : (m + n).natAbs ≤ 2 ^ 24) :
    add .single (finite m) (finite n) = finite (m + n : ℤ) := by
  rw [add, ← Int.cast_add]
  exact round_single_intCast h

theorem toInt_intCast {lo hi n : ℤ} (hlo : lo ≤ n) (hhi : n ≤ hi) : (finite n).toInt lo hi = n := by
  rw [toInt, truncate_intCast, min_eq_right hhi, max_eq_right hlo]

end Extended

end ToneWatch
