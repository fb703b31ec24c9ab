import Mathlib
import ToneWatch.Proofs.Numeric.Digits
import ToneWatch.Proofs.Numeric.Magnitude

namespace ToneWatch

theorem tenPow_eq (k : ℤ) : tenPow k = (10 : ℚ) ^ k := by
  cases k with
  | ofNat n => simp [tenPow]
  | negSucc n =>
    rw [tenPow, zpow_negSucc, Rat.mkRat_eq_div]
    simp

theorem length_ofNat_bounds {n : ℕ} (hn : n ≠ 0) :
    (10 : ℚ) ^ ((Digit.ofNat n).length - 1 : ℤ) ≤ n ∧
      (n : ℚ) < 10 ^ ((Digit.ofNat n).length - 1 + 1 : ℤ) := by
  have hpos := Digit.length_ofNat_pos n
  have hexp : ((Digit.ofNat n).length - 1 : ℤ) = ((Digit.ofNat n).length - 1 : ℕ) := by omega
  constructor
  · rw [hexp, zpow_natCast]
    exact_mod_cast Digit.pow_length_ofNat_le hn
  · rw [sub_add_cancel, zpow_natCast]
    exact_mod_cast Digit.lt_pow_length_ofNat n

theorem decimalExponent_spec {q : ℚ} (hq : 0 < q) :
    (10 : ℚ) ^ decimalExponent q ≤ q ∧ q < (10 : ℚ) ^ (decimalExponent q + 1) := by
  have hnum : q.num.natAbs ≠ 0 := Int.natAbs_ne_zero.mpr (Rat.num_pos.mpr hq).ne'
  obtain ⟨hlower, hupper⟩ :=
    between_powers (by norm_num) hq (length_ofNat_bounds hnum) (length_ofNat_bounds q.den_ne_zero)
  rw [sub_sub_sub_cancel_right] at hlower hupper
  unfold decimalExponent
  simp only [tenPow_eq]
  split_ifs with h
  · rw [sub_add_cancel]
    exact ⟨hlower, h⟩
  · exact ⟨not_lt.mp h, hupper⟩

theorem floor_toNat_spec {q : ℚ} (h : 0 ≤ q) : (q.floor.toNat : ℚ) ≤ q ∧ q < q.floor.toNat + 1 := by
  have hfloor : ((q.floor.toNat : ℕ) : ℤ) = q.floor :=
    Int.toNat_of_nonneg (Rat.le_floor_iff.mpr (by exact_mod_cast h))
  have hcast : (q.floor.toNat : ℚ) = q.floor := by exact_mod_cast hfloor
  rw [hcast]
  exact ⟨Rat.floor_le q, by exact_mod_cast Rat.lt_floor_add_one q⟩

namespace Decimal

theorem toRat_eq (d : Decimal) : d.toRat = d.significand * 10 ^ d.exponent := by
  rw [toRat, tenPow_eq]

/-- What makes a decimal the name of a magnitude. -/
structure Names (d : Decimal) (rank : ℕ) : Prop where
  reads : Shortest.readsBack rank d.toRat = true
  near : |d.toRat - Single.magnitude rank| ≤ 10 ^ d.exponent
  pos : 0 < d.significand
  le : d.significand ≤ 10 ^ 9

theorem Names.trim {d : Decimal} {rank : ℕ} (h : d.Names rank) : d.trim.Names rank := by
  fun_induction Decimal.trim d with
  | case1 d hzero ih =>
    apply ih
    have hrat : (⟨d.significand / 10, d.exponent + 1⟩ : Decimal).toRat = d.toRat := by
      have hten : (d.significand : ℚ) = 10 * (d.significand / 10 : ℕ) := by
        exact_mod_cast (by omega : d.significand = 10 * (d.significand / 10))
      rw [toRat_eq, toRat_eq, hten, zpow_add_one₀ (by norm_num)]
      ring
    have hpow : (10 : ℚ) ^ d.exponent ≤ 10 ^ (d.exponent + 1) :=
      zpow_le_zpow_right₀ (by norm_num) (by omega)
    have hle := h.le
    refine ⟨by rw [hrat]; exact h.reads, by rw [hrat]; exact h.near.trans hpow, ?_, ?_⟩
    · have hpos := h.pos
      simp only
      omega
    · simp only
      omega
  | case2 => exact h

end Decimal

namespace Shortest

/-- The decimal of so many digits next to a magnitude on the side of zero. -/
def below (rank digits : ℕ) : Decimal :=
  let v := Single.magnitude rank
  let e := decimalExponent v + 1 - digits
  ⟨(v / tenPow e).floor.toNat, e⟩

/-- The decimal next to a magnitude on the other side. -/
def above (rank digits : ℕ) : Decimal :=
  ⟨(below rank digits).significand + 1, (below rank digits).exponent⟩

theorem ofDigits?_cases {tie : Tie} {rank digits : ℕ} {o : Option Decimal}
    (h : ofDigits? tie rank digits = o) :
    o = none ∧ readsBack rank (below rank digits).toRat = false ∨
      ∃ d, o = some d ∧ readsBack rank d.toRat = true ∧
        (d = below rank digits ∨ d = above rank digits) := by
  unfold ofDigits? at h
  extract_lets v e k lo hi down up at h
  have hlo (hb : readsBack rank lo.toRat = true) (ho : some lo = o) :
      ∃ d, o = some d ∧ readsBack rank d.toRat = true ∧
        (d = below rank digits ∨ d = above rank digits) := ⟨lo, ho.symm, hb, .inl rfl⟩
  have hhi (ha : readsBack rank hi.toRat = true) (ho : some hi = o) :
      ∃ d, o = some d ∧ readsBack rank d.toRat = true ∧
        (d = below rank digits ∨ d = above rank digits) := ⟨hi, ho.symm, ha, .inr rfl⟩
  split at h
  case h_1 hb ha => exact .inl ⟨h.symm, hb⟩
  case h_2 hb ha => exact .inr (hlo hb h)
  case h_3 hb ha => exact .inr (hhi ha h)
  case h_4 hb ha =>
    right
    cases tie <;> split_ifs at h
    all_goals first | exact hlo hb h | exact hhi ha h

variable {r n : ℕ}

theorem below_spec (hr : 0 < Single.magnitude r) (hn : 0 < n) :
    0 < (below r n).significand ∧ (below r n).significand < 10 ^ n ∧
      (below r n).toRat ≤ Single.magnitude r ∧
      Single.magnitude r < (below r n).toRat + 10 ^ (below r n).exponent := by
  obtain ⟨hlow, hhigh⟩ := decimalExponent_spec hr
  have hsig : (below r n).significand =
      (Single.magnitude r / 10 ^ (below r n).exponent).floor.toNat := by
    rw [← tenPow_eq]
    rfl
  have hpow (k : ℕ) : (10 : ℚ) ^ (decimalExponent (Single.magnitude r) + 1 - n + k) =
      10 ^ k * 10 ^ (below r n).exponent := by
    rw [zpow_add₀ (by norm_num), zpow_natCast, mul_comm]
    rfl
  have hpos : (0 : ℚ) < 10 ^ (below r n).exponent := zpow_pos (by norm_num) _
  have hfirst : (10 ^ (n - 1) : ℕ) ≤ Single.magnitude r / 10 ^ (below r n).exponent := by
    have hexp : decimalExponent (Single.magnitude r) + 1 - n + (n - 1 : ℕ) =
        decimalExponent (Single.magnitude r) := by omega
    rw [le_div_iff₀ hpos, Nat.cast_pow, Nat.cast_ofNat, ← hpow, hexp]
    exact hlow
  have hlast : Single.magnitude r / 10 ^ (below r n).exponent < (10 ^ n : ℕ) := by
    rw [div_lt_iff₀ hpos, Nat.cast_pow, Nat.cast_ofNat, ← hpow, sub_add_cancel]
    exact hhigh
  obtain ⟨hge, hlt⟩ := floor_toNat_spec ((10 ^ (n - 1)).cast_nonneg.trans hfirst)
  rw [← hsig] at hge hlt
  have hone : 1 ≤ 10 ^ (n - 1) := Nat.one_le_pow _ _ (by norm_num)
  have hfirst' : (10 ^ (n - 1) : ℕ) < ((below r n).significand + 1 : ℚ) := hfirst.trans_lt hlt
  have hlast' : ((below r n).significand : ℚ) < (10 ^ n : ℕ) := hge.trans_lt hlast
  refine ⟨?_, by exact_mod_cast hlast', ?_, ?_⟩
  · have hle : 10 ^ (n - 1) < (below r n).significand + 1 := by exact_mod_cast hfirst'
    omega
  · rwa [Decimal.toRat_eq, ← le_div_iff₀ hpos]
  · rwa [Decimal.toRat_eq, ← add_one_mul, ← div_lt_iff₀ hpos]

/-- What is read back among the decimals next to a magnitude names it. -/
theorem names_of_ofDigits? {tie : Tie} {d : Decimal} (hr : 0 < Single.magnitude r) (hn : 0 < n)
    (h9 : n ≤ 9) (h : ofDigits? tie r n = some d) : d.Names r := by
  obtain ⟨hpos, hlt, hle, hgt⟩ := below_spec hr hn
  have hpow : 10 ^ n ≤ 10 ^ 9 := Nat.pow_le_pow_right (by norm_num) h9
  have hunit : (0 : ℚ) < 10 ^ (below r n).exponent := zpow_pos (by norm_num) _
  obtain ⟨hnone, -⟩ | ⟨d', hd', hreads, rfl | rfl⟩ := ofDigits?_cases h
  · cases hnone
  · obtain rfl : d = below r n := Option.some.inj hd'
    refine ⟨hreads, ?_, hpos, by omega⟩
    rw [abs_le]
    constructor <;> linarith
  · obtain rfl : d = above r n := Option.some.inj hd'
    have habove : (above r n).toRat = (below r n).toRat + 10 ^ (below r n).exponent := by
      rw [Decimal.toRat_eq, Decimal.toRat_eq, above]
      push_cast
      ring
    have hexp : (above r n).exponent = (below r n).exponent := rfl
    refine ⟨hreads, ?_, Nat.succ_pos _, (Nat.succ_le_of_lt hlt).trans hpow⟩
    rw [habove, hexp, abs_le]
    constructor <;> linarith

/-- With nine digits the steps of the decimals are fine enough. -/
theorem readsBack_below_nine (r : ℕ) : readsBack (r + 1) (below (r + 1) 9).toRat = true := by
  obtain ⟨-, -, hle, hgt⟩ := below_spec (Single.magnitude_succ_pos r) (by norm_num : 0 < 9)
  refine Single.readsBack_of_between ?_ (hle.trans_lt (Single.magnitude_lt_midpoint (r + 1)))
  have hstep : (2 : ℚ) ^ Single.step (r + 1) ≤ 2 * 2 ^ Single.step r := by
    rw [mul_comm, ← zpow_add_one₀ two_ne_zero]
    obtain ⟨-, hu⟩ | ⟨-, -, hu⟩ := Single.steps_succ_cases r <;>
      exact zpow_le_zpow_right₀ one_le_two (by omega)
  have hfine : 10 ^ 8 * (10 : ℚ) ^ (below (r + 1) 9).exponent < 2 ^ 24 * 2 ^ Single.step (r + 1) := by
    have hexp : decimalExponent (Single.magnitude (r + 1)) = 8 + (below (r + 1) 9).exponent := by
      rw [below]
      ring
    have hlt : (Single.steps (r + 1) : ℚ) < 2 ^ 24 := by exact_mod_cast Single.steps_lt (r + 1)
    have hunit : (0 : ℚ) < 2 ^ Single.step (r + 1) := zpow_pos two_pos _
    calc 10 ^ 8 * (10 : ℚ) ^ (below (r + 1) 9).exponent
        = 10 ^ decimalExponent (Single.magnitude (r + 1)) := by
          rw [hexp, zpow_add₀ (by norm_num)]
          norm_num
      _ ≤ Single.magnitude (r + 1) := (decimalExponent_spec (Single.magnitude_succ_pos r)).1
      _ < 2 ^ 24 * 2 ^ Single.step (r + 1) := by
          rw [Single.magnitude_eq]
          gcongr
  have hunit : (0 : ℚ) < 2 ^ Single.step r := zpow_pos two_pos _
  rw [Single.midpoint_eq_sub]
  linarith

theorem decimal_names (tie : Tie) (r : ℕ) : (decimal tie (r + 1)).Names (r + 1) := by
  have hsome : ((List.range 9).findSome? fun n => ofDigits? tie (r + 1) (n + 1)).isSome = true := by
    rw [List.findSome?_isSome_iff]
    refine ⟨8, by decide, ?_⟩
    obtain ⟨-, hreads⟩ | ⟨d, hd, -⟩ := ofDigits?_cases (rfl : ofDigits? tie (r + 1) 9 = _)
    · rw [readsBack_below_nine] at hreads
      cases hreads
    · rw [hd]
      rfl
  obtain ⟨d, hd⟩ := Option.isSome_iff_exists.mp hsome
  obtain ⟨n, hn, hdn⟩ := List.exists_of_findSome?_eq_some hd
  rw [decimal, if_neg (Nat.succ_ne_zero r), hd, Option.getD_some]
  exact (names_of_ofDigits? (Single.magnitude_succ_pos r) n.succ_pos
    (Nat.succ_le_of_lt (List.mem_range.mp hn)) hdn).trim

end Shortest

end ToneWatch
