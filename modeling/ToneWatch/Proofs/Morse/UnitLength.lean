import Mathlib
import ToneWatch.Proofs.Morse.Reception
import ToneWatch.Proofs.Numeric.Rounding
import ToneWatch.Proofs.Settings

namespace ToneWatch

namespace MorseSettings

open Extended

variable {m : MorseSettings} {a : AnalysisSettings} {k u : Nat}

theorem double_fits {c : ℕ} (hc : c ≤ 2 ^ 53) {e : ℤ} (he : -1 ≤ e) :
    Precision.double.Fits (c * 2 ^ e) :=
  ⟨c, e, hc, le_trans (by decide) he, rfl⟩

theorem double_in_range {c : ℕ} (hc : c ≤ 2 ^ 53) {e : ℤ} (he : e < 64) :
    (c * 2 ^ e : ℚ) < 2 ^ Precision.double.top := by
  calc (c * 2 ^ e : ℚ) ≤ 2 ^ 53 * 2 ^ (63 : ℤ) := by
        gcongr
        · exact_mod_cast hc
        · exact one_le_two
        · omega
    _ = 2 ^ (116 : ℤ) := by norm_num
    _ < 2 ^ Precision.double.top := zpow_lt_zpow_right₀ one_lt_two (by decide)

theorem double_bits : 0 < Precision.double.bits ∧ Precision.double.finest ≤ 0 := by decide

theorem timeUnit_eq (hk : k < 64) (hn : a.frameSize.toNat = 2 ^ k) :
    m.timeUnit a =
      ((add .double (div .double (div .double
        (round .double ((a.sampleRate.toNat * m.dotDurationMs.toNat : ℕ) : ℚ)) (finite 1000))
        (finite (2 ^ (k : ℤ)))) (finite (1 / 2))).toInt 0 0xffffffffffffffff).toNat := by
  have hnat : ∀ n, n ≤ 2 ^ 53 → ofNat .double n = finite n := by
    intro n h
    have hfits := double_fits h (e := 0) (by omega)
    have hin := double_in_range h (e := 0) (by omega)
    rw [zpow_zero, mul_one] at hfits hin
    exact ofNat_of_fits (by decide) hfits hin
  have hsize : ofNat .double (2 ^ k) = finite (2 ^ (k : ℤ)) := by
    have hfits := double_fits (c := 1) (by omega) (e := k) (by omega)
    have hin := double_in_range (c := 1) (by omega) (e := k) (by omega)
    have hpow : ((1 : ℕ) * 2 ^ (k : ℤ) : ℚ) = (2 ^ k : ℕ) := by
      push_cast
      rw [one_mul, zpow_natCast]
    rw [hpow] at hfits hin
    rw [ofNat_of_fits (by decide) hfits hin, zpow_natCast]
    push_cast
    rfl
  have hhalf : mkRat 1 2 = (1 / 2 : ℚ) := by norm_num [Rat.mkRat_eq_div]
  have hrate := a.sampleRate.toNat_lt
  have hdot := m.dotDurationMs.toNat_lt
  unfold timeUnit
  simp only [hn, hsize, hhalf, hnat _ (show a.sampleRate.toNat ≤ 2 ^ 53 by omega),
    hnat _ (show m.dotDurationMs.toNat ≤ 2 ^ 53 by omega), hnat 1000 (by omega), Extended.mul]
  push_cast
  rfl

/-- A duration of no more than so many frames is no longer in the receiver's units. -/
theorem timeUnit_le (hk : k < 64) (hn : a.frameSize.toNat = 2 ^ k) (hu : u ≤ 500)
    (h : a.sampleRate.toNat * m.dotDurationMs.toNat ≤ 1000 * u * 2 ^ k) : m.timeUnit a ≤ u := by
  obtain ⟨hb, hf⟩ := double_bits
  have hthousand : ((1000 * u : ℕ) * 2 ^ (k : ℤ) : ℚ) / 1000 = u * 2 ^ (k : ℤ) := by
    push_cast
    ring
  have hsize : (u * 2 ^ (k : ℤ) : ℚ) / 2 ^ (k : ℤ) = u * 2 ^ (0 : ℤ) := by
    field_simp
  have hhalf : (u * 2 ^ (0 : ℤ) + 1 / 2 : ℚ) = (2 * u + 1 : ℕ) * 2 ^ (-1 : ℤ) := by
    push_cast
    ring
  have hproduct : (round .double ((a.sampleRate.toNat * m.dotDurationMs.toNat : ℕ) : ℚ)).AtMost
      ((1000 * u : ℕ) * 2 ^ (k : ℤ)) := by
    refine atMost_round hb hf (double_fits (by omega) (by omega))
      (double_in_range (by omega) (by omega)) (Nat.cast_nonneg _) ?_
    rw [zpow_natCast]
    exact_mod_cast h
  have hmilli := hproduct.div hb hf (d := 1000) (by norm_num)
    (by rw [hthousand]; exact double_fits (by omega) (by omega))
    (by rw [hthousand]; exact double_in_range (by omega) (by omega))
  rw [hthousand] at hmilli
  have hframes := hmilli.div hb hf (d := 2 ^ (k : ℤ)) (by positivity)
    (by rw [hsize]; exact double_fits (by omega) (by omega))
    (by rw [hsize]; exact double_in_range (by omega) (by omega))
  rw [hsize] at hframes
  have hsum := hframes.add hb hf (d := 1 / 2) (by norm_num)
    (by rw [hhalf]; exact double_fits (by omega) (by omega))
    (by rw [hhalf]; exact double_in_range (by omega) (by omega))
  have hlt := hsum.toInt_lt (n := u + 1) (by omega) (by push_cast; linarith) 0xffffffffffffffff
  rw [timeUnit_eq hk hn]
  omega

/-- A duration of so many frames and a half counts a frame more. -/
theorem lt_timeUnit (hk : k < 64) (hn : a.frameSize.toNat = 2 ^ k) (hu : u ≤ 500)
    (h : 500 * (2 * u + 1) * 2 ^ k ≤ a.sampleRate.toNat * m.dotDurationMs.toNat) :
    u < m.timeUnit a := by
  have hb := double_bits.1
  have hthousand : ((500 * (2 * u + 1) : ℕ) * 2 ^ (k : ℤ) : ℚ) / 1000 =
      (2 * u + 1 : ℕ) * 2 ^ ((k : ℤ) - 1) := by
    rw [zpow_sub₀ two_ne_zero]
    push_cast
    ring
  have hsize : ((2 * u + 1 : ℕ) * 2 ^ ((k : ℤ) - 1) : ℚ) / 2 ^ (k : ℤ) =
      (2 * u + 1 : ℕ) * 2 ^ (-1 : ℤ) := by
    rw [zpow_sub₀ two_ne_zero]
    field_simp
  have hhalf : ((2 * u + 1 : ℕ) * 2 ^ (-1 : ℤ) + 1 / 2 : ℚ) = (u + 1 : ℕ) * 2 ^ (0 : ℤ) := by
    push_cast
    ring
  have hproduct : (round .double ((a.sampleRate.toNat * m.dotDurationMs.toNat : ℕ) : ℚ)).AtLeast
      ((500 * (2 * u + 1) : ℕ) * 2 ^ (k : ℤ)) := by
    refine atLeast_round hb (double_fits (by omega) (by omega)) (by positivity) ?_
    rw [zpow_natCast]
    exact_mod_cast h
  have hmilli := hproduct.div hb (d := 1000) (by norm_num) (by positivity)
    (by rw [hthousand]; exact double_fits (by omega) (by omega))
  rw [hthousand] at hmilli
  have hframes := hmilli.div hb (d := 2 ^ (k : ℤ)) (by positivity) (by positivity)
    (by rw [hsize]; exact double_fits (by omega) (by omega))
  rw [hsize] at hframes
  have hsum := hframes.add hb (d := 1 / 2) (by positivity)
    (by rw [hhalf]; exact double_fits (by omega) (by omega))
  rw [hhalf, zpow_zero, mul_one] at hsum
  have hle := hsum.le_toInt 0xffffffffffffffff (by omega)
  rw [timeUnit_eq hk hn]
  omega

/-- The whole samples of a unit come to the frames that are counted, give or take about one. -/
theorem samples_bounds (hk : k < 64) (hn : a.frameSize.toNat = 2 ^ k) (h0 : 0 < m.timeUnit a)
    (hu : m.timeUnit a ≤ 500) :
    2 * (a.sampleRate.toNat * m.dotDurationMs.toNat / 1000) < (2 * m.timeUnit a + 1) * 2 ^ k ∧
      m.timeUnit a * 2 ^ k ≤ a.sampleRate.toNat * m.dotDurationMs.toNat / 1000 + 2 ^ k + 1 := by
  have hdiv := Nat.div_add_mod (a.sampleRate.toNat * m.dotDurationMs.toNat) 1000
  have hmod := Nat.mod_lt (a.sampleRate.toNat * m.dotDurationMs.toNat) (show 0 < 1000 by omega)
  constructor
  · by_contra h
    have hlong : 500 * (2 * m.timeUnit a + 1) * 2 ^ k ≤
        a.sampleRate.toNat * m.dotDurationMs.toNat := by
      rw [Nat.mul_assoc]
      omega
    exact lt_irrefl _ (lt_timeUnit hk hn hu hlong)
  · by_contra h
    obtain ⟨u, hprev⟩ : ∃ u, m.timeUnit a = u + 1 := ⟨m.timeUnit a - 1, by omega⟩
    rw [hprev, Nat.succ_mul] at h
    have hshort : a.sampleRate.toNat * m.dotDurationMs.toNat ≤ 1000 * u * 2 ^ k := by
      rw [Nat.mul_assoc]
      omega
    have := timeUnit_le hk hn (by omega) hshort
    omega

end MorseSettings

namespace Morse

set_option maxRecDepth 4000 in
theorem Timing.off_round : ∀ u < 501, 0 < u →
    let t : Timing := ⟨u, (truncate (Precision.single.round
      (u * ({} : MorseSettings).trueRate.toRat))).toNat⟩
    t.unit ≤ 5 * t.off ∧ 5 * t.off ≤ t.unit + 4 := by decide +kernel

namespace Receiver

variable {m : MorseSettings} {a : AnalysisSettings} {r : Receiver}

theorem analysis_of_create (hr : create m a = .ok r) : a.validate = .ok () := by
  unfold create at hr
  cases ha : a.validate with
  | error e =>
    rw [ha] at hr
    cases hr
  | ok u => rfl

/-- With the default rate, a fifth of a unit or little more is the threshold of silence. -/
theorem off_fifth (hr : create m a = .ok r) (hm : m.trueRate = ({} : MorseSettings).trueRate) :
    r.timer.timing.unit ≤ 5 * r.timer.timing.off ∧
      5 * r.timer.timing.off ≤ r.timer.timing.unit + 4 := by
  obtain ⟨h0, hu⟩ := unit_pos hr
  obtain ⟨-, rfl⟩ := create_ok hr
  have h := Timing.off_round (m.timeUnit a) (Nat.lt_succ_of_le hu) h0
  rwa [← hm] at h

theorem off_bounds (hr : create m a = .ok r) (hm : m.trueRate = ({} : MorseSettings).trueRate) :
    1 ≤ r.timer.timing.off ∧ 5 * r.timer.timing.off ≤ r.timer.timing.unit + 4 := by
  have h0 := (unit_pos hr).1
  have h := off_fifth hr hm
  omega

theorem frame_bounds (hr : create m a = .ok r) :
    let n := a.frameSize.toNat
    let s := a.sampleRate.toNat * m.dotDurationMs.toNat / 1000
    n % 2 = 0 ∧ 4 ≤ n ∧ 2 * s < (2 * r.timer.timing.unit + 1) * n ∧
      r.timer.timing.unit * n ≤ s + n + 1 := by
  obtain ⟨k, hk2, hk, hn⟩ := AnalysisSettings.frameSize_of_validate (analysis_of_create hr)
  obtain ⟨h0, hu⟩ := unit_pos hr
  obtain ⟨-, rfl⟩ := create_ok hr
  obtain ⟨hlong, hshort⟩ := MorseSettings.samples_bounds hk hn h0 hu
  obtain ⟨j, rfl⟩ : ∃ j, k = j + 2 := ⟨k - 2, by omega⟩
  have hpow : 2 ^ (j + 2) = 2 ^ j * 4 := Nat.pow_add 2 j 2
  have hpos := Nat.two_pow_pos j
  simp only [hn]
  exact ⟨by omega, by omega, hlong, hshort⟩

end Receiver

end Morse

end ToneWatch
