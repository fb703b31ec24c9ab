import Mathlib
import ToneWatch.Settings.Analysis

namespace ToneWatch.AnalysisSettings

variable {s : AnalysisSettings}

theorem validate_eq_ok_iff : s.validate = .ok () ↔
    0 < s.sampleRate.toNat ∧
      (4 ≤ s.frameSize.toNat ∧ isPowerOfTwo s.frameSize.toNat = true) ∧
      s.divisor ≠ 0 ∧
      (s.minFrequency.toNat < s.maxFrequency.toNat ∧
        s.maxFrequency.toNat ≤ s.sampleRate.toNat / 2) ∧
      0 < s.pendingCapacity.toNat := by
  have hrate : s.sampleRate = 0 ↔ ¬ 0 < s.sampleRate.toNat := by
    rw [← UInt32.toNat_inj]
    simp
  have hsize : (s.frameSize.toNat < 4 || !isPowerOfTwo s.frameSize.toNat) = true ↔
      ¬ (4 ≤ s.frameSize.toNat ∧ isPowerOfTwo s.frameSize.toNat = true) := by
    rw [Bool.or_eq_true, decide_eq_true_eq, Bool.not_eq_true', not_and_or, not_le, Bool.not_eq_true]
  have hband : (s.maxFrequency ≤ s.minFrequency ||
        s.sampleRate.toNat / 2 < s.maxFrequency.toNat) = true ↔
      ¬ (s.minFrequency.toNat < s.maxFrequency.toNat ∧
        s.maxFrequency.toNat ≤ s.sampleRate.toNat / 2) := by
    rw [Bool.or_eq_true, decide_eq_true_eq, decide_eq_true_eq, not_and_or, not_lt, not_le,
      UInt32.le_iff_toNat_le]
  have hcapacity : s.pendingCapacity = 0 ↔ ¬ 0 < s.pendingCapacity.toNat := by
    rw [← UInt64.toNat_inj]
    simp
  simp only [validate, hrate, hsize, hband, hcapacity]
  split_ifs <;> simp_all

/-- Of settings that are accepted at another rate, only the band can be refused at their own. -/
theorem validate_of_rate {rate : UInt32} (h : { s with sampleRate := rate }.validate = .ok ()) :
    s.validate =
      if s.maxFrequency.toNat ≤ s.sampleRate.toNat / 2 then .ok ()
      else .error (if s.sampleRate = 0 then .sampleRate else .band s.minFrequency s.maxFrequency) := by
  obtain ⟨-, ⟨hlarge, hpower⟩, hdivisor, ⟨hband, -⟩, hcapacity⟩ := validate_eq_ok_iff.mp h
  split_ifs with hnyquist hzero
  · have hlow : s.minFrequency.toNat < s.maxFrequency.toNat := hband
    exact validate_eq_ok_iff.mpr ⟨by omega, ⟨hlarge, hpower⟩, hdivisor, ⟨hband, hnyquist⟩, hcapacity⟩
  · rw [validate, if_pos hzero]
  · have hsize : ¬ (s.frameSize.toNat < 4 || !isPowerOfTwo s.frameSize.toNat) = true := by
      simpa using ⟨hlarge, hpower⟩
    have habove : (s.maxFrequency ≤ s.minFrequency ||
        s.sampleRate.toNat / 2 < s.maxFrequency.toNat) = true := by
      simpa using .inr (Nat.lt_of_not_le hnyquist)
    rw [validate, if_neg hzero, if_neg hsize, if_neg hdivisor, if_pos habove]

theorem pos_of_validate (h : s.validate = .ok ()) :
    0 < s.frameSize.toNat ∧ 0 < s.pendingCapacity.toNat := by
  obtain ⟨-, ⟨hsize, -⟩, -, -, hcapacity⟩ := validate_eq_ok_iff.mp h
  exact ⟨by omega, hcapacity⟩

theorem frameSize_of_validate (h : s.validate = .ok ()) :
    ∃ k, 2 ≤ k ∧ k < 64 ∧ s.frameSize.toNat = 2 ^ k := by
  obtain ⟨-, ⟨hlow, hpow⟩, -⟩ := validate_eq_ok_iff.mp h
  have hpow : 1 <<< s.frameSize.toNat.log2 = s.frameSize.toNat := by simpa [isPowerOfTwo] using hpow
  rw [Nat.one_shiftLeft] at hpow
  have hlt := s.frameSize.toNat_lt
  refine ⟨_, ?_, ?_, hpow.symm⟩
  · by_contra hk
    have := Nat.pow_le_pow_right (n := 2) (by omega) (show s.frameSize.toNat.log2 ≤ 1 by omega)
    omega
  · rw [← hpow] at hlt
    exact (Nat.pow_lt_pow_iff_right (by omega)).mp hlt

end ToneWatch.AnalysisSettings
