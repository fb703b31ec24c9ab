import Mathlib
import ToneWatch.Spectrum.Analysis
import ToneWatch.Proofs.Settings
import ToneWatch.Proofs.Spectrum.Picking

namespace ToneWatch.Spectrum

/-- Laws of exact arithmetic that rounded arithmetic has, too, as long as no number is infinite. -/
class LawfulMeasure (α : Type) [Add α] [Sub α] [Mul α] [Div α] [Measure α] : Prop where
  zero_add (a : α) : Measure.ofNat 0 + a = a
  add_zero (a : α) : a + Measure.ofNat 0 = a
  sub_self (a : α) : a - a = Measure.ofNat 0
  mul_zero (a : α) : a * Measure.ofNat 0 = Measure.ofNat 0
  div_one (a : α) : a / Measure.ofNat 1 = a
  root_zero : Measure.root (Measure.ofNat 0 : α) = Measure.ofNat 0

noncomputable instance : Measure ℝ where
  ofNat := Nat.cast
  root := Real.sqrt

instance : LawfulMeasure ℝ where
  zero_add := by simp [Measure.ofNat]
  add_zero := by simp [Measure.ofNat]
  sub_self := by simp [Measure.ofNat]
  mul_zero := by simp [Measure.ofNat]
  div_one := by simp [Measure.ofNat]
  root_zero := by simp [Measure.ofNat, Measure.root]

section

variable {α : Type} [Add α] [Sub α] [Mul α] [Div α] [Measure α]

theorem mean_singleton [LawfulMeasure α] (m : α) : mean [m] = m := by
  have h : mean [m] = (Measure.ofNat 0 + m) / Measure.ofNat 1 := rfl
  rw [h, LawfulMeasure.zero_add, LawfulMeasure.div_one]

theorem spread_singleton [LawfulMeasure α] (m : α) : spread [m] = Measure.ofNat 0 := by
  rw [spread, mean_singleton, List.map_singleton, LawfulMeasure.sub_self,
    LawfulMeasure.mul_zero, mean_singleton, LawfulMeasure.root_zero]

variable [LinearOrder α] {levels : Levels α} {radius : Nat} {band : List α}

/-- A band of one bin has no deviation, so the bin is not above the threshold. -/
theorem peaks_eq_nil [LawfulMeasure α] (h : band.length ≤ 1) : peaks levels radius band = [] := by
  rw [peaks]
  split
  · rfl
  · apply pick_eq_nil
    intro m hm
    obtain ⟨m', rfl⟩ : ∃ m', band = [m'] :=
      List.length_eq_one_iff.mp (le_antisymm h (List.length_pos_of_mem hm))
    rw [List.mem_singleton.mp hm, mean_singleton, spread_singleton,
      LawfulMeasure.mul_zero, LawfulMeasure.add_zero]

theorem lt_length_of_mem_peaks {p : Nat} (hp : p ∈ peaks levels radius band) : p < band.length := by
  rw [peaks] at hp
  split at hp
  · cases hp
  · obtain ⟨m, hm, -⟩ := (suppressed_pick _ radius band).loud p hp
    exact (List.getElem?_eq_some_iff.mp hm).1

end

variable {s : AnalysisSettings}

theorem binWidth_id (s : AnalysisSettings) :
    binWidth id s = (s.sampleRate.toNat : ℚ) / s.frameSize.toNat := rfl

theorem binWidth_pos (hs : s.validate = .ok ()) : 0 < binWidth id s := by
  obtain ⟨hrate, ⟨hsize, -⟩, -⟩ := AnalysisSettings.validate_eq_ok_iff.mp hs
  rw [binWidth_id]
  have hsize : 0 < s.frameSize.toNat := by omega
  positivity

theorem ceil_div_le_iff {w : ℚ} (hw : 0 < w) (n b : Nat) :
    (n / w).ceil.toNat ≤ b ↔ (n : ℚ) ≤ w * b := by
  rw [Int.toNat_le, Rat.ceil_le_iff, Int.cast_natCast, div_le_iff₀' hw]

theorem le_floor_div_iff {w : ℚ} (hw : 0 < w) (n b : Nat) :
    b ≤ (n / w).floor.toNat ↔ w * b ≤ n := by
  have hnonneg : 0 ≤ (n / w).floor := Rat.le_floor_iff.mpr (by positivity)
  rw [Int.le_toNat hnonneg, Rat.le_floor_iff, Int.cast_natCast, le_div_iff₀' hw]

/-- Half the frame size is a bin, and its frequency, half the sample rate, is not below the band. -/
theorem le_binWidth_mul_half (hs : s.validate = .ok ()) : ∃ half : Nat,
    s.frameSize.toNat = 2 * half ∧ (s.maxFrequency.toNat : ℚ) ≤ binWidth id s * half := by
  obtain ⟨-, ⟨hsize, -⟩, -, ⟨-, hmax⟩, -⟩ := AnalysisSettings.validate_eq_ok_iff.mp hs
  obtain ⟨k, hk, -, hpow⟩ := AnalysisSettings.frameSize_of_validate hs
  obtain ⟨half, hhalf⟩ : ∃ half, s.frameSize.toNat = 2 * half :=
    ⟨2 ^ (k - 1), by rw [hpow, ← pow_succ', Nat.sub_add_cancel (by omega)]⟩
  have hne : (half : ℚ) ≠ 0 := by exact_mod_cast (by omega : half ≠ 0)
  have hnyquist : binWidth id s * half = s.sampleRate.toNat / 2 := by
    rw [binWidth_id, hhalf]
    push_cast
    field_simp
  refine ⟨half, hhalf, ?_⟩
  rw [hnyquist, le_div_iff₀ two_pos]
  exact_mod_cast (by omega : s.maxFrequency.toNat * 2 ≤ s.sampleRate.toNat)

/-- The bins between the edges are those with a frequency in the band. -/
theorem ofSettings_eq (hs : s.validate = .ok ()) : ∃ lo hi : Nat,
    Band.ofSettings id s = ⟨max lo 1 - 1, max hi 1 - 1⟩ ∧ lo ≤ hi + 1 ∧ hi ≤ s.frameSize.toNat / 2 ∧
      (∀ b : Nat, lo ≤ b ↔ (s.minFrequency.toNat : ℚ) ≤ binWidth id s * b) ∧
      ∀ b : Nat, b ≤ hi ↔ binWidth id s * b ≤ s.maxFrequency.toNat := by
  obtain ⟨-, -, -, ⟨hless, -⟩, -⟩ := AnalysisSettings.validate_eq_ok_iff.mp hs
  obtain ⟨half, hhalf, hmax⟩ := le_binWidth_mul_half hs
  have hw := binWidth_pos hs
  have hlo := ceil_div_le_iff hw s.minFrequency.toNat
  have hhi := le_floor_div_iff hw s.maxFrequency.toNat
  generalize hlowest : (s.minFrequency.toNat / binWidth id s).ceil.toNat = lo at hlo
  generalize hhighest : (s.maxFrequency.toNat / binWidth id s).floor.toNat = hi at hhi
  have hlessq : (s.minFrequency.toNat : ℚ) < s.maxFrequency.toNat := by exact_mod_cast hless
  have hlohalf : lo ≤ half := (hlo half).mpr (hlessq.le.trans hmax)
  have hhihalf : hi ≤ half := by
    have h := ((hhi hi).mp le_rfl).trans hmax
    exact_mod_cast le_of_mul_le_mul_left h hw
  refine ⟨lo, hi, ?_, ?_, by omega, hlo, hhi⟩
  · have h : Band.ofSettings id s =
        ⟨min (max lo 1 - 1) (s.frameSize.toNat / 2 - 1),
          min (max hi 1 - 1) (s.frameSize.toNat / 2 - 1)⟩ := by
      rw [← hlowest, ← hhighest]
      rfl
    rw [h, min_eq_left (by omega), min_eq_left (by omega)]
  · have habove : ¬ binWidth id s * (hi + 1 : Nat) ≤ s.maxFrequency.toNat := by
      rw [← hhi]
      omega
    exact (hlo _).mpr (hlessq.trans (not_le.mp habove)).le

/-- No bin lies between 1200 and 1800 Hz, and both edges are the bins around them. -/
example : Band.ofSettings id
    { sampleRate := 8000, frameSize := 8, minFrequency := 1200, maxFrequency := 1800 } = ⟨1, 0⟩ := by
  decide +kernel

theorem binFrequency_bounds {i : Nat}
    (hlo : (s.minFrequency.toNat : ℚ) ≤ binWidth id s * (i + 1 : Nat))
    (hhi : binWidth id s * (i + 1 : Nat) ≤ s.maxFrequency.toNat) :
    s.minFrequency.toNat ≤ binFrequency id s i ∧ binFrequency id s i ≤ s.maxFrequency.toNat := by
  have h : binFrequency id s i =
      min (roundHalfAway (binWidth id s * (i + 1 : Nat))).toNat 0xffffffff := rfl
  generalize binWidth id s * (i + 1 : Nat) = q at hlo hhi h
  have hq : ¬ q < 0 := not_lt.mpr (le_trans (by positivity) hlo)
  have hfloor : roundHalfAway q = (q + mkRat 1 2).floor := if_neg hq
  have hhalf : mkRat 1 2 = 1 / 2 := by norm_num
  rw [hhalf] at hfloor
  have hlow : (s.minFrequency.toNat : ℤ) ≤ (q + 1 / 2).floor := by
    rw [Rat.le_floor_iff]
    push_cast
    linarith
  have hhigh : (q + 1 / 2).floor < s.maxFrequency.toNat + 1 := by
    rw [Rat.floor_lt_iff]
    push_cast
    linarith
  have hmin := s.minFrequency.toNat_lt
  rw [h, hfloor]
  omega

/-- The frame of the peaks that are found in magnitudes. -/
def peakFrame {α : Type} [LT α] [LE α] [DecidableLT α] [DecidableLE α] [Add α] [Sub α] [Mul α]
    [Div α] [Measure α] (round : Rat → Rat) (s : AnalysisSettings) (levels : Levels α)
    (magnitudes : List α) : Frame :=
  .ofList ((peakFrequencies round s levels magnitudes).map fun f => .ofNat (min f 0xffff))

theorem frame_analyse (s : AnalysisSettings) (values : List Int) :
    (analyse s values).frame = peakFrame Precision.single.round s
      ⟨s.peakFactor.toFloat, s.spreadThreshold.toFloat, s.meanThreshold.toFloat⟩
      (magnitudes s.hann values) := rfl

theorem frequencies_ofList (fs : List UInt16) : (Frame.ofList fs).frequencies = fs.take 3 := by
  match fs with
  | [] => rfl
  | [a] => rfl
  | [a, b] => rfl
  | a :: b :: c :: fs => rfl

variable {α : Type} [LinearOrder α] [Add α] [Sub α] [Mul α] [Div α] [Measure α] [LawfulMeasure α]

theorem peakFrequencies_bounds (hs : s.validate = .ok ()) (levels : Levels α) (magnitudes : List α) :
    ∀ f ∈ peakFrequencies id s levels magnitudes,
      s.minFrequency.toNat ≤ f ∧ f ≤ s.maxFrequency.toNat := by
  obtain ⟨lo, hi, hband, hle, -, hlo, hhi⟩ := ofSettings_eq hs
  intro f hf
  obtain ⟨i, hi', rfl⟩ := List.mem_map.mp hf
  rw [hband] at hi' ⊢
  by_cases hzero : hi = 0
  · -- the lowest bin stands in for a band that lies below it
    have hone : (Band.slice ⟨max lo 1 - 1, max hi 1 - 1⟩ magnitudes).length ≤ 1 := by
      rw [Band.slice, List.length_drop, List.length_take]
      dsimp only
      omega
    rw [peaks_eq_nil hone] at hi'
    cases hi'
  · have hlt := lt_length_of_mem_peaks hi'
    rw [Band.slice, List.length_drop, List.length_take] at hlt
    dsimp only at hlt ⊢
    exact binFrequency_bounds ((hlo _).mp (by omega)) ((hhi _).mp (by omega))

/-- A band has whole bins that the magnitudes have, too, though it may be empty, and what is reported
of it lies between the two frequencies of the settings. -/
theorem reported_between (hs : s.validate = .ok ()) (hmax : s.maxFrequency.toNat ≤ 65535)
    (levels : Levels α) (magnitudes : List α) :
    (Band.ofSettings id s).lowest ≤ (Band.ofSettings id s).highest + 1 ∧
      (Band.ofSettings id s).highest + 1 ≤ s.frameSize.toNat / 2 ∧
      ∀ f ∈ (peakFrame id s levels magnitudes).frequencies,
        s.minFrequency.toNat ≤ f.toNat ∧ f.toNat ≤ s.maxFrequency.toNat := by
  obtain ⟨lo, hi, hband, hle, hhalf, -⟩ := ofSettings_eq hs
  obtain ⟨-, ⟨hsize, -⟩, -⟩ := AnalysisSettings.validate_eq_ok_iff.mp hs
  refine ⟨?_, ?_, ?_⟩
  · rw [hband]
    dsimp only
    omega
  · rw [hband]
    dsimp only
    omega
  · intro f hf
    rw [peakFrame, frequencies_ofList] at hf
    obtain ⟨g, hg, rfl⟩ := List.mem_map.mp (List.mem_of_mem_take hf)
    obtain ⟨hlow, hhigh⟩ := peakFrequencies_bounds hs levels magnitudes g hg
    have hfits : (UInt16.ofNat (min g 0xffff)).toNat = g := by
      rw [UInt16.toNat_ofNat', Nat.min_eq_left (by omega), Nat.mod_eq_of_lt (by omega)]
    rw [hfits]
    exact ⟨hlow, hhigh⟩

/-- A band of two of the three bins, of which the one at 2000 Hz is a peak. -/
theorem reported_between_of_two :
    let s : AnalysisSettings :=
      { sampleRate := 8000, frameSize := 8, minFrequency := 1500, maxFrequency := 3500 }
    let fs := (peakFrame id s ⟨1 / 2, 2, 0⟩ ([0, 100, 0, 0] : List ℝ)).frequencies
    s.validate = .ok () ∧ s.maxFrequency.toNat ≤ 65535 ∧ Band.ofSettings id s = ⟨1, 2⟩ ∧
      fs = [2000] ∧ ∀ f ∈ fs, 1500 ≤ f.toNat ∧ f.toNat ≤ 3500 := by
  intro s fs
  have hs : s.validate = .ok () := by decide +kernel
  have hmax : s.maxFrequency.toNat ≤ 65535 := by decide
  have hband : Band.ofSettings id s = ⟨1, 2⟩ := by decide +kernel
  have hmean : mean [(100 : ℝ), 0] = 50 := by norm_num [mean, Measure.ofNat]
  have hspread : spread [(100 : ℝ), 0] = 50 := by
    norm_num [spread, mean, Measure.ofNat, Measure.root]
  have hpick : pick (75 : ℝ) 2 [100, 0] = [0] := by
    norm_num [pick, pickMore, loudest?, loudestFrom, isClear]
  have hpeaks : peaks (⟨1 / 2, 2, 0⟩ : Levels ℝ) 2 [100, 0] = [0] := by
    rw [peaks, hmean, hspread, if_neg (by norm_num)]
    convert hpick using 2
    norm_num
  have hfreqs : peakFrequencies id s ⟨1 / 2, 2, 0⟩ ([0, 100, 0, 0] : List ℝ) = [2000] := by
    have hslice : Band.slice ⟨1, 2⟩ ([0, 100, 0, 0] : List ℝ) = [100, 0] := rfl
    have hfreq : binFrequency id s 1 = 2000 := by decide +kernel
    have hradius : s.suppression.toNat = 2 := rfl
    rw [peakFrequencies, hband, hslice, hradius, hpeaks, List.map_singleton, hfreq]
  have hfs : fs = [2000] := by
    unfold fs
    rw [peakFrame, hfreqs]
    rfl
  exact ⟨hs, hmax, hband, hfs, (reported_between hs hmax _ _).2.2⟩

end ToneWatch.Spectrum
