import Mathlib
import ToneWatch.Settings.Analysis
import ToneWatch.Settings.Store
import ToneWatch.Proofs.Numeric.Stored
import ToneWatch.Proofs.Settings.Saving

namespace ToneWatch

open Json

theorem Single.single?_toJson (x : Single) :
    single? x.toJson = if x.isFinite = true then some x else none := by
  rw [toJson]
  split_ifs with h
  · exact Layout.toSingle?_numeral h
  · rfl

theorem Single.written_toJson (x : Single) : x.toJson.Written := by
  rw [toJson]
  split_ifs
  · exact .number (Layout.isPlain_stored x)
  · exact .null

namespace AnalysisSettings

/-- Whether the thresholds have a text. -/
def isFinite (s : AnalysisSettings) : Bool :=
  s.peakFactor.isFinite && s.spreadThreshold.isFinite && s.meanThreshold.isFinite

theorem written_toJson (s : AnalysisSettings) : s.toJson.Written :=
  written_ofMembers (by simp [written_ofNat, written_ofInt, Single.written_toJson, Written.bool])

theorem ofJson?_toJson (s : AnalysisSettings) :
    ofJson? s.toJson = if s.isFinite = true then some s else none := by
  have hfields : s.toJson.fields? ["sample_rate", "audio_samples_number", "divisor",
      "std_mult_threshold", "std_threshold", "mean_threshold", "min_frequency", "max_frequency",
      "suppression_bins", "max_pending_frames", "hann_window"] =
      some [some (ofNat s.sampleRate.toNat), some (ofNat s.frameSize.toNat),
        some (ofInt s.divisor.toInt), some s.peakFactor.toJson, some s.spreadThreshold.toJson, some s.meanThreshold.toJson,
        some (ofNat s.minFrequency.toNat), some (ofNat s.maxFrequency.toNat),
        some (ofNat s.suppression.toNat), some (ofNat s.pendingCapacity.toNat), some (.bool s.hann)] :=
    fields?_ofMembers (by decide : ["sample_rate", "audio_samples_number", "divisor",
      "std_mult_threshold", "std_threshold", "mean_threshold", "min_frequency", "max_frequency",
      "suppression_bins", "max_pending_frames", "hann_window"].Nodup)
  rw [ofJson?, hfields, Option.bind_eq_bind, Option.bind_some]
  dsimp only
  iterate 11 rw [Option.elim_some]
  rw [uint32?_ofNat, uint64?_ofNat, int32?_ofInt, Single.single?_toJson, Single.single?_toJson,
    Single.single?_toJson, uint32?_ofNat, uint32?_ofNat, uint64?_ofNat, uint64?_ofNat, bool?_bool,
    isFinite]
  cases s.peakFactor.isFinite <;> cases s.spreadThreshold.isFinite <;>
    cases s.meanThreshold.isFinite <;> rfl

/-- Accepted settings with finite thresholds are loaded as they were saved. With any other threshold they
are just as well accepted and saved, and then their file is refused. -/
theorem load_saved (s : AnalysisSettings) (h : s.validate = .ok ()) :
    (s.isFinite = true → load (some s.save.toUTF8.toList) = .ok s) ∧
    (s.isFinite = false → load (some s.save.toUTF8.toList) = .error .malformed) ∧
    ∀ factor spread mean : Single,
      { s with peakFactor := factor, spreadThreshold := spread, meanThreshold := mean }.validate =
        .ok () := by
  rw [load, save, loadRecord_pretty s.written_toJson, ofJson?_toJson]
  refine ⟨fun hfinite => ?_, fun hfinite => ?_, fun _ _ _ => h⟩
  · rw [if_pos hfinite]
    dsimp only
    rw [h]
  · rw [if_neg (Bool.eq_false_iff.mp hfinite)]

/-- The smallest and the largest threshold, a negative zero and the largest integers are loaded again,
an infinite threshold is not. -/
theorem load_saved_infinite :
    let s : AnalysisSettings := {
      sampleRate := 4294967295, frameSize := 9223372036854775808, divisor := -2147483648
      peakFactor := ⟨1⟩, spreadThreshold := ⟨0x80000000⟩, meanThreshold := ⟨0x7f7fffff⟩
      minFrequency := 0, maxFrequency := 2147483647, suppression := 18446744073709551615
      pendingCapacity := 18446744073709551615, hann := false }
    let t : AnalysisSettings := { s with spreadThreshold := .infinity false }
    s.validate = .ok () ∧ load (some s.save.toUTF8.toList) = .ok s ∧
      t.validate = .ok () ∧ load (some t.save.toUTF8.toList) = .error .malformed := by
  intro s t
  have hs : s.validate = .ok () := by decide +kernel
  obtain ⟨hload, -, hany⟩ := load_saved s hs
  have ht : t.validate = .ok () := hany s.peakFactor (.infinity false) s.meanThreshold
  exact ⟨hs, hload (by decide), ht, (load_saved t ht).2.1 (by decide)⟩

end AnalysisSettings

end ToneWatch
