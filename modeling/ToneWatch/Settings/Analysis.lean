import ToneWatch.Settings.Error
import ToneWatch.Json.Fields

namespace ToneWatch

/-- How a recording is cut into frames, the band in which peaks are looked for and what counts as a peak.
-/
@[ext] structure AnalysisSettings where
  sampleRate : UInt32 := 11000
  /-- The samples in a frame. -/
  frameSize : UInt64 := 512
  /-- Every sample is divided by this after its offset is taken away. -/
  divisor : Int32 := 1
  /-- A peak lies so many deviations above the mean. -/
  peakFactor : Single := .ofNat 3
  /-- A frame with a smaller deviation is silent. -/
  spreadThreshold : Single := .ofNat 2
  /-- A frame with a smaller mean is silent. -/
  meanThreshold : Single := .ofNat 0
  minFrequency : UInt32 := 1400
  maxFrequency : UInt32 := 4500
  /-- Around a peak so many bins to either side are left out. -/
  suppression : UInt64 := 2
  /-- The most frames that wait to be pulled. -/
  pendingCapacity : UInt64 := 100
  /-- Whether the ends of a frame are faded. -/
  hann : Bool := true
  deriving DecidableEq

namespace AnalysisSettings

/-- Long frames, for sound signatures. -/
def forSounds : AnalysisSettings := {}

/-- Short frames over a wider band, for Morse. -/
def forMorse : AnalysisSettings :=
  { frameSize := 128, minFrequency := 500, maxFrequency := 5000, suppression := 1 }

/-- The width of a spectral bin in hertz, which is also the number of frames a second. -/
def binWidth (s : AnalysisSettings) : Single :=
  let p := Precision.single
  .ofExtended (Extended.div p (.ofNat p s.sampleRate.toNat) (.ofNat p s.frameSize.toNat))

def isPowerOfTwo (n : Nat) : Bool :=
  1 <<< n.log2 = n

/-- Refuses settings with which no frame can be analysed; the first fault is the error. -/
def validate (s : AnalysisSettings) : Except SettingsError Unit :=
  if s.sampleRate = 0 then .error .sampleRate
  else if s.frameSize.toNat < 4 || !isPowerOfTwo s.frameSize.toNat then .error (.frameSize s.frameSize)
  else if s.divisor = 0 then .error .divisor
  else if s.maxFrequency ≤ s.minFrequency || s.sampleRate.toNat / 2 < s.maxFrequency.toNat then
    .error (.band s.minFrequency s.maxFrequency)
  else if s.pendingCapacity = 0 then .error .pendingCapacity
  else .ok ()

def toJson (s : AnalysisSettings) : Json :=
  .ofMembers [
    ("sample_rate", .ofNat s.sampleRate.toNat),
    ("audio_samples_number", .ofNat s.frameSize.toNat),
    ("divisor", .ofInt s.divisor.toInt),
    ("std_mult_threshold", s.peakFactor.toJson),
    ("std_threshold", s.spreadThreshold.toJson),
    ("mean_threshold", s.meanThreshold.toJson),
    ("min_frequency", .ofNat s.minFrequency.toNat),
    ("max_frequency", .ofNat s.maxFrequency.toNat),
    ("suppression_bins", .ofNat s.suppression.toNat),
    ("max_pending_frames", .ofNat s.pendingCapacity.toNat),
    ("hann_window", .bool s.hann)]

/-- Reads settings; a missing field has its default. -/
def ofJson? (v : Json) : Option AnalysisSettings := do
  let d : AnalysisSettings := {}
  match ← v.fields? ["sample_rate", "audio_samples_number", "divisor", "std_mult_threshold",
      "std_threshold", "mean_threshold", "min_frequency", "max_frequency", "suppression_bins",
      "max_pending_frames", "hann_window"] with
  | [rate, size, divisor, factor, spread, mean, lowest, highest, suppression, pending, hann] =>
    return {
      sampleRate := ← rate.elim (some d.sampleRate) Json.uint32?
      frameSize := ← size.elim (some d.frameSize) Json.uint64?
      divisor := ← divisor.elim (some d.divisor) Json.int32?
      peakFactor := ← factor.elim (some d.peakFactor) Json.single?
      spreadThreshold := ← spread.elim (some d.spreadThreshold) Json.single?
      meanThreshold := ← mean.elim (some d.meanThreshold) Json.single?
      minFrequency := ← lowest.elim (some d.minFrequency) Json.uint32?
      maxFrequency := ← highest.elim (some d.maxFrequency) Json.uint32?
      suppression := ← suppression.elim (some d.suppression) Json.uint64?
      pendingCapacity := ← pending.elim (some d.pendingCapacity) Json.uint64?
      hann := ← hann.elim (some d.hann) Json.bool? }
  | _ => none

end AnalysisSettings

end ToneWatch
