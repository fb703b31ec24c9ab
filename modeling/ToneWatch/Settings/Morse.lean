import ToneWatch.Settings.Analysis

namespace ToneWatch

/-- Which tone a receiver listens for and how long a dot lasts. -/
@[ext] structure MorseSettings where
  listeningFrequency : UInt32 := 2000
  dotDurationMs : UInt32 := 100
  /-- A peak closer to the tone than this is the tone. -/
  detectionThreshold : UInt32 := 100
  /-- The part of a time unit that must be tone for the tone to count as keyed. -/
  trueRate : Single := .ofRat false (mkRat 4 5)
  /-- What a speaker lowers the tone by. -/
  frequencyBias : UInt32 := 50
  deriving DecidableEq

namespace MorseSettings

/-- The longest time unit, in frames. -/
def maxTimeUnit : Nat := 500

/-- The frames in a dot, to the nearest frame; every step is rounded to double precision. -/
def timeUnit (m : MorseSettings) (a : AnalysisSettings) : Nat :=
  let p := Precision.double
  let product := Extended.mul p (.ofNat p a.sampleRate.toNat) (.ofNat p m.dotDurationMs.toNat)
  let frames := Extended.div p (Extended.div p product (.ofNat p 1000)) (.ofNat p a.frameSize.toNat)
  ((Extended.add p frames (.finite (mkRat 1 2))).toInt 0 0xffffffffffffffff).toNat

/-- Whether a number lies above zero and is at most one. -/
def isRate (x : Single) : Bool :=
  x.isFinite && 0 < x.toRat && x.toRat ≤ 1

/-- Refuses settings with which no tone can be timed or heard; the first fault is the error. -/
def validate (m : MorseSettings) (a : AnalysisSettings) : Except SettingsError Unit :=
  let frames := m.timeUnit a
  if frames = 0 || maxTimeUnit < frames then .error (.timeUnit frames maxTimeUnit)
  else if m.listeningFrequency ≤ m.frequencyBias then .error (.listeningFrequency m.listeningFrequency)
  else if !isRate m.trueRate then .error (.rateThreshold m.trueRate)
  else .ok ()

def toJson (m : MorseSettings) : Json :=
  .ofMembers [
    ("listening_frequency", .ofNat m.listeningFrequency.toNat),
    ("dot_duration_ms", .ofNat m.dotDurationMs.toNat),
    ("detection_threshold", .ofNat m.detectionThreshold.toNat),
    ("true_rate_threshold", m.trueRate.toJson),
    ("frequency_bias", .ofNat m.frequencyBias.toNat)]

/-- Reads settings; a missing field has its default. -/
def ofJson? (v : Json) : Option MorseSettings := do
  let d : MorseSettings := {}
  match ← v.fields? ["listening_frequency", "dot_duration_ms", "detection_threshold",
      "true_rate_threshold", "frequency_bias"] with
  | [listening, dot, detection, rate, bias] =>
    return {
      listeningFrequency := ← listening.elim (some d.listeningFrequency) Json.uint32?
      dotDurationMs := ← dot.elim (some d.dotDurationMs) Json.uint32?
      detectionThreshold := ← detection.elim (some d.detectionThreshold) Json.uint32?
      trueRate := ← rate.elim (some d.trueRate) Json.single?
      frequencyBias := ← bias.elim (some d.frequencyBias) Json.uint32? }
  | _ => none

end MorseSettings

end ToneWatch
