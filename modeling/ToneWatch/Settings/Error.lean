import ToneWatch.Settings.Number

namespace ToneWatch

/-- Why settings or a sound library are refused, which is before any audio is processed. -/
inductive SettingsError where
  | sampleRate
  | frameSize (size : UInt64)
  | divisor
  | band (lowest highest : UInt32)
  | pendingCapacity
  | timeUnit (frames longest : Nat)
  | listeningFrequency (frequency : UInt32)
  | rateThreshold (rate : Single)
  | noSequences (sound : String)
  | noSamples (sound : String) (sequence : Nat)
  | sampleLength (sound : String) (length longest : Nat)
  deriving DecidableEq

def SettingsError.message : SettingsError → String
  | sampleRate => "sample rate must be positive"
  | frameSize size => s!"frame size must be a positive power of two, got {size.toNat}"
  | divisor => "divisor must be non-zero"
  | band lowest highest =>
    s!"recognition band {lowest.toNat}..{highest.toNat} Hz is empty or above Nyquist"
  | pendingCapacity => "pending frame capacity must be non-zero"
  | timeUnit frames longest => s!"time unit of {frames} frames is outside 1..={longest}"
  | listeningFrequency frequency =>
    s!"listening frequency {frequency.toNat} Hz is too low for the configured bias"
  | rateThreshold rate => s!"true-rate threshold {rate.display} must lie in (0, 1]"
  | noSequences sound => s!"sound '{sound}' has no sequences"
  | noSamples sound sequence => s!"sound '{sound}' sequence {sequence} has no samples"
  | sampleLength sound length longest =>
    s!"sound '{sound}' has a sample of length {length}, expected 1..={longest}"

/-- Why a file of settings does not load: it cannot be read as text, it is no record of the expected
shape, or the record is refused. -/
inductive LoadError where
  | unreadable
  | malformed
  | refused (e : SettingsError)
  deriving DecidableEq

end ToneWatch
