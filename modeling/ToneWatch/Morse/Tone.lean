import ToneWatch.Morse.Keying
import ToneWatch.Numeric.Single
import ToneWatch.Storage

namespace ToneWatch.Morse

/-- A keyed tone: its pitch and peak amplitude, and how long a time unit is sounded. -/
structure Tone where
  frequency : Single
  sampleRate : UInt32
  dotDurationMs : UInt32
  amplitude : Int16

namespace Tone

def samplesPerUnit (t : Tone) : Nat :=
  t.sampleRate.toNat * t.dotDurationMs.toNat / 1000

/-- Whether there can be room for the recording of a plan, two bytes a sample: at first as much as its
units tell, and then as much as its runs take. -/
def isStorable (t : Tone) (k : Keying) : Bool :=
  Storage.holds (Keying.wrap (k.totalUnits * t.samplesPerUnit)) 2 &&
    Storage.holds (k.steps t.samplesPerUnit) 2

/-- The sample of the sounding tone at an index of the recording. -/
def sample (t : Tone) (index : Nat) : Int16 :=
  let step := 2.0 * 3.141592653589793 * t.frequency.toFloat / t.sampleRate.toFloat
  (t.amplitude.toFloat * Float.sin (step * index.toFloat)).toInt16

def render (t : Tone) (k : Keying) : List Int16 :=
  (k.states t.samplesPerUnit).mapIdx fun i on => if on then t.sample i else 0

end Tone

end ToneWatch.Morse
