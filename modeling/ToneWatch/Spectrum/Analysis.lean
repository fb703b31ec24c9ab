import ToneWatch.Frame
import ToneWatch.Settings.Analysis
import ToneWatch.Spectrum.Fourier
import ToneWatch.Spectrum.Peaks

namespace ToneWatch.Spectrum

def binWidth (round : Rat → Rat) (s : AnalysisSettings) : Rat :=
  round (round s.sampleRate.toNat / round s.frameSize.toNat)

/-- The frequency of the magnitude at an index, which is that of the bin after it. -/
def binFrequency (round : Rat → Rat) (s : AnalysisSettings) (index : Nat) : Nat :=
  min (roundHalfAway (round (binWidth round s * round (index + 1 : Nat)))).toNat 0xffffffff

/-- A range of magnitudes, both ends included. -/
structure Band where
  lowest : Nat
  highest : Nat
  deriving DecidableEq

namespace Band

def slice {α : Type} (b : Band) (magnitudes : List α) : List α :=
  (magnitudes.take (b.highest + 1)).drop b.lowest

/-- The magnitudes with a frequency between the two of the settings. -/
def ofSettings (round : Rat → Rat) (s : AnalysisSettings) : Band :=
  let width := binWidth round s
  let last := s.frameSize.toNat / 2 - 1
  let lowest := (round (round s.minFrequency.toNat / width)).ceil.toNat
  let highest := (round (round s.maxFrequency.toNat / width)).floor.toNat
  ⟨min (max lowest 1 - 1) last, min (max highest 1 - 1) last⟩

end Band

section

variable {α : Type} [LT α] [LE α] [DecidableLT α] [DecidableLE α] [Add α] [Sub α] [Mul α] [Div α]
  [Measure α]

def peakFrequencies (round : Rat → Rat) (s : AnalysisSettings) (levels : Levels α)
    (magnitudes : List α) : List Nat :=
  let band := Band.ofSettings round s
  (peaks levels s.suppression.toNat (band.slice magnitudes)).map fun i =>
    binFrequency round s (band.lowest + i)

end

/-- What is found in a frame: its peaks, and the loudest frequency whether in the band or not. -/
structure Analysis where
  frame : Frame
  loudest : Nat

/-- Analyses the values of a frame. -/
def analyse (s : AnalysisSettings) (values : List Int) : Analysis :=
  let round := Precision.single.round
  let levels : Levels Float :=
    ⟨s.peakFactor.toFloat, s.spreadThreshold.toFloat, s.meanThreshold.toFloat⟩
  let ms := magnitudes s.hann values
  { frame := .ofList ((peakFrequencies round s levels ms).map fun f => .ofNat (min f 0xffff))
    loudest := binFrequency round s ((loudest? (fun _ _ => true) ms).getD 0) }

end ToneWatch.Spectrum
