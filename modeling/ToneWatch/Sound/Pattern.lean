import ToneWatch.Frame

namespace ToneWatch

namespace Sound

/-- The drift from an expected frequency that costs nothing, in hertz. -/
def slack : Nat := 100

def maxSampleLength : Nat := 16

/-- The expected frequency of each frame; zero expects nothing. -/
abbrev Sample := List UInt16

/-- A part of a sound: its renderings and how far they may be missed. -/
structure Sequence where
  samples : List Sample
  /-- The squared drift allowed for each data point. -/
  threshold : UInt32
  /-- The data points that may exceed the threshold and count as misses instead. -/
  deviation : UInt8
  deriving DecidableEq

def Sequence.longest (q : Sequence) : Nat :=
  q.samples.foldl (fun n s => max n s.length) 0

end Sound

/-- A chain of sequences, each of which may be heard as any of several samples. Misses along the chain
add up and are bounded. -/
structure Sound where
  sequences : List Sound.Sequence
  /-- The most misses in the whole chain. -/
  maxDeviation : UInt8
  /-- Whether the nearest peak of a frame counts, or only the likeliest. -/
  allPeaks : Bool := true
  deriving DecidableEq

namespace Sound

/-- The frames of history that a chain looks back on: one more than the longest sample. -/
def historyWindow (s : Sound) : Nat :=
  if s.sequences = [] then 0 else s.sequences.foldl (fun n q => max n q.longest) 0 + 1

/-- The drift of a frame from an expected frequency, beyond the slack. -/
def drift (s : Sound) (expected : UInt16) (f : Frame) : Nat :=
  let d := if s.allPeaks then f.nearest? expected else f.dominant?.map (distance · expected)
  d.getD 0xffff - slack

/-- What the data points of a sample have cost so far, and how many may still be excused. -/
structure Score where
  misses : Nat
  excusable : Nat
  total : Nat := 0
  deriving DecidableEq

/-- Scores a data point: a silent frame is a miss, and so is a drift over the threshold as long as
one may be excused; any other drift counts squared. -/
def score (s : Sound) (q : Sequence) (c : Score) (point : UInt16 × Frame) : Score :=
  if point.1 = 0 then c
  else if point.2.isSilent then { c with misses := c.misses + 1 }
  else
    let d := s.drift point.1 point.2
    if q.threshold.toNat < d * d && 0 < c.excusable then
      { c with misses := c.misses + 1, excusable := c.excusable - 1 }
    else { c with total := c.total + d * d }

/-- The misses after a sample that began with `base` of them, if its frames, oldest first, are
accepted as the sample. -/
def misses? (s : Sound) (q : Sequence) (base : UInt8) (sample : Sample) (frames : List Frame) :
    Option UInt8 :=
  let c := (sample.zip frames).foldl (s.score q) ⟨base.toNat, q.deviation.toNat, 0⟩
  if c.total ≤ sample.length * q.threshold.toNat && c.misses ≤ s.maxDeviation.toNat then
    some (.ofNat c.misses)
  else none

end Sound

end ToneWatch
