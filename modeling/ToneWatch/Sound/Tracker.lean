import ToneWatch.History
import ToneWatch.Sound.Pattern

namespace ToneWatch.Sound

/-- Tracks a sound: for each frame every sequence records the fewest misses with which the chain up to it
ends there. A match of the whole chain starts the tracking anew. -/
structure Tracker where
  sound : Sound
  records : List (History (Option UInt8))

namespace Tracker

def ofSound (s : Sound) : Tracker :=
  { sound := s, records := s.sequences.map fun _ => .ofWindow s.historyWindow }

def missesAgo? (record : History (Option UInt8)) (ago : Nat) : Option UInt8 :=
  (record.ago? ago).join

/-- The misses with which a sample of some length goes on: none yet in the first sequence, else the
fewest recorded by the sequence before it. -/
def base? (before : Option (History (Option UInt8))) (length : Nat) : Option UInt8 :=
  match before with
  | none => some 0
  | some record =>
    match missesAgo? record length, missesAgo? record (length + 1) with
    | some a, some b => some (min a b)
    | some a, none => some a
    | none, b => b

def isFewer (misses : UInt8) (best : Option UInt8) : Bool :=
  best.all (misses < ·)

/-- The fewest misses after a sample that goes on from `base` of them. It is not scored if it goes on
from too many. -/
def improve (s : Sound) (q : Sequence) (best : Option UInt8) (base : UInt8) (sample : Sample)
    (frames : List Frame) : Option UInt8 :=
  if s.maxDeviation < base || !isFewer base best then best
  else match s.misses? q base sample frames with
    | none => best
    | some misses => if isFewer misses best then some misses else best

/-- The fewest misses after another sample that ends at the newest frame. -/
def tryout (s : Sound) (recent : List Frame) (before : Option (History (Option UInt8)))
    (q : Sequence) (best : Option UInt8) (sample : Sample) : Option UInt8 :=
  let frames := (recent.take sample.length).reverse
  if sample = [] || frames.length < sample.length then best
  else match base? before sample.length with
    | none => best
    | some base => improve s q best base sample frames

/-- The fewest misses of a sequence whose sample ends at the newest frame. -/
def fewest? (s : Sound) (recent : List Frame) (before : Option (History (Option UInt8)))
    (q : Sequence) : Option UInt8 :=
  q.samples.foldl (tryout s recent before q) none

/-- Records the newest frame; the frames are given newest first. -/
def update (t : Tracker) (recent : List Frame) : Tracker :=
  let before := none :: t.records.map some
  let row := (before.zip t.sound.sequences).map fun (b, q) => fewest? t.sound recent b q
  { t with records := (t.records.zip row).map fun (h, m) => h.push m }

def reset (t : Tracker) : Tracker :=
  { t with records := t.records.map History.clear }

/-- Whether the whole chain ends at the newest frame; if so, the records are forgotten. -/
def matched (t : Tracker) : Tracker × Bool :=
  match t.records.getLast?.bind (missesAgo? · 1) with
  | none => (t, false)
  | some misses => if misses ≤ t.sound.maxDeviation then (t.reset, true) else (t, false)

/-- Records the newest frame and says whether the whole chain ends there. -/
def step (t : Tracker) (recent : List Frame) : Tracker × Bool :=
  (t.update recent).matched

end Tracker

end ToneWatch.Sound
