import ToneWatch.History
import ToneWatch.Morse.Code
import ToneWatch.Settings.Morse

namespace ToneWatch.Morse

/-- How many observations make a time unit, and how many of a unit must be tone for it to be on. -/
structure Timing where
  unit : Nat
  on : Nat
  deriving DecidableEq

namespace Timing

/-- A unit with fewer tones than this is off. -/
def off (t : Timing) : Nat := t.unit - t.on

def ofSettings (m : MorseSettings) (a : AnalysisSettings) : Timing :=
  let unit := m.timeUnit a
  { unit, on := (truncate (Precision.single.round (unit * m.trueRate.toRat))).toNat }

end Timing

/-- What the timer waits for: the end of a silence or of a tone that has lasted so many units. A
silence may have ended the transmission already. -/
inductive Phase where
  | silence (units : Nat) (ended : Bool)
  | tone (units : Nat)
  deriving DecidableEq

/-- The silent units that end a transmission. -/
def endUnits : Nat := 9

/-- The symbol of a silence that a tone follows. -/
def gap? (units : Nat) (ended : Bool) : Option Symbol :=
  if 2 ≤ units && units ≤ 4 then some .letterGap
  else if 5 ≤ units && units ≤ 8 then some .wordGap
  else if endUnits ≤ units && !ended then some .endOfTransmission
  else none

def markOf (units : Nat) : Mark :=
  if 2 < units then .dash else .dot

/-- Waits for the start of a tone or for its end, and accepts an edge only when a whole time unit of
observations agrees with it. A run is measured by the units that passed without an edge and what is in
the history when the edge comes. -/
structure RunTimer where
  timing : Timing
  recent : History Bool
  phase : Phase := .silence 0 false

namespace RunTimer

def ofTiming (t : Timing) : RunTimer :=
  { timing := t, recent := .ofWindow t.unit }

def isSynchronised (t : RunTimer) : Bool :=
  match t.phase with
  | .silence .. => false
  | .tone _ => true

def reset (t : RunTimer) : RunTimer :=
  { t with recent := t.recent.clear, phase := .silence 0 false }

def tones (t : RunTimer) : Nat :=
  (t.recent.latest t.timing.unit).countP id

def unitStart (t : RunTimer) : Bool :=
  (t.recent.get? (t.recent.size - t.timing.unit)).getD false

/-- The units that the history spans, to the nearest. -/
def spanned (t : RunTimer) : Nat :=
  (t.recent.size + t.timing.unit / 2) / t.timing.unit

/-- Whether two units passed without an edge. -/
def isOverdue (t : RunTimer) : Bool :=
  t.recent.size = 2 * t.timing.unit

/-- Takes an observation and gives the symbol that it completes. -/
def step (t : RunTimer) (tone : Bool) : RunTimer × Option Symbol :=
  let t := { t with recent := t.recent.push tone }
  if t.recent.size < t.timing.unit then (t, none)
  else match t.phase with
    | .silence units ended =>
      if t.timing.on ≤ t.tones && t.unitStart then
        ({ t with recent := t.recent.clear, phase := .tone 1 }, gap? (units + (t.spanned - 1)) ended)
      else if t.isOverdue then
        let ends := units = endUnits && !ended
        ({ t with recent := t.recent.compact, phase := .silence (units + 1) (ended || ends) },
          if ends then some .endOfTransmission else none)
      else (t, none)
    | .tone units =>
      if t.tones < t.timing.off && !t.unitStart then
        ({ t with recent := t.recent.clear, phase := .silence 1 false },
          some (.mark (markOf (units + (t.spanned - 1)))))
      else if t.isOverdue then
        ({ t with recent := t.recent.compact, phase := .tone (units + 1) }, none)
      else (t, none)

end RunTimer

end ToneWatch.Morse
