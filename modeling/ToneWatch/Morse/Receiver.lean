import ToneWatch.Frame
import ToneWatch.Morse.Outbox
import ToneWatch.Morse.RunTimer

namespace ToneWatch.Morse

/-- Observes whether a frame carries the tone it listens for, times the observations and collects the
symbols. -/
structure Receiver where
  settings : MorseSettings
  timer : RunTimer
  outbox : Outbox := {}
  analysing : Bool := false

namespace Receiver

def create (m : MorseSettings) (a : AnalysisSettings) : Except SettingsError Receiver := do
  a.validate
  m.validate a
  return { settings := m, timer := .ofTiming (.ofSettings m a) }

def start (r : Receiver) : Receiver :=
  { r with analysing := true }

/-- Stops and forgets the run being timed; symbols that wait stay. -/
def stop (r : Receiver) : Receiver :=
  { r with analysing := false, timer := r.timer.reset }

/-- The tone as it arrives, kept within 16 bits. -/
def target (r : Receiver) : UInt16 :=
  .ofNat (min (r.settings.listeningFrequency.toNat - r.settings.frequencyBias.toNat) 0xffff)

/-- Whether a frame carries the tone. -/
def hears (r : Receiver) (f : Frame) : Bool :=
  f.isNear r.target (min r.settings.detectionThreshold.toNat 0xffff)

/-- Takes an observation and gives the symbol that was let out. -/
def observe (r : Receiver) (tone : Bool) : Receiver × Option Symbol :=
  match r.timer.step tone with
  | (timer, none) => ({ r with timer }, none)
  | (timer, some s) =>
    let (outbox, out) := r.outbox.offer s
    ({ r with timer, outbox }, out)

/-- Takes a frame, unless the receiver is stopped. -/
def process (r : Receiver) (f : Frame) : Receiver × Option Symbol :=
  if r.analysing then r.observe (r.hears f) else (r, none)

def pull (r : Receiver) : Receiver × List Symbol :=
  let (outbox, symbols) := r.outbox.drain
  ({ r with outbox }, symbols)

end Receiver

end ToneWatch.Morse
