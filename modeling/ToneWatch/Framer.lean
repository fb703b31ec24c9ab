import ToneWatch.Bytes
import ToneWatch.Spectrum.Analysis
import ToneWatch.Storage

namespace ToneWatch

/-- Cuts a stream of samples into frames. The mean of each frame is taken as the zero point of the next
one, and analysed frames wait in a bounded queue that drops the oldest. -/
structure Framer where
  settings : AnalysisSettings
  /-- What is found in the values of a frame. -/
  analyse : List Int → Spectrum.Analysis := Spectrum.analyse settings
  /-- The values of two frames one after the other, which are filled in turn. -/
  values : Array Int := .replicate (2 * settings.frameSize.toNat) 0
  /-- Where the next value is put. -/
  position : Nat := 0
  /-- The sum of the samples of the frame that is being filled. -/
  sum : Int := 0
  /-- The zero point, from the frame before. -/
  offset : Int := 0
  /-- The low byte of a sample whose high byte is still to come. -/
  halfSample : Option UInt8 := none
  /-- The frames that wait, oldest first. -/
  pending : Array Frame := #[]
  loudest : Option Nat := none
  recording : Bool := false
  produced : Nat := 0
  dropped : Nat := 0

namespace Framer

def create (s : AnalysisSettings) : Except SettingsError Framer := do
  s.validate
  return { settings := s }

/-- What is laid out for a framer, as items and the bytes of each: the window, the samples of two frames,
a spectrum, its magnitudes, and the queue. -/
def buffers (s : AnalysisSettings) : List (Nat × Nat) :=
  let n := s.frameSize.toNat
  [(n, 4), (2 * n, 4), (n, 8), (n / 2, 4), (s.pendingCapacity.toNat, 8)]

/-- Whether there can be room for the buffers. -/
def isStorable (s : AnalysisSettings) : Bool :=
  (buffers s).all fun (items, size) => Storage.holds items size

def start (f : Framer) : Framer :=
  { f with recording := true }

/-- Stops and forgets the frame being filled and the frames that wait. -/
def stop (f : Framer) : Framer :=
  { f with recording := false, position := 0, sum := 0, halfSample := none, pending := #[] }

/-- Puts a frame in the queue, in place of the oldest if the queue is full. -/
def enqueue (f : Framer) (frame : Frame) : Framer :=
  if f.pending.size = f.settings.pendingCapacity.toNat then
    { f with pending := (f.pending.extract 1).push frame, dropped := f.dropped + 1 }
  else { f with pending := f.pending.push frame }

/-- Analyses the frame that ends at the position, and begins the next one behind it, or at the start
if that was the second frame. -/
def complete (f : Framer) : Framer :=
  let n := f.settings.frameSize.toNat
  let a := f.analyse (f.values.extract (f.position - n) f.position).toList
  let position := if f.position = 2 * n then 0 else f.position
  { f with
    position
    sum := 0
    offset := f.sum.tdiv n
    loudest := some a.loudest
    produced := f.produced + 1 }.enqueue a.frame

def accept (f : Framer) (x : Int16) : Framer :=
  let value := (x.toInt - f.offset).tdiv f.settings.divisor.toInt
  let f := { f with
    values := f.values.setIfInBounds f.position value
    position := f.position + 1
    sum := f.sum + x.toInt }
  if f.position % f.settings.frameSize.toNat = 0 then f.complete else f

/-- Takes samples, unless not recording, and tells how many frames they completed. -/
def process (f : Framer) (xs : List Int16) : Framer × Nat :=
  if f.recording then
    let g := xs.foldl accept f
    (g, g.produced - f.produced)
  else (f, 0)

/-- The most samples that are decoded before they are taken. -/
def blockSize : Nat := 64

/-- Takes the samples that the bytes write, a block at a time, and keeps the byte of one that is not
whole. -/
def processBlocks (f : Framer) (bytes : List UInt8) : Framer × Nat :=
  match _h : samplesOfBytes (bytes.take (2 * blockSize)) with
  | ([], left) => ({ f with halfSample := left }, 0)
  | (x :: xs, _) =>
    let (g, first) := f.process (x :: xs)
    let (g, others) := g.processBlocks (bytes.drop (2 * (x :: xs).length))
    (g, first + others)
termination_by bytes.length
decreasing_by
  cases bytes with
  | nil => cases _h
  | cons b rest =>
    simp only [List.length_drop, List.length_cons]
    omega

/-- Takes samples as bytes; the low byte of a sample may come before its high byte. -/
def processBytes (f : Framer) (bytes : List UInt8) : Framer × Nat :=
  if f.recording then
    match f.halfSample, bytes with
    | none, bytes => f.processBlocks bytes
    | some _, [] => (f, 0)
    | some lo, hi :: rest =>
      let (g, first) := { f with halfSample := none }.process [(wordOfBytes lo hi).toInt16]
      let (g, others) := g.processBlocks rest
      (g, first + others)
  else (f, 0)

def pull (f : Framer) : Framer × List Frame :=
  ({ f with pending := #[] }, f.pending.toList)

/-- The frequency of the magnitude at an index. -/
def frequencyAt (f : Framer) (index : Nat) : Nat :=
  Spectrum.binFrequency Precision.single.round f.settings index

end Framer

end ToneWatch
