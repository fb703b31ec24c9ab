import ToneWatch.Bytes
import ToneWatch.Frame

namespace ToneWatch

inductive PacketError where
  | truncatedRecord (length record : Nat)
  | tooManyPeaks (count : UInt8)
  deriving DecidableEq

def PacketError.message : PacketError → String
  | truncatedRecord length record =>
    s!"packet of {length} bytes is not a multiple of the {record}-byte record size"
  | tooManyPeaks count => s!"record declares {count.toNat} peaks, at most 3 are allowed"

namespace Packet

def recordSize : Nat := 7

def record (f : Frame) : List UInt8 :=
  f.count :: f.slots.flatMap bytesOfWord

/-- Appends the records of frames to bytes that are already there. -/
def append (bytes : List UInt8) (frames : List Frame) : List UInt8 :=
  bytes ++ frames.flatMap record

def pack (frames : List Frame) : List UInt8 :=
  append [] frames

/-- The frames of whole records; the first bad count is the error. -/
def records : List UInt8 → Except PacketError (List Frame)
  | count :: a :: b :: c :: d :: e :: f :: rest =>
    if Frame.maxPeaks < count.toNat then .error (.tooManyPeaks count)
    else do
      let frames ← records rest
      return ⟨count, wordOfBytes a b, wordOfBytes c d, wordOfBytes e f⟩ :: frames
  | _ => .ok []

def unpack (bytes : List UInt8) : Except PacketError (List Frame) :=
  if bytes.length % recordSize ≠ 0 then .error (.truncatedRecord bytes.length recordSize)
  else records bytes

end Packet

end ToneWatch
