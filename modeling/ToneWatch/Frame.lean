import ToneWatch.Json.Fields

namespace ToneWatch

/-- The loudest frequencies of one stretch of audio, at most three and likeliest first, in three slots of
which a count tells how many are used. -/
@[ext] structure Frame where
  count : UInt8
  first : UInt16
  second : UInt16
  third : UInt16
  deriving DecidableEq

def distance (a b : UInt16) : Nat :=
  (a.toNat - b.toNat) + (b.toNat - a.toNat)

namespace Frame

def maxPeaks : Nat := 3

def silent : Frame := ⟨0, 0, 0, 0⟩

def slots (f : Frame) : List UInt16 :=
  [f.first, f.second, f.third]

/-- The frequencies in use, likeliest first. A frame that was read from a text may count more than its
slots, and then there is no answer. -/
def frequencies? (f : Frame) : Option (List UInt16) :=
  if maxPeaks < f.count.toNat then none else some (f.slots.take f.count.toNat)

/-- The frequencies in use, if there is an answer. -/
def frequencies (f : Frame) : List UInt16 :=
  f.frequencies?.getD []

def length (f : Frame) : Nat := f.count.toNat

def isSilent (f : Frame) : Bool := f.count = 0

/-- Adds a peak, if a slot is free. -/
def push? (f : Frame) (frequency : UInt16) : Option Frame :=
  match f.count.toNat with
  | 0 => some { f with count := 1, first := frequency }
  | 1 => some { f with count := 2, second := frequency }
  | 2 => some { f with count := 3, third := frequency }
  | _ => none

/-- The frame of the first three frequencies. -/
def ofList : List UInt16 → Frame
  | [] => silent
  | [a] => ⟨1, a, 0, 0⟩
  | [a, b] => ⟨2, a, b, 0⟩
  | a :: b :: c :: _ => ⟨3, a, b, c⟩

def dominant? (f : Frame) : Option UInt16 :=
  f.frequencies.head?

/-- The smaller of the best distance so far and that of another peak. -/
def nearer (frequency : UInt16) (best : Option Nat) (p : UInt16) : Option Nat :=
  let d := distance p frequency
  match best with
  | none => some d
  | some b => some (if d < b then d else b)

/-- How far the nearest peak is from a frequency. -/
def nearest? (f : Frame) (frequency : UInt16) : Option Nat :=
  f.frequencies.foldl (nearer frequency) none

/-- Whether a peak lies closer to a frequency than the tolerance. -/
def isNear (f : Frame) (frequency : UInt16) (tolerance : Nat) : Bool :=
  f.frequencies.any fun p => distance p frequency < tolerance

def toJson (f : Frame) : Json :=
  .ofMembers [("count", .ofNat f.count.toNat),
    ("peaks", .array (f.slots.map fun p => .ofNat p.toNat))]

/-- Reads a frame; the count is not compared with the number of slots. -/
def ofJson? (v : Json) : Option Frame :=
  match v.fields? ["count", "peaks"] with
  | some [some count, some peaks] => do
    let count ← count.uint8?
    match ← peaks.list? Json.uint16? with
    | [a, b, c] => some ⟨count, a, b, c⟩
    | _ => none
  | _ => none

end Frame

end ToneWatch
