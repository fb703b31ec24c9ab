namespace ToneWatch

def wordOfBytes (lo hi : UInt8) : UInt16 :=
  .ofNat (lo.toNat + 256 * hi.toNat)

def lowByte (w : UInt16) : UInt8 := .ofNat (w.toNat % 256)

def highByte (w : UInt16) : UInt8 := .ofNat (w.toNat / 256)

def bytesOfWord (w : UInt16) : List UInt8 := [lowByte w, highByte w]

/-- Cuts off so many chunks and puts them after those already cut, latest first. -/
def chunksAfter {α : Type} (size : Nat) (latest : List (List α)) : Nat → List α → List (List α)
  | 0, _ => latest.reverse
  | n + 1, xs => chunksAfter size (xs.take size :: latest) n (xs.drop size)

/-- The whole chunks of a list; a last one that is not whole is left out. -/
def chunks {α : Type} (size : Nat) (xs : List α) : List (List α) :=
  chunksAfter size [] (xs.length / size) xs

/-- The bytes of a number below `256 ^ count`. -/
def littleEndian (count n : Nat) : List UInt8 :=
  match count with
  | 0 => []
  | count + 1 => .ofNat (n % 256) :: littleEndian count (n / 256)

def ofLittleEndian : List UInt8 → Nat
  | [] => 0
  | b :: rest => b.toNat + 256 * ofLittleEndian rest

/-- Reads samples on after those already read, latest first. -/
def samplesAfter (latest : List Int16) : List UInt8 → List Int16 × Option UInt8
  | [] => (latest.reverse, none)
  | [lo] => (latest.reverse, some lo)
  | lo :: hi :: rest => samplesAfter ((wordOfBytes lo hi).toInt16 :: latest) rest

/-- The samples that the bytes write, two bytes each, and the byte of a sample that is not whole. -/
def samplesOfBytes (bytes : List UInt8) : List Int16 × Option UInt8 :=
  samplesAfter [] bytes

def bytesOfSamples (xs : List Int16) : List UInt8 :=
  xs.flatMap fun x => bytesOfWord x.toUInt16

end ToneWatch
