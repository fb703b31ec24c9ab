import ToneWatch.Bytes
import ToneWatch.Numeric.Single

namespace ToneWatch.Wav

def tag (name : String) : List UInt8 :=
  name.toList.map fun c => .ofNat c.toNat

def number (bytes : List UInt8) (place size : Nat) : Nat :=
  ofLittleEndian ((bytes.drop place).take size)

/-- How the samples of a file are written. -/
structure Format where
  channels : Nat
  rate : UInt32
  /-- The bytes that a sample takes. -/
  width : Nat
  /-- The bits of a sample, of which its bytes may have more. -/
  bits : Nat
  isFloat : Bool := false
  deriving DecidableEq

def pcmTag : Nat := 1
def floatTag : Nat := 3
def extensibleTag : Nat := 0xfffe

/-- The end of the identifier of a sample format; its tag comes before this. -/
def subformatTail : List UInt8 :=
  [0x00, 0x00, 0x00, 0x00, 0x10, 0x00, 0x80, 0x00, 0x00, 0xaa, 0x00, 0x38, 0x9b, 0x71]

/-- Whether a format chunk of some size has the parts that its tag asks for. An extended chunk of
plain samples has at most 24 bits, and a chunk of real numbers has 32. -/
def isComplete (tag size bits : Nat) (body : List UInt8) : Bool :=
  if tag = pcmTag then
    size = 16 || ((size = 18 || size = 40) && (bits = 8 || bits = 16 || bits = 24))
  else if tag = floatTag then
    bits = 32 && (size = 16 || (size = 18 && number body 16 2 = 0))
  else
    tag = extensibleTag && 40 ≤ size && number body 16 2 = 22
      && (body.drop 26).take 14 = subformatTail
      && (number body 24 2 = pcmTag || number body 24 2 = floatTag)

/-- The bits of a sample. An extensible chunk may tell how many of those that are stored are valid. -/
def validBits (tag stored : Nat) (body : List UInt8) : Nat :=
  let valid := number body 18 2
  if tag = extensibleTag && valid ≠ 0 then valid else stored

/-- Reads a format chunk of some size from its first byte on, and tells how many bytes that takes. -/
def format? (size : Nat) (body : List UInt8) : Option (Format × Nat) :=
  let tag := number body 0 2
  let channels := number body 2 2
  let rate := number body 4 4
  let align := number body 12 2
  let bits := number body 14 2
  let width := align / channels
  let consumed := min size 40
  if size < 16 || body.length < consumed then none
  else if channels = 0 || width * 8 < bits || 0x10000 ≤ width * 8 then none
  else if number body 8 4 ≠ align * rate then none
  else if bits % 8 ≠ 0 || bits = 0 || !isComplete tag size bits body then none
  else
    let isFloat := tag = floatTag || (tag = extensibleTag && number body 24 2 = floatTag)
    some ({ channels, rate := .ofNat rate, width, bits := validBits tag bits body, isFloat }, consumed)

/-- Goes through the chunks up to the data chunk, of which the declared size and all bytes from its
start on are given. A format chunk must come before it; other chunks are skipped. -/
def findData (format : Option Format) : List UInt8 → Option (Format × Nat × List UInt8)
  | a :: b :: c :: d :: e :: f :: g :: h :: rest =>
    let name := [a, b, c, d]
    let size := ofLittleEndian [e, f, g, h]
    if name = tag "fmt " then
      match format? size rest with
      | none => none
      | some (found, consumed) => findData (some found) (rest.drop consumed)
    else if name = tag "fact" then findData format (rest.drop 4)
    else if name = tag "data" then format.map fun found => (found, size, rest)
    else if rest.length < size then none
    else findData format (rest.drop size)
  | _ => none
termination_by bytes => bytes.length
decreasing_by all_goals simp only [List.length_cons, List.length_drop]; omega

/-- The number below half of `2 * half`, or that much less. -/
def signed (half n : Nat) : Int :=
  if n < half then n else (n : Int) - 2 * half

/-- The value of a sample in units of 16 bits. -/
def sampleValue (f : Format) (bytes : List UInt8) : Option Extended :=
  match f.isFloat, f.width, f.bits with
  | false, 1, 8 => some (.finite (((number bytes 0 1 : Int) - 128) * 256 : Int))
  | false, 2, 16 => some (.finite (signed 0x8000 (number bytes 0 2)))
  | false, 3, 24 => some (.finite (signed 0x800000 (number bytes 0 3) / 0x100 : Int))
  | false, 4, 24 => some (.finite (signed 0x800000 (number bytes 0 3) / 0x100 : Int))
  | false, 4, 32 => some (.finite (signed 0x80000000 (number bytes 0 4) / 0x10000 : Int))
  | true, 4, 32 =>
    some (Extended.mul .single (Single.mk (.ofNat (number bytes 0 4))).toExtended (.finite 32767))
  | _, _, _ => none

/-- The mean of the channels as a sample, toward zero and within its range. -/
def mix (channels : Nat) (values : List Extended) : Int16 :=
  let sum := values.foldl (Extended.add .single) (.finite 0)
  .ofInt ((Extended.div .single sum (.ofNat .single channels)).toInt (-0x8000) 0x7fff)

def decode? (file : List UInt8) : Option (List Int16 × UInt32) := do
  if file.take 4 ≠ tag "RIFF" || (file.drop 8).take 4 ≠ tag "WAVE" then none
  let (f, size, rest) ← findData none (file.drop 12)
  if size % (f.width * f.channels) ≠ 0 || rest.length < size then none
  let values ← (chunks f.width (rest.take size)).mapM (sampleValue f)
  return ((chunks f.channels values).map (mix f.channels), f.rate)

def byteRate (rate : UInt32) : Nat := 2 * rate.toNat

/-- The size that a file of so many bytes of samples declares: all but its first eight bytes. -/
def riffSize (size : Nat) : Nat := 36 + size

/-- The file of a mono recording of 16 bits. -/
def encode (samples : List Int16) (rate : UInt32) : List UInt8 :=
  let size := 2 * samples.length
  tag "RIFF" ++ littleEndian 4 (riffSize size) ++ tag "WAVE"
    ++ tag "fmt " ++ littleEndian 4 16 ++ littleEndian 2 pcmTag ++ littleEndian 2 1
    ++ littleEndian 4 rate.toNat ++ littleEndian 4 (byteRate rate)
    ++ littleEndian 2 2 ++ littleEndian 2 16
    ++ tag "data" ++ littleEndian 4 size ++ bytesOfSamples samples

/-- The file, if its header can be written: the byte rate must fit it, and the size of a sample is
the byte rate divided by the rate. -/
def encode? (samples : List Int16) (rate : UInt32) : Option (List UInt8) :=
  if rate = 0 || 0x100000000 ≤ byteRate rate then none else some (encode samples rate)

/-- What is left of a file whose header could not be written: the sizes of an empty one, in place. -/
def unfinished : List UInt8 :=
  littleEndian 4 0 ++ littleEndian 4 (riffSize 0) ++ List.replicate 32 0 ++ littleEndian 4 0

end ToneWatch.Wav
