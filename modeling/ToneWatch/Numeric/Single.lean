import ToneWatch.Numeric.Extended

namespace ToneWatch

/-- A single-precision number, kept as its 32 bits. The magnitudes are numbered from zero upward in order
of size; the number of a magnitude is the bit pattern without its sign. -/
structure Single where
  bits : UInt32
  deriving DecidableEq

namespace Single

def negative (x : Single) : Bool :=
  0x80000000 ≤ x.bits.toNat

/-- The place of the magnitude in the order of all magnitudes. -/
def rank (x : Single) : Nat :=
  x.bits.toNat % 0x80000000

/-- The rank of infinity; higher ranks are no numbers. -/
def infinityRank : Nat := 0x7f800000

def isNaN (x : Single) : Bool :=
  infinityRank < x.rank

def isFinite (x : Single) : Bool :=
  x.rank < infinityRank

def isZero (x : Single) : Bool :=
  x.rank = 0

/-- The magnitude of a rank: multiples of the finest unit up to twice `2 ^ 23` of them, then twice
the unit for each further `2 ^ 23`. -/
def magnitude (rank : Nat) : Rat :=
  let binade := rank / 0x800000
  if binade = 0 then rank * twoPow (-149)
  else ((0x800000 + rank % 0x800000 : Nat) : Rat) * twoPow ((binade : Int) - 150)

def ofRank (negative : Bool) (rank : Nat) : Single :=
  ⟨.ofNat (if negative then 0x80000000 + rank else rank)⟩

/-- The rank of a magnitude that single precision holds. -/
def rankOf (q : Rat) : Nat :=
  let e := Precision.single.unit q
  let steps := (q / twoPow e).floor.toNat
  (e + 149).toNat * 0x800000 + steps

def infinity (negative : Bool) : Single :=
  ofRank negative infinityRank

def nan : Single := ⟨0x7fc00000⟩

/-- The number nearest `q`, with the given sign if that number is zero or `q` is. -/
def ofRat (negative : Bool) (q : Rat) : Single :=
  let r := Precision.single.round q.abs
  if Precision.single.holds r then ofRank negative (rankOf r) else infinity negative

def toRat (x : Single) : Rat :=
  if x.negative then -magnitude x.rank else magnitude x.rank

def toExtended (x : Single) : Extended :=
  if x.isNaN then .nan
  else if x.isFinite then .finite x.toRat
  else .infinite x.negative

def ofExtended : Extended → Single
  | .nan => nan
  | .infinite negative => infinity negative
  | .finite q => ofRat (q < 0) q

def ofNat (n : Nat) : Single :=
  ofRat false n

def toFloat (x : Single) : Float :=
  (Float32.ofBits x.bits).toFloat

end Single

end ToneWatch
