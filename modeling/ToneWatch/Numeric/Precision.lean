namespace ToneWatch

/-- Two to an integer power. -/
def twoPow : Int → Rat
  | .ofNat n => (1 <<< n : Nat)
  | .negSucc n => mkRat 1 (1 <<< (n + 1))

/-- The integer nearest `q`; halfway, the even neighbour. -/
def roundHalfEven (q : Rat) : Int :=
  let below := q.floor
  let rest := q - below
  if rest < mkRat 1 2 then below
  else if mkRat 1 2 < rest then below + 1
  else below + below % 2

/-- The integer nearest `q`; halfway, the neighbour farther from zero. -/
def roundHalfAway (q : Rat) : Int :=
  if q < 0 then -(mkRat 1 2 - q).floor else (q + mkRat 1 2).floor

/-- The integer part of `q`, toward zero. -/
def truncate (q : Rat) : Int :=
  if q < 0 then q.ceil else q.floor

/-- The `k` with `2 ^ k ≤ q < 2 ^ (k + 1)`, for a positive `q`. -/
def binaryExponent (q : Rat) : Int :=
  let k : Int := q.num.natAbs.log2 - q.den.log2
  if q < twoPow k then k - 1 else k

/-- A binary number format: how many significant bits, the exponent of the finest unit, and the
exponent of the first power of two that is out of range. -/
structure Precision where
  bits : Nat
  finest : Int
  top : Int
  deriving DecidableEq

namespace Precision

def single : Precision := ⟨24, -149, 128⟩

def double : Precision := ⟨53, -1074, 1024⟩

/-- The exponent of the unit to a multiple of which `q` is rounded; zero has the finest. -/
def unit (p : Precision) (q : Rat) : Int :=
  let e := binaryExponent q.abs + 1 - p.bits
  if q = 0 ∨ e < p.finest then p.finest else e

/-- The nearest number of this precision, as if its range had no top. -/
def round (p : Precision) (q : Rat) : Rat :=
  let u := twoPow (p.unit q)
  roundHalfEven (q / u) * u

def holds (p : Precision) (q : Rat) : Bool :=
  q.abs < twoPow p.top

end Precision

end ToneWatch
