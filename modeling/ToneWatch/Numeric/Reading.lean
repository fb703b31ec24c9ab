import ToneWatch.Numeric.Numeral
import ToneWatch.Numeric.Single

namespace ToneWatch

namespace Scaled

/-- Reads digits on after `n` as long as the number fits in 64 bits; the digits left are returned. -/
def gather (n : Nat) : List Digit → Nat × List Digit
  | [] => (n, [])
  | d :: ds => if n * 10 + d.val < 0x10000000000000000 then gather (n * 10 + d.val) ds else (n, d :: ds)

/-- The largest power of ten in one scaling step. -/
def stride : Nat := 308

/-- The double-precision number nearest a power of ten. -/
def power (n : Nat) : Rat :=
  Precision.double.round (Nat.pow 10 n : Nat)

/-- Divides by a power of ten in steps of at most `stride`, each rounded. -/
def shrink (q : Rat) (n : Nat) : Rat :=
  if n ≤ stride then Precision.double.round (q / power n)
  else if q = 0 then 0
  else shrink (Precision.double.round (q / power stride)) (n - stride)
termination_by n
decreasing_by simp only [stride] at *; omega

/-- Multiplies by a power of ten, if the result is in range. -/
def grow? (q : Rat) (n : Nat) : Option Rat :=
  if n ≤ stride then
    let r := Precision.double.round (q * power n)
    if Precision.double.holds r then some r else none
  else if q = 0 then some 0 else none

/-- The largest exponent that is read; a larger one leaves zero or is out of range. -/
def exponentLimit : Nat := 0x7fffffff

/-- The magnitude of a numeral in double precision, from its first digits that fit in 64 bits. -/
def magnitude? (n : Numeral) : Option Rat :=
  let (wholePart, wholeLeft) := gather 0 n.whole
  let (significand, fractionLeft) := gather wholePart n.fraction
  let shift : Int := wholeLeft.length + fractionLeft.length - n.fraction.length
  let q := Precision.double.round significand
  let scale (e : Int) := if e < 0 then some (shrink q e.natAbs) else grow? q e.natAbs
  match n.exponent with
  | none => scale shift
  | some e =>
    let k := Digit.toNat e.digits
    if exponentLimit < k then (if significand = 0 || e.negative then some 0 else none)
    else scale (if e.negative then shift - k else shift + k)

end Scaled

namespace Numeral

/-- Whether the numeral is whole and a machine integer of 64 bits holds it. -/
def isMachineInt (n : Numeral) : Bool :=
  let m := Digit.toNat n.whole
  n.isWhole && (if n.negative then m ≤ 0x8000000000000000 else m < 0x10000000000000000)

/-- The single-precision number of a stored numeral: a machine integer is rounded once, any other
number first to double precision, out of whose range there is no number. -/
def toSingle? (n : Numeral) : Option Single :=
  if n.isMachineInt then some (Single.ofRat n.negative (Digit.toNat n.whole))
  else (Scaled.magnitude? n).map (Single.ofRat n.negative)

/-- The single-precision number nearest the exact value of the numeral. -/
def nearestSingle (n : Numeral) : Single :=
  let significand := Digit.extend (Digit.toNat n.whole) n.fraction
  let written : Int := match n.exponent with
    | none => 0
    | some e => if e.negative then -(Digit.toNat e.digits) else Digit.toNat e.digits
  let exponent := written - n.fraction.length
  let point := exponent + (Digit.ofNat significand).length
  if significand = 0 || point < -60 then Single.ofRat n.negative 0
  else if 60 < point then Single.infinity n.negative
  else Single.ofRat n.negative (significand * tenPow exponent)

end Numeral

namespace Single

/-- Reads a number as typed: a sign, then a word for infinity or no number, or digits with an
optional point and exponent. -/
def parse? (text : String) : Option Single :=
  let (negative, s) := Numeral.splitSign text.toList
  let word := String.ofList (s.map Char.toLower)
  if word = "inf" || word = "infinity" then some (infinity negative)
  else if word = "nan" then some nan
  else do
    let (whole, s) := Numeral.leadingDigits s
    let (fraction, s) ← Numeral.fraction? false s
    if whole.isEmpty && fraction.isEmpty then none
    let exponent ← Numeral.exponent? s
    return (Numeral.mk negative whole fraction exponent).nearestSingle

end Single

end ToneWatch
