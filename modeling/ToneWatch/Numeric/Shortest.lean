import ToneWatch.Numeric.Numeral
import ToneWatch.Numeric.Single

namespace ToneWatch

/-- The `k` with `10 ^ k ≤ q < 10 ^ (k + 1)`, for a positive `q`. -/
def decimalExponent (q : Rat) : Int :=
  let k : Int := (Digit.ofNat q.num.natAbs).length - (Digit.ofNat q.den).length
  if q < tenPow k then k - 1 else k

/-- The digits of `significand`, the last of them counting `10 ^ exponent`. -/
structure Decimal where
  significand : Nat
  exponent : Int
  deriving DecidableEq

namespace Decimal

def toRat (d : Decimal) : Rat :=
  d.significand * tenPow d.exponent

/-- The same number without zeros at the end of its digits. -/
def trim (d : Decimal) : Decimal :=
  if h : d.significand ≠ 0 ∧ d.significand % 10 = 0 then trim ⟨d.significand / 10, d.exponent + 1⟩ else d
termination_by d.significand
decreasing_by omega

end Decimal

/-- What decides between two decimals that are equally near. -/
inductive Tie where
  | toEven
  | upward
  deriving DecidableEq

namespace Shortest

/-- Whether the magnitude of `rank` is the nearest to `q`, the ends of its interval included for an
even rank. -/
def readsBack (rank : Nat) (q : Rat) : Bool :=
  let v := Single.magnitude rank
  let lo := (Single.magnitude (rank - 1) + v) / 2
  let hi := (v + Single.magnitude (rank + 1)) / 2
  if rank % 2 = 0 then lo ≤ q && q ≤ hi else lo < q && q < hi

/-- The nearest decimal of `digits` digits that reads back as the magnitude of `rank`. -/
def ofDigits? (tie : Tie) (rank digits : Nat) : Option Decimal :=
  let v := Single.magnitude rank
  let e := decimalExponent v + 1 - digits
  let below := (v / tenPow e).floor.toNat
  let lo : Decimal := ⟨below, e⟩
  let hi : Decimal := ⟨below + 1, e⟩
  match readsBack rank lo.toRat, readsBack rank hi.toRat with
  | false, false => none
  | true, false => some lo
  | false, true => some hi
  | true, true =>
    let down := v - lo.toRat
    let up := hi.toRat - v
    if down < up then some lo
    else if up < down then some hi
    else match tie with
      | .toEven => some (if below % 2 = 0 then lo else hi)
      | .upward => some hi

/-- The shortest decimal of the magnitude of a rank; nine digits always suffice. -/
def decimal (tie : Tie) (rank : Nat) : Decimal :=
  if rank = 0 then ⟨0, 0⟩
  else (((List.range 9).findSome? fun n => ofDigits? tie rank (n + 1)).getD ⟨0, 0⟩).trim

end Shortest

/-- How a single-precision number is laid out: the choice on a tie, the powers of ten written without
an exponent, and whether a whole number keeps a fraction. -/
structure Layout where
  tie : Tie
  positional : Option (Int × Int)
  keepFraction : Bool

namespace Layout

/-- The digits with the point at its place. -/
def plain (l : Layout) (negative : Bool) (digits : List Digit) (exponent : Int) : Numeral :=
  let point := digits.length + exponent
  let whole := if point ≤ 0 then [Digit.zero] else digits.take point.toNat ++ List.replicate exponent.toNat Digit.zero
  let fraction := List.replicate (-point).toNat Digit.zero ++ digits.drop point.toNat
  { negative, whole
    fraction := if fraction = [] && l.keepFraction then [Digit.zero] else fraction }

/-- One digit before the point, and the power of ten. -/
def scientific (negative : Bool) (digits : List Digit) (power : Int) : Numeral :=
  { negative
    whole := digits.take 1
    fraction := digits.drop 1
    exponent := some ⟨power < 0, Digit.ofNat power.natAbs⟩ }

def numeral (l : Layout) (x : Single) : Numeral :=
  let d := Shortest.decimal l.tie x.rank
  let digits := Digit.ofNat d.significand
  let power := d.exponent + digits.length - 1
  match l.positional with
  | none => l.plain x.negative digits d.exponent
  | some (lo, hi) =>
    if x.isZero || (lo ≤ power && power ≤ hi) then l.plain x.negative digits d.exponent
    else scientific x.negative digits power

end Layout

end ToneWatch
