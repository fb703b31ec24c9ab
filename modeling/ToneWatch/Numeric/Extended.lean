import ToneWatch.Numeric.Precision

namespace ToneWatch

/-- A rational, an infinity or no number. -/
inductive Extended where
  | nan
  | infinite (negative : Bool)
  | finite (q : Rat)
  deriving DecidableEq

namespace Extended

/-- The number of precision `p` nearest `q`. -/
def round (p : Precision) (q : Rat) : Extended :=
  let r := p.round q
  if p.holds r then finite r else infinite (r < 0)

def ofNat (p : Precision) (n : Nat) : Extended := round p n

def add (p : Precision) : Extended → Extended → Extended
  | nan, _ => nan
  | _, nan => nan
  | infinite a, infinite b => if a = b then infinite a else nan
  | infinite a, finite _ => infinite a
  | finite _, infinite b => infinite b
  | finite x, finite y => round p (x + y)

/-- Zero counts as positive where it meets an infinity. -/
def mul (p : Precision) : Extended → Extended → Extended
  | nan, _ => nan
  | _, nan => nan
  | infinite a, infinite b => infinite (a != b)
  | infinite a, finite y => if y = 0 then nan else infinite (a != decide (y < 0))
  | finite x, infinite b => if x = 0 then nan else infinite (b != decide (x < 0))
  | finite x, finite y => round p (x * y)

/-- A zero divisor counts as positive. -/
def div (p : Precision) : Extended → Extended → Extended
  | nan, _ => nan
  | _, nan => nan
  | infinite _, infinite _ => nan
  | infinite a, finite y => infinite (a != decide (y < 0))
  | finite _, infinite _ => finite 0
  | finite x, finite y =>
    if y = 0 then (if x = 0 then nan else infinite (x < 0)) else round p (x / y)

/-- The integer part, kept between `lo` and `hi`; `nan` gives zero. -/
def toInt (lo hi : Int) : Extended → Int
  | nan => 0
  | infinite negative => if negative then lo else hi
  | finite q => max lo (min hi (truncate q))

end Extended

end ToneWatch
