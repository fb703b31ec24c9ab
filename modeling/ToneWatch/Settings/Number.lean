import ToneWatch.Numeric.Shortest
import ToneWatch.Json.Value

namespace ToneWatch

/-- A stored number keeps a fraction, has an exponent below `10 ^ -6` and from `10 ^ 13` on, and ends
in an even digit where two are equally near. -/
def Layout.stored : Layout := ⟨.toEven, some (-6, 12), true⟩

/-- A shown number has no exponent and no needless fraction. -/
def Layout.shown : Layout := ⟨.upward, none, false⟩

namespace Single

/-- The stored form; a number that is not finite is stored as null. -/
def toJson (x : Single) : Json :=
  if x.isFinite then .number (Layout.stored.numeral x) else .null

def display (x : Single) : String :=
  if x.isNaN then "NaN"
  else if x.isFinite then String.ofList (Layout.shown.numeral x).render
  else if x.negative then "-inf" else "inf"

end Single

end ToneWatch
