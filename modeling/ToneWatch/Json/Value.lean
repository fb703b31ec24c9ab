import ToneWatch.Numeric.Numeral

namespace ToneWatch

/-- The content of a string literal; `none` if an escape in it names no character. -/
abbrev Literal := Option String

/-- A JSON value. Members keep their order and numbers their spelling, so that a reader of a field
decides what the number means. -/
inductive Json where
  | null
  | bool (b : Bool)
  | number (n : Numeral)
  | string (s : Literal)
  | array (items : List Json)
  | object (members : List (Literal × Json))

namespace Json

inductive Token where
  | openArray
  | closeArray
  | openObject
  | closeObject
  | comma
  | colon
  | null
  | bool (b : Bool)
  | number (n : Numeral)
  | string (s : Literal)
  deriving DecidableEq

def ofString (s : String) : Json := .string (some s)

def ofInt (n : Int) : Json := .number (.ofInt n)

def ofNat (n : Nat) : Json := ofInt n

def ofMembers (members : List (String × Json)) : Json :=
  .object (members.map fun m => (some m.1, m.2))

end Json

end ToneWatch
