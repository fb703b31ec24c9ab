import ToneWatch.Json.Value
import ToneWatch.Numeric.Reading

namespace ToneWatch.Json

/-- The values of the named fields, `none` for one that is missing. -/
def fields? (names : List String) : Json → Option (List (Option Json))
  | .object members =>
    if members.any fun m => m.1.isNone then none
    else names.mapM fun name =>
      match members.filter fun m => m.1 = some name with
      | [] => some none
      | [(_, v)] => some (some v)
      | _ => none
  | .array items =>
    if names.length < items.length then none
    else some (items.map some ++ List.replicate (names.length - items.length) none)
  | _ => none

def bool? : Json → Option Bool
  | .bool b => some b
  | _ => none

def string? : Json → Option String
  | .string s => s
  | _ => none

/-- A whole numeral with a value from `lo` up to and without `hi`. -/
def int? (lo hi : Int) : Json → Option Int
  | .number n => n.toInt?.filter fun i => lo ≤ i && i < hi
  | _ => none

def uint8? (v : Json) : Option UInt8 :=
  (int? 0 0x100 v).map fun i => .ofNat i.toNat

def uint16? (v : Json) : Option UInt16 :=
  (int? 0 0x10000 v).map fun i => .ofNat i.toNat

def uint32? (v : Json) : Option UInt32 :=
  (int? 0 0x100000000 v).map fun i => .ofNat i.toNat

def uint64? (v : Json) : Option UInt64 :=
  (int? 0 0x10000000000000000 v).map fun i => .ofNat i.toNat

def int32? (v : Json) : Option Int32 :=
  (int? (-0x80000000) 0x80000000 v).map Int32.ofInt

def single? : Json → Option Single
  | .number n => n.toSingle?
  | _ => none

/-- An array with items that all read. -/
def list? {α : Type} (read : Json → Option α) : Json → Option (List α)
  | .array items => items.mapM read
  | _ => none

end ToneWatch.Json
