namespace ToneWatch.CommandLine

/-- Where a path leads, seen from a working directory. The directory and those above it hold files only,
so a way leads up, or to the device that keeps nothing, and never through a name. -/
inductive Place where
  /-- A file under its name, before which stands the way up to it. -/
  | file (name : String)
  /-- The device that keeps nothing that is written to it. -/
  | sink
  deriving DecidableEq

namespace Place

/-- The bytes that a path may have. -/
def maxPathSize : Nat := 4095

/-- The bytes that one name may have. -/
def maxNameSize : Nat := 255

def isStill (step : String) : Bool := step = "" || step = "."

def isName (step : String) : Bool :=
  !isStill step && step ≠ ".." && step.utf8ByteSize ≤ maxNameSize

/-- The place that a path leads to; a path that is too long, or has too long a name, leads nowhere. -/
def ofPath? (path : String) : Option Place :=
  match (path.splitOn "/").reverse with
  | [] => none
  | name :: before =>
    let way := (before.filter fun step => !isStill step).reverse
    if maxPathSize < path.utf8ByteSize || !isName name then none
    else if before.getLast? = some "" then
      if way = ["dev"] && name = "null" then some sink else none
    else if way.all fun step => step = ".." then some (file (String.intercalate "/" (way ++ [name])))
    else none

end Place

end ToneWatch.CommandLine
