import ToneWatch.Morse.Code

namespace ToneWatch.Morse

/-- A stretch of tone or of silence, in time units. -/
@[ext] structure Run where
  on : Bool
  units : Nat
  deriving DecidableEq

def Symbol.run : Symbol → Run
  | .mark .dot => ⟨true, 1⟩
  | .mark .dash => ⟨true, 3⟩
  | .letterGap => ⟨false, 3⟩
  | .wordGap => ⟨false, 7⟩
  | .endOfTransmission => ⟨false, 10⟩

/-- The silence between two marks of a letter. -/
def markGap : Run := ⟨false, 1⟩

/-- The runs of the symbols in order, with a gap between two adjacent marks. -/
def runs : List Symbol → List Run
  | [] => []
  | .mark a :: .mark b :: rest => (Symbol.mark a).run :: markGap :: runs (.mark b :: rest)
  | s :: rest => s.run :: runs rest

/-- A keying plan; its runs are kept latest first. -/
structure Keying where
  latestFirst : List Run := []
  deriving DecidableEq

namespace Keying

def toList (k : Keying) : List Run := k.latestFirst.reverse

/-- What is left of a count of units or of steps in a word of 64 bits. -/
def wrap (count : Nat) : Nat := count % 0x10000000000000000

/-- Appends a run, joined to the last one if both have the same state. -/
def push (k : Keying) (r : Run) : Keying :=
  if r.units = 0 then k
  else match k.latestFirst with
    | [] => ⟨[r]⟩
    | last :: earlier =>
      if last.on = r.on then ⟨⟨r.on, wrap (last.units + r.units)⟩ :: earlier⟩ else ⟨r :: last :: earlier⟩

def append (k : Keying) (rs : List Run) : Keying :=
  rs.foldl push k

def ofList (rs : List Run) : Keying :=
  append {} rs

def ofSymbols (symbols : List Symbol) : Keying :=
  ofList (runs symbols)

def totalUnits (k : Keying) : Nat :=
  k.toList.foldl (fun total r => wrap (total + r.units)) 0

/-- The steps of the runs, `perUnit` to a time unit. -/
def steps (k : Keying) (perUnit : Nat) : Nat :=
  k.toList.foldr (fun r rest => wrap (r.units * perUnit) + rest) 0

/-- The tone state of each of the equal steps, `perUnit` to a time unit, that the plan lasts. -/
def states (k : Keying) (perUnit : Nat) : List Bool :=
  k.toList.flatMap fun r => List.replicate (wrap (r.units * perUnit)) r.on

end Keying

end ToneWatch.Morse
