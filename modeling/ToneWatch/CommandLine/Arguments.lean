import ToneWatch.Numeric.Numeral

namespace ToneWatch.CommandLine

/-- An option, with its letter if it has one, and whether a value belongs to it. -/
structure Flag where
  name : String
  letter : Option Char := none
  hasValue : Bool := true
  deriving DecidableEq

namespace Flag

/-- Splits off the value that an equals sign attaches to a name. -/
def splitValue (s : List Char) : String × Option String :=
  let value := match s.dropWhile (· ≠ '=') with
    | _ :: value => some (String.ofList value)
    | [] => none
  (String.ofList (s.takeWhile (· ≠ '=')), value)

/-- The value that is attached to a letter. -/
def attached : List Char → Option String
  | [] => none
  | '=' :: value => some (String.ofList value)
  | value => some (String.ofList value)

/-- The option that an argument names, and the value attached to it. -/
def read? (flags : List Flag) : List Char → Option (Flag × Option String)
  | '-' :: '-' :: rest => do
    let (name, value) := splitValue rest
    return (← flags.find? fun f => f.name = name, value)
  | '-' :: c :: rest => do
    return (← flags.find? fun f => f.letter = some c, attached rest)
  | _ => none

end Flag

/-- Whether an argument looks like an option: it goes on after a dash. -/
def isDashed : List Char → Bool
  | '-' :: _ :: _ => true
  | _ => false

/-- The options that were given, by name, with their values, and the operands. -/
structure Arguments where
  options : List (String × String) := []
  operands : List String := []
  deriving DecidableEq

namespace Arguments

def addOption (name value : String) (a : Arguments) : Arguments :=
  { a with options := (name, value) :: a.options }

def addOperand (text : String) (a : Arguments) : Arguments :=
  { a with operands := text :: a.operands }

/-- Takes arguments apart while an option may wait for its value. If options must lead, the first
operand ends them and begins the operands. -/
def scan? (flags : List Flag) (leading : Bool) (waiting : Option Flag) :
    List String → Option Arguments
  | [] => if waiting = none then some {} else none
  | arg :: rest =>
    match waiting with
    | some flag =>
      if isDashed arg.toList then none
      else (scan? flags leading none rest).map (addOption flag.name arg)
    | none =>
      if arg = "--" then if leading then none else some { operands := rest }
      else if isDashed arg.toList then
        match Flag.read? flags arg.toList with
        | none => none
        | some (flag, value) =>
          match flag.hasValue, value with
          | true, none => scan? flags leading (some flag) rest
          | true, some value => (scan? flags leading none rest).map (addOption flag.name value)
          | false, none => (scan? flags leading none rest).map (addOption flag.name "")
          | false, some _ => none
      else if leading then some { operands := arg :: rest }
      else (scan? flags leading none rest).map (addOperand arg)

/-- Takes arguments apart; no option may be repeated. -/
def parse? (flags : List Flag) (leading : Bool) (args : List String) : Option Arguments :=
  (scan? flags leading none args).filter fun a => (a.options.map Prod.fst).Nodup

def has (a : Arguments) (name : String) : Bool :=
  (a.options.lookup name).isSome

/-- The value of an option, or what stands for it if it was not given. -/
def valueD {α : Type} (a : Arguments) (name : String) (read : String → Option α) (default : α) :
    Option α :=
  match a.options.lookup name with
  | none => some default
  | some text => read text

def value? {α : Type} (a : Arguments) (name : String) (read : String → Option α) :
    Option (Option α) :=
  a.valueD name (fun text => (read text).map some) none

end Arguments

def path? (text : String) : Option String :=
  if text = "" then none else some text

/-- A number of digits after an optional sign. -/
def integer? (text : String) : Option Int :=
  let (negative, s) := Numeral.splitSign text.toList
  match Numeral.leadingDigits s with
  | (d :: ds, []) =>
    let n := Digit.toNat (d :: ds)
    some (if negative then -n else n)
  | _ => none

/-- A number without a minus sign that fits in 64 bits. -/
def count? (text : String) : Option Nat :=
  if text.toList.head? = some '-' then none
  else ((integer? text).map Int.toNat).filter (· < 0x10000000000000000)

def uint32? (text : String) : Option UInt32 :=
  ((integer? text).filter fun i => 0 ≤ i && i < 0x100000000).map fun i => .ofNat i.toNat

def int16? (text : String) : Option Int16 :=
  ((integer? text).filter fun i => -0x8000 ≤ i && i < 0x8000).map Int16.ofInt

end ToneWatch.CommandLine
