import ToneWatch.Numeric.Precision

namespace ToneWatch

abbrev Digit := Fin 10

namespace Digit

def zero : Digit := ⟨0, by decide⟩

def toChar (d : Digit) : Char :=
  Char.ofNat (d.val + 48)

def ofChar? (c : Char) : Option Digit :=
  if h : 48 ≤ c.toNat ∧ c.toNat < 58 then some ⟨c.toNat - 48, by omega⟩ else none

def ofNat (n : Nat) : List Digit :=
  if h : n < 10 then [⟨n, h⟩] else ofNat (n / 10) ++ [⟨n % 10, Nat.mod_lt _ (by decide)⟩]

/-- The number that the digits go on to write after `n`. -/
def extend (n : Nat) (ds : List Digit) : Nat :=
  ds.foldl (fun n d => n * 10 + d.val) n

def toNat (ds : List Digit) : Nat :=
  extend 0 ds

end Digit

def tenPow : Int → Rat
  | .ofNat n => (Nat.pow 10 n : Nat)
  | .negSucc n => mkRat 1 (Nat.pow 10 (n + 1))

structure Exponent where
  negative : Bool
  digits : List Digit
  deriving DecidableEq

structure Numeral where
  negative : Bool
  whole : List Digit
  fraction : List Digit := []
  exponent : Option Exponent := none
  deriving DecidableEq

namespace Numeral

def ofInt (n : Int) : Numeral :=
  { negative := n < 0, whole := Digit.ofNat n.natAbs }

def isWhole (n : Numeral) : Bool :=
  n.fraction = [] && n.exponent = none

/-- The integer that a whole numeral writes; a zero with a minus sign writes none. -/
def toInt? (n : Numeral) : Option Int :=
  let m := Digit.toNat n.whole
  if !n.isWhole || (n.negative && m = 0) then none
  else some (if n.negative then -m else m)

/-- The text; an exponent always has its sign. -/
def render (n : Numeral) : List Char :=
  let sign := if n.negative then ['-'] else []
  let fraction := if n.fraction = [] then [] else '.' :: n.fraction.map Digit.toChar
  let exponent := match n.exponent with
    | none => []
    | some e => 'e' :: (if e.negative then '-' else '+') :: e.digits.map Digit.toChar
  sign ++ n.whole.map Digit.toChar ++ fraction ++ exponent

/-- The leading digits of a text and what follows them. -/
def leadingDigits : List Char → List Digit × List Char
  | [] => ([], [])
  | c :: rest =>
    match Digit.ofChar? c with
    | none => ([], c :: rest)
    | some d => let (ds, after) := leadingDigits rest; (d :: ds, after)

/-- A fraction, with its point, that starts a text; a point without digits is refused if `strict`. -/
def fraction? (strict : Bool) : List Char → Option (List Digit × List Char)
  | '.' :: rest =>
    let (ds, after) := leadingDigits rest
    if strict && ds.isEmpty then none else some (ds, after)
  | s => some ([], s)

/-- Whether a text starts with a minus sign, and what follows its sign if it has one. -/
def splitSign : List Char → Bool × List Char
  | '-' :: rest => (true, rest)
  | '+' :: rest => (false, rest)
  | s => (false, s)

/-- An exponent that is all of a text, or no exponent if the text is empty. -/
def exponent? : List Char → Option (Option Exponent)
  | [] => some none
  | c :: rest =>
    if c = 'e' || c = 'E' then
      let (negative, rest) := splitSign rest
      match leadingDigits rest with
      | (d :: ds, []) => some (some ⟨negative, d :: ds⟩)
      | _ => none
    else none

/-- Reads a numeral whose whole part has no needless zero and whose fraction is not empty. -/
def parse? (s : List Char) : Option Numeral := do
  let (negative, s) := match s with
    | '-' :: r => (true, r)
    | r => (false, r)
  let (whole, s) := leadingDigits s
  if whole = [] || (whole.head? = some Digit.zero && whole.length ≠ 1) then none
  let (fraction, s) ← fraction? true s
  let exponent ← exponent? s
  return { negative, whole, fraction, exponent }

end Numeral

end ToneWatch
