namespace ToneWatch.Morse

/-- A keyed element of a letter. -/
inductive Mark where
  | dot
  | dash
  deriving DecidableEq

namespace Mark

def toChar : Mark → Char
  | dot => '.'
  | dash => '-'

def ofChar? : Char → Option Mark
  | '.' => some dot
  | '-' => some dash
  | _ => none

/-- The marks a text spells, if it holds nothing else. -/
def parse? (text : String) : Option (List Mark) :=
  text.toList.mapM ofChar?

def render (marks : List Mark) : String :=
  String.ofList (marks.map toChar)

end Mark

/-- One item of a message: a mark, a gap that separates letters or words, or the end. -/
inductive Symbol where
  | mark (m : Mark)
  | letterGap
  | wordGap
  | endOfTransmission
  deriving DecidableEq

namespace Symbol

def toChar : Symbol → Char
  | mark m => m.toChar
  | letterGap => ' '
  | wordGap => ';'
  | endOfTransmission => '#'

def ofChar? : Char → Option Symbol
  | '.' => some (mark .dot)
  | '-' => some (mark .dash)
  | ' ' => some letterGap
  | ';' => some wordGap
  | '#' => some endOfTransmission
  | _ => none

def isMark : Symbol → Bool
  | mark _ => true
  | _ => false

/-- The symbols a text spells; characters outside the alphabet are skipped. -/
def parse (text : String) : List Symbol :=
  text.toList.filterMap ofChar?

def render (symbols : List Symbol) : String :=
  String.ofList (symbols.map toChar)

end Symbol

namespace Code

open Mark (dot dash)

/-- Every character with a code, with its marks. -/
def table : List (Char × List Mark) :=
  [('A', [dot, dash]), ('B', [dash, dot, dot, dot]), ('C', [dash, dot, dash, dot]),
   ('D', [dash, dot, dot]), ('E', [dot]), ('F', [dot, dot, dash, dot]), ('G', [dash, dash, dot]),
   ('H', [dot, dot, dot, dot]), ('I', [dot, dot]), ('J', [dot, dash, dash, dash]),
   ('K', [dash, dot, dash]), ('L', [dot, dash, dot, dot]), ('M', [dash, dash]), ('N', [dash, dot]),
   ('O', [dash, dash, dash]), ('P', [dot, dash, dash, dot]), ('Q', [dash, dash, dot, dash]),
   ('R', [dot, dash, dot]), ('S', [dot, dot, dot]), ('T', [dash]), ('U', [dot, dot, dash]),
   ('V', [dot, dot, dot, dash]), ('W', [dot, dash, dash]), ('X', [dash, dot, dot, dash]),
   ('Y', [dash, dot, dash, dash]), ('Z', [dash, dash, dot, dot]),
   ('1', [dot, dash, dash, dash, dash]), ('2', [dot, dot, dash, dash, dash]),
   ('3', [dot, dot, dot, dash, dash]), ('4', [dot, dot, dot, dot, dash]),
   ('5', [dot, dot, dot, dot, dot]), ('6', [dash, dot, dot, dot, dot]),
   ('7', [dash, dash, dot, dot, dot]), ('8', [dash, dash, dash, dot, dot]),
   ('9', [dash, dash, dash, dash, dot]), ('0', [dash, dash, dash, dash, dash]),
   ('&', [dot, dash, dot, dot, dot])]

/-- Sent for a character without a code. -/
def unknown : Char := '&'

/-- Read for marks that are no code. -/
def undecodable : Char := '?'

def marks? (c : Char) : Option (List Mark) :=
  table.lookup c.toUpper

def char? (marks : List Mark) : Option Char :=
  (table.find? fun row => row.2 == marks).map Prod.fst

/-- The character that stands for `c` on the air: a letter in upper case, a digit, or `unknown`. -/
def fold (c : Char) : Char :=
  if c.isAlphanum then c.toUpper else unknown

/-- The marks sent for a character other than a space. -/
def marks (c : Char) : List Mark :=
  (marks? (fold c)).getD []

end Code

/-- The symbols of one letter, without the gap after it. -/
def letter (c : Char) : List Symbol :=
  (Code.marks c).map .mark

/-- Sends the characters; the gap after a letter is the end, a word gap or a letter gap as the text
ends, goes on with a space or goes on with a letter. -/
def encodeChars : List Char → List Symbol
  | [] => [.endOfTransmission]
  | ' ' :: rest => .wordGap :: encodeChars rest
  | [c] => letter c ++ [.endOfTransmission]
  | c :: ' ' :: rest => letter c ++ .wordGap :: encodeChars rest
  | c :: d :: rest => letter c ++ .letterGap :: encodeChars (d :: rest)

/-- The symbols of a text, closed by the end of transmission. -/
def encode (text : String) : List Symbol :=
  encodeChars text.toList

/-- The letter completed by a gap; no marks make no letter. -/
def flush : List Mark → List Char
  | [] => []
  | marks => [(Code.char? marks).getD Code.undecodable]

/-- Reads symbols after the marks of an unfinished letter. -/
def decodeAfter (begun : List Mark) : List Symbol → List Char
  | [] => flush begun
  | .mark m :: rest => decodeAfter (begun ++ [m]) rest
  | .wordGap :: rest => flush begun ++ ' ' :: decodeAfter [] rest
  | _ :: rest => flush begun ++ decodeAfter [] rest

/-- The text of the symbols: a letter for each run of marks and a space for each word gap. -/
def decode (symbols : List Symbol) : String :=
  String.ofList (decodeAfter [] symbols)

end ToneWatch.Morse
