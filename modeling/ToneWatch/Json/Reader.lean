import ToneWatch.Json.Quoted

namespace ToneWatch.Json

def isBlank (c : Char) : Bool :=
  c = ' ' || c = '\t' || c = '\n' || c = '\r'

def punctuation? : Char → Option Token
  | '[' => some .openArray
  | ']' => some .closeArray
  | '\x7b' => some .openObject
  | '\x7d' => some .closeObject
  | ',' => some .comma
  | ':' => some .colon
  | _ => none

/-- Whether a character belongs to a word: a numeral or one of the three names. -/
def isWordChar (c : Char) : Bool :=
  c.isAlphanum || c = '+' || c = '-' || c = '.'

def word? (s : List Char) : Option Token :=
  if s = ['n', 'u', 'l', 'l'] then some .null
  else if s = ['t', 'r', 'u', 'e'] then some (.bool true)
  else if s = ['f', 'a', 'l', 's', 'e'] then some (.bool false)
  else (Numeral.parse? s).map .number

/-- The first token of a text that starts with neither a blank nor nothing, and the text after it. -/
def token? (c : Char) (rest : List Char) : Option (Token × List Char) :=
  match punctuation? c with
  | some t => some (t, rest)
  | none =>
    if c = '"' then (Quoted.literal? rest).map (Prod.map .string id)
    else (word? (c :: rest.takeWhile isWordChar)).map fun t => (t, rest.dropWhile isWordChar)

theorem length_of_token? {c : Char} {rest : List Char} {p : Token × List Char}
    (h : token? c rest = some p) : p.2.length ≤ rest.length := by
  unfold token? at h
  split at h
  · cases h; simp
  · split at h
    · obtain ⟨q, hq, rfl⟩ := Option.map_eq_some_iff.1 h
      exact Nat.le_of_lt (Quoted.length_of_literal? hq)
    · obtain ⟨q, -, rfl⟩ := Option.map_eq_some_iff.1 h
      exact (List.dropWhile_suffix _).length_le

/-- The tokens of a text; blanks between them are skipped. -/
def tokens? (s : List Char) : Option (List Token) :=
  match s with
  | [] => some []
  | c :: rest =>
    if isBlank c then tokens? rest
    else match _h : token? c rest with
      | none => none
      | some (t, after) => (tokens? after).map (t :: ·)
termination_by s.length
decreasing_by
  · simp
  · have := length_of_token? _h
    simp only [List.length_cons] at *; omega

/-- An array or object that is still open, its complete items latest first. -/
inductive Level where
  | array (items : List Json)
  | object (members : List (Literal × Json)) (key : Literal)

/-- What may come next, inside the given open levels. -/
inductive Reading where
  | value (levels : List Level)
  | firstItem (levels : List Level)
  | afterItem (items : List Json) (levels : List Level)
  | firstKey (levels : List Level)
  | key (members : List (Literal × Json)) (levels : List Level)
  | colon (members : List (Literal × Json)) (key : Literal) (levels : List Level)
  | afterMember (members : List (Literal × Json)) (levels : List Level)
  | done (v : Json)

namespace Reading

/-- A value is complete: it becomes an item of the innermost open level. -/
def complete (v : Json) : List Level → Reading
  | [] => done v
  | .array items :: levels => afterItem (v :: items) levels
  | .object members k :: levels => afterMember ((k, v) :: members) levels

/-- The first token of a value. -/
def start (levels : List Level) : Token → Option Reading
  | .null => some (complete .null levels)
  | .bool b => some (complete (.bool b) levels)
  | .number n => some (complete (.number n) levels)
  | .string s => some (complete (.string s) levels)
  | .openArray => some (firstItem levels)
  | .openObject => some (firstKey levels)
  | _ => none

def step : Reading → Token → Option Reading
  | value levels, t => start levels t
  | firstItem levels, .closeArray => some (complete (.array []) levels)
  | firstItem levels, t => start (.array [] :: levels) t
  | afterItem items levels, .comma => some (value (.array items :: levels))
  | afterItem items levels, .closeArray => some (complete (.array items.reverse) levels)
  | firstKey levels, .closeObject => some (complete (.object []) levels)
  | firstKey levels, .string s => some (colon [] s levels)
  | key members levels, .string s => some (colon members s levels)
  | colon members s levels, .colon => some (value (.object members s :: levels))
  | afterMember members levels, .comma => some (key members levels)
  | afterMember members levels, .closeObject => some (complete (.object members.reverse) levels)
  | _, _ => none

end Reading

def ofTokens? (ts : List Token) : Option Json :=
  match ts.foldlM Reading.step (.value []) with
  | some (.done v) => some v
  | _ => none

def parse? (text : String) : Option Json :=
  (tokens? text.toList).bind ofTokens?

end ToneWatch.Json
