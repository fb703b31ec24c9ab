import ToneWatch.Json.Quoted

namespace ToneWatch.Json

def renderLiteral : Literal → List Char
  | none => Quoted.render ""
  | some s => Quoted.render s

/-- The text of a value that holds no others. -/
def renderBool (b : Bool) : List Char :=
  if b then ['t', 'r', 'u', 'e'] else ['f', 'a', 'l', 's', 'e']

def renderNull : List Char := ['n', 'u', 'l', 'l']

mutual

def compactChars : Json → List Char
  | .null => renderNull
  | .bool b => renderBool b
  | .number n => n.render
  | .string s => renderLiteral s
  | .array items => '[' :: compactItems items ++ [']']
  | .object members => '\x7b' :: compactMembers members ++ ['\x7d']

def compactItems : List Json → List Char
  | [] => []
  | [v] => compactChars v
  | v :: rest => compactChars v ++ ',' :: compactItems rest

def compactMembers : List (Literal × Json) → List Char
  | [] => []
  | [(k, v)] => renderLiteral k ++ ':' :: compactChars v
  | (k, v) :: rest => renderLiteral k ++ ':' :: compactChars v ++ ',' :: compactMembers rest

end

/-- The start of a line inside so many open levels. -/
def newline (depth : Nat) : List Char :=
  '\n' :: List.replicate (2 * depth) ' '

mutual

def prettyChars (depth : Nat) : Json → List Char
  | .null => renderNull
  | .bool b => renderBool b
  | .number n => n.render
  | .string s => renderLiteral s
  | .array [] => ['[', ']']
  | .array (v :: rest) => '[' :: prettyItems (depth + 1) (v :: rest) ++ newline depth ++ [']']
  | .object [] => ['\x7b', '\x7d']
  | .object (m :: rest) => '\x7b' :: prettyMembers (depth + 1) (m :: rest) ++ newline depth ++ ['\x7d']

def prettyItems (depth : Nat) : List Json → List Char
  | [] => []
  | [v] => newline depth ++ prettyChars depth v
  | v :: rest => newline depth ++ prettyChars depth v ++ ',' :: prettyItems depth rest

def prettyMembers (depth : Nat) : List (Literal × Json) → List Char
  | [] => []
  | [(k, v)] => newline depth ++ renderLiteral k ++ ':' :: ' ' :: prettyChars depth v
  | (k, v) :: rest =>
    newline depth ++ renderLiteral k ++ ':' :: ' ' :: prettyChars depth v ++ ',' :: prettyMembers depth rest

end

def compact (v : Json) : String :=
  String.ofList (compactChars v)

def pretty (v : Json) : String :=
  String.ofList (prettyChars 0 v)

end ToneWatch.Json
