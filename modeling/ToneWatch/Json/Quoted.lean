import ToneWatch.Json.Value

namespace ToneWatch.Json.Quoted

def hexDigit (n : Nat) : Char :=
  Char.ofNat (if n < 10 then n + 48 else n + 87)

def hexValue? (c : Char) : Option Nat :=
  if '0' ≤ c && c ≤ '9' then some (c.toNat - 48)
  else if 'a' ≤ c && c ≤ 'f' then some (c.toNat - 87)
  else if 'A' ≤ c && c ≤ 'F' then some (c.toNat - 55)
  else none

def escape (c : Char) : List Char :=
  match c with
  | '"' => ['\\', '"']
  | '\\' => ['\\', '\\']
  | '\x08' => ['\\', 'b']
  | '\x0c' => ['\\', 'f']
  | '\n' => ['\\', 'n']
  | '\r' => ['\\', 'r']
  | '\t' => ['\\', 't']
  | c =>
    if c.toNat < 32 then ['\\', 'u', '0', '0', hexDigit (c.toNat / 16), hexDigit (c.toNat % 16)]
    else [c]

def render (s : String) : List Char :=
  '"' :: s.toList.flatMap escape ++ ['"']

def unescape? : Char → Option Char
  | '"' => some '"'
  | '\\' => some '\\'
  | '/' => some '/'
  | 'b' => some '\x08'
  | 'f' => some '\x0c'
  | 'n' => some '\n'
  | 'r' => some '\r'
  | 't' => some '\t'
  | _ => none

/-- A part of a literal: a character, or a code unit of sixteen bits. -/
inductive Piece where
  | char (c : Char)
  | unit (n : Nat)

def hexUnit? (a b c d : Char) : Option Nat := do
  return ((((← hexValue? a) * 16 + (← hexValue? b)) * 16) + (← hexValue? c)) * 16 + (← hexValue? d)

/-- The pieces of a literal, from after its opening quote, and the text after its closing quote. -/
def pieces? : List Char → Option (List Piece × List Char)
  | [] => none
  | '"' :: rest => some ([], rest)
  | '\\' :: 'u' :: a :: b :: c :: d :: rest =>
    match hexUnit? a b c d with
    | none => none
    | some n => (pieces? rest).map (Prod.map (.unit n :: ·) id)
  | '\\' :: e :: rest =>
    match unescape? e with
    | none => none
    | some c => (pieces? rest).map (Prod.map (.char c :: ·) id)
  | c :: rest =>
    if c.toNat < 32 || c = '\\' then none else (pieces? rest).map (Prod.map (.char c :: ·) id)

def isHigh (n : Nat) : Bool := 0xd800 ≤ n && n < 0xdc00

def isLow (n : Nat) : Bool := 0xdc00 ≤ n && n < 0xe000

/-- The characters of the pieces; a high and a low unit make one, alone they make none. -/
def chars? : List Piece → Option (List Char)
  | [] => some []
  | .char c :: rest => (chars? rest).map (c :: ·)
  | .unit a :: .unit b :: rest =>
    if isHigh a && isLow b then
      (chars? rest).map (Char.ofNat (0x10000 + (a - 0xd800) * 0x400 + (b - 0xdc00)) :: ·)
    else if isHigh a || isLow a then none
    else (chars? (.unit b :: rest)).map (Char.ofNat a :: ·)
  | .unit a :: rest =>
    if isHigh a || isLow a then none else (chars? rest).map (Char.ofNat a :: ·)

/-- A literal from after its opening quote, and the text after its closing quote. -/
def literal? (s : List Char) : Option (Literal × List Char) :=
  (pieces? s).map fun (ps, after) => ((chars? ps).map String.ofList, after)

theorem length_of_pieces? {s : List Char} {p : List Piece × List Char} (h : pieces? s = some p) :
    p.2.length < s.length := by
  fun_induction pieces? s generalizing p with
  | case1 => simp at h
  | case2 rest => simp only [Option.some.injEq] at h; simp [← h]
  | case3 => simp at h
  | case4 a b c d rest n _ ih =>
    obtain ⟨q, hq, rfl⟩ := Option.map_eq_some_iff.1 h
    have := ih hq
    simp only [Prod.map_snd, id_eq, List.length_cons]; omega
  | case5 => simp at h
  | case6 e rest _ c _ ih =>
    obtain ⟨q, hq, rfl⟩ := Option.map_eq_some_iff.1 h
    have := ih hq
    simp only [Prod.map_snd, id_eq, List.length_cons]; omega
  | case7 => simp at h
  | case8 c rest _ _ _ _ ih =>
    obtain ⟨q, hq, rfl⟩ := Option.map_eq_some_iff.1 h
    have := ih hq
    simp only [Prod.map_snd, id_eq, List.length_cons]; omega

theorem length_of_literal? {s : List Char} {t : Literal × List Char} (h : literal? s = some t) :
    t.2.length < s.length := by
  obtain ⟨p, hp, rfl⟩ := Option.map_eq_some_iff.1 h
  exact length_of_pieces? hp

end ToneWatch.Json.Quoted
