import Mathlib
import ToneWatch.Json.Quoted

namespace ToneWatch.Json.Quoted

/-- What an escaped character is read as: itself, or a code unit that stands for it. -/
inductive Stands : Piece → Char → Prop
  | char (c : Char) : Stands (.char c) c
  | unit (c : Char) (h : c.toNat < 32) : Stands (.unit c.toNat) c

theorem hexValue?_hexDigit : ∀ d < 16, hexValue? (hexDigit d) = some d := by decide

theorem hexUnit?_control {n : Nat} (h : n < 32) :
    hexUnit? '0' '0' (hexDigit (n / 16)) (hexDigit (n % 16)) = some n := by
  have hhigh := hexValue?_hexDigit (n / 16) (by omega)
  have hlow := hexValue?_hexDigit (n % 16) (by omega)
  have hzero : hexValue? '0' = some 0 := by decide
  simp only [hexUnit?, hzero, hhigh, hlow, Option.bind_eq_bind, Option.bind_some, Option.pure_def,
    Option.some.injEq]
  omega

theorem pieces?_escape (c : Char) (rest : List Char) :
    ∃ p, Stands p c ∧ pieces? (escape c ++ rest) = (pieces? rest).map (Prod.map (p :: ·) id) := by
  by_cases hshort : c ∈ ['"', '\\', '\x08', '\x0c', '\n', '\r', '\t']
  · refine ⟨.char c, .char c, ?_⟩
    simp only [List.mem_cons, List.not_mem_nil, or_false] at hshort
    rcases hshort with rfl | rfl | rfl | rfl | rfl | rfl | rfl <;> rfl
  · simp only [List.mem_cons, List.not_mem_nil, or_false, not_or] at hshort
    obtain ⟨hquote, hback, hb, hf, hn, hr, ht⟩ := hshort
    by_cases hcontrol : c.toNat < 32
    · refine ⟨.unit c.toNat, .unit c hcontrol, ?_⟩
      simp only [escape, hcontrol, if_true, List.cons_append, List.nil_append, pieces?,
        hexUnit?_control hcontrol]
    · refine ⟨.char c, .char c, ?_⟩
      simp [escape, hcontrol, pieces?, hback]

theorem pieces?_flatMap (cs rest : List Char) :
    ∃ ps, List.Forall₂ Stands ps cs ∧
      pieces? (cs.flatMap escape ++ '"' :: rest) = some (ps, rest) := by
  induction cs with
  | nil => exact ⟨[], .nil, rfl⟩
  | cons c cs ih =>
    obtain ⟨ps, hps, hread⟩ := ih
    obtain ⟨p, hp, hpiece⟩ := pieces?_escape c (cs.flatMap escape ++ '"' :: rest)
    refine ⟨p :: ps, .cons hp hps, ?_⟩
    rw [List.flatMap_cons, List.append_assoc, hpiece, hread]
    rfl

/-- A code unit below the surrogates stands for itself. -/
theorem chars?_control {n : Nat} (h : n < 32) (ps : List Piece) :
    chars? (.unit n :: ps) = (chars? ps).map (Char.ofNat n :: ·) := by
  have hhigh : isHigh n = false := by simp [isHigh]; omega
  have hlow : isLow n = false := by simp [isLow]; omega
  match ps with
  | [] | .char _ :: _ | .unit _ :: _ => simp [chars?, hhigh, hlow]

theorem chars?_of_stands {ps : List Piece} {cs : List Char} (h : List.Forall₂ Stands ps cs) :
    chars? ps = some cs := by
  induction h with
  | nil => rfl
  | cons hp _ ih =>
    cases hp with
    | char c => rw [chars?, ih, Option.map_some]
    | unit c hc => rw [chars?_control hc, ih, Option.map_some, Char.ofNat_toNat]

theorem literal?_render (s : String) (rest : List Char) :
    literal? (s.toList.flatMap escape ++ '"' :: rest) = some (some s, rest) := by
  obtain ⟨ps, hps, hread⟩ := pieces?_flatMap s.toList rest
  simp [literal?, hread, chars?_of_stands hps]

end ToneWatch.Json.Quoted
