import Mathlib
import ToneWatch.Numeric.Numeral

namespace ToneWatch

namespace Digit

theorem extend_append (n : Nat) (ds es : List Digit) : extend n (ds ++ es) = extend (extend n ds) es :=
  List.foldl_append

theorem extend_cons (n : Nat) (d : Digit) (ds : List Digit) :
    extend n (d :: ds) = extend (n * 10 + d.val) ds := rfl

theorem extend_eq (n : Nat) (ds : List Digit) : extend n ds = n * 10 ^ ds.length + toNat ds := by
  induction ds generalizing n with
  | nil => simp [extend, toNat]
  | cons d ds ih =>
    have htail : toNat (d :: ds) = d.val * 10 ^ ds.length + toNat ds := by
      rw [toNat, extend_cons, ih, Nat.zero_mul, Nat.zero_add]
    rw [extend_cons, ih, htail, List.length_cons, pow_succ]
    ring

theorem toNat_append (ds es : List Digit) : toNat (ds ++ es) = toNat ds * 10 ^ es.length + toNat es :=
  (extend_append 0 ds es).trans (extend_eq _ es)

theorem toNat_replicate_zero (k : Nat) : toNat (List.replicate k zero) = 0 := by
  induction k with
  | zero => rfl
  | succ k ih =>
    rw [List.replicate_succ', toNat_append, ih]
    rfl

theorem toNat_ofNat (n : Nat) : toNat (ofNat n) = n := by
  fun_induction ofNat n with
  | case1 n h => simp [toNat, extend]
  | case2 n h ih =>
    rw [toNat_append, ih]
    simp only [toNat, extend, List.foldl_cons, List.foldl_nil, List.length_singleton]
    omega

theorem length_ofNat_pos (n : Nat) : 0 < (ofNat n).length := by
  rw [ofNat]
  split <;> simp

theorem ofNat_ne_nil (n : Nat) : ofNat n ≠ [] := List.length_pos_iff.mp (length_ofNat_pos n)

theorem lt_pow_length_ofNat (n : Nat) : n < 10 ^ (ofNat n).length := by
  fun_induction ofNat n with
  | case1 n h => simpa using h
  | case2 n h ih =>
    rw [List.length_append, List.length_singleton, pow_succ]
    omega

theorem pow_length_ofNat_le {n : Nat} (hn : n ≠ 0) : 10 ^ ((ofNat n).length - 1) ≤ n := by
  fun_induction ofNat n with
  | case1 n h => simpa using Nat.one_le_iff_ne_zero.mpr hn
  | case2 n h ih =>
    have hpos := length_ofNat_pos (n / 10)
    have hpow := ih (by omega)
    obtain ⟨k, hk⟩ : ∃ k, (ofNat (n / 10)).length = k + 1 := ⟨(ofNat (n / 10)).length - 1, by omega⟩
    rw [List.length_append, List.length_singleton, hk, Nat.add_sub_cancel, pow_succ]
    rw [hk, Nat.add_sub_cancel] at hpow
    omega

theorem head_ofNat {n : Nat} (hn : n ≠ 0) : (ofNat n).head? ≠ some zero := by
  fun_induction ofNat n with
  | case1 n h =>
    rw [List.head?_cons, ne_eq, Option.some.injEq, zero, Fin.mk.injEq]
    exact hn
  | case2 n h ih =>
    rw [List.head?_append_of_ne_nil _ (ofNat_ne_nil _)]
    exact ih (by omega)

theorem ofChar?_toChar : ∀ d : Digit, ofChar? d.toChar = some d := by decide

end Digit

namespace Numeral

open Digit

/-- A numeral without a needless zero in front or an exponent without digits. -/
structure Plain (n : Numeral) : Prop where
  whole_ne_nil : n.whole ≠ []
  whole_head : n.whole.head? = some zero → n.whole.length = 1
  exponent_ne_nil : ∀ e ∈ n.exponent, e.digits ≠ []

theorem leadingDigits_append (ds : List Digit) {rest : List Char}
    (h : ∀ c ∈ rest.head?, ofChar? c = none) :
    leadingDigits (ds.map toChar ++ rest) = (ds, rest) := by
  induction ds with
  | nil =>
    cases rest with
    | nil => rfl
    | cons c rest => simp [leadingDigits, h c rfl]
  | cons d ds ih => simp [leadingDigits, ofChar?_toChar, ih]

theorem leadingDigits_map (ds : List Digit) : leadingDigits (ds.map toChar) = (ds, []) := by
  simpa using leadingDigits_append ds (by simp : ∀ c ∈ ([] : List Char).head?, ofChar? c = none)

def renderFraction (ds : List Digit) : List Char :=
  if ds = [] then [] else '.' :: ds.map toChar

def renderExponent : Option Exponent → List Char
  | none => []
  | some e => 'e' :: (if e.negative then '-' else '+') :: e.digits.map toChar

theorem render_eq (n : Numeral) : n.render =
    (if n.negative then ['-'] else []) ++
      (n.whole.map toChar ++ (renderFraction n.fraction ++ renderExponent n.exponent)) := by
  rw [render]
  simp only [List.append_assoc]
  rfl

theorem exponent?_render {e : Option Exponent} (h : ∀ e' ∈ e, e'.digits ≠ []) :
    exponent? (renderExponent e) = some e := by
  cases e with
  | none => rfl
  | some e =>
    obtain ⟨negative, digits⟩ := e
    obtain ⟨d, ds, rfl⟩ := List.exists_cons_of_ne_nil (h _ rfl)
    cases negative <;> simp [renderExponent, exponent?, splitSign, leadingDigits, ofChar?_toChar,
      leadingDigits_map]

theorem fraction?_render (ds : List Digit) (e : Option Exponent) :
    fraction? true (renderFraction ds ++ renderExponent e) = some (ds, renderExponent e) := by
  have hstop : ∀ c ∈ (renderExponent e).head?, ofChar? c = none := by
    cases e with
    | none => simp [renderExponent]
    | some e =>
      have he : ofChar? 'e' = none := by decide
      simp [renderExponent, he]
  cases ds with
  | nil =>
    cases e <;> rfl
  | cons d ds =>
    have hread := leadingDigits_append (d :: ds) hstop
    simp only [renderFraction, reduceCtorEq, if_false, List.cons_append, fraction?, hread]
    simp

theorem parse?_render {n : Numeral} (h : n.Plain) : parse? n.render = some n := by
  obtain ⟨negative, whole, fraction, exponent⟩ := n
  obtain ⟨hne, hhead, hexp⟩ := h
  simp only at hne hhead hexp
  have hstop : ∀ c ∈ (renderFraction fraction ++ renderExponent exponent).head?, ofChar? c = none := by
    have hpoint : ofChar? '.' = none := by decide
    have he : ofChar? 'e' = none := by decide
    cases fraction <;> cases exponent <;> simp [renderFraction, renderExponent, hpoint, he]
  have hread := leadingDigits_append whole hstop
  have hrest := fraction?_render fraction exponent
  have hexp' := exponent?_render hexp
  have hzero : (whole = [] || (whole.head? = some Digit.zero && whole.length ≠ 1)) = false := by
    simpa [hne] using hhead
  cases negative with
  | true =>
    rw [render_eq]
    simp only [parse?, if_true, List.cons_append, List.nil_append, hread, hrest, hexp', hzero,
      Bool.false_eq_true, if_false, Option.bind_eq_bind, Option.bind_some]
    rfl
  | false =>
    have hsign : ∀ r, whole.map toChar ++ (renderFraction fraction ++ renderExponent exponent) =
        '-' :: r → False := by
      obtain ⟨d, ds, rfl⟩ := List.exists_cons_of_ne_nil hne
      have hd : ∀ d : Digit, d.toChar ≠ '-' := by decide
      intro r hr
      exact hd d (List.cons.inj hr).1
    rw [render_eq]
    simp only [parse?, Bool.false_eq_true, if_false, List.nil_append, hread, hrest, hexp', hzero,
      Option.bind_eq_bind, Option.bind_some]
    rfl

end Numeral

end ToneWatch
