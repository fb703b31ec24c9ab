import Mathlib
import ToneWatch.Settings.Number
import ToneWatch.Proofs.Numeric.Separation

namespace ToneWatch

open Single Scaled

namespace Decimal.Names

variable {d : Decimal} {r : ℕ}

theorem exponent_bounds (h : d.Names (r + 1)) (hr : r + 1 < infinityRank) :
    -60 ≤ d.exponent ∧ d.exponent ≤ 60 := by
  obtain ⟨hlow, hhigh, -⟩ := (readsBack_iff r).mp h.reads
  have hpos : (0 : ℚ) < 10 ^ d.exponent := by positivity
  rw [toRat_eq, midpoint_eq] at hlow hhigh
  constructor
  · by_contra! hlt
    have hle : (d.significand : ℚ) ≤ 10 ^ 9 := by exact_mod_cast h.le
    have hstep : (2 : ℚ) ^ (-150 : ℤ) ≤ 2 ^ (step r - 1) :=
      zpow_le_zpow_right₀ one_le_two (by have := step_ge r; omega)
    have hone : (1 : ℚ) ≤ (2 * steps r + 1 : ℕ) := by exact_mod_cast Nat.le_add_left 1 _
    refine absurd (?_ : (2 : ℚ) ^ (-150 : ℤ) ≤ 10 ^ 9 * 10 ^ (-61 : ℤ)) (by norm_num)
    calc (2 : ℚ) ^ (-150 : ℤ) ≤ 1 * 2 ^ (step r - 1) := by rwa [one_mul]
      _ ≤ (2 * steps r + 1 : ℕ) * 2 ^ (step r - 1) := by gcongr
      _ ≤ d.significand * 10 ^ d.exponent := hlow
      _ ≤ 10 ^ 9 * 10 ^ (-61 : ℤ) := by
        gcongr
        · norm_num
        · omega
  · by_contra! hgt
    have hone : (1 : ℚ) ≤ d.significand := by exact_mod_cast h.pos
    have hsteps : ((2 * steps (r + 1) + 1 : ℕ) : ℚ) ≤ 2 ^ 25 := by
      exact_mod_cast (by have := steps_lt (r + 1); omega : 2 * steps (r + 1) + 1 ≤ 2 ^ 25)
    refine absurd (?_ : (10 : ℚ) ^ (61 : ℤ) ≤ 2 ^ 25 * 2 ^ (103 : ℤ)) (by norm_num)
    calc (10 : ℚ) ^ (61 : ℤ) ≤ 10 ^ d.exponent := zpow_le_zpow_right₀ (by norm_num) (by omega)
      _ ≤ d.significand * 10 ^ d.exponent := le_mul_of_one_le_left hpos.le hone
      _ ≤ (2 * steps (r + 1) + 1 : ℕ) * 2 ^ (step (r + 1) - 1) := hhigh
      _ ≤ 2 ^ 25 * 2 ^ (103 : ℤ) := by
        have hstep := step_le_of_finite hr
        gcongr
        · exact one_le_two
        · omega

/-- Scaling keeps the decimal of a magnitude between the midpoints on both sides. -/
theorem readsBack_scaled (h : d.Names (r + 1)) (hr : r + 1 < infinityRank) :
    Shortest.readsBack (r + 1) (scaled d.significand d.exponent) = true := by
  have hside (i : ℕ) (hi : i = r ∨ i = r + 1) :
      cmp (scaled d.significand d.exponent) (midpoint i) = cmp d.toRat (midpoint i) := by
    have hstep := step_ge i
    have hstep' := step_le_of_finite (r := i) (by omega)
    have hsteps := steps_lt i
    have hfar : (2 : ℚ) ^ (step i - 1) ≤ 10 ^ d.exponent + |d.toRat - midpoint i| := by
      calc (2 : ℚ) ^ (step i - 1)
          = |magnitude (r + 1) - midpoint i| := (abs_magnitude_sub_midpoint hi).symm
        _ ≤ |magnitude (r + 1) - d.toRat| + |d.toRat - midpoint i| := abs_sub_le _ _ _
        _ ≤ 10 ^ d.exponent + |d.toRat - midpoint i| := by
          gcongr
          rw [abs_sub_comm]
          exact h.near
    rw [toRat_eq, midpoint_eq] at hfar ⊢
    exact Separation.cmp_scaled h.pos (h.exponent_bounds hr).1 (by omega) (by omega) (by omega)
      (by omega) hfar
  have hlow := hside r (.inl rfl)
  have hhigh := hside (r + 1) (.inr rfl)
  have hreads := h.reads
  rw [readsBack_iff, ← not_lt, ne_eq, ne_eq] at hreads ⊢
  rwa [lt_iff_lt_of_cmp_eq_cmp hlow, le_iff_le_of_cmp_eq_cmp hhigh, eq_iff_eq_of_cmp_eq_cmp hlow,
    eq_iff_eq_of_cmp_eq_cmp hhigh]

end Decimal.Names

namespace Numeral

open Digit

/-- The power of ten that the last digit counts. -/
def lastPlace (n : Numeral) : ℤ :=
  (match n.exponent with
    | none => 0
    | some e => if e.negative then -(toNat e.digits) else toNat e.digits) - n.fraction.length

theorem gather_eq {n : ℕ} {ds : List Digit} (h : extend n ds < 2 ^ 64) :
    gather n ds = (extend n ds, []) := by
  induction ds generalizing n with
  | nil => rfl
  | cons d ds ih =>
    have hle : n * 10 + d.val ≤ extend (n * 10 + d.val) ds := by
      rw [extend_eq]
      exact Nat.le_add_right_of_le (Nat.le_mul_of_pos_right _ (by positivity))
    rw [extend_cons] at h
    have hfits : n * 10 + d.val < 0x10000000000000000 := hle.trans_lt h
    rw [gather, if_pos hfits, ih h]
    rfl

theorem magnitude?_eq {n : Numeral} (h : toNat (n.whole ++ n.fraction) < 2 ^ 64)
    (he : ∀ e ∈ n.exponent, toNat e.digits ≤ exponentLimit) :
    magnitude? n = scale (Precision.double.round (toNat (n.whole ++ n.fraction))) n.lastPlace := by
  have hall : toNat (n.whole ++ n.fraction) = extend (extend 0 n.whole) n.fraction :=
    extend_append 0 n.whole n.fraction
  rw [hall] at h ⊢
  have hwhole : extend 0 n.whole < 2 ^ 64 := by
    rw [extend_eq] at h
    exact (Nat.le_add_right_of_le (Nat.le_mul_of_pos_right _ (by positivity))).trans_lt h
  unfold magnitude? lastPlace
  rw [gather_eq hwhole]
  simp only [gather_eq h]
  cases hexp : n.exponent with
  | none => simp [scale]
  | some e =>
    have hlimit := he e hexp
    simp only [not_lt.mpr hlimit, if_false]
    cases e.negative <;> simp [scale, sub_eq_add_neg, add_comm]

end Numeral

namespace Layout

variable (l : Layout) (negative : Bool) {ds : List Digit} {e : ℤ}

theorem plain_of_neg (ds : List Digit) (he : e < 0) :
    Digit.toNat ((l.plain negative ds e).whole ++ (l.plain negative ds e).fraction) = Digit.toNat ds ∧
      (l.plain negative ds e).lastPlace = e ∧ (l.plain negative ds e).fraction ≠ [] := by
  have hlength : (List.replicate (-(ds.length + e)).toNat Digit.zero ++
      ds.drop (ds.length + e).toNat).length = (-e).toNat := by
    rw [List.length_append, List.length_replicate, List.length_drop]
    omega
  have hne : List.replicate (-(ds.length + e)).toNat Digit.zero ++ ds.drop (ds.length + e).toNat ≠ [] :=
    List.length_pos_iff.mp (by omega)
  have hplain : l.plain negative ds e =
      { negative
        whole := if ds.length + e ≤ 0 then [Digit.zero] else ds.take (ds.length + e).toNat
        fraction := List.replicate (-(ds.length + e)).toNat Digit.zero ++
          ds.drop (ds.length + e).toNat } := by
    simp only [plain, decide_eq_false hne, Bool.false_and, Bool.false_eq_true, if_false,
      Int.toNat_of_nonpos he.le, List.replicate_zero, List.append_nil]
  rw [hplain]
  refine ⟨?_, ?_, hne⟩
  · dsimp only
    split_ifs with hpoint
    · -- the zero before the point counts for nothing
      change Digit.toNat (List.replicate _ Digit.zero ++ ds.drop _) = _
      rw [Int.toNat_of_nonpos hpoint, List.drop_zero, Digit.toNat_append, Digit.toNat_replicate_zero,
        Nat.zero_mul, Nat.zero_add]
    · rw [Int.toNat_of_nonpos (by omega : -(ds.length + e) ≤ 0), List.replicate_zero, List.nil_append,
        List.take_append_drop]
  · simp only [Numeral.lastPlace, hlength]
    omega

theorem plain_of_nonneg (hl : l.keepFraction = true) (hds : ds ≠ []) (he : 0 ≤ e) :
    Digit.toNat ((l.plain negative ds e).whole ++ (l.plain negative ds e).fraction) =
        Digit.toNat ds * 10 ^ e.toNat * 10 ∧
      (l.plain negative ds e).lastPlace = -1 ∧ (l.plain negative ds e).fraction ≠ [] := by
  have hpos := List.length_pos_iff.mpr hds
  have hpoint : ¬ (ds.length + e ≤ 0) := by omega
  have hplain : l.plain negative ds e =
      { negative
        whole := ds ++ List.replicate e.toNat Digit.zero
        fraction := [Digit.zero] } := by
    have hall : ds.length ≤ (ds.length + e).toNat := by omega
    simp only [plain, if_neg hpoint, List.take_of_length_le hall, List.drop_eq_nil_of_le hall,
      Int.toNat_of_nonpos (by omega : -(ds.length + e : ℤ) ≤ 0), List.replicate_zero, List.append_nil,
      hl, decide_true, Bool.and_true, if_true]
  rw [hplain]
  refine ⟨?_, rfl, List.cons_ne_nil _ _⟩
  dsimp only
  rw [Digit.toNat_append, Digit.toNat_append, Digit.toNat_replicate_zero, List.length_replicate]
  rfl

theorem scientific_spec (hds : ds ≠ []) (power : ℤ) :
    Digit.toNat ((scientific negative ds power).whole ++ (scientific negative ds power).fraction) =
        Digit.toNat ds ∧
      (scientific negative ds power).lastPlace = power - ds.length + 1 ∧
      ∀ x ∈ (scientific negative ds power).exponent, Digit.toNat x.digits = power.natAbs := by
  have hpos := List.length_pos_iff.mpr hds
  refine ⟨?_, ?_, ?_⟩
  · rw [scientific, List.take_append_drop]
  · simp only [scientific, Numeral.lastPlace, Digit.toNat_ofNat, List.length_drop, decide_eq_true_eq]
    split_ifs <;> omega
  · intro x hx
    obtain rfl := Option.mem_some_iff.mp hx
    exact Digit.toNat_ofNat _

theorem isPlain_plain (hds : ds ≠ []) (hhead : ds.head? ≠ some Digit.zero) :
    (l.plain negative ds e).Plain := by
  obtain ⟨d, rest, rfl⟩ := List.exists_cons_of_ne_nil hds
  have hwhole : (l.plain negative (d :: rest) e).whole = [Digit.zero] ∨
      ∃ more, (l.plain negative (d :: rest) e).whole = d :: more := by
    by_cases hpoint : ((d :: rest).length : ℤ) + e ≤ 0
    · exact .inl (if_pos hpoint)
    · obtain ⟨k, hk⟩ : ∃ k, (((d :: rest).length : ℤ) + e).toNat = k + 1 :=
        Nat.exists_eq_succ_of_ne_zero (by omega)
      right
      simp only [plain, if_neg hpoint, hk, List.take_succ_cons, List.cons_append]
      exact ⟨_, rfl⟩
  obtain hwhole | ⟨more, hwhole⟩ := hwhole
  · exact ⟨by simp [hwhole], by simp [hwhole], nofun⟩
  · refine ⟨by simp [hwhole], fun hz => absurd hz ?_, nofun⟩
    rw [hwhole]
    exact hhead

theorem isPlain_scientific (hds : ds ≠ []) (power : ℤ) : (scientific negative ds power).Plain := by
  obtain ⟨d, rest, rfl⟩ := List.exists_cons_of_ne_nil hds
  refine ⟨by simp [scientific], fun _ => rfl, fun x hx => ?_⟩
  obtain rfl := Option.mem_some_iff.mp hx
  exact Digit.ofNat_ne_nil _

end Layout

theorem Numeral.toSingle?_eq {n : Numeral} {q : ℚ} (hn : n.fraction ≠ [] ∨ n.exponent ≠ none)
    (hdigits : Digit.toNat (n.whole ++ n.fraction) < 2 ^ 64)
    (he : ∀ e ∈ n.exponent, Digit.toNat e.digits ≤ exponentLimit)
    (hq : scale (Precision.double.round (Digit.toNat (n.whole ++ n.fraction))) n.lastPlace = some q) :
    n.toSingle? = some (Single.ofRat n.negative q) := by
  have hpart : n.isMachineInt = false := by
    have hwhole : n.isWhole = false := by
      rw [isWhole, Bool.and_eq_false_iff]
      exact hn.imp decide_eq_false decide_eq_false
    rw [isMachineInt, hwhole]
    rfl
  rw [toSingle?, hpart, magnitude?_eq hdigits he, hq]
  rfl

namespace Layout

variable {x : Single} {r : ℕ}

theorem numeral_stored {x : Single} {d : Decimal} (hd : Shortest.decimal .toEven x.rank = d) :
    stored.numeral x = stored.plain x.negative (Digit.ofNat d.significand) d.exponent ∧
        (x.isZero = false → d.exponent + (Digit.ofNat d.significand).length ≤ 13) ∨
      stored.numeral x = scientific x.negative (Digit.ofNat d.significand)
          (d.exponent + (Digit.ofNat d.significand).length - 1) ∧ x.isZero = false := by
  have heq : stored.numeral x =
      if x.isZero || (-6 ≤ d.exponent + (Digit.ofNat d.significand).length - 1 &&
          d.exponent + (Digit.ofNat d.significand).length - 1 ≤ 12) then
        stored.plain x.negative (Digit.ofNat d.significand) d.exponent
      else scientific x.negative (Digit.ofNat d.significand)
        (d.exponent + (Digit.ofNat d.significand).length - 1) := by
    rw [← hd]
    rfl
  rw [heq]
  split_ifs with hcond
  · simp only [Bool.or_eq_true, Bool.and_eq_true, decide_eq_true_eq] at hcond
    refine .inl ⟨rfl, fun hzero => ?_⟩
    rw [hzero] at hcond
    have hle := (hcond.resolve_left Bool.false_ne_true).2
    omega
  · simp only [Bool.or_eq_true, not_or, Bool.not_eq_true] at hcond
    exact .inr ⟨rfl, hcond.1⟩

/-- The reader of a stored numeral takes it for the decimal, scaled at once, or for the very number. -/
theorem toSingle?_of_names {d : Decimal} (h : d.Names (r + 1)) (hr : r + 1 < infinityRank)
    (negative : Bool) {n : Numeral} (hneg : n.negative = negative)
    (hn : n.fraction ≠ [] ∨ n.exponent ≠ none)
    (he : ∀ e ∈ n.exponent, Digit.toNat e.digits ≤ exponentLimit)
    (hdigits : Digit.toNat (n.whole ++ n.fraction) = d.significand ∧ n.lastPlace = d.exponent ∨
      0 ≤ d.exponent ∧ d.significand * 10 ^ d.exponent.toNat < 10 ^ 13 ∧
        Digit.toNat (n.whole ++ n.fraction) = d.significand * 10 ^ d.exponent.toNat * 10 ∧
        n.lastPlace = -1) :
    n.toSingle? = some (ofRank negative (r + 1)) := by
  have hsingle {q : ℚ} (hreads : Shortest.readsBack (r + 1) q = true) :
      Single.ofRat negative q = ofRank negative (r + 1) := by
    have hlow := ((readsBack_iff r).mp hreads).1
    exact ofRat_magnitude negative hr (round_eq_magnitude hreads)
      ((magnitude_nonneg r).trans ((magnitude_lt_midpoint r).le.trans hlow))
  have hround {k : ℕ} (hk : k ≤ 2 ^ 53) : Precision.double.round k = k :=
    Precision.round_natCast (by decide) (by decide) hk
  obtain ⟨hall, hplace⟩ | ⟨hnonneg, hsmall, hall, hplace⟩ := hdigits
  · have hle := h.le
    obtain ⟨hlow, hhigh⟩ := h.exponent_bounds hr
    have hscale := scale_eq h.pos h.le hlow hhigh
    rw [← hround (by omega)] at hscale
    rw [Numeral.toSingle?_eq hn (by omega) he (by rw [hall, hplace]; exact hscale), hneg,
      hsingle (h.readsBack_scaled hr)]
  · have hscale : scale (Precision.double.round (d.significand * 10 ^ d.exponent.toNat * 10 : ℕ)) (-1) =
        some d.toRat := by
      have hpower : power 1 = 10 := by simpa using power_eq (n := 1) (by norm_num)
      have hten : (10 : ℚ) ^ d.exponent = 10 ^ d.exponent.toNat := by
        rw [← zpow_natCast, Int.toNat_of_nonneg hnonneg]
      have hrat : ((d.significand * 10 ^ d.exponent.toNat * 10 : ℕ) : ℚ) / 10 =
          (d.significand * 10 ^ d.exponent.toNat : ℕ) := by
        push_cast
        rw [mul_div_cancel_right₀ _ (by norm_num)]
      rw [hround (by omega), scale, if_pos (by norm_num)]
      change some (shrink _ 1) = _
      rw [shrink, if_pos (by decide), hpower, hrat, hround (by omega), Decimal.toRat_eq, hten]
      push_cast
      rfl
    rw [Numeral.toSingle?_eq hn (by omega) he (by rw [hall, hplace]; exact hscale), hneg,
      hsingle h.reads]

theorem toSingle?_numeral_of_pos {x : Single} (hx : x.rank = r + 1) (hr : r + 1 < infinityRank) :
    (stored.numeral x).toSingle? = some x := by
  have hnames := Shortest.decimal_names .toEven r
  rw [← hx] at hnames
  generalize hd : Shortest.decimal .toEven x.rank = d at hnames
  have hne := Digit.ofNat_ne_nil d.significand
  have hzero : x.isZero = false := by
    rw [isZero, hx]
    rfl
  have hread {n : Numeral} := toSingle?_of_names (hx ▸ hnames) hr x.negative (n := n)
  rw [← hx, ofRank_rank] at hread
  obtain ⟨heq, hpoint⟩ | ⟨heq, -⟩ := numeral_stored hd
  · rw [heq]
    obtain he | he := lt_or_ge d.exponent 0
    · obtain ⟨hdigits, hplace, hfraction⟩ := plain_of_neg stored x.negative (Digit.ofNat d.significand) he
      rw [Digit.toNat_ofNat] at hdigits
      exact hread rfl (.inl hfraction) nofun (.inl ⟨hdigits, hplace⟩)
    · obtain ⟨hdigits, hplace, hfraction⟩ := plain_of_nonneg stored x.negative rfl hne he
      rw [Digit.toNat_ofNat] at hdigits
      have hsmall : d.significand * 10 ^ d.exponent.toNat < 10 ^ 13 := by
        calc d.significand * 10 ^ d.exponent.toNat
            < 10 ^ (Digit.ofNat d.significand).length * 10 ^ d.exponent.toNat := by
              gcongr
              exact Digit.lt_pow_length_ofNat _
          _ = 10 ^ ((Digit.ofNat d.significand).length + d.exponent.toNat) := (pow_add _ _ _).symm
          _ ≤ 10 ^ 13 := Nat.pow_le_pow_right (by norm_num) (by have := hpoint hzero; omega)
      exact hread rfl (.inl hfraction) nofun (.inr ⟨he, hsmall, hdigits, hplace⟩)
  · rw [heq]
    obtain ⟨hdigits, hplace, hexp⟩ := scientific_spec x.negative hne
      (d.exponent + (Digit.ofNat d.significand).length - 1)
    rw [Digit.toNat_ofNat] at hdigits
    have hlength : (Digit.ofNat d.significand).length ≤ 10 := by
      have hle := (Digit.pow_length_ofNat_le hnames.pos.ne').trans hnames.le
      have hpow := (Nat.pow_le_pow_iff_right (by norm_num)).mp hle
      omega
    obtain ⟨hlow, hhigh⟩ := (hx ▸ hnames : d.Names (r + 1)).exponent_bounds hr
    refine hread rfl (.inr nofun) (fun e he => ?_) (.inl ⟨hdigits, by omega⟩)
    rw [hexp e he, exponentLimit]
    omega

theorem numeral_of_zero {x : Single} (hx : x.rank = 0) :
    stored.numeral x = { negative := x.negative, whole := [Digit.zero], fraction := [Digit.zero] } := by
  have hd : Shortest.decimal .toEven x.rank = ⟨0, 0⟩ := by
    rw [hx]
    rfl
  have hdigits : Digit.ofNat 0 = [Digit.zero] := by
    rw [Digit.ofNat]
    rfl
  obtain ⟨heq, -⟩ | ⟨-, hzero⟩ := numeral_stored hd
  · rw [heq, hdigits]
    rfl
  · rw [isZero, hx] at hzero
    cases hzero

/-- A finite number is read back from the numeral that it is stored as. -/
theorem toSingle?_numeral {x : Single} (h : x.isFinite = true) :
    (stored.numeral x).toSingle? = some x := by
  have hr : x.rank < infinityRank := of_decide_eq_true h
  cases hx : x.rank with
  | zero =>
    have hread (negative : Bool) :
        ({ negative, whole := [Digit.zero], fraction := [Digit.zero] } : Numeral).toSingle? =
          some (ofRank negative 0) := by
      cases negative <;> decide +kernel
    rw [numeral_of_zero hx, hread, ← hx, ofRank_rank]
  | succ r => exact toSingle?_numeral_of_pos hx (hx ▸ hr)

theorem isPlain_stored (x : Single) : (stored.numeral x).Plain := by
  cases hx : x.rank with
  | zero =>
    rw [numeral_of_zero hx]
    exact ⟨by simp, by simp, nofun⟩
  | succ r =>
    have hnames := Shortest.decimal_names .toEven r
    rw [← hx] at hnames
    obtain ⟨heq, -⟩ | ⟨heq, -⟩ := numeral_stored (rfl : Shortest.decimal .toEven x.rank = _)
    · rw [heq]
      exact isPlain_plain _ _ (Digit.ofNat_ne_nil _) (Digit.head_ofNat hnames.pos.ne')
    · rw [heq]
      exact isPlain_scientific _ (Digit.ofNat_ne_nil _) _

end Layout

end ToneWatch
