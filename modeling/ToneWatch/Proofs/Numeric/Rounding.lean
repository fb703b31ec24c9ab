import Mathlib
import ToneWatch.Numeric.Extended
import ToneWatch.Numeric.Single

namespace ToneWatch

theorem twoPow_eq (k : Int) : twoPow k = (2 : ℚ) ^ k := by
  cases k with
  | ofNat n => simp [twoPow, Nat.one_shiftLeft]
  | negSucc n =>
    rw [twoPow, Nat.one_shiftLeft, zpow_negSucc, Rat.mkRat_eq_div]
    simp

theorem roundHalfEven_eq (q : ℚ) :
    q ≤ q.floor + 1 / 2 ∧ roundHalfEven q = q.floor ∨
      (q.floor : ℚ) + 1 / 2 ≤ q ∧ roundHalfEven q = q.floor + 1 := by
  have hhalf : mkRat 1 2 = (1 / 2 : ℚ) := by norm_num [Rat.mkRat_eq_div]
  unfold roundHalfEven
  simp only [hhalf]
  by_cases hlt : q - q.floor < 1 / 2
  · exact .inl ⟨by linarith, if_pos hlt⟩
  · have hle : (q.floor : ℚ) + 1 / 2 ≤ q := by linarith
    rw [if_neg hlt]
    split_ifs with hgt
    · exact .inr ⟨hle, rfl⟩
    · obtain h | h := Int.emod_two_eq_zero_or_one q.floor
      · rw [h, add_zero]
        exact .inl ⟨by linarith, rfl⟩
      · rw [h]
        exact .inr ⟨hle, rfl⟩

theorem roundHalfEven_le {q : ℚ} {m : ℤ} (h : q ≤ m) : roundHalfEven q ≤ m := by
  obtain ⟨-, he⟩ | ⟨hle, he⟩ := roundHalfEven_eq q
  · rw [he]
    exact Int.cast_le.mp ((Rat.floor_le q).trans h)
  · rw [he]
    have hlt : (q.floor : ℚ) < m := by linarith
    exact Int.cast_lt.mp hlt

theorem le_roundHalfEven {q : ℚ} {m : ℤ} (h : m ≤ q) : m ≤ roundHalfEven q := by
  have hfloor : m ≤ q.floor := Rat.le_floor_iff.mpr h
  obtain ⟨-, he⟩ | ⟨-, he⟩ := roundHalfEven_eq q
  · rwa [he]
  · omega

theorem abs_roundHalfEven_sub_le (q : ℚ) : |(roundHalfEven q : ℚ) - q| ≤ 1 / 2 := by
  have hfloor := Rat.floor_le q
  have hceil : q < q.floor + 1 := by exact_mod_cast Rat.lt_floor_add_one q
  rw [abs_le]
  obtain ⟨hle, he⟩ | ⟨hle, he⟩ := roundHalfEven_eq q
  · rw [he]
    constructor <;> linarith
  · rw [he, Int.cast_add, Int.cast_one]
    constructor <;> linarith

theorem log2_bounds {n : Nat} (hn : n ≠ 0) :
    (2 : ℚ) ^ (n.log2 : ℤ) ≤ n ∧ (n : ℚ) < 2 ^ (n.log2 + 1 : ℤ) := by
  constructor
  · rw [zpow_natCast]
    exact_mod_cast Nat.log2_self_le hn
  · exact_mod_cast Nat.lt_log2_self (n := n)

theorem between_powers {b q : ℚ} (hb : 0 < b) (hq : 0 < q) {i j : ℤ}
    (hnum : b ^ i ≤ q.num.natAbs ∧ (q.num.natAbs : ℚ) < b ^ (i + 1))
    (hden : b ^ j ≤ q.den ∧ (q.den : ℚ) < b ^ (j + 1)) :
    b ^ (i - j - 1) ≤ q ∧ q < b ^ (i - j + 1) := by
  have hpos : (0 : ℚ) < q.den := by exact_mod_cast q.den_pos
  have hmul : q * q.den = q.num.natAbs := by
    rw [Rat.mul_den_eq_num, Nat.cast_natAbs, abs_of_pos (Rat.num_pos.mpr hq)]
  generalize (q.num.natAbs : ℚ) = a at *
  generalize (q.den : ℚ) = d at *
  constructor
  · -- a smaller numerator over a larger denominator
    rw [show i - j - 1 = i - (j + 1) by ring, zpow_sub₀ hb.ne', div_le_iff₀ (zpow_pos hb _)]
    calc b ^ i ≤ q * d := by rw [hmul]; exact hnum.1
      _ ≤ q * b ^ (j + 1) := by
        gcongr
        exact hden.2.le
  · rw [show i - j + 1 = i + 1 - j by ring, zpow_sub₀ hb.ne', lt_div_iff₀ (zpow_pos hb _)]
    calc q * b ^ j ≤ q * d := by
          gcongr
          exact hden.1
      _ < b ^ (i + 1) := by rw [hmul]; exact hnum.2

theorem binaryExponent_spec {q : ℚ} (hq : 0 < q) :
    (2 : ℚ) ^ binaryExponent q ≤ q ∧ q < (2 : ℚ) ^ (binaryExponent q + 1) := by
  have hnum : q.num.natAbs ≠ 0 := Int.natAbs_ne_zero.mpr (Rat.num_pos.mpr hq).ne'
  obtain ⟨hlower, hupper⟩ := between_powers two_pos hq (log2_bounds hnum) (log2_bounds q.den_ne_zero)
  unfold binaryExponent
  simp only [twoPow_eq]
  split_ifs with h
  · rw [sub_add_cancel]
    exact ⟨hlower, h⟩
  · exact ⟨not_lt.mp h, hupper⟩

namespace Precision

variable {p : Precision} {q v : ℚ}

/-- Whether a number is so many of a unit that the precision has, within its bits. -/
def Fits (p : Precision) (v : ℚ) : Prop :=
  ∃ (m : ℕ) (e : ℤ), m ≤ 2 ^ p.bits ∧ p.finest ≤ e ∧ v = m * 2 ^ e

theorem unit_of_pos (hq : 0 < q) :
    p.unit q = max p.finest (binaryExponent q + 1 - p.bits) := by
  have habs : q.abs = q := if_pos hq.le
  unfold unit
  simp only [habs]
  split_ifs with h
  · have hlt : binaryExponent q + 1 - p.bits < p.finest := h.resolve_left hq.ne'
    omega
  · rw [not_or] at h
    omega

theorem round_eq (q : ℚ) :
    p.round q = roundHalfEven (q / 2 ^ p.unit q) * 2 ^ p.unit q := by
  rw [round, twoPow_eq]

theorem round_zero : p.round 0 = 0 := by
  have hzero : roundHalfEven 0 = 0 :=
    le_antisymm (roundHalfEven_le (by simp)) (le_roundHalfEven (by simp))
  rw [round_eq, zero_div, hzero, Int.cast_zero, zero_mul]

/-- What is a whole number of the unit of rounding bounds the rounded number. -/
theorem mul_le_round {k : ℤ} (h : k * 2 ^ p.unit q ≤ q) : k * 2 ^ p.unit q ≤ p.round q := by
  have hpos : (0 : ℚ) < 2 ^ p.unit q := zpow_pos two_pos _
  rw [round_eq]
  gcongr
  exact le_roundHalfEven ((le_div_iff₀ hpos).mpr h)

theorem round_le_mul {k : ℤ} (h : q ≤ k * 2 ^ p.unit q) : p.round q ≤ k * 2 ^ p.unit q := by
  have hpos : (0 : ℚ) < 2 ^ p.unit q := zpow_pos two_pos _
  rw [round_eq]
  gcongr
  exact roundHalfEven_le ((div_le_iff₀ hpos).mpr h)

/-- A number that fits is a whole number of the unit of rounding, or lies below the power of two that
the rounded number has reached. -/
theorem Fits.cases (hb : 0 < p.bits) (hq : 0 < q) (hv : p.Fits v) :
    (∃ k : ℤ, v = k * 2 ^ p.unit q) ∨
      v ≤ 2 ^ binaryExponent q ∧
        (2 : ℚ) ^ binaryExponent q = (2 ^ (p.bits - 1) : ℤ) * 2 ^ p.unit q := by
  obtain ⟨m, e, hm, he, rfl⟩ := hv
  have hu := unit_of_pos (p := p) hq
  obtain hle | hlt := le_or_gt (p.unit q) e
  · left
    refine ⟨m * 2 ^ (e - p.unit q).toNat, ?_⟩
    have hpow : (2 : ℚ) ^ e = 2 ^ (e - p.unit q).toNat * 2 ^ p.unit q := by
      rw [← zpow_natCast, Int.toNat_of_nonneg (by omega), ← zpow_add₀ two_ne_zero, sub_add_cancel]
    rw [hpow]
    push_cast
    ring
  · right
    have hexp : binaryExponent q = ((p.bits - 1 : ℕ) : ℤ) + p.unit q := by omega
    have hpow : (2 : ℚ) ^ binaryExponent q = (2 ^ (p.bits - 1) : ℤ) * 2 ^ p.unit q := by
      rw [hexp, zpow_add₀ two_ne_zero, zpow_natCast]
      push_cast
      rfl
    refine ⟨?_, hpow⟩
    calc (m : ℚ) * 2 ^ e ≤ 2 ^ p.bits * 2 ^ e := by
          gcongr
          exact_mod_cast hm
      _ = 2 ^ ((p.bits : ℤ) + e) := by rw [zpow_add₀ two_ne_zero, zpow_natCast]
      _ ≤ 2 ^ binaryExponent q := zpow_le_zpow_right₀ one_le_two (by omega)

theorem Fits.le_round (hb : 0 < p.bits) (hv : p.Fits v) (hq : 0 < q) (h : v ≤ q) :
    v ≤ p.round q := by
  obtain ⟨k, rfl⟩ | ⟨hle, hpow⟩ := hv.cases hb hq
  · exact mul_le_round h
  · refine hle.trans ?_
    rw [hpow]
    apply mul_le_round
    rw [← hpow]
    exact (binaryExponent_spec hq).1

theorem Fits.round_le (hb : 0 < p.bits) (hv : p.Fits v) (hq : 0 < q) (h : q ≤ v) :
    p.round q ≤ v := by
  obtain ⟨k, rfl⟩ | ⟨hle, hpow⟩ := hv.cases hb hq
  · exact round_le_mul h
  · have hlow := (binaryExponent_spec hq).1
    have heq : q = 2 ^ binaryExponent q := le_antisymm (h.trans hle) hlow
    have hround : p.round q ≤ 2 ^ binaryExponent q := by
      rw [hpow]
      apply round_le_mul
      rw [← hpow]
      exact heq.le
    exact (hround.trans hlow).trans h

theorem abs_round_sub_le (q : ℚ) : |p.round q - q| ≤ 2 ^ p.unit q / 2 := by
  have hpos : (0 : ℚ) < 2 ^ p.unit q := zpow_pos two_pos _
  calc |p.round q - q|
      = |(roundHalfEven (q / 2 ^ p.unit q) - q / 2 ^ p.unit q) * 2 ^ p.unit q| := by
        rw [round_eq, sub_mul, div_mul_cancel₀ _ hpos.ne']
    _ = |(roundHalfEven (q / 2 ^ p.unit q) : ℚ) - q / 2 ^ p.unit q| * 2 ^ p.unit q := by
        rw [abs_mul, abs_of_pos hpos]
    _ ≤ 1 / 2 * 2 ^ p.unit q := by
        gcongr
        exact abs_roundHalfEven_sub_le _
    _ = 2 ^ p.unit q / 2 := one_div_mul_eq_div _ _

/-- A number that has all bits of the precision is changed by no more than a part of it. -/
theorem abs_round_sub_le_mul (hq : 2 ^ (p.finest + p.bits - 1) ≤ q) :
    |p.round q - q| ≤ q * 2 ^ (-p.bits : ℤ) := by
  have hpos : 0 < q := (zpow_pos two_pos _).trans_le hq
  obtain ⟨hlow, hhigh⟩ := binaryExponent_spec hpos
  have hunit : p.unit q = binaryExponent q + 1 - p.bits := by
    have hlt := (zpow_lt_zpow_iff_right₀ one_lt_two).mp (hq.trans_lt hhigh)
    rw [unit_of_pos hpos]
    omega
  calc |p.round q - q| ≤ 2 ^ p.unit q / 2 := abs_round_sub_le q
    _ = 2 ^ binaryExponent q * 2 ^ (-p.bits : ℤ) := by
        rw [hunit, add_sub_assoc, zpow_add₀ two_ne_zero, sub_eq_add_neg, zpow_add₀ two_ne_zero]
        ring
    _ ≤ q * 2 ^ (-p.bits : ℤ) := by gcongr

theorem Fits.natCast (hf : p.finest ≤ 0) {n : ℕ} (hn : n ≤ 2 ^ p.bits) : p.Fits n :=
  ⟨n, 0, hn, hf, by simp⟩

theorem Fits.round_eq_self (hb : 0 < p.bits) (hv : p.Fits v) (h0 : 0 ≤ v) : p.round v = v := by
  obtain rfl | hq := h0.eq_or_lt
  · exact round_zero
  · exact le_antisymm (hv.round_le hb hq le_rfl) (hv.le_round hb hq le_rfl)

theorem round_natCast (hb : 0 < p.bits) (hf : p.finest ≤ 0) {n : ℕ} (hn : n ≤ 2 ^ p.bits) :
    p.round n = n :=
  (Fits.natCast hf hn).round_eq_self hb n.cast_nonneg

end Precision

theorem truncate_natCast (n : ℕ) : truncate (n : ℚ) = n := by
  have hn : ¬ ((n : ℚ) < 0) := not_lt.mpr n.cast_nonneg
  rw [truncate, if_neg hn]
  exact_mod_cast Rat.floor_intCast (n : ℤ)

theorem truncate_lt {q : ℚ} {n : ℕ} (hn : 0 < n) (h : q < n) : truncate q < n := by
  unfold truncate
  split_ifs with hq
  · have hceil : q.ceil ≤ 0 := Rat.ceil_le_iff.mpr hq.le
    omega
  · exact Rat.floor_lt_iff.mpr h

namespace Single

theorem magnitude_le_of_lt_one {rank : ℕ} (h : magnitude rank < 1) :
    magnitude rank ≤ 1 - 2 ^ (-24 : ℤ) := by
  unfold magnitude at h ⊢
  simp only [twoPow_eq] at h ⊢
  split_ifs with hb
  · have hr : (rank : ℚ) ≤ 2 ^ 23 := by
      have hr : rank ≤ 2 ^ 23 := by omega
      exact_mod_cast hr
    calc (rank : ℚ) * 2 ^ (-149 : ℤ) ≤ 2 ^ 23 * 2 ^ (-149 : ℤ) := by gcongr
      _ ≤ 1 - 2 ^ (-24 : ℤ) := by norm_num
  · rw [if_neg hb] at h
    have hm : 2 ^ 23 ≤ 0x800000 + rank % 0x800000 ∧ 0x800000 + rank % 0x800000 + 1 ≤ 2 ^ 24 := by
      omega
    generalize 0x800000 + rank % 0x800000 = k at hm h
    have hk1 : (2 : ℚ) ^ 23 ≤ k := by exact_mod_cast hm.1
    have hk2 : (k : ℚ) + 1 ≤ 2 ^ 24 := by exact_mod_cast hm.2
    by_cases hbin : rank / 0x800000 ≤ 126
    · calc (k : ℚ) * 2 ^ (((rank / 0x800000 : ℕ) : ℤ) - 150)
          ≤ (2 ^ 24 - 1) * 2 ^ (-24 : ℤ) := by
            gcongr
            · linarith
            · norm_num
            · omega
        _ = 1 - 2 ^ (-24 : ℤ) := by norm_num
    · have hone : (1 : ℚ) ≤ k * 2 ^ (((rank / 0x800000 : ℕ) : ℤ) - 150) := by
        calc (1 : ℚ) = 2 ^ 23 * 2 ^ (-23 : ℤ) := by norm_num
          _ ≤ k * 2 ^ (((rank / 0x800000 : ℕ) : ℤ) - 150) := by
            gcongr
            · norm_num
            · omega
      exact absurd h (not_lt.mpr hone)

theorem magnitude_nonneg (rank : ℕ) : 0 ≤ magnitude rank := by
  unfold magnitude
  simp only [twoPow_eq]
  split_ifs <;> positivity

theorem toRat_le_of_lt_one {x : Single} (h : x.toRat < 1) : x.toRat ≤ 1 - 2 ^ (-24 : ℤ) := by
  unfold toRat at h ⊢
  split_ifs at h ⊢
  · have h0 := magnitude_nonneg x.rank
    have h24 : (0 : ℚ) ≤ 1 - 2 ^ (-24 : ℤ) := by norm_num
    linarith
  · exact magnitude_le_of_lt_one h

/-- A part of a count stays below the count when it is rounded. -/
theorem round_mul_lt {x : Single} {n : ℕ} (hn : 0 < n) (h0 : 0 < x.toRat) (h1 : x.toRat < 1) :
    Precision.single.round (n * x.toRat) < n := by
  have hx := toRat_le_of_lt_one h1
  have hone : (1 : ℚ) ≤ n := by exact_mod_cast hn
  generalize x.toRat = y at *
  have hq : 0 < n * y := by positivity
  have hround := sub_le_iff_le_add'.mp ((abs_le.mp (Precision.abs_round_sub_le (p := .single) (n * y))).2)
  have hunit := Precision.unit_of_pos (p := .single) hq
  have hexp := (binaryExponent_spec hq).1
  have hy : n * y ≤ n * (1 - 2 ^ (-24 : ℤ)) := by gcongr
  obtain hfine | hcoarse : Precision.single.unit (n * y) = -149 ∨
      Precision.single.unit (n * y) = binaryExponent (n * y) - 23 := by
    simp only [Precision.single] at hunit ⊢
    omega
  · rw [hfine] at hround
    norm_num at hround hy ⊢
    linarith
  · have hhalf : (2 : ℚ) ^ (binaryExponent (n * y) - 23) / 2 =
        2 ^ binaryExponent (n * y) * 2 ^ (-24 : ℤ) := by
      rw [zpow_sub₀ two_ne_zero]
      norm_num
      ring
    rw [hcoarse, hhalf] at hround
    calc Precision.single.round (n * y) ≤ n * y + 2 ^ binaryExponent (n * y) * 2 ^ (-24 : ℤ) := hround
      _ ≤ n * y + n * y * 2 ^ (-24 : ℤ) := by gcongr
      _ < n := by
        norm_num at hy ⊢
        linarith

end Single

namespace Extended

open Precision

variable {p : Precision} {v : ℚ} {x : Extended}

/-- Whether a result is no less than a number; an overflow is more than any. -/
def AtLeast (v : ℚ) : Extended → Prop
  | nan => False
  | infinite negative => negative = false
  | finite q => v ≤ q

/-- Whether a result is finite, not negative and no more than a number. -/
def AtMost (v : ℚ) : Extended → Prop
  | finite q => 0 ≤ q ∧ q ≤ v
  | _ => False

theorem atLeast_round (hb : 0 < p.bits) (hv : p.Fits v) (h0 : 0 < v) {q : ℚ} (h : v ≤ q) :
    (round p q).AtLeast v := by
  have hr := hv.le_round hb (h0.trans_le h) h
  unfold round
  simp only
  split_ifs
  · exact hr
  · exact decide_eq_false (not_lt.mpr (h0.le.trans hr))

theorem atMost_round (hb : 0 < p.bits) (hf : p.finest ≤ 0) (hv : p.Fits v) (hin : v < 2 ^ p.top)
    {q : ℚ} (h0 : 0 ≤ q) (h : q ≤ v) : (round p q).AtMost v := by
  have hr : 0 ≤ p.round q ∧ p.round q ≤ v := by
    obtain rfl | hq := h0.eq_or_lt
    · rw [round_zero]
      exact ⟨le_rfl, h⟩
    · refine ⟨?_, hv.round_le hb hq h⟩
      exact_mod_cast (Fits.natCast hf (Nat.zero_le _)).le_round hb hq (by exact_mod_cast h0)
  have hholds : p.holds (p.round q) = true := by
    have habs : (p.round q).abs = p.round q := if_pos hr.1
    rw [holds, habs, twoPow_eq]
    exact decide_eq_true (hr.2.trans_lt hin)
  rw [round, if_pos hholds]
  exact hr

theorem ofNat_of_fits (hb : 0 < p.bits) {n : ℕ} (hn : p.Fits n) (hin : (n : ℚ) < 2 ^ p.top) :
    ofNat p n = finite n := by
  have hr : p.round n = n := hn.round_eq_self hb n.cast_nonneg
  have hholds : p.holds n = true := by
    have habs : (n : ℚ).abs = n := if_pos n.cast_nonneg
    rw [holds, habs, twoPow_eq]
    exact decide_eq_true hin
  unfold ofNat round
  simp only [hr]
  rw [if_pos hholds]

theorem AtLeast.div (hb : 0 < p.bits) (hx : x.AtLeast v) {d : ℚ} (hd : 0 < d) (h0 : 0 < v)
    (hv : p.Fits (v / d)) : (div p x (finite d)).AtLeast (v / d) := by
  cases x with
  | nan => exact hx.elim
  | infinite negative =>
    have hneg : decide (d < 0) = false := decide_eq_false (not_lt.mpr hd.le)
    rw [show negative = false from hx, Extended.div, hneg]
    rfl
  | finite q =>
    rw [Extended.div, if_neg hd.ne']
    exact atLeast_round hb hv (by positivity) (div_le_div_of_nonneg_right hx hd.le)

theorem AtMost.div (hb : 0 < p.bits) (hf : p.finest ≤ 0) (hx : x.AtMost v) {d : ℚ} (hd : 0 < d)
    (hv : p.Fits (v / d)) (hin : v / d < 2 ^ p.top) : (div p x (finite d)).AtMost (v / d) := by
  cases x with
  | finite q =>
    obtain ⟨h0, h⟩ := hx
    rw [Extended.div, if_neg hd.ne']
    exact atMost_round hb hf hv hin (by positivity) (div_le_div_of_nonneg_right h hd.le)
  | _ => exact hx.elim

theorem AtLeast.add (hb : 0 < p.bits) (hx : x.AtLeast v) {d : ℚ} (h0 : 0 < v + d)
    (hv : p.Fits (v + d)) : (add p x (finite d)).AtLeast (v + d) := by
  cases x with
  | nan => exact hx.elim
  | infinite negative => exact hx
  | finite q => exact atLeast_round hb hv h0 (add_le_add_left hx d)

theorem AtMost.add (hb : 0 < p.bits) (hf : p.finest ≤ 0) (hx : x.AtMost v) {d : ℚ} (hd : 0 ≤ d)
    (hv : p.Fits (v + d)) (hin : v + d < 2 ^ p.top) : (add p x (finite d)).AtMost (v + d) := by
  cases x with
  | finite q =>
    obtain ⟨h0, h⟩ := hx
    exact atMost_round hb hf hv hin (by positivity) (add_le_add_left h d)
  | _ => exact hx.elim

theorem AtLeast.le_toInt {n : ℕ} (hx : x.AtLeast n) (hi : ℤ) (hn : n ≤ hi) : n ≤ x.toInt 0 hi := by
  cases x with
  | nan => exact hx.elim
  | infinite negative =>
    rw [show negative = false from hx]
    exact hn
  | finite q =>
    have hq : (n : ℚ) ≤ q := hx
    have ht : (n : ℤ) ≤ truncate q := by
      rw [truncate, if_neg (not_lt.mpr (n.cast_nonneg.trans hq))]
      exact Rat.le_floor_iff.mpr (by exact_mod_cast hq)
    exact le_max_of_le_right (le_min hn ht)

theorem AtMost.toInt_lt (hx : x.AtMost v) {n : ℕ} (hn : 0 < n) (h : v < n) (hi : ℤ) :
    x.toInt 0 hi < n := by
  cases x with
  | finite q => exact max_lt (by exact_mod_cast hn) (min_lt_of_right_lt (truncate_lt hn (hx.2.trans_lt h)))
  | _ => exact hx.elim

end Extended

end ToneWatch
