import Mathlib
import ToneWatch.Proofs.Numeric.Scaling
/-!
Powers of ten against odd numbers of half units. A decimal that is scaled in double precision stays on
its side of every midpoint between single-precision numbers that is near enough to matter, since a
significand times a power of ten comes that close to a small odd number times a power of two only as a
multiple of a continued fraction's convergent, and these are checked one by one.
-/

namespace ToneWatch

namespace Separation

/-- How far `q * a` is from `p * c`. -/
def apart (a c p q : ℕ) : ℕ := (q * a - p * c) + (p * c - q * a)

/-- Whether a fraction with the denominator `q` and the error `r` against `a` is the only one nearby with
a numerator below `2 ^ 25`, up to a common factor. -/
def isSharp (a r q : ℕ) : Bool := 2 ^ 71 * r + q * (2 ^ 19 + 1) * a ≤ 2 ^ 46 * a

/-- The first convergent `p / q` of a continued fraction that is sharp, from two remainders `x` and `y`
and the convergents they belong to. The remainder is the error of the convergent. -/
def approach (a least : ℕ) : ℕ → ℕ → ℕ → ℕ → ℕ → ℕ → ℕ → ℕ × ℕ
  | 0, _, _, _, _, p, q => (p, q)
  | n + 1, x, y, p', q', p, q =>
    if y ≤ least && isSharp a y q then (p, q)
    else approach a least n y (x % y) p q (x / y * p + p') (x / y * q + q')

/-- The numerator of `10 ^ e / 2 ^ b`. -/
def tens (e b : ℤ) : ℕ := 10 ^ e.toNat * 2 ^ (-b).toNat

/-- The denominator of `10 ^ e / 2 ^ b`. -/
def twos (e b : ℤ) : ℕ := 10 ^ (-e).toNat * 2 ^ b.toNat

/-- Whether no multiple of `q` is scaled to the other side of the same multiple of `p` half units: the
two are the same number and the power is exact, the multiples of `p` are even, they are too far apart,
or there is only one that is small enough and it stays on its side. -/
def settles (e b : ℤ) (p q : ℕ) : Bool :=
  let a := tens e b
  let d := apart a (twos e b) p q
  0 < q && Nat.gcd p q = 1 && isSharp a d q &&
    (d = 0 && e.natAbs ≤ 22 || p % 2 = 0 || (2 ^ 20 + 1) * (q * a) < 2 ^ 72 * d ||
      2 ^ 24 ≤ p && cmp (Scaled.scaled q e) (p * twoPow b) = cmp (q * tenPow e) (p * twoPow b))

/-- Whether the multiples of `10 ^ e` are settled against those of `2 ^ b`, unless the latter are too
far apart or too large. -/
def settled (e b : ℤ) : Bool :=
  let a := tens e b
  let c := twos e b
  104 ≤ b || 100 * a < 99 * c ||
    let (p, q) := approach a (a / 2 ^ 25) 40 a c 0 1 1 0
    settles e b p q

/-- Whether a power of ten is settled against all powers of two of comparable size. -/
def settledRow (e : ℤ) : Bool :=
  let b := binaryExponent (tenPow e)
  (List.range 26).all fun k => settled e (b + 1 - k)

theorem settledRow_all : ∀ i < 84, settledRow ((i : ℕ) - 45) = true := by decide +kernel

theorem zpow_mul_pow {x : ℚ} (hx : x ≠ 0) (k : ℤ) : x ^ k * x ^ (-k).toNat = x ^ k.toNat := by
  rw [← zpow_natCast, ← zpow_natCast, ← zpow_add₀ hx]
  congr 1
  omega

/-- A power of ten and a power of two as multiples of one number. -/
theorem exists_scale (e b : ℤ) :
    ∃ s : ℚ, 0 < s ∧ (10 : ℚ) ^ e = tens e b * s ∧ (2 : ℚ) ^ b = twos e b * s := by
  refine ⟨(10 ^ (-e).toNat * 2 ^ (-b).toNat)⁻¹, by positivity, ?_, ?_⟩
  · rw [← div_eq_mul_inv, eq_div_iff (by positivity), ← mul_assoc, zpow_mul_pow (by norm_num), tens]
    push_cast
    rfl
  · rw [← div_eq_mul_inv, eq_div_iff (by positivity), mul_left_comm, zpow_mul_pow two_ne_zero, twos]
    push_cast
    rfl

theorem apart_eq (a c p q : ℕ) : (apart a c p q : ℤ) = |(q : ℤ) * a - p * c| := by
  rw [apart]
  obtain h | h := le_total (q * a) (p * c)
  · have hz : (q : ℤ) * a ≤ p * c := by exact_mod_cast h
    rw [abs_of_nonpos (by omega), Nat.sub_eq_zero_of_le h, Nat.zero_add]
    push_cast [Nat.cast_sub h]
    ring
  · have hz : (p : ℤ) * c ≤ q * a := by exact_mod_cast h
    rw [abs_of_nonneg (by omega), Nat.sub_eq_zero_of_le h, Nat.add_zero]
    push_cast [Nat.cast_sub h]
    ring

/-- The numbers that come close are multiples of a convergent. -/
theorem proportional {a c p q m j : ℕ} (hq : 0 < q) (ha : 0 < a)
    (hsharp : isSharp a (apart a c p q) q = true)
    (hclose : 2 ^ 46 * apart a c j m < (2 ^ 19 + 1) * c) (hm : m * a < 2 ^ 25 * c) : m * p = j * q := by
  have hid : ((q * j - m * p : ℤ)) * c = -(q * ((m : ℤ) * a - j * c)) + m * ((q : ℤ) * a - p * c) := by
    ring
  have hbound : |(q * j - m * p : ℤ)| * c ≤ q * apart a c j m + m * apart a c p q := by
    rw [apart_eq, apart_eq]
    calc |(q * j - m * p : ℤ)| * c = |(q * j - m * p : ℤ) * c| := by
          rw [abs_mul, Nat.abs_cast]
      _ ≤ |-(q * ((m : ℤ) * a - j * c))| + |m * ((q : ℤ) * a - p * c)| := by
          rw [hid]
          exact abs_add_le _ _
      _ = q * |(m : ℤ) * a - j * c| + m * |(q : ℤ) * a - p * c| := by
          rw [abs_neg, abs_mul, abs_mul, Nat.abs_cast, Nat.abs_cast]
  have hc : 0 < c := by
    by_contra h0
    obtain rfl : c = 0 := by omega
    omega
  have hlt : |(q * j - m * p : ℤ)| < 1 := by
    by_contra! hge
    have hle : (c : ℤ) ≤ q * apart a c j m + m * apart a c p q :=
      (le_mul_of_one_le_left (by positivity) hge).trans hbound
    have hle' : c ≤ q * apart a c j m + m * apart a c p q := by exact_mod_cast hle
    refine lt_irrefl (2 ^ 46 * a * c) ?_
    calc 2 ^ 46 * a * c ≤ 2 ^ 46 * a * (q * apart a c j m + m * apart a c p q) := by gcongr
      _ = q * a * (2 ^ 46 * apart a c j m) + 2 ^ 46 * (apart a c p q * (m * a)) := by ring
      _ < q * a * ((2 ^ 19 + 1) * c) + 2 ^ 46 * (apart a c p q * (2 ^ 25 * c)) := by
        refine Nat.add_lt_add_of_lt_of_le (Nat.mul_lt_mul_of_pos_left hclose (by positivity)) ?_
        gcongr
      _ = (2 ^ 71 * apart a c p q + q * (2 ^ 19 + 1) * a) * c := by ring
      _ ≤ 2 ^ 46 * a * c := by
        gcongr
        exact of_decide_eq_true hsharp
  have hzero : (q * j - m * p : ℤ) = 0 := Int.abs_lt_one_iff.mp hlt
  have heq : (m * p : ℤ) = j * q := by linarith
  exact_mod_cast heq

/-- What is scaled to the other side of a bound was close to it. -/
theorem abs_sub_le_of_cmp_ne {x y b : ℚ} (h : cmp y b ≠ cmp x b) : |x - b| ≤ |y - x| := by
  obtain hx | hx | hx := lt_trichotomy x b
  · obtain hy | hy := lt_or_ge y b
    · rw [cmp_eq_lt_iff _ _ |>.mpr hx, cmp_eq_lt_iff _ _ |>.mpr hy] at h
      exact absurd rfl h
    · rw [abs_of_neg (by linarith), abs_of_pos (by linarith)]
      linarith
  · rw [hx, sub_self, abs_zero]
    exact abs_nonneg _
  · obtain hy | hy := lt_or_ge b y
    · rw [cmp_eq_gt_iff _ _ |>.mpr hx, cmp_eq_gt_iff _ _ |>.mpr hy] at h
      exact absurd rfl h
    · rw [abs_of_pos (by linarith), abs_of_nonpos (by linarith)]
      linarith

theorem exponent_range {e b : ℤ} (hb : -150 ≤ b) (hb' : b < 104) (hlow : (10 : ℚ) ^ e < 2 ^ 25 * 2 ^ b)
    (hhigh : 99 * (2 : ℚ) ^ b ≤ 100 * 10 ^ e) : -45 ≤ e ∧ e < 39 := by
  constructor
  · by_contra! hlt
    have hsmall : (10 : ℚ) ^ e ≤ 10 ^ (-46 : ℤ) := zpow_le_zpow_right₀ (by norm_num) (by omega)
    have htwo : (2 : ℚ) ^ (-150 : ℤ) ≤ 2 ^ b := zpow_le_zpow_right₀ one_le_two hb
    have hgap : 100 * (10 : ℚ) ^ (-46 : ℤ) < 99 * 2 ^ (-150 : ℤ) := by norm_num
    linarith
  · by_contra! hge
    have hlarge : (10 : ℚ) ^ (39 : ℤ) ≤ 10 ^ e := zpow_le_zpow_right₀ (by norm_num) hge
    have htwo : (2 : ℚ) ^ b ≤ 2 ^ (103 : ℤ) := zpow_le_zpow_right₀ one_le_two (by omega)
    have hgap : 2 ^ 25 * (2 : ℚ) ^ (103 : ℤ) < 10 ^ (39 : ℤ) := by norm_num
    linarith

theorem binaryExponent_range {q : ℚ} {b : ℤ} (hq : 0 < q) (hlow : q < 2 ^ 25 * 2 ^ b)
    (hhigh : 99 * (2 : ℚ) ^ b ≤ 100 * q) : b ≤ binaryExponent q + 1 ∧ binaryExponent q ≤ b + 24 := by
  obtain ⟨hpow, hpow'⟩ := binaryExponent_spec hq
  constructor
  · refine Int.lt_add_one_iff.mp ((zpow_lt_zpow_iff_right₀ (one_lt_two (α := ℚ))).mp ?_)
    rw [zpow_add_one₀ two_ne_zero]
    linarith
  · refine Int.lt_add_one_iff.mp ((zpow_lt_zpow_iff_right₀ (one_lt_two (α := ℚ))).mp ?_)
    calc (2 : ℚ) ^ binaryExponent q ≤ q := hpow
      _ < 2 ^ 25 * 2 ^ b := hlow
      _ = 2 ^ (b + 24 + 1) := by
        rw [add_assoc, zpow_add₀ two_ne_zero, mul_comm]
        norm_num

/-- All powers of comparable size have been checked. -/
theorem settled_of_near {e b : ℤ} (hb : -150 ≤ b) (hb' : b < 104)
    (hlow : (10 : ℚ) ^ e < 2 ^ 25 * 2 ^ b) (hhigh : 99 * (2 : ℚ) ^ b ≤ 100 * 10 ^ e) :
    settled e b = true := by
  obtain ⟨he, he'⟩ := exponent_range hb hb' hlow hhigh
  obtain ⟨hup, hdown⟩ := binaryExponent_range (by positivity) hlow hhigh
  have hrow := settledRow_all (e + 45).toNat (by omega)
  have hi : (((e + 45).toNat : ℕ) : ℤ) - 45 = e := by omega
  rw [hi, settledRow, tenPow_eq] at hrow
  have hk : (binaryExponent ((10 : ℚ) ^ e) + 1 - b).toNat < 26 := by omega
  have hsettled := List.all_eq_true.mp hrow _ (List.mem_range.mpr hk)
  rwa [Int.toNat_of_nonneg (by omega), sub_sub_cancel] at hsettled

/-- No multiple of a checked convergent is scaled to the other side. -/
theorem cmp_eq_of_settles {m j p q : ℕ} {e b : ℤ} (hm : 0 < m) (hj : j < 2 ^ 25) (hodd : j % 2 = 1)
    (hb : -150 ≤ b) (h : settles e b p q = true)
    (hclose : 2 ^ 72 * apart (tens e b) (twos e b) j m ≤ (2 ^ 20 + 1) * (m * tens e b))
    (hlow : m * tens e b < 2 ^ 25 * twos e b) :
    cmp (Scaled.scaled m e) (j * 2 ^ b) = cmp ((m : ℚ) * 10 ^ e) (j * 2 ^ b) := by
  obtain ⟨s, hs, hten, htwo⟩ := exists_scale e b
  simp only [settles, Bool.and_eq_true, Bool.or_eq_true, decide_eq_true_eq] at h
  obtain ⟨⟨⟨hq, hgcd⟩, hsharp⟩, hrule⟩ := h
  have ha : 0 < tens e b := Nat.mul_pos (by positivity) (by positivity)
  have hprop : m * p = j * q := proportional hq ha hsharp (by omega) hlow
  obtain ⟨u, rfl⟩ : p ∣ j := by
    have hdvd : p ∣ j * q := hprop ▸ Nat.dvd_mul_left p m
    exact (Nat.Coprime.dvd_mul_right hgcd).mp hdvd
  have hp : 0 < p := by
    by_contra h0
    obtain rfl : p = 0 := by omega
    simp at hodd
  obtain rfl : m = u * q := by
    apply Nat.eq_of_mul_eq_mul_right hp
    rw [hprop]
    ring
  have hu : 0 < u := Nat.pos_of_mul_pos_right hm
  have hapart : apart (tens e b) (twos e b) (p * u) (u * q) = u * apart (tens e b) (twos e b) p q := by
    simp only [apart, Nat.mul_add, Nat.mul_sub]
    congr 2 <;> ring
  rw [hapart] at hclose
  obtain ((⟨hzero, he⟩ | heven) | hfar) | ⟨hlarge, hside⟩ := hrule
  · -- they are the same number, and the power is exact
    have heq : ((u * q : ℕ) : ℚ) * 10 ^ e = (p * u : ℕ) * 2 ^ b := by
      have hac : q * tens e b = p * twos e b := by
        rw [apart] at hzero
        omega
      have hac' : (q : ℚ) * tens e b = p * twos e b := by exact_mod_cast hac
      rw [hten, htwo]
      push_cast
      linear_combination (u * s) * hac'
    rw [Scaled.scaled_eq he (by omega) (by omega) heq]
  · rw [Nat.mul_mod, heven] at hodd
    simp at hodd
  · have hfar' : u * ((2 ^ 20 + 1) * (q * tens e b)) < u * (2 ^ 72 * apart (tens e b) (twos e b) p q) :=
      Nat.mul_lt_mul_of_pos_left hfar hu
    linarith
  · obtain rfl : u = 1 := by
      by_contra h1
      have hmul : 2 ^ 24 * 2 ≤ p * u := Nat.mul_le_mul hlarge (by omega)
      omega
    rw [twoPow_eq, tenPow_eq] at hside
    rwa [Nat.one_mul, Nat.mul_one]

/-- Scaling keeps a decimal on its side of an odd number of half units that it is not far from. -/
theorem cmp_scaled {m j : ℕ} {e b : ℤ} (hm : 0 < m) (he : -60 ≤ e) (hj : j < 2 ^ 25) (hodd : j % 2 = 1)
    (hb : -150 ≤ b) (hb' : b < 104) (hfar : (2 : ℚ) ^ b ≤ 10 ^ e + |(m : ℚ) * 10 ^ e - j * 2 ^ b|) :
    cmp (Scaled.scaled m e) (j * 2 ^ b) = cmp ((m : ℚ) * 10 ^ e) (j * 2 ^ b) := by
  by_contra hne
  obtain ⟨s, hs, hten, htwo⟩ := exists_scale e b
  have hdist : |(m : ℚ) * 10 ^ e - j * 2 ^ b| = apart (tens e b) (twos e b) j m * s := by
    have hcast : (apart (tens e b) (twos e b) j m : ℚ) = |(m : ℚ) * tens e b - j * twos e b| := by
      exact_mod_cast congrArg (Int.cast : ℤ → ℚ) (apart_eq (tens e b) (twos e b) j m)
    rw [hcast, hten, htwo, ← abs_of_pos hs, ← abs_mul, abs_of_pos hs]
    congr 1
    ring
  have hclose : 2 ^ 72 * apart (tens e b) (twos e b) j m ≤ (2 ^ 20 + 1) * (m * tens e b) := by
    have hle := (abs_sub_le_of_cmp_ne hne).trans (Scaled.scaled_near hm he)
    rw [hdist, hten, ← mul_assoc, ← mul_assoc] at hle
    have htol : 2 ^ 72 * Scaled.tolerance = 2 ^ 20 + 1 := by norm_num [Scaled.tolerance]
    have hcast : (2 ^ 72 : ℚ) * apart (tens e b) (twos e b) j m ≤ (2 ^ 20 + 1) * (m * tens e b) := by
      calc (2 ^ 72 : ℚ) * apart (tens e b) (twos e b) j m ≤ 2 ^ 72 * (Scaled.tolerance * m * tens e b) :=
            mul_le_mul_of_nonneg_left (le_of_mul_le_mul_right hle hs) (by norm_num)
        _ = (2 ^ 20 + 1) * (m * tens e b) := by
            rw [← htol]
            ring
    exact_mod_cast hcast
  rw [hdist, hten, htwo, ← add_mul] at hfar
  have hfar' : twos e b ≤ tens e b + apart (tens e b) (twos e b) j m := by
    exact_mod_cast le_of_mul_le_mul_right hfar hs
  have hc : 0 < twos e b := Nat.mul_pos (by positivity) (by positivity)
  have hjc : j * twos e b ≤ (2 ^ 25 - 1) * twos e b := Nat.mul_le_mul_right _ (by omega)
  have hma : tens e b ≤ m * tens e b := Nat.le_mul_of_pos_left _ hm
  have hlow : m * tens e b < 2 ^ 25 * twos e b := by
    rw [apart] at hclose
    omega
  have hhigh : 99 * twos e b ≤ 100 * tens e b := by omega
  have hsettled : settled e b = true := by
    refine settled_of_near hb hb' ?_ ?_
    · rw [hten, htwo, ← mul_assoc]
      gcongr
      exact_mod_cast hma.trans_lt hlow
    · rw [hten, htwo, ← mul_assoc, ← mul_assoc]
      refine mul_le_mul_of_nonneg_right ?_ hs.le
      exact_mod_cast hhigh
  simp only [settled, Bool.or_eq_true, decide_eq_true_eq] at hsettled
  obtain (htop | hgap) | hsettles := hsettled
  · omega
  · omega
  · exact hne (cmp_eq_of_settles hm hj hodd hb hsettles hclose hlow)

end Separation

end ToneWatch
