import Mathlib
import ToneWatch.Numeric.Shortest
import ToneWatch.Proofs.Numeric.Rounding

namespace ToneWatch

theorem roundHalfEven_eq_of_near {q : ℚ} {k : ℤ} (h : |q - k| ≤ 1 / 2)
    (heven : |q - k| = 1 / 2 → k % 2 = 0) : roundHalfEven q = k := by
  have hhalf : mkRat 1 2 = (1 / 2 : ℚ) := by norm_num [Rat.mkRat_eq_div]
  obtain ⟨hlow, hhigh⟩ := abs_le.mp h
  unfold roundHalfEven
  simp only [hhalf]
  obtain hk | hk := le_or_gt (k : ℚ) q
  · have hfloor : q.floor = k := by
      refine le_antisymm (Int.lt_add_one_iff.mp (Rat.floor_lt_iff.mpr ?_)) (Rat.le_floor_iff.mpr hk)
      push_cast
      linarith
    rw [hfloor]
    obtain hlt | heq := hhigh.lt_or_eq
    · rw [if_pos hlt]
    · have hmod := heven (by rw [heq]; norm_num)
      rw [if_neg heq.not_lt, if_neg heq.not_gt, hmod, add_zero]
  · have hfloor : q.floor = k - 1 := by
      refine le_antisymm (Int.le_sub_one_iff.mpr (Rat.floor_lt_iff.mpr hk)) (Rat.le_floor_iff.mpr ?_)
      push_cast
      linarith
    rw [hfloor, Int.cast_sub, Int.cast_one]
    obtain hlt | heq := hlow.lt_or_eq
    · rw [if_neg (by linarith), if_pos (by linarith), sub_add_cancel]
    · have hmod := heven (by rw [← heq]; norm_num)
      rw [if_neg (by linarith), if_neg (by linarith)]
      omega

theorem binaryExponent_eq {q : ℚ} {k : ℤ} (hlow : 2 ^ k ≤ q) (hhigh : q < 2 ^ (k + 1)) :
    binaryExponent q = k := by
  obtain ⟨hl, hh⟩ := binaryExponent_spec (q := q) ((zpow_pos two_pos k).trans_le hlow)
  have hle := (zpow_lt_zpow_iff_right₀ one_lt_two).mp (hl.trans_lt hhigh)
  have hge := (zpow_lt_zpow_iff_right₀ one_lt_two).mp (hlow.trans_lt hh)
  omega

namespace Precision

theorem round_eq_of_near {p : Precision} {q : ℚ} {k u : ℤ} (hu : p.unit q = u)
    (h : |q - k * 2 ^ u| ≤ 2 ^ u / 2) (heven : |q - k * 2 ^ u| = 2 ^ u / 2 → k % 2 = 0) :
    p.round q = k * 2 ^ u := by
  have hpos : (0 : ℚ) < 2 ^ u := zpow_pos two_pos u
  have hscale : |q / 2 ^ u - k| = |q - k * 2 ^ u| / 2 ^ u := by
    rw [← abs_of_pos hpos, ← abs_div, abs_of_pos hpos, sub_div, mul_div_cancel_right₀ _ hpos.ne']
  rw [round_eq, hu, roundHalfEven_eq_of_near]
  · rw [hscale, div_le_iff₀ hpos]
    linarith
  · rw [hscale, div_eq_iff hpos.ne']
    exact fun heq => heven (by linarith)

/-- The unit of a number that has all of the bits of the precision, or has the finest unit. -/
theorem unit_eq {p : Precision} {q : ℚ} {u : ℤ} (hq : 0 < q) (hfinest : p.finest ≤ u)
    (hlow : u = p.finest ∨ 2 ^ (u + p.bits - 1) ≤ q) (hhigh : q < 2 ^ (u + p.bits)) : p.unit q = u := by
  rw [unit_of_pos hq]
  obtain rfl | hlow := hlow
  · have hlt : binaryExponent q < p.finest + p.bits :=
      (zpow_lt_zpow_iff_right₀ one_lt_two).mp ((binaryExponent_spec hq).1.trans_lt hhigh)
    omega
  · rw [binaryExponent_eq hlow (by rwa [sub_add_cancel])]
    omega

end Precision

namespace Single

/-- How many units the magnitude of a rank is. -/
def steps (rank : ℕ) : ℕ :=
  if rank / 0x800000 = 0 then rank else 0x800000 + rank % 0x800000

/-- The exponent of the unit of a magnitude, which the next magnitude is away. -/
def step (rank : ℕ) : ℤ :=
  if rank / 0x800000 = 0 then -149 else (rank / 0x800000 : ℕ) - 150

variable {r : ℕ} {q : ℚ}

theorem magnitude_eq (r : ℕ) : magnitude r = steps r * 2 ^ step r := by
  rw [magnitude, steps, step]
  simp only [twoPow_eq]
  split_ifs <;> rfl

theorem steps_lt (r : ℕ) : steps r < 2 ^ 24 := by
  rw [steps]
  split <;> omega

theorem rank_eq (r : ℕ) : (r : ℤ) = (step r + 149) * 2 ^ 23 + steps r := by
  rw [steps, step]
  split <;> omega

theorem step_ge (r : ℕ) : -149 ≤ step r := by
  rw [step]
  split <;> omega

theorem step_le_of_finite (hr : r < infinityRank) : step r ≤ 104 := by
  rw [infinityRank] at hr
  rw [step]
  split <;> omega

theorem step_eq_or_le_steps (r : ℕ) : step r = -149 ∨ 2 ^ 23 ≤ steps r := by
  rw [step, steps]
  split <;> omega

/-- The next magnitude has a step more, or the same number of twice the unit as its half. -/
theorem steps_succ_cases (r : ℕ) :
    steps (r + 1) = steps r + 1 ∧ step (r + 1) = step r ∨
      steps r = 2 ^ 24 - 1 ∧ steps (r + 1) = 2 ^ 23 ∧ step (r + 1) = step r + 1 := by
  have hr := rank_eq r
  have hs := rank_eq (r + 1)
  have hr1 := steps_lt r
  have hs1 := steps_lt (r + 1)
  have hr2 := step_eq_or_le_steps r
  have hs2 := step_eq_or_le_steps (r + 1)
  have hr3 := step_ge r
  have hs3 := step_ge (r + 1)
  push_cast at hs
  omega

theorem magnitude_succ (r : ℕ) : magnitude (r + 1) = (steps r + 1) * 2 ^ step r := by
  rw [magnitude_eq]
  obtain ⟨hs, hu⟩ | ⟨hr, hs, hu⟩ := steps_succ_cases r
  · rw [hs, hu]
    push_cast
    rfl
  · rw [hs, hu, hr, zpow_add_one₀ two_ne_zero]
    norm_num
    ring

/-- Halfway from one magnitude to the next. -/
def midpoint (rank : ℕ) : ℚ :=
  (magnitude rank + magnitude (rank + 1)) / 2

theorem midpoint_eq (r : ℕ) : midpoint r = (2 * steps r + 1 : ℕ) * 2 ^ (step r - 1) := by
  rw [midpoint, magnitude_succ, magnitude_eq, zpow_sub_one₀ two_ne_zero]
  push_cast
  ring

theorem midpoint_eq_add (r : ℕ) : midpoint r = magnitude r + 2 ^ step r / 2 := by
  rw [midpoint, magnitude_succ, magnitude_eq]
  ring

theorem midpoint_eq_sub (r : ℕ) : midpoint r = magnitude (r + 1) - 2 ^ step r / 2 := by
  rw [midpoint, magnitude_succ, magnitude_eq]
  ring

theorem magnitude_lt_midpoint (r : ℕ) : magnitude r < midpoint r := by
  have hpos : (0 : ℚ) < 2 ^ step r := zpow_pos two_pos _
  rw [midpoint_eq_add]
  linarith

theorem midpoint_lt_magnitude (r : ℕ) : midpoint r < magnitude (r + 1) := by
  have hpos : (0 : ℚ) < 2 ^ step r := zpow_pos two_pos _
  rw [midpoint_eq_sub]
  linarith

theorem abs_magnitude_sub_midpoint {i : ℕ} (hi : i = r ∨ i = r + 1) :
    |magnitude (r + 1) - midpoint i| = 2 ^ (step i - 1) := by
  rw [zpow_sub_one₀ two_ne_zero, ← div_eq_mul_inv]
  obtain rfl | rfl := hi
  · rw [midpoint_eq_sub, sub_sub_cancel, abs_of_pos (by positivity)]
  · rw [midpoint_eq_add, sub_add_cancel_left, abs_neg, abs_of_pos (by positivity)]

theorem magnitude_succ_pos (r : ℕ) : 0 < magnitude (r + 1) :=
  (magnitude_nonneg r).trans_lt ((magnitude_lt_midpoint r).trans (midpoint_lt_magnitude r))

theorem readsBack_iff (r : ℕ) : Shortest.readsBack (r + 1) q = true ↔
    midpoint r ≤ q ∧ q ≤ midpoint (r + 1) ∧
      ((r + 1) % 2 = 1 → q ≠ midpoint r ∧ q ≠ midpoint (r + 1)) := by
  have hlow : (magnitude (r + 1 - 1) + magnitude (r + 1)) / 2 = midpoint r := rfl
  have hhigh : (magnitude (r + 1) + magnitude (r + 1 + 1)) / 2 = midpoint (r + 1) := rfl
  rw [Shortest.readsBack]
  simp only [hlow, hhigh]
  split_ifs with heven
  · simp [heven]
  · have hodd : (r + 1) % 2 = 1 := by omega
    simp only [hodd, Bool.and_eq_true, decide_eq_true_eq, forall_const, lt_iff_le_and_ne]
    tauto

theorem readsBack_of_between (hlow : midpoint r < q) (hhigh : q < midpoint (r + 1)) :
    Shortest.readsBack (r + 1) q = true :=
  (readsBack_iff r).mpr ⟨hlow.le, hhigh.le, fun _ => ⟨hlow.ne', hhigh.ne⟩⟩

theorem unit_eq_step (hq : 0 < q) (hlow : step r = -149 ∨ 2 ^ 23 * 2 ^ step r ≤ q)
    (hhigh : q < 2 ^ 24 * 2 ^ step r) : Precision.single.unit q = step r := by
  have h23 : (2 : ℚ) ^ 23 * 2 ^ step r = 2 ^ (step r + 24 - 1) := by
    rw [← zpow_natCast, ← zpow_add₀ two_ne_zero]
    congr 1
    push_cast
    ring
  have h24 : (2 : ℚ) ^ 24 * 2 ^ step r = 2 ^ (step r + 24) := by
    rw [← zpow_natCast, ← zpow_add₀ two_ne_zero]
    congr 1
    push_cast
    ring
  rw [h23] at hlow
  rw [h24] at hhigh
  exact Precision.unit_eq hq (step_ge r) hlow hhigh

theorem steps_emod_two (r : ℕ) : (steps r : ℤ) % 2 = r % 2 := by
  have hrank := rank_eq r
  omega

theorem round_eq_of_unit {k : ℤ} (hunit : Precision.single.unit q = step r)
    (hmag : magnitude (r + 1) = k * 2 ^ step r) (hlow : midpoint r ≤ q)
    (hhigh : q ≤ magnitude (r + 1) + 2 ^ step r / 2)
    (htie : q = midpoint r ∨ q = magnitude (r + 1) + 2 ^ step r / 2 → k % 2 = 0) :
    Precision.single.round q = magnitude (r + 1) := by
  have hpos : (0 : ℚ) < 2 ^ step r := zpow_pos two_pos _
  rw [midpoint_eq_sub] at hlow htie
  rw [hmag] at hlow hhigh htie ⊢
  refine Precision.round_eq_of_near hunit ?_ fun heq => htie ?_
  · rw [abs_le]
    constructor <;> linarith
  · rw [abs_eq (by positivity)] at heq
    exact heq.symm.imp (fun h => by linarith) (fun h => by linarith)

theorem round_eq_magnitude (h : Shortest.readsBack (r + 1) q = true) :
    Precision.single.round q = magnitude (r + 1) := by
  obtain ⟨hlow, hhigh, hodd⟩ := (readsBack_iff r).mp h
  have hq : 0 < q := (magnitude_nonneg r).trans_lt ((magnitude_lt_midpoint r).trans_le hlow)
  have hpos : (0 : ℚ) < 2 ^ step r := zpow_pos two_pos _
  have hmag := magnitude_succ r
  have hhigh' := hhigh
  rw [midpoint_eq_add] at hhigh'
  have htie (heq : q = midpoint r ∨ q = midpoint (r + 1)) : (steps (r + 1) : ℤ) % 2 = 0 := by
    rw [steps_emod_two]
    by_contra hne
    obtain ⟨h1, h2⟩ := hodd (by push_cast at hne; omega)
    exact heq.elim h1 h2
  obtain ⟨hs, hu⟩ | ⟨hr, hs, hu⟩ := steps_succ_cases r
  · -- the unit is the same on both sides
    have hlt : (steps r : ℚ) + 2 ≤ 2 ^ 24 := by exact_mod_cast hs ▸ steps_lt (r + 1)
    have hunit : Precision.single.unit q = step r := by
      refine unit_eq_step hq ((step_eq_or_le_steps r).imp_right fun hbits => ?_) ?_
      · have hbits' : (2 : ℚ) ^ 23 ≤ steps r := by exact_mod_cast hbits
        calc (2 : ℚ) ^ 23 * 2 ^ step r ≤ steps r * 2 ^ step r := by gcongr
          _ = magnitude r := (magnitude_eq r).symm
          _ ≤ q := (magnitude_lt_midpoint r).le.trans hlow
      · calc q < magnitude (r + 2) := hhigh.trans_lt (midpoint_lt_magnitude (r + 1))
          _ = (steps r + 2) * 2 ^ step r := by
            rw [magnitude_succ, hs, hu]
            push_cast
            ring
          _ ≤ 2 ^ 24 * 2 ^ step r := by gcongr
    rw [midpoint_eq_add (r + 1), hu] at htie
    rw [hu] at hhigh'
    exact round_eq_of_unit hunit (by rw [hmag, hs]; push_cast; rfl) hlow hhigh' htie
  · -- below the magnitude the unit is half of that above
    have hlower : magnitude (r + 1) = 2 ^ 24 * 2 ^ step r := by
      rw [hmag, hr]
      norm_num
    have hupper : magnitude (r + 1) = 2 ^ 23 * 2 ^ step (r + 1) := by
      rw [magnitude_eq, hs]
      norm_num
    obtain hbelow | habove := lt_or_ge q (magnitude (r + 1))
    · have hunit : Precision.single.unit q = step r := by
        refine unit_eq_step hq (.inr ?_) (hbelow.trans_eq hlower)
        rw [midpoint_eq_sub, hlower] at hlow
        linarith
      refine round_eq_of_unit (k := 2 ^ 24) hunit (by rw [hlower]; norm_num) hlow ?_ fun _ => by norm_num
      linarith
    · have hpos' : (0 : ℚ) < 2 ^ step (r + 1) := zpow_pos two_pos _
      have hunit : Precision.single.unit q = step (r + 1) := by
        refine unit_eq_step hq (.inr (hupper.symm.trans_le habove)) ?_
        linarith
      have hcast : magnitude (r + 1) = (2 ^ 23 : ℤ) * 2 ^ step (r + 1) := by
        rw [hupper]
        norm_num
      rw [hcast] at habove hhigh' ⊢
      refine Precision.round_eq_of_near hunit ?_ fun _ => by norm_num
      rw [abs_of_nonneg (by linarith)]
      linarith

theorem rankOf_magnitude (r : ℕ) : rankOf (magnitude r) = r := by
  have hpos : (0 : ℚ) < 2 ^ step r := zpow_pos two_pos _
  have hunit : Precision.single.unit (magnitude r) = step r := by
    obtain rfl | hr := Nat.eq_zero_or_pos r
    · decide +kernel
    have hsteps : (0 : ℚ) < steps r := by
      have hrank := rank_eq r
      have hge := step_eq_or_le_steps r
      exact_mod_cast (by omega : 0 < steps r)
    have hlt : (steps r : ℚ) < 2 ^ 24 := by exact_mod_cast steps_lt r
    rw [magnitude_eq]
    refine unit_eq_step (by positivity) ((step_eq_or_le_steps r).imp_right fun hge => ?_) (by gcongr)
    have hge' : (2 : ℚ) ^ 23 ≤ steps r := by exact_mod_cast hge
    gcongr
  have hrank := rank_eq r
  have hge := step_ge r
  have hfloor : ((steps r : ℚ)).floor = steps r := by exact_mod_cast Rat.floor_intCast (steps r : ℤ)
  rw [rankOf, hunit]
  simp only [twoPow_eq]
  rw [magnitude_eq, mul_div_cancel_right₀ _ hpos.ne', hfloor]
  omega

theorem magnitude_lt_of_finite (hr : r < infinityRank) : magnitude r < 2 ^ 128 := by
  have hstep := step_le_of_finite hr
  have hlt : (steps r : ℚ) < 2 ^ 24 := by exact_mod_cast steps_lt r
  calc magnitude r = steps r * 2 ^ step r := magnitude_eq r
    _ < 2 ^ 24 * 2 ^ step r := by gcongr
    _ ≤ 2 ^ 24 * 2 ^ (104 : ℤ) := by
      gcongr
      exact one_le_two
    _ = 2 ^ 128 := by norm_num

theorem ofRat_magnitude (negative : Bool) (hr : r < infinityRank)
    (hq : Precision.single.round q = magnitude r) (h0 : 0 ≤ q) :
    ofRat negative q = ofRank negative r := by
  have habs : q.abs = q := if_pos h0
  have habs' : (magnitude r).abs = magnitude r := if_pos (magnitude_nonneg r)
  have hholds : Precision.single.holds (magnitude r) = true := by
    rw [Precision.holds, habs', twoPow_eq]
    exact decide_eq_true (by exact_mod_cast magnitude_lt_of_finite hr)
  rw [ofRat, habs, hq, if_pos hholds, rankOf_magnitude]

theorem ofRank_rank (x : Single) : ofRank x.negative x.rank = x := by
  have hlt := x.bits.toNat_lt
  have hbits : (if x.negative then 0x80000000 + x.rank else x.rank) = x.bits.toNat := by
    rw [negative, rank]
    split_ifs with h <;> simp only [decide_eq_true_eq] at h <;> omega
  rw [ofRank, hbits, UInt32.ofNat_toNat]

end Single

end ToneWatch
