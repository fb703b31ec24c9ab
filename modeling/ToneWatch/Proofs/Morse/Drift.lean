import Mathlib
import ToneWatch.Proofs.Morse.Lag
import ToneWatch.Proofs.Morse.RoundTrip
import ToneWatch.Proofs.Morse.Sampling

namespace ToneWatch.Morse

variable {size : Nat}

theorem edge_tone (he : size % 2 = 0) (hn : 0 < size) (sample : Nat) :
    size * edge size true sample < sample + size / 2 ∧
      sample ≤ size * edge size true sample + size / 2 := by
  have hdiv := Nat.div_add_mod (sample + size / 2 - 1) size
  have hmod := Nat.mod_lt (sample + size / 2 - 1) hn
  rw [edge, if_pos rfl]
  omega

theorem edge_silence (he : size % 2 = 0) (hn : 0 < size) (sample : Nat) :
    size * edge size false sample ≤ sample + size / 2 ∧
      sample < size * edge size false sample + size / 2 := by
  have hdiv := Nat.div_add_mod (sample + size / 2) size
  have hmod := Nat.mod_lt (sample + size / 2) hn
  rw [edge, if_neg Bool.false_ne_true, Nat.sub_zero]
  omega

/-- How many runs in a row that leave no time to catch up come before some mark of a letter at most: two
for each mark from the last dash on, if so many come before its first mark. No letter has less than two. -/
def Code.rush (runs : Nat) : List Mark → Nat
  | [] | [_] => max runs 2
  | m :: n :: ms => max runs (rush ((if m = .dash then 0 else runs) + 2) (n :: ms))

theorem Code.two_le_rush (runs : Nat) (ms : List Mark) : 2 ≤ rush runs ms := by
  fun_induction rush runs ms with
  | case1 | case2 => exact le_max_right _ _
  | case3 runs m n ms ih => exact ih.trans (le_max_right _ _)

namespace Beat

/-- The runs in a row before the next beat, if so many come before this one. -/
def rushed (runs : Nat) (b : Beat) : Nat :=
  if b.rest = 1 then (if b.tone = 3 then 0 else runs) + 2 else 0

/-- The beats of letters in which so many runs in a row are allowed before a mark. The first beat comes
after so many of them, and the last one has a rest of its own. -/
inductive Letters (final : Nat) (allowed : Nat → Prop) : Nat → List Beat → Prop
  | last {runs : Nat} (m : Mark) (hr : allowed runs) : Letters final allowed runs [⟨m, final⟩]
  | next {runs : Nat} {b : Beat} {bs : List Beat} (hr : allowed runs)
      (hrest : b.rest = 1 ∨ b.rest = 3 ∨ b.rest = 7) (h : Letters final allowed (b.rushed runs) bs) :
      Letters final allowed runs (b :: bs)

variable {final : Nat} {allowed : Nat → Prop} {runs : Nat} {bs : List Beat}

theorem Letters.cons_of (h : Letters final allowed runs bs) : allowed runs ∧ ∃ b cs, bs = b :: cs := by
  cases h with
  | last m hr => exact ⟨hr, _, _, rfl⟩
  | next hr hrest h => exact ⟨hr, _, _, rfl⟩

theorem Letters.rest_of_mem (h : Letters final allowed runs bs) :
    ∀ b ∈ bs, b.rest = final ∨ b.rest = 1 ∨ b.rest = 3 ∨ b.rest = 7 := by
  induction h with
  | last m hr => simp
  | next hr hrest h ih =>
    intro c hc
    rcases List.mem_cons.mp hc with rfl | hc
    · exact .inr hrest
    · exact ih c hc

theorem rushed_mark (m : Mark) (runs : Nat) :
    (⟨m, 1⟩ : Beat).rushed runs = (if m = .dash then 0 else runs) + 2 := by
  cases m <;> rfl

theorem Letters.append (h : Letters final allowed 0 bs) {rest : Nat} (hrest : rest = 3 ∨ rest = 7)
    {ms : List Mark} (hne : ms ≠ []) (hr : ∀ k ≤ Code.rush runs ms, allowed k) :
    Letters final allowed runs (ofMarks rest ms ++ bs) := by
  fun_induction ofMarks rest ms generalizing runs with
  | case1 => exact absurd rfl hne
  | case2 m =>
    refine .next (hr runs (le_max_left _ _)) (.inr hrest) ?_
    rwa [rushed, if_neg (by simp only; omega)]
  | case3 m n ms ih =>
    rw [Code.rush] at hr
    refine .next (hr runs (le_max_left _ _)) (.inl rfl) (ih (by simp) fun k hk => ?_)
    rw [rushed_mark] at hk
    exact hr k (hk.trans (le_max_right _ _))

theorem letters_ofMarks {ms : List Mark} (hne : ms ≠ []) (hr : ∀ k ≤ Code.rush runs ms, allowed k) :
    Letters final allowed runs (ofMarks final ms) := by
  fun_induction ofMarks final ms generalizing runs with
  | case1 => exact absurd rfl hne
  | case2 m => exact .last m (hr runs (le_max_left _ _))
  | case3 m n ms ih =>
    rw [Code.rush] at hr
    refine .next (hr runs (le_max_left _ _)) (.inl rfl) (ih (by simp) fun k hk => ?_)
    rw [rushed_mark] at hk
    exact hr k (hk.trans (le_max_right _ _))

/-- The beats of a text are those of its letters. -/
theorem letters_ofChars {cs : List Char} (h : Spaced cs)
    (hr : ∀ c ∈ cs, c ≠ ' ' → ∀ k ≤ Code.rush 0 (Code.marks c), allowed k) :
    Letters 10 allowed 0 (ofChars cs) := by
  fun_induction encodeChars cs with
  | case1 => exact absurd rfl h.1
  | case2 rest => exact absurd rfl h.2.1
  | case3 c hc => exact letters_ofMarks (Code.marks_spec c).1 (hr c (by simp) hc)
  | case4 c rest hc ih =>
    rw [ofChars, if_pos rfl]
    exact (ih h.afterSpace fun d hd => hr d (by simp [hd])).append (.inr rfl) (Code.marks_spec c).1
      (hr c (by simp) hc)
  | case5 c d rest hc hd ih =>
    rw [ofChars, if_neg hd]
    exact (ih (h.afterLetter hd) fun e he => hr e (List.mem_cons_of_mem _ he)).append (.inl rfl)
      (Code.marks_spec c).1 (hr c (by simp) hc)

theorem Letters.extend (h : Letters final allowed runs bs) (longer : Nat) :
    ∃ body m, bs = body ++ [⟨m, final⟩] ∧ Letters longer allowed runs (body ++ [⟨m, longer⟩]) := by
  induction h with
  | last m hr => exact ⟨[], m, rfl, .last m hr⟩
  | next hr hrest h ih =>
    obtain ⟨body, m, rfl, hl⟩ := ih
    exact ⟨_ :: body, m, rfl, .next hr hrest hl⟩

end Beat

namespace Timing

variable {t : Timing}

theorem le_nearest (hu : 0 < t.unit) {k count : Nat} :
    k ≤ t.nearest count ↔ k * t.unit ≤ count + t.unit / 2 := Nat.le_div_iff_mul_le hu

theorem nearest_lt (hu : 0 < t.unit) {k count : Nat} :
    t.nearest count < k ↔ count + t.unit / 2 < k * t.unit := Nat.div_lt_iff_lt_mul hu

/-- A tone is read as its mark on the right side of two units and a half. -/
theorem mark_of_near (hu : 0 < t.unit) (b : Beat) {count : Nat}
    (hdot : b.tone = 1 → count + t.unit / 2 < 3 * t.unit)
    (hdash : b.tone = 3 → 3 * t.unit ≤ count + t.unit / 2) : markOf (t.nearest count) = b.mark := by
  obtain ⟨m, rest⟩ := b
  cases m with
  | dot =>
    have := (nearest_lt hu).mpr (hdot rfl)
    exact if_neg (by omega)
  | dash =>
    have := (le_nearest hu).mpr (hdash rfl)
    exact if_pos (by omega)

/-- The silences have ranges of units that do not meet. -/
theorem spacing_of_near (hu : 0 < t.unit) {rest count : Nat}
    (h : rest = 1 ∧ count + t.unit / 2 < 2 * t.unit ∨
      rest = 3 ∧ 2 * t.unit ≤ count + t.unit / 2 ∧ count + t.unit / 2 < 5 * t.unit ∨
      rest = 7 ∧ 5 * t.unit ≤ count + t.unit / 2 ∧ count + t.unit / 2 < 9 * t.unit) :
    spacing? (t.nearest count) = spacing? rest := by
  obtain ⟨rfl, hlt⟩ | ⟨rfl, hle, hlt⟩ | ⟨rfl, hle, hlt⟩ := h
  · have hlt := (nearest_lt hu).mpr hlt
    rw [spacing?, if_pos (by omega)]
    rfl
  · have hle := (le_nearest hu).mpr hle
    have hlt := (nearest_lt hu).mpr hlt
    rw [spacing?, if_neg (by omega), if_pos (by omega)]
    rfl
  · have hle := (le_nearest hu).mpr hle
    have hlt := (nearest_lt hu).mpr hlt
    rw [spacing?, if_neg (by omega), if_neg (by omega), if_pos (by omega)]
    rfl

end Timing

open Keystroke

variable {t : Timing} {perUnit : Nat}

theorem le_of_scaled (size : Nat) {i j : Nat} (h : size * i < size * j + size) : i ≤ j :=
  Nat.lt_succ_iff.mp (Nat.lt_of_mul_lt_mul_left (a := size) (by rwa [Nat.mul_succ]))

/-- Whether both clocks stay less than half a frame apart over so many units. -/
def Close (t : Timing) (size perUnit units : Nat) : Prop :=
  2 * units * ((perUnit : ℤ) - t.unit * size).natAbs < size

instance (t : Timing) (size perUnit units : Nat) : Decidable (Close t size perUnit units) :=
  inferInstanceAs (Decidable (_ < _))

theorem Close.at {units : Nat} (h : Close t size perUnit units) {d : Nat} (hd : d ≤ units) :
    2 * (d * perUnit) < 2 * (size * (d * t.unit)) + size ∧
      2 * (size * (d * t.unit)) < 2 * (d * perUnit) + size := by
  have hmul : ((d * perUnit : ℕ) - (size * (d * t.unit) : ℕ) : ℤ) =
      d * ((perUnit : ℤ) - t.unit * size) := by
    push_cast
    ring
  have habs : 2 * ((d * perUnit : ℕ) - (size * (d * t.unit) : ℕ) : ℤ).natAbs < size := by
    rw [hmul, Int.natAbs_mul, Int.natAbs_natCast, ← Nat.mul_assoc]
    exact (Nat.mul_le_mul_right _ (Nat.mul_le_mul_left 2 hd)).trans_lt h
  omega

theorem Close.edge_eq {units : Nat} (h : Close t size perUnit units) (he : size % 2 = 0)
    (hn : 0 < size) {d : Nat} (hd : d ≤ units) :
    (∀ on, edge size on (d * perUnit) = d * t.unit) ∧ d * t.unit ≤ d * perUnit / size + 1 := by
  obtain ⟨hlate, hearly⟩ := h.at hd
  have htone := edge_tone he hn (d * perUnit)
  have hsilence := edge_silence he hn (d * perUnit)
  generalize d * perUnit = sample at *
  generalize d * t.unit = frame at *
  constructor
  · intro on
    cases on
    · exact Nat.le_antisymm (le_of_scaled size (by omega)) (le_of_scaled size (by omega))
    · exact Nat.le_antisymm (le_of_scaled size (by omega)) (le_of_scaled size (by omega))
  · have hdiv := Nat.div_add_mod sample size
    have hmod := Nat.mod_lt sample hn
    apply le_of_scaled size
    rw [Nat.mul_succ]
    omega

theorem fills_of_le (h : size ≤ perUnit) (units : Nat) : Fills size perUnit units :=
  fun _ _ => Or.inr (Nat.le_add_left_of_le h)

theorem Close.fills {units : Nat} (h : Close t size perUnit units) (hu : 0 < t.unit) :
    Fills size perUnit units := by
  intro d hd
  by_cases hle : size ≤ perUnit
  · exact fills_of_le hle units d hd
  obtain rfl | hpos := Nat.eq_zero_or_pos d
  · left
    rw [Nat.zero_mul, Nat.zero_mod]
  right
  by_contra hshort
  have hunit := Nat.le_mul_of_pos_right size hu
  have hbehind : d * perUnit < d * (size * t.unit) := Nat.mul_lt_mul_of_pos_left (by omega) hpos
  have hdiv := Nat.div_add_mod (d * perUnit) size
  have hframe : d * perUnit / size < d * t.unit := by
    apply Nat.lt_of_mul_lt_mul_left (a := size)
    rw [Nat.mul_left_comm size d]
    omega
  have hscaled := Nat.mul_le_mul_left size hframe
  obtain ⟨-, hnext⟩ := h.at (d := d + 1) hd
  rw [Nat.mul_succ] at hscaled
  rw [Nat.succ_mul d, Nat.succ_mul d, Nat.mul_add] at hnext
  omega

theorem Timing.of_units (hu : 0 < t.unit) {k : Nat} (hk : 1 ≤ k) :
    0 < k * t.unit ∧ t.lag 0 (k * t.unit) = 0 ∧ t.nearest (t.measured 0 (k * t.unit)) = k := by
  have hle := Nat.le_mul_of_pos_left t.unit hk
  refine ⟨by omega, by unfold lag; omega, ?_⟩
  rw [measured, Nat.sub_zero, Nat.max_eq_right hle]
  exact nearest_of_late (e := 0) (by omega)

theorem reads_of_close (hu : 0 < t.unit) (ho : 0 < t.off) {allowed : Nat → Prop} {runs : Nat}
    {bs : List Beat} (h : Beat.Letters 14 allowed runs bs) (start : Nat)
    (hedge : ∀ d ≤ start + (bs.map Beat.units).sum,
      (∀ on, edge size on (d * perUnit) = d * t.unit) ∧ d * t.unit ≤ d * perUnit / size + 1) :
    Reads t 0 (keystrokes size perUnit start bs) bs := by
  have hexact : ∀ i k : Nat, (i + k) * t.unit - i * t.unit = k * t.unit := by
    intro i k
    rw [Nat.add_mul, Nat.add_sub_cancel_left]
  have hmark : ∀ b : Beat, 0 < b.tone * t.unit ∧ t.lag 0 (b.tone * t.unit) = 0 ∧
      markOf (t.nearest (t.measured 0 (b.tone * t.unit))) = b.mark := by
    intro b
    obtain ⟨hpos, hlag, hnear⟩ := Timing.of_units hu (k := b.tone) (by have := b.tone_eq; omega)
    refine ⟨hpos, hlag, ?_⟩
    obtain ⟨m, rest⟩ := b
    rw [hnear]
    cases m <;> rfl
  induction h generalizing start with
  | @last runs m hr =>
    have hrise := (hedge start (by omega)).1
    have hfall := (hedge (start + Beat.tone ⟨m, 14⟩) (by simp [Beat.units])).1
    have hend := (hedge (start + Beat.units ⟨m, 14⟩) (by simp)).2
    obtain ⟨htone, hlag, hm⟩ := hmark ⟨m, 14⟩
    have hunits : start + Beat.units ⟨m, 14⟩ = start + Beat.tone ⟨m, 14⟩ + 14 :=
      (Nat.add_assoc _ _ _).symm
    rw [keystrokes, onset, keystrokes, hrise, hfall, hexact]
    refine .last htone (by rw [hlag]; exact Nat.zero_le _) hm rfl ?_
    rw [hunits, Nat.add_mul _ 14] at hend
    rw [hlag, Nat.zero_add, hunits]
    simp only
    omega
  | @next runs b bs hr hrest h ih =>
    have hsum : start + ((b :: bs).map Beat.units).sum =
        start + b.units + (bs.map Beat.units).sum := by
      rw [List.map_cons, List.sum_cons, Nat.add_assoc]
    rw [hsum] at hedge
    have hbs := ih (start + b.units) hedge
    have hrise := (hedge start (by omega)).1
    have hfall := (hedge (start + b.tone) (by rw [Beat.units]; omega)).1
    have hnext := (hedge (start + b.units) (by omega)).1
    obtain ⟨htone, hlag, hm⟩ := hmark b
    obtain ⟨hsil, hlag', hnear⟩ := Timing.of_units hu (k := b.rest) (by omega)
    obtain ⟨-, c, cs, rfl⟩ := h.cons_of
    have hunits : start + b.units = start + b.tone + b.rest := (Nat.add_assoc _ _ _).symm
    rw [keystrokes, onset, hnext, hunits, hrise, hfall, hexact, hexact, ← hunits]
    refine .next htone (by rw [hlag]; exact Nat.zero_le _) hm (by rw [hlag]; exact hsil)
      (by rw [hlag, hlag']; exact ho) (by rw [hlag, hnear]) ?_
    rw [hlag, hlag']
    exact hbs

/-- Whether an excess adds up over so many runs to less than an edge may be late. -/
def Timing.Bears (t : Timing) (size excess runs : Nat) : Prop := runs * excess + size ≤ size * t.off

instance (t : Timing) (size excess runs : Nat) : Decidable (t.Bears size excess runs) :=
  inferInstanceAs (Decidable (_ ≤ _))

/-- Two clocks of which the receiver's has the longer unit by an excess, if any, that two runs bear. -/
structure Timing.Drifts (t : Timing) (size perUnit excess : Nat) : Prop where
  even : size % 2 = 0
  pos : 0 < size
  unit_eq : 0 < excess ∧ perUnit + excess = size * t.unit ∨ excess = 0 ∧ size * t.unit < perUnit
  bears : t.Bears size excess 2
  longer : 2 * perUnit < 2 * (size * t.unit) + size
  shorter : size * t.unit ≤ perUnit + size + 1
  three_le : 3 ≤ t.unit
  off_le : 5 * t.off ≤ t.unit + 4

/-- A run is measured as less than so many units and a half if it is shorter in samples. -/
theorem measured_lt (size : Nat) (hu : 0 < t.unit) {k first stop : Nat} (hk : 2 ≤ k)
    (h : size * stop + size * (t.unit / 2) < size * first + k * (size * t.unit)) :
    max t.unit (stop - first) + t.unit / 2 < k * t.unit := by
  have hlt : stop + t.unit / 2 < first + k * t.unit := by
    apply Nat.lt_of_mul_lt_mul_left (a := size)
    rwa [Nat.mul_add, Nat.mul_add, Nat.mul_left_comm]
  have hle := Nat.mul_le_mul_right t.unit hk
  omega

theorem le_measured (size : Nat) {k first stop : Nat}
    (h : size * first + k * (size * t.unit) < size * stop + size * (t.unit / 2) + size) :
    k * t.unit ≤ max t.unit (stop - first) + t.unit / 2 := by
  have hle : first + k * t.unit ≤ stop + t.unit / 2 := by
    apply le_of_scaled size
    rwa [Nat.mul_add, Nat.mul_add, Nat.mul_left_comm]
  omega

namespace Timing

theorem Drifts.scaled {excess : Nat} (hd : t.Drifts size perUnit excess) :
    5 * (size * t.off) ≤ size * t.unit + 4 * size ∧ 3 * size ≤ size * t.unit ∧
      2 * (size * (t.unit / 2)) ≤ size * t.unit ∧ size * t.unit ≤ 2 * (size * (t.unit / 2)) + size := by
  have hoff := Nat.mul_le_mul_left size hd.off_le
  have hthree := Nat.mul_le_mul_left size hd.three_le
  have hhalf := Nat.mul_le_mul_left size (show 2 * (t.unit / 2) ≤ t.unit by omega)
  have hhalf' := Nat.mul_le_mul_left size (show t.unit ≤ 2 * (t.unit / 2) + 1 by omega)
  simp only [Nat.mul_add, Nat.mul_left_comm size, Nat.mul_one, Nat.mul_comm size 3,
    Nat.mul_comm size 4] at hoff hthree hhalf hhalf'
  exact ⟨hoff, hthree, hhalf, hhalf'⟩

theorem Drifts.off_pos {excess : Nat} (hd : t.Drifts size perUnit excess) : 0 < t.off := by
  have hpos := hd.pos
  have hbears : 2 * excess + size ≤ size * t.off := hd.bears
  exact Nat.pos_of_mul_pos_left (show 0 < size * t.off by omega)

theorem Bears.of_le {excess runs k : Nat} (h : t.Bears size excess runs) (hk : k ≤ runs) :
    t.Bears size excess k :=
  (Nat.add_le_add_right (Nat.mul_le_mul_right excess hk) size).trans h

/-- A tone whose rise is noticed late, by no more than the runs of its letter before it account for. -/
structure Tracks (t : Timing) (size perUnit excess runs sample : Nat) (b : Beat)
    (rise late fall : Nat) : Prop where
  drifts : t.Drifts size perUnit excess
  bears : t.Bears size excess runs
  rise_eq : rise = edge size true sample
  fall_eq : fall = edge size false (sample + b.tone * perUnit)
  late_lt : size * (rise + late + t.unit) < sample + perUnit + (runs + 1) * excess + size / 2

theorem scaled_heard (size : Nat) {rise late fall heard : Nat}
    (h : heard = max (rise + late + t.unit) fall) :
    size * heard = max (size * rise + size * late + size * t.unit) (size * fall) := by
  rw [h, ← Nat.mul_max_mul_left, Nat.mul_add, Nat.mul_add]

namespace Tracks

variable {excess runs sample rise late fall : Nat} {b : Beat}

theorem scaled (h : t.Tracks size perUnit excess runs sample b rise late fall) :
    (size * rise < sample + size / 2 ∧ sample ≤ size * rise + size / 2) ∧
      (size * fall ≤ sample + b.tone * perUnit + size / 2 ∧
        sample + b.tone * perUnit < size * fall + size / 2) ∧
      size * rise + size * late + size * t.unit <
        sample + perUnit + runs * excess + excess + size / 2 ∧
      (b.tone = 1 ∧ b.tone * perUnit = perUnit ∨ b.tone = 3 ∧ b.tone * perUnit = 3 * perUnit) := by
  obtain ⟨hd, -, rfl, rfl, hlate⟩ := h
  refine ⟨edge_tone hd.even hd.pos _, edge_silence hd.even hd.pos _, ?_, ?_⟩
  · rw [Nat.succ_mul] at hlate
    simp only [Nat.mul_add] at hlate
    omega
  · exact b.tone_eq.imp (fun h => ⟨h, by rw [h, Nat.one_mul]⟩) fun h => ⟨h, by rw [h]⟩

/-- The tone falls behind its late rise, late within the budget, and is measured as its mark. -/
theorem tone (h : t.Tracks size perUnit excess runs sample b rise late fall) :
    rise + late < fall ∧ rise + late + t.unit ≤ fall + t.off ∧
      markOf (t.nearest (t.measured late (fall - rise))) = b.mark := by
  obtain ⟨hoff, hthree, hhalf, hhalf'⟩ := h.drifts.scaled
  obtain ⟨hrise, hfall, hlate, htone⟩ := h.scaled
  obtain ⟨-, hpos, hunit, hbears, hlonger, hshorter, hU, -⟩ := h.drifts
  have hbudget : runs * excess + size ≤ size * t.off := h.bears
  change 2 * excess + size ≤ size * t.off at hbears
  generalize b.tone * perUnit = tone at *
  refine ⟨Nat.lt_of_mul_lt_mul_left (a := size) ?_, le_of_scaled size ?_,
    mark_of_near (by omega) b ?_ ?_⟩
  · rw [Nat.mul_add]
    omega
  · simp only [Nat.mul_add]
    omega
  · intro hdot
    rw [measured, Nat.sub_sub]
    refine measured_lt size (by omega) (by omega) ?_
    rw [Nat.mul_add]
    omega
  · intro hdash
    rw [measured, Nat.sub_sub]
    refine le_measured size ?_
    rw [Nat.mul_add]
    omega

/-- The silence is heard from where the tone was noticed to end; it is measured as it was meant, and
the next rise is noticed within its own budget. -/
theorem silence (h : t.Tracks size perUnit excess runs sample b rise late fall)
    (hrest : b.rest = 1 ∨ b.rest = 3 ∨ b.rest = 7) (hbears : t.Bears size excess (b.rushed runs))
    {next heard : Nat}
    (hnext : next = edge size true (sample + b.tone * perUnit + b.rest * perUnit))
    (hheard : heard = max (rise + late + t.unit) fall) :
    heard < next ∧ heard + t.unit < next + t.off ∧
      spacing? (t.nearest (max t.unit (next - heard))) = spacing? b.rest ∧
      size * (next + (heard + t.unit - next) + t.unit) <
        sample + b.tone * perUnit + b.rest * perUnit + perUnit +
          (b.rushed runs + 1) * excess + size / 2 := by
  obtain ⟨hoff, hthree, hhalf, hhalf'⟩ := h.drifts.scaled
  obtain ⟨hrise, hfall, hlate, htone⟩ := h.scaled
  have hheard := scaled_heard size hheard
  obtain ⟨heven, hpos, hunit, htwo, hlonger, hshorter, hU, -⟩ := h.drifts
  have hbudget : runs * excess + size ≤ size * t.off := h.bears
  change 2 * excess + size ≤ size * t.off at htwo
  change b.rushed runs * excess + size ≤ size * t.off at hbears
  have hnext' := edge_tone heven hpos (sample + b.tone * perUnit + b.rest * perUnit)
  rw [← hnext] at hnext'
  have hsilence : (b.rest = 1 ∧ b.rest * perUnit = perUnit ∧
        (b.tone = 1 ∧ b.rushed runs * excess = runs * excess + 2 * excess ∨
          b.tone = 3 ∧ b.rushed runs * excess = 2 * excess)) ∨
      b.rest = 3 ∧ b.rest * perUnit = 3 * perUnit ∧ b.rushed runs * excess = 0 ∨
      b.rest = 7 ∧ b.rest * perUnit = 7 * perUnit ∧ b.rushed runs * excess = 0 := by
    obtain h | h | h := hrest
    · refine .inl ⟨h, by rw [h, Nat.one_mul], ?_⟩
      rw [Beat.rushed, if_pos h]
      obtain h | h := b.tone_eq
      · exact .inl ⟨h, by rw [if_neg (by omega), Nat.add_mul]⟩
      · exact .inr ⟨h, by rw [if_pos h]⟩
    · exact .inr (.inl ⟨h, by rw [h], by rw [Beat.rushed, if_neg (by omega), Nat.zero_mul]⟩)
    · exact .inr (.inr ⟨h, by rw [h], by rw [Beat.rushed, if_neg (by omega), Nat.zero_mul]⟩)
  generalize b.tone * perUnit = tone at *
  generalize b.rest * perUnit = silence at *
  refine ⟨Nat.lt_of_mul_lt_mul_left (a := size) (by omega), Nat.lt_of_mul_lt_mul_left (a := size) ?_,
    spacing_of_near (by omega) ?_, ?_⟩
  · simp only [Nat.mul_add]
    omega
  · obtain ⟨hrest, hunits, -⟩ | ⟨hrest, hunits, -⟩ | ⟨hrest, hunits, -⟩ := hsilence
    · exact .inl ⟨hrest, measured_lt size (by omega) (by omega) (by omega)⟩
    · exact .inr (.inl ⟨hrest, le_measured size (by omega),
        measured_lt size (by omega) (by omega) (by omega)⟩)
    · exact .inr (.inr ⟨hrest, le_measured size (by omega),
        measured_lt size (by omega) (by omega) (by omega)⟩)
  · have hmax : size * (next + (heard + t.unit - next)) =
        max (size * next) (size * heard + size * t.unit) := by
      rw [← Nat.mul_add, Nat.mul_max_mul_left]
      congr 1
      omega
    rw [Nat.mul_add, hmax, Nat.succ_mul]
    omega

/-- The last silence is long enough to be noticed, although what is left of a frame is not heard. -/
theorem ending (h : t.Tracks size perUnit excess runs sample b rise late fall) {heard : Nat}
    (hheard : heard = max (rise + late + t.unit) fall) :
    heard + 11 * t.unit ≤ (sample + b.tone * perUnit + 14 * perUnit) / size := by
  obtain ⟨hoff, hthree, hhalf, hhalf'⟩ := h.drifts.scaled
  obtain ⟨hrise, hfall, hlate, htone⟩ := h.scaled
  have hheard := scaled_heard size hheard
  obtain ⟨-, hpos, hunit, hbears, -⟩ := h.drifts
  have hbudget : runs * excess + size ≤ size * t.off := h.bears
  change 2 * excess + size ≤ size * t.off at hbears
  have hdiv := Nat.div_add_mod (sample + b.tone * perUnit + 14 * perUnit) size
  have hmod := Nat.mod_lt (sample + b.tone * perUnit + 14 * perUnit) hpos
  generalize (sample + b.tone * perUnit + 14 * perUnit) / size = stop at *
  generalize b.tone * perUnit = tone at *
  apply le_of_scaled size
  rw [Nat.mul_add, Nat.mul_left_comm]
  omega

end Tracks

theorem Drifts.in_time {excess : Nat} (hd : t.Drifts size perUnit excess) (sample runs : Nat) :
    size * (edge size true sample + 0 + t.unit) <
      sample + perUnit + (runs + 1) * excess + size / 2 := by
  have hrise := edge_tone hd.even hd.pos sample
  have hunit := hd.unit_eq
  rw [Nat.add_zero, Nat.mul_add, Nat.succ_mul]
  omega

end Timing

/-- Lags are counted from the edges; what is heard from a frame on lags behind the edge before it. -/
theorem Timing.lags {rise late fall heard next : Nat} (hrise : rise ≤ fall)
    (hheard : heard = max (rise + late + t.unit) fall) (hnext : heard < next) :
    t.lag late (fall - rise) = heard - fall ∧
      t.lag (heard - fall) (next - fall) = heard + t.unit - next ∧
      t.measured (heard - fall) (next - fall) = max t.unit (next - heard) := by
  unfold lag measured
  omega

/-- Letters are read although the clocks drift; each rise is as late as the runs of its letter allow. -/
theorem reads_of_drift {excess : Nat} (hd : t.Drifts size perUnit excess) {runs : Nat}
    {bs : List Beat} (h : Beat.Letters 14 (t.Bears size excess) runs bs) (start late : Nat)
    (hlate : size * (edge size true (start * perUnit) + late + t.unit) <
      start * perUnit + perUnit + (runs + 1) * excess + size / 2) :
    Reads t late (keystrokes size perUnit start bs) bs := by
  induction h generalizing start late with
  | @last runs m hr =>
    have htrack : t.Tracks size perUnit excess runs (start * perUnit) ⟨m, 14⟩ _ late _ :=
      ⟨hd, hr, rfl, rfl, hlate⟩
    obtain ⟨htone, hfall, hmark⟩ := htrack.tone
    have hend := htrack.ending rfl
    rw [keystrokes, onset, keystrokes, Beat.units]
    simp only [Nat.add_mul, ← Nat.add_assoc]
    refine .last ?_ ?_ hmark rfl ?_
    all_goals simp only [Timing.lag]
    · omega
    · omega
    · omega
  | @next runs b bs hr hrest h ih =>
    obtain ⟨hbears, c, cs, rfl⟩ := h.cons_of
    have htrack : t.Tracks size perUnit excess runs (start * perUnit) b _ late _ :=
      ⟨hd, hr, rfl, rfl, hlate⟩
    have hoff := hd.off_pos
    obtain ⟨htone, hfall, hmark⟩ := htrack.tone
    obtain ⟨hheard, hrise, hspacing, hlate'⟩ := htrack.silence hrest hbears rfl rfl
    obtain ⟨hlag, hlag', hmeasured⟩ := Timing.lags (by omega) rfl hheard
    have hunits : (start + b.units) * perUnit =
        start * perUnit + b.tone * perUnit + b.rest * perUnit := by
      rw [Beat.units, ← Nat.add_assoc, Nat.add_mul, Nat.add_mul]
    have hbs := ih (start + b.units)
    rw [hunits] at hbs
    rw [keystrokes, onset, hunits, Nat.add_mul start b.tone]
    refine .next ?_ ?_ hmark ?_ ?_ ?_ ?_
    · simp only
      omega
    · simp only [hlag]
      omega
    · simp only [hlag]
      omega
    · simp only [hlag, hlag']
      omega
    · rw [hlag, hmeasured, hspacing]
    · rw [hlag, hlag']
      exact hbs _ hlate'

end ToneWatch.Morse
