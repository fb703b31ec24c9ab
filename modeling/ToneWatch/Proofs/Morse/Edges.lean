import Mathlib
import ToneWatch.Proofs.Morse.Stretch

namespace ToneWatch.Morse

/-- What a silence between two tones means, by its units. -/
def spacing? (units : Nat) : Option Symbol :=
  if units ≤ 1 then none
  else if units ≤ 4 then some .letterGap
  else if units ≤ 8 then some .wordGap
  else some .endOfTransmission

theorem gap?_false (units : Nat) : gap? units false = spacing? units := by
  unfold gap? spacing? endUnits
  split_ifs <;> simp_all <;> omega

theorem gap?_true {units : Nat} (h : endUnits ≤ units) : gap? units true = none := by
  have he : endUnits = 9 := rfl
  have h4 : ¬ units ≤ 4 := by omega
  have h8 : ¬ units ≤ 8 := by omega
  simp [gap?, h4, h8]

theorem isMark_of_gap? {units : Nat} {ended : Bool} {s : Symbol} (h : gap? units ended = some s) :
    s.isMark = false := by
  unfold gap? at h
  split_ifs at h <;> cases h <;> rfl

theorem isMark_end {p : Prop} [Decidable p] {s : Symbol}
    (h : s ∈ if p then [Symbol.endOfTransmission] else []) : s.isMark = false := by
  split_ifs at h
  · rw [List.mem_singleton.mp h]
    rfl
  · cases h

namespace Timing

variable {t : Timing}

theorem unit_of_take (hu : 0 < t.unit) (xs : List Bool) {i : Nat} (hi : i ≤ xs.length)
    (h : t.unit ≤ i) :
    (xs.take i).reverse[t.unit - 1]? = xs[i - t.unit]? ∧
      ((xs.take i).reverse.take t.unit).countP id =
        ((xs.drop (i - t.unit)).take t.unit).countP id := by
  constructor
  · rw [List.getElem?_reverse (by rw [List.length_take]; omega), List.length_take,
      List.getElem?_take_of_lt (by omega)]
    congr 1
    omega
  · have hd : (xs.take i).length - t.unit = i - t.unit := by
      rw [List.length_take]
      omega
    have hx : i - (i - t.unit) = t.unit := by omega
    rw [List.take_reverse, List.countP_reverse, hd, List.drop_take, hx]

theorem edge_take (hu : 0 < t.unit) (xs : List Bool) {i : Nat} (hi : i ≤ xs.length)
    (P : Nat → Prop) (b : Bool) :
    (t.unit ≤ (xs.take i).reverse.length ∧ P (((xs.take i).reverse.take t.unit).countP id) ∧
      (xs.take i).reverse[t.unit - 1]? = some b) ↔
    t.unit ≤ i ∧ P (((xs.drop (i - t.unit)).take t.unit).countP id) ∧
      xs[i - t.unit]? = some b := by
  have hl : (xs.take i).reverse.length = i := by simp [hi]
  rw [hl]
  apply and_congr_right
  intro h
  obtain ⟨hs, hc⟩ := unit_of_take hu xs hi h
  rw [hs, hc]

theorem rises_take (hu : 0 < t.unit) (xs : List Bool) {i : Nat} (hi : i ≤ xs.length) :
    t.Rises (xs.take i).reverse ↔ t.unit ≤ i ∧
      t.on ≤ ((xs.drop (i - t.unit)).take t.unit).countP id ∧ xs[i - t.unit]? = some true :=
  edge_take hu xs hi (t.on ≤ ·) true

theorem falls_take (hu : 0 < t.unit) (xs : List Bool) {i : Nat} (hi : i ≤ xs.length) :
    t.Falls (xs.take i).reverse ↔ t.unit ≤ i ∧
      ((xs.drop (i - t.unit)).take t.unit).countP id < t.off ∧ xs[i - t.unit]? = some false :=
  edge_take hu xs hi (· < t.off) false

/-- A tone after a silence rises when its first unit is heard, and no earlier. -/
theorem rises_silence (hu : 0 < t.unit) (k : Nat) (first : List Bool) (hl : first.length = t.unit)
    (hs : first[0]? = some true) (hc : t.on ≤ first.countP id) :
    t.Rises (List.replicate k false ++ first).reverse ∧
      ∀ i < (List.replicate k false ++ first).length,
        ¬ t.Rises ((List.replicate k false ++ first).take i).reverse := by
  have hlen : (List.replicate k false ++ first).length = k + t.unit := by simp [hl]
  constructor
  · have h := rises_take hu (List.replicate k false ++ first) (le_refl _)
    rw [List.take_length, hlen] at h
    apply h.mpr
    have hk : k + t.unit - t.unit = k := by omega
    refine ⟨by omega, ?_, ?_⟩
    · rw [hk, List.drop_left' (by simp), List.take_of_length_le (by omega)]
      exact hc
    · rw [hk, List.getElem?_append_right (by simp), List.length_replicate, Nat.sub_self]
      exact hs
  · intro i hi h
    rw [hlen] at hi
    obtain ⟨hle, -, hn⟩ := (rises_take hu _ (by omega)).mp h
    rw [List.getElem?_append_left (by simp; omega), List.getElem?_replicate] at hn
    split_ifs at hn
    cases hn

/-- A silence after a tone falls when a unit of it is over, if every miss in the tone has enough of the
tone behind it. -/
theorem falls_tone (hu : 0 < t.unit) (ho : 0 < t.off) (rest : List Bool)
    (hr : ∀ i < rest.length, rest[i]? = some true ∨
      t.off ≤ ((rest.drop i).take t.unit).countP id) :
    t.Falls (rest ++ List.replicate t.unit false).reverse ∧
      ∀ i < (rest ++ List.replicate t.unit false).length,
        ¬ t.Falls ((rest ++ List.replicate t.unit false).take i).reverse := by
  have hlen : (rest ++ List.replicate t.unit false).length = rest.length + t.unit := by simp
  constructor
  · have h := falls_take hu (rest ++ List.replicate t.unit false) (le_refl _)
    rw [List.take_length, hlen] at h
    apply h.mpr
    have hk : rest.length + t.unit - t.unit = rest.length := by omega
    refine ⟨by omega, ?_, ?_⟩
    · rw [hk, List.drop_left' rfl, List.take_of_length_le (by simp), List.countP_replicate]
      simpa using ho
    · rw [hk, List.getElem?_append_right (le_refl _), Nat.sub_self, List.getElem?_replicate]
      simp [hu]
  · intro i hi h
    rw [hlen] at hi
    obtain ⟨hle, hf, hn⟩ := (falls_take hu _ (by omega)).mp h
    have hi' : i - t.unit < rest.length := by omega
    rw [List.getElem?_append_left hi'] at hn
    rcases hr _ hi' with ht | ht
    · rw [ht] at hn
      cases hn
    · have hs : ((rest.drop (i - t.unit)).take t.unit).Sublist
          (((rest ++ List.replicate t.unit false).drop (i - t.unit)).take t.unit) := by
        rw [List.drop_append_of_le_length hi'.le]
        exact ((List.prefix_append _ _).take _).sublist
      have hm := hs.countP_le (p := id)
      omega

/-- A miss too near to the end of a tone is taken for the start of the silence. -/
theorem falls_miss (hu : 0 < t.unit) (m e : Nat) (he : 0 < e) (ho : e ≤ t.off)
    (hle : e ≤ t.unit) :
    let heard := List.replicate m true ++ false :: List.replicate (e - 1) true ++
      List.replicate (t.unit - e) false
    t.Falls heard.reverse ∧ ∀ i < heard.length, ¬ t.Falls (heard.take i).reverse := by
  intro heard
  have hlen : heard.length = m + t.unit := by
    simp [heard]
    omega
  constructor
  · have h := falls_take hu heard (le_refl _)
    rw [List.take_length, hlen] at h
    apply h.mpr
    have hk : m + t.unit - t.unit = m := by omega
    have hd : heard.drop m = false :: List.replicate (e - 1) true ++
        List.replicate (t.unit - e) false := by
      simp only [heard, List.append_assoc]
      exact List.drop_left' (by simp)
    refine ⟨by omega, ?_, ?_⟩
    · rw [hk, hd, List.take_of_length_le (by simp; omega)]
      simp [List.countP_replicate]
      omega
    · rw [hk]
      have hg := congrArg (·[0]?) hd
      simpa using hg
  · intro i hi h
    rw [hlen] at hi
    obtain ⟨hle, -, hn⟩ := (falls_take hu _ (by omega)).mp h
    simp only [heard, List.append_assoc] at hn
    rw [List.getElem?_append_left (by simp; omega), List.getElem?_replicate] at hn
    split_ifs at hn
    cases hn

end Timing

namespace RunTimer

variable {t : Timing}

theorem feed_waiting (hu : 0 < t.unit) {counted : Nat} (hc : counted ≤ 1) (log xs : List Bool)
    (h : ∀ i < xs.length, ¬ t.Rises ((xs.take (i + 1)).reverse ++ log)) :
    feed step (waiting t counted log) xs =
      (waiting t counted (xs.reverse ++ log),
        if log.length < t.endAfter counted ∧ t.endAfter counted ≤ log.length + xs.length then
          [.endOfTransmission] else []) := by
  induction xs generalizing log with
  | nil =>
    have hn : ¬ (log.length < t.endAfter counted ∧ t.endAfter counted ≤ log.length) := by omega
    simp [hn]
  | cons b xs ih =>
    have hb : ¬ t.Rises (b :: log) := by simpa using h 0 (by simp)
    have ht : ∀ i < xs.length, ¬ t.Rises ((xs.take (i + 1)).reverse ++ b :: log) := by
      intro i hi
      simpa using h (i + 1) (by simpa using hi)
    rw [feed_cons, step_waiting hu hc, if_neg hb, ih (b :: log) ht]
    simp only [List.reverse_cons, List.append_assoc, List.singleton_append, List.length_cons,
      Prod.mk.injEq, true_and]
    by_cases he : log.length + 1 = t.endAfter counted
    · rw [if_pos he, if_neg (by omega), if_pos (by omega)]
      rfl
    · rw [if_neg he, Option.toList_none, List.nil_append]
      exact if_congr (by omega) rfl rfl

theorem feed_sounding (hu : 0 < t.unit) (log xs : List Bool)
    (h : ∀ i < xs.length, ¬ t.Falls ((xs.take (i + 1)).reverse ++ log)) :
    feed step (sounding t log) xs = (sounding t (xs.reverse ++ log), []) := by
  induction xs generalizing log with
  | nil => simp
  | cons b xs ih =>
    have hb : ¬ t.Falls (b :: log) := by simpa using h 0 (by simp)
    have ht : ∀ i < xs.length, ¬ t.Falls ((xs.take (i + 1)).reverse ++ b :: log) := by
      intro i hi
      simpa using h (i + 1) (by simpa using hi)
    rw [feed_cons, step_sounding hu, if_neg hb, ih (b :: log) ht]
    simp

theorem feed_rise (hu : 0 < t.unit) {counted : Nat} (hc : counted ≤ 1) (xs : List Bool)
    (hr : t.Rises xs.reverse) (hq : ∀ i < xs.length, ¬ t.Rises (xs.take i).reverse) :
    feed step (waiting t counted []) xs =
      (sounding t [],
        (if t.endAfter counted < xs.length then [.endOfTransmission] else []) ++
        (gap? (counted + t.nearest xs.length - 1)
          (decide (t.endAfter counted < xs.length))).toList) := by
  have hpos : 0 < xs.length := by
    have h := hr.1
    rw [List.length_reverse] at h
    omega
  obtain ⟨ys, b, rfl⟩ := (List.eq_nil_or_concat' xs).resolve_left (List.ne_nil_of_length_pos hpos)
  have hlen : (ys ++ [b]).length = ys.length + 1 := by simp
  have hy : ∀ i < ys.length, ¬ t.Rises ((ys.take (i + 1)).reverse ++ []) := by
    intro i hi
    have h := hq (i + 1) (by omega)
    rwa [List.take_append_of_le_length (by omega), ← List.append_nil (ys.take (i + 1)).reverse] at h
  have hb : t.Rises (b :: (ys.reverse ++ [])) := by simpa using hr
  have h0 : 0 < t.endAfter counted := Nat.mul_pos (by simp only [endUnits]; omega) hu
  rw [feed_concat, feed_waiting hu hc [] ys hy, step_waiting hu hc, if_pos hb, hlen]
  simp only [List.append_nil, List.length_reverse, List.length_nil, Nat.zero_add, h0, true_and,
    Nat.lt_succ_iff]

theorem feed_fall (hu : 0 < t.unit) (xs : List Bool) (hf : t.Falls xs.reverse)
    (hq : ∀ i < xs.length, ¬ t.Falls (xs.take i).reverse) :
    feed step (sounding t []) xs =
      (waiting t 1 [], [.mark (markOf (t.nearest xs.length))]) := by
  have hpos : 0 < xs.length := by
    have h := hf.1
    rw [List.length_reverse] at h
    omega
  obtain ⟨ys, b, rfl⟩ := (List.eq_nil_or_concat' xs).resolve_left (List.ne_nil_of_length_pos hpos)
  have hlen : (ys ++ [b]).length = ys.length + 1 := by simp
  have hy : ∀ i < ys.length, ¬ t.Falls ((ys.take (i + 1)).reverse ++ []) := by
    intro i hi
    have h := hq (i + 1) (by omega)
    rwa [List.take_append_of_le_length (by omega), ← List.append_nil (ys.take (i + 1)).reverse] at h
  have hb : t.Falls (b :: (ys.reverse ++ [])) := by simpa using hf
  rw [feed_concat, feed_sounding hu [] ys hy, step_sounding hu, if_pos hb, hlen, List.append_nil,
    List.length_reverse]
  rfl

/-- After a tone, a silence that the next tone ends gives exactly the gap of its nearest units. -/
theorem spacing_of_silence (hu : 0 < t.unit) (n : Nat) :
    (if t.endAfter 1 < n then [Symbol.endOfTransmission] else []) ++
      (gap? (t.nearest n) (decide (t.endAfter 1 < n))).toList = (spacing? (t.nearest n)).toList := by
  by_cases h : t.endAfter 1 < n
  · have hn : 10 ≤ t.nearest n := by
      rw [Timing.nearest, Nat.le_div_iff_mul_le hu]
      simp only [Timing.endAfter, endUnits] at h
      omega
    have hs : spacing? (t.nearest n) = some .endOfTransmission := by
      rw [spacing?, if_neg (by omega), if_neg (by omega), if_neg (by omega)]
    rw [if_pos h, decide_eq_true h, gap?_true (by simp only [endUnits]; omega), hs]
    rfl
  · rw [if_neg h, decide_eq_false h, gap?_false, List.nil_append]

theorem feed_first_silence (hu : 0 < t.unit) (k : Nat) (first : List Bool)
    (hl : first.length = t.unit) (hs : first[0]? = some true) (hc : t.on ≤ first.countP id) :
    ∃ lead, feed step (waiting t 0 []) (List.replicate k false ++ first) = (sounding t [], lead) ∧
      ∀ s ∈ lead, s.isMark = false := by
  obtain ⟨hr, hq⟩ := Timing.rises_silence hu k first hl hs hc
  rw [feed_rise hu (Nat.zero_le 1) _ hr hq]
  refine ⟨_, rfl, ?_⟩
  intro s h
  rcases List.mem_append.mp h with h | h
  · exact isMark_end h
  · exact isMark_of_gap? (Option.mem_toList.mp h)

theorem feed_silence (hu : 0 < t.unit) (k : Nat) (first : List Bool)
    (hl : first.length = t.unit) (hs : first[0]? = some true) (hc : t.on ≤ first.countP id) :
    feed step (waiting t 1 []) (List.replicate k false ++ first) =
      (sounding t [], (spacing? (t.nearest (k + t.unit))).toList) := by
  obtain ⟨hr, hq⟩ := Timing.rises_silence hu k first hl hs hc
  have hlen : (List.replicate k false ++ first).length = k + t.unit := by simp [hl]
  rw [feed_rise hu (le_refl 1) _ hr hq, hlen, Nat.add_sub_cancel_left, spacing_of_silence hu]

theorem feed_only_silence (hu : 0 < t.unit) {counted : Nat} (hc : counted ≤ 1) (k : Nat) :
    feed step (waiting t counted []) (List.replicate k false) =
      (waiting t counted (List.replicate k false),
        if t.endAfter counted ≤ k then [.endOfTransmission] else []) := by
  have hq : ∀ i < (List.replicate k false).length,
      ¬ t.Rises (((List.replicate k false).take (i + 1)).reverse ++ []) := by
    intro i hi h
    have hm := List.mem_of_getElem? h.2.2
    simp at hm
  have h0 : 0 < t.endAfter counted := Nat.mul_pos (by simp only [endUnits]; omega) hu
  rw [feed_waiting hu hc [] _ hq, List.length_nil, List.length_replicate, Nat.zero_add]
  simp only [h0, true_and, List.reverse_replicate, List.append_nil]

end RunTimer

end ToneWatch.Morse
