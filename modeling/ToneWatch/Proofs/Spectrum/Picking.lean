import Mathlib
import ToneWatch.Spectrum.Peaks

namespace ToneWatch.Spectrum

variable {α : Type} [LinearOrder α]

/-- Whether a bin of the band is louder than the threshold. -/
def IsLoud (threshold : α) (band : List α) (i : Nat) : Prop :=
  ∃ m ∈ band[i]?, threshold < m

/-- Whether a bin is louder than another one, or as loud and before it. -/
def Outranks (band : List α) (i j : Nat) : Prop :=
  ∃ a ∈ band[i]?, ∃ b ∈ band[j]?, b < a ∨ a = b ∧ i < j

/-- Whether bins may be the first peaks of a band: each is loud, not louder than the one before it and
clear of the others, and every loud bin of a higher rank is close to an earlier peak. -/
structure Leads (threshold : α) (radius : Nat) (band : List α) (ps : List Nat) : Prop where
  loud : ∀ p ∈ ps, IsLoud threshold band p
  sorted : ps.Pairwise fun p q => ∀ a ∈ band[p]?, ∀ b ∈ band[q]?, b ≤ a
  apart : ps.Pairwise fun p q => radius < p.dist q
  unskipped : ∀ j q, ps[j]? = some q → ∀ i, IsLoud threshold band i → Outranks band i q →
    ∃ p ∈ ps.take j, p.dist i ≤ radius

/-- Whether bins are all the peaks of a band, which has no more than three. -/
structure Suppressed (threshold : α) (radius : Nat) (band : List α) (ps : List Nat) : Prop
    extends Leads threshold radius band ps where
  few : ps.length ≤ 3
  exhausted : ps.length < 3 → ∀ i, IsLoud threshold band i → ∃ p ∈ ps, p.dist i ≤ radius

theorem forall_getElem?_concat {β : Type} {P : Nat → β → Prop} (xs : List β) (x : β) :
    (∀ i a, (xs ++ [x])[i]? = some a → P i a) ↔
      (∀ i a, xs[i]? = some a → P i a) ∧ P xs.length x := by
  constructor
  · intro h
    refine ⟨fun i a hi => h i a ?_, h _ x List.getElem?_concat_length⟩
    rw [List.getElem?_append_left (List.getElem?_eq_some_iff.mp hi).1, hi]
  · rintro ⟨h, hx⟩ i a hi
    rw [List.getElem?_append] at hi
    split at hi
    · exact h i a hi
    · have hzero : i - xs.length = 0 := by
        have hlt := (List.getElem?_eq_some_iff.mp hi).1
        rw [List.length_singleton] at hlt
        omega
      rw [hzero] at hi
      obtain rfl : x = a := Option.some.inj hi
      obtain rfl : i = xs.length := by omega
      exact hx

section

variable {admits : Nat → α → Bool}

/-- Whether a bin with its level is the first of the loudest ones admitted. -/
def IsLoudest (admits : Nat → α → Bool) (band : List α) (best : Nat × α) : Prop :=
  band[best.1]? = some best.2 ∧ admits best.1 best.2 = true ∧
    ∀ i m, band[i]? = some m → admits i m = true → m < best.2 ∨ m = best.2 ∧ best.1 ≤ i

/-- Whether this is what is to be found in a band. -/
def Finds (admits : Nat → α → Bool) (band : List α) : Option (Nat × α) → Prop
  | none => ∀ i m, band[i]? = some m → admits i m = false
  | some best => IsLoudest admits band best

theorem Finds.skip {front : List α} {best : Option (Nat × α)} (h : Finds admits front best) {m : α}
    (hm : admits front.length m = false) : Finds admits (front ++ [m]) best := by
  cases best with
  | none => exact (forall_getElem?_concat front m).mpr ⟨h, hm⟩
  | some best =>
    obtain ⟨hat, hadmits, hbest⟩ := h
    refine ⟨?_, hadmits, (forall_getElem?_concat front m).mpr ⟨hbest, fun hadm => ?_⟩⟩
    · rw [List.getElem?_append_left (List.getElem?_eq_some_iff.mp hat).1, hat]
    · rw [hm] at hadm
      cases hadm

theorem Finds.keep {front : List α} {best : Nat × α} (h : Finds admits front (some best)) {m : α}
    (hm : ¬ best.2 < m) : Finds admits (front ++ [m]) (some best) := by
  obtain ⟨hat, hadmits, hbest⟩ := h
  have hlt := (List.getElem?_eq_some_iff.mp hat).1
  refine ⟨?_, hadmits, (forall_getElem?_concat front m).mpr ⟨hbest, fun _ => ?_⟩⟩
  · rw [List.getElem?_append_left hlt, hat]
  · exact (lt_or_eq_of_le (not_lt.mp hm)).imp_right fun heq => ⟨heq, hlt.le⟩

theorem Finds.replace {front : List α} {best : Option (Nat × α)} (h : Finds admits front best)
    {m : α} (hm : admits front.length m = true) (hlt : ∀ b ∈ best, b.2 < m) :
    Finds admits (front ++ [m]) (some (front.length, m)) := by
  refine ⟨List.getElem?_concat_length, hm, (forall_getElem?_concat front m).mpr ⟨?_, fun _ => ?_⟩⟩
  · intro i b hi hb
    cases best with
    | none =>
      rw [h i b hi] at hb
      cases hb
    | some best =>
      obtain hless | ⟨heq, -⟩ := h.2.2 i b hi hb
      · exact .inl (hless.trans (hlt best rfl))
      · exact .inl (heq ▸ hlt best rfl)
  · exact .inr ⟨rfl, le_rfl⟩

theorem Finds.loudestFrom {front : List α} {best : Option (Nat × α)} (h : Finds admits front best)
    (rest : List α) :
    Finds admits (front ++ rest) (loudestFrom admits front.length best rest) := by
  induction rest generalizing front best with
  | nil =>
    rw [List.append_nil]
    exact h
  | cons m rest ih =>
    have hstep : ∀ next, Finds admits (front ++ [m]) next →
        Finds admits (front ++ m :: rest)
          (Spectrum.loudestFrom admits (front.length + 1) next rest) := by
      intro next hnext
      have hrest := ih hnext
      rwa [List.append_assoc, List.singleton_append, List.length_append,
        List.length_singleton] at hrest
    unfold Spectrum.loudestFrom
    apply hstep
    cases hm : admits front.length m with
    | false => exact h.skip hm
    | true =>
      rw [if_pos rfl]
      cases best with
      | none => exact h.replace hm nofun
      | some best =>
        dsimp only
        split
        · next hlt => exact h.replace hm fun b hb => Option.mem_some_iff.mp hb ▸ hlt
        · next hlt => exact h.keep hlt

/-- Either no bin is admitted, or the first of the loudest is found. -/
theorem loudest?_cases (admits : Nat → α → Bool) (band : List α) :
    (loudest? admits band = none ∧ ∀ i m, band[i]? = some m → admits i m = false) ∨
      ∃ i m, loudest? admits band = some i ∧ IsLoudest admits band (i, m) := by
  have hnil : Finds admits [] none := fun i m hi => by simp at hi
  have h : Finds admits band (loudestFrom admits 0 none band) := hnil.loudestFrom band
  rw [loudest?]
  cases hbest : loudestFrom admits 0 none band with
  | none =>
    rw [hbest] at h
    exact .inl ⟨rfl, h⟩
  | some best =>
    rw [hbest] at h
    exact .inr ⟨best.1, best.2, rfl, h⟩

end

variable {threshold : α} {radius : Nat} {band : List α} {ps : List Nat}

theorem admits_iff {i : Nat} {m : α} :
    (!decide (m ≤ threshold) && isClear radius ps i) = true ↔
      threshold < m ∧ ∀ p ∈ ps, radius < p.dist i := by
  simp [isClear, Nat.dist]

theorem IsLoudest.not_outranks {i j : Nat} {m : α}
    (h : IsLoudest (fun i m => !decide (m ≤ threshold) && isClear radius ps i) band (i, m))
    (hloud : IsLoud threshold band j) (hclear : ∀ p ∈ ps, radius < p.dist j) :
    ¬ Outranks band j i := by
  obtain ⟨hat, -, hbest⟩ := h
  obtain ⟨b, hb, hless⟩ := hloud
  rintro ⟨b', hb', m', hm', hrank⟩
  obtain rfl : b = b' := Option.mem_unique hb hb'
  obtain rfl : m = m' := Option.mem_unique hat hm'
  obtain hlt | ⟨rfl, hle⟩ := hbest j b hb (admits_iff.mpr ⟨hless, hclear⟩)
  · obtain hlt' | ⟨rfl, -⟩ := hrank
    · exact lt_asymm hlt hlt'
    · exact lt_irrefl _ hlt
  · obtain hlt' | ⟨-, hlt'⟩ := hrank
    · exact lt_irrefl _ hlt'
    · exact absurd hle (not_le.mpr hlt')

theorem Leads.concat (h : Leads threshold radius band ps) {i : Nat} {m : α}
    (hi : IsLoudest (fun i m => !decide (m ≤ threshold) && isClear radius ps i) band (i, m)) :
    Leads threshold radius band (ps ++ [i]) := by
  obtain ⟨hloud, hclear⟩ := admits_iff.mp hi.2.1
  have hlouder : IsLoud threshold band i := ⟨m, hi.1, hloud⟩
  constructor
  · intro p hp
    rcases List.mem_append.mp hp with hp | hp
    · exact h.loud p hp
    · rw [List.mem_singleton.mp hp]
      exact hlouder
  · refine List.pairwise_append.mpr ⟨h.sorted, List.pairwise_singleton _ _, ?_⟩
    intro p hp q hq a ha b hb
    rw [List.mem_singleton.mp hq] at hb
    -- were the new peak louder than an earlier one, it would lie close to a peak before that
    by_contra hlt
    obtain ⟨j, hj⟩ := List.mem_iff_getElem?.mp hp
    obtain ⟨p', hp', hclose⟩ := h.unskipped j p hj i hlouder ⟨b, hb, a, ha, .inl (not_le.mp hlt)⟩
    exact absurd hclose (not_le.mpr (hclear p' (List.mem_of_mem_take hp')))
  · refine List.pairwise_append.mpr ⟨h.apart, List.pairwise_singleton _ _, ?_⟩
    intro p hp q hq
    rw [List.mem_singleton.mp hq]
    exact hclear p hp
  · refine (forall_getElem?_concat ps i).mpr ⟨?_, ?_⟩
    · intro j q hj i' hi' hrank
      obtain ⟨p, hp, hclose⟩ := h.unskipped j q hj i' hi' hrank
      refine ⟨p, ?_, hclose⟩
      rwa [List.take_append_of_le_length (List.getElem?_eq_some_iff.mp hj).1.le]
    · intro i' hi' hrank
      rw [List.take_left]
      by_contra hfar
      push Not at hfar
      exact hi.not_outranks hi' hfar hrank

theorem Leads.pickMore (h : Leads threshold radius band ps) (n : Nat) (hn : ps.length + n = 3) :
    Suppressed threshold radius band (pickMore threshold radius band n ps) := by
  induction n generalizing ps with
  | zero => exact ⟨h, hn.le, fun hlt => absurd hn hlt.ne⟩
  | succ n ih =>
    rw [Spectrum.pickMore]
    obtain ⟨hnone, hall⟩ | ⟨i, m, hsome, hi⟩ := loudest?_cases
      (fun i m => !decide (m ≤ threshold) && isClear radius ps i) band
    · rw [hnone]
      dsimp only
      refine ⟨h, by omega, ?_⟩
      rintro - i ⟨m, hm, hloud⟩
      by_contra hfar
      push Not at hfar
      have hadmits := admits_iff.mpr ⟨hloud, hfar⟩
      rw [hall i m hm] at hadmits
      cases hadmits
    · rw [hsome]
      exact ih (h.concat hi) (by rw [List.length_append, List.length_singleton]; omega)

theorem suppressed_pick (threshold : α) (radius : Nat) (band : List α) :
    Suppressed threshold radius band (pick threshold radius band) :=
  Leads.pickMore ⟨by simp, .nil, .nil, by simp⟩ 3 rfl

theorem pick_eq_nil (h : ∀ m ∈ band, m ≤ threshold) :
    pick threshold radius band = [] := by
  rw [List.eq_nil_iff_forall_not_mem]
  intro p hp
  obtain ⟨m, hm, hloud⟩ := (suppressed_pick threshold radius band).loud p hp
  exact absurd (h m (List.mem_of_getElem? hm)) (not_le.mpr hloud)

theorem pairwise_take {β : Type} {R : β → β → Prop} {xs : List β} (h : xs.Pairwise R) {k : Nat}
    {x : β} (hx : xs[k]? = some x) : ∀ y ∈ xs.take k, R y x := by
  intro y hy
  obtain ⟨hk, rfl⟩ := List.getElem?_eq_some_iff.mp hx
  obtain ⟨i, hi, rfl⟩ := List.mem_take_iff_getElem.mp hy
  exact List.pairwise_iff_getElem.mp h i k _ hk (lt_of_lt_of_le hi (Nat.min_le_left _ _))

/-- Where the peaks have been the same so far there is another one, and not one of a lower rank. -/
theorem Suppressed.next {qs : List Nat} (h : Suppressed threshold radius band ps)
    (h' : Suppressed threshold radius band qs) {k p : Nat} (hk : ps.take k = qs.take k)
    (hp : ps[k]? = some p) : ∃ q, qs[k]? = some q ∧ ¬ Outranks band p q := by
  have hloud := h.loud p (List.mem_of_getElem? hp)
  have hfar : ∀ r ∈ qs.take k, radius < r.dist p := by
    rw [← hk]
    exact pairwise_take h.apart hp
  cases hq : qs[k]? with
  | none =>
    have hlen := List.getElem?_eq_none_iff.mp hq
    have hlt := (List.getElem?_eq_some_iff.mp hp).1
    have hfew := h.few
    obtain ⟨r, hr, hclose⟩ := h'.exhausted (by omega) p hloud
    rw [← List.take_of_length_le hlen] at hr
    exact absurd hclose (not_le.mpr (hfar r hr))
  | some q =>
    refine ⟨q, rfl, fun hrank => ?_⟩
    obtain ⟨r, hr, hclose⟩ := h'.unskipped k q hq p hloud hrank
    exact absurd hclose (not_le.mpr (hfar r hr))

theorem eq_of_not_outranks {i j : Nat} (hi : IsLoud threshold band i) (hj : IsLoud threshold band j)
    (h : ¬ Outranks band i j) (h' : ¬ Outranks band j i) : i = j := by
  obtain ⟨a, ha, -⟩ := hi
  obtain ⟨b, hb, -⟩ := hj
  by_contra hne
  obtain hlt | heq | hlt := lt_trichotomy a b
  · exact h' ⟨b, hb, a, ha, .inl hlt⟩
  · obtain hij | hij := lt_or_gt_of_ne hne
    · exact h ⟨a, ha, b, hb, .inr ⟨heq, hij⟩⟩
    · exact h' ⟨b, hb, a, ha, .inr ⟨heq.symm, hij⟩⟩
  · exact h ⟨a, ha, b, hb, .inl hlt⟩

theorem Suppressed.unique {qs : List Nat} (h : Suppressed threshold radius band ps)
    (h' : Suppressed threshold radius band qs) : ps = qs := by
  have htake : ∀ k, ps.take k = qs.take k := by
    intro k
    induction k with
    | zero => rw [List.take_zero, List.take_zero]
    | succ k ih =>
      rw [List.take_add_one, List.take_add_one, ih]
      congr 2
      cases hp : ps[k]? with
      | none =>
        cases hq : qs[k]? with
        | none => rfl
        | some q =>
          obtain ⟨p, hp', -⟩ := h'.next h ih.symm hq
          rw [hp] at hp'
          cases hp'
      | some p =>
        obtain ⟨q, hq, hrank⟩ := h.next h' ih hp
        obtain ⟨p', hp', hrank'⟩ := h'.next h ih.symm hq
        obtain rfl : p = p' := Option.some.inj (hp.symm.trans hp')
        rw [hq, eq_of_not_outranks (h.loud p (List.mem_of_getElem? hp))
          (h'.loud q (List.mem_of_getElem? hq)) hrank hrank']
  have hall := htake (ps.length + qs.length)
  rwa [List.take_of_length_le (Nat.le_add_right _ _),
    List.take_of_length_le (Nat.le_add_left _ _)] at hall

theorem pick_eq_iff_suppressed : pick threshold radius band = ps ↔ Suppressed threshold radius band ps :=
  ⟨fun h => h ▸ suppressed_pick threshold radius band,
    fun h => (suppressed_pick threshold radius band).unique h⟩

/-- Whatever the threshold, the bins picked are the ones that are left when around every peak the
lesser bins are suppressed; they are the peaks of a band that is not silent. -/
theorem peaks_eq_iff [Add α] [Sub α] [Mul α] [Div α] [Measure α] (radius : Nat) (band : List α)
    (ps : List Nat) :
    (∀ threshold, pick threshold radius band = ps ↔ Suppressed threshold radius band ps) ∧
      ∀ levels : Levels α, peaks levels radius band = ps ↔
        if mean band < levels.mean ∨ spread band < levels.spread then ps = []
        else Suppressed (mean band + levels.factor * spread band) radius band ps := by
  refine ⟨fun _ => pick_eq_iff_suppressed, fun levels => ?_⟩
  rw [peaks]
  split
  · exact eq_comm
  · exact pick_eq_iff_suppressed

/-- Bins as loud as a peak are picked, too, if they are far enough from it. -/
example : pick 2 1 [0, 9, 9, 9, 0, 7, 0, 7, 3] = [1, 3, 5] := by decide

end ToneWatch.Spectrum
