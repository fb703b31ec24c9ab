import Mathlib
import ToneWatch.Proofs.Morse.Text
import ToneWatch.Proofs.Morse.TimingLaw

namespace ToneWatch.Morse

namespace Timing

variable (t : Timing)

/-- How late the edge behind a run is noticed, if the one before the run was so late. -/
def lag (late run : Nat) : Nat := late + t.unit - run

/-- What is measured of a run whose first edge was noticed late. -/
def measured (late run : Nat) : Nat := max t.unit (run - late)

variable {t}

/-- A silence falls although the next tone begins within its unit, if little enough of it does. -/
theorem falls_short (p s o : Nat) (hs : 0 < s) (hso : s + o = t.unit) (ho : o < t.off) :
    let heard := List.replicate p true ++ (List.replicate s false ++ List.replicate o true)
    t.Falls heard.reverse ∧ ∀ i < heard.length, ¬ t.Falls (heard.take i).reverse := by
  intro heard
  have hu : 0 < t.unit := by omega
  have hlen : heard.length = p + t.unit := by
    simp [heard]
    omega
  have hd : heard.drop p = List.replicate s false ++ List.replicate o true :=
    List.drop_left' (by simp)
  constructor
  · have h := falls_take hu heard (le_refl _)
    rw [List.take_length, hlen] at h
    apply h.mpr
    have hk : p + t.unit - t.unit = p := by omega
    refine ⟨by omega, ?_, ?_⟩
    · rw [hk, hd, List.take_of_length_le (by simp; omega)]
      simpa [List.countP_replicate] using ho
    · have hg := congrArg (·[0]?) hd
      rw [hk]
      simpa [List.getElem?_append_left, hs] using hg
  · intro i hi h
    rw [hlen] at hi
    obtain ⟨hle, -, hn⟩ := (falls_take hu _ (by omega)).mp h
    rw [List.getElem?_append_left (by simp; omega), List.getElem?_replicate] at hn
    split_ifs at hn
    cases hn

end Timing

namespace RunTimer

variable {t : Timing}

theorem feed_short_silence (p s o : Nat) (hs : 0 < s) (hso : s + o = t.unit) (ho : o < t.off) :
    feed step (sounding t []) (List.replicate p true ++
        (List.replicate s false ++ List.replicate o true)) =
      (waiting t 1 [], [.mark (markOf (t.nearest (p + t.unit)))]) := by
  have hu : 0 < t.unit := by omega
  obtain ⟨hf, hq⟩ := Timing.falls_short p s o hs hso ho
  have hlen : (List.replicate p true ++
      (List.replicate s false ++ List.replicate o true)).length = p + t.unit := by
    simp
    omega
  rw [feed_fall hu _ hf hq, hlen]

/-- A unit that begins with a tone rises although the tone ends within it, if most of it is tone. -/
theorem rising_first (ho : 0 < t.off) {i j : Nat} (hi : 0 < i) (hij : i + j = t.unit)
    (hj : j ≤ t.off) :
    (List.replicate i true ++ List.replicate j false).length = t.unit ∧
      (List.replicate i true ++ List.replicate j false)[0]? = some true ∧
      t.on ≤ (List.replicate i true ++ List.replicate j false).countP id := by
  have hon : t.on ≤ i := by
    unfold Timing.off at ho hj
    omega
  refine ⟨by simpa using hij, ?_, by simpa [List.countP_replicate] using hon⟩
  rw [List.getElem?_append_left (by simpa using hi), List.getElem?_replicate, if_pos hi]

end RunTimer

open Keystroke RunTimer

variable {t : Timing}

/-- Whether keystrokes of which the first tone is noticed late are read as beats: no lag hides an edge,
and what is measured means what was meant. -/
inductive Reads (t : Timing) : Nat → List Keystroke → List Beat → Prop
  | last {late : Nat} {k : Keystroke} {b : Beat} (htone : late < k.tone)
      (hfall : t.lag late k.tone ≤ t.off) (hmark : markOf (t.nearest (t.measured late k.tone)) = b.mark)
      (hrest : spacing? b.rest = some .endOfTransmission)
      (hend : t.lag late k.tone + 11 * t.unit ≤ k.silence) : Reads t late [k] [b]
  | next {late : Nat} {k : Keystroke} {ks : List Keystroke} {b : Beat} {bs : List Beat}
      (htone : late < k.tone) (hfall : t.lag late k.tone ≤ t.off)
      (hmark : markOf (t.nearest (t.measured late k.tone)) = b.mark)
      (hsilence : t.lag late k.tone < k.silence) (hrise : t.lag (t.lag late k.tone) k.silence < t.off)
      (hrest : spacing? (t.nearest (t.measured (t.lag late k.tone) k.silence)) = spacing? b.rest)
      (h : Reads t (t.lag (t.lag late k.tone) k.silence) ks bs) : Reads t late (k :: ks) (b :: bs)

/-- What a timer has still to observe of keystrokes when it notices the first tone late. -/
def Keystroke.remaining (t : Timing) (late : Nat) : List Keystroke → List Bool
  | [] => []
  | k :: ks => List.replicate (k.tone - (late + t.unit)) true ++
      (List.replicate (k.silence - t.lag late k.tone) false ++ ks.flatMap states)

/-- Two runs are so much of the first as the unit after a lag has room for, the part of the second that
fills the unit, and what is left of both. -/
theorem replicate_overlap (a b : Bool) (x y unit : Nat) (h : unit - x ≤ y) :
    List.replicate x a ++ List.replicate y b =
      (List.replicate (min unit x) a ++ List.replicate (unit - x) b) ++
        (List.replicate (x - unit) a ++ List.replicate (y - (unit - x)) b) := by
  obtain hx | hx := Nat.le_total unit x
  · rw [Nat.min_eq_left hx, Nat.sub_eq_zero_of_le hx, List.replicate_zero, List.append_nil,
      Nat.sub_zero, ← List.append_assoc, ← List.replicate_add, Nat.add_sub_cancel' hx]
  · rw [Nat.min_eq_right hx, Nat.sub_eq_zero_of_le hx, List.replicate_zero, List.nil_append,
      List.append_assoc, ← List.replicate_add, Nat.add_sub_cancel' h]

theorem Reads.of_cons {late : Nat} {k : Keystroke} {ks : List Keystroke} {bs : List Beat}
    (h : Reads t late (k :: ks) bs) :
    late < k.tone ∧ t.lag late k.tone ≤ t.off ∧ t.lag late k.tone ≤ k.silence := by
  cases h with
  | last htone hfall hmark hrest hend => exact ⟨htone, hfall, by omega⟩
  | next htone hfall hmark hsilence hrise hrest h => exact ⟨htone, hfall, hsilence.le⟩

theorem Reads.rises {late : Nat} {k : Keystroke} {ks : List Keystroke} {bs : List Beat}
    (ho : 0 < t.off) (h : Reads t late (k :: ks) bs) :
    ∃ first, List.replicate (k.tone - late) true ++
        (List.replicate k.silence false ++ ks.flatMap states) = first ++ remaining t late (k :: ks) ∧
      first.length = t.unit ∧ first[0]? = some true ∧ t.on ≤ first.countP id := by
  obtain ⟨htone, hfall, hsilence⟩ := h.of_cons
  have hlag : t.lag late k.tone = t.unit - (k.tone - late) := by
    unfold Timing.lag
    omega
  have hu : 0 < t.unit := by
    unfold Timing.off at ho
    omega
  have hfirst := rising_first ho (i := min t.unit (k.tone - late)) (j := t.unit - (k.tone - late))
    (by omega) (by omega) (by omega)
  refine ⟨_, ?_, hfirst⟩
  rw [← List.append_assoc, replicate_overlap true false _ _ t.unit (by omega), remaining, hlag,
    ← Nat.sub_sub]
  simp only [List.append_assoc]

theorem Reads.feed_remaining (ho : 0 < t.off) {late : Nat} {ks : List Keystroke} {bs : List Beat}
    (h : Reads t late ks bs) :
    (feed step (sounding t []) (remaining t late ks)).2 = bs.flatMap Beat.symbols := by
  have hu : 0 < t.unit := by
    unfold Timing.off at ho
    omega
  have hmeasured : ∀ a b, b - (a + t.unit) + t.unit = t.measured a b := by
    intro a b
    unfold Timing.measured
    omega
  induction h with
  | @last late k b htone hfall hmark hrest hend =>
    obtain ⟨left, hleft⟩ : ∃ left, k.silence - t.lag late k.tone = t.unit + left :=
      ⟨k.silence - t.lag late k.tone - t.unit, by omega⟩
    have hfeed := feed_short_silence (k.tone - (late + t.unit)) t.unit 0 hu (by omega) ho
    rw [List.replicate_zero, List.append_nil, hmeasured, hmark] at hfeed
    rw [remaining, hleft, List.replicate_add, List.flatMap_nil, List.append_nil, ← List.append_assoc,
      feed_append, hfeed, feed_only_silence hu le_rfl,
      if_pos (by simp only [Timing.endAfter, endUnits]; omega)]
    simp [Beat.symbols, hrest]
  | @next late k ks b bs htone hfall hmark hsilence hrise hrest h ih =>
    cases ks with
    | nil => cases h
    | cons l ks =>
      obtain ⟨htone', -, -⟩ := h.of_cons
      generalize hlag : t.lag late k.tone = early at *
      generalize hlate : t.lag early k.silence = late' at *
      have hlate' : late' = t.unit - (k.silence - early) := by
        unfold Timing.lag at hlate
        omega
      have hover := replicate_overlap false true (k.silence - early) l.tone t.unit (by omega)
      rw [← hlate'] at hover
      have hfeed := feed_short_silence (k.tone - (late + t.unit)) (min t.unit (k.silence - early)) late'
        (by omega) (by omega) hrise
      rw [hmeasured, hmark] at hfeed
      obtain ⟨first, hfirst, hlen, hs, hc⟩ := h.rises ho
      have hsil := feed_silence hu (k.silence - early - t.unit) first hlen hs hc
      rw [Nat.sub_sub, hmeasured, hrest] at hsil
      have hsplit : remaining t late (k :: l :: ks) =
          (List.replicate (k.tone - (late + t.unit)) true ++
            (List.replicate (min t.unit (k.silence - early)) false ++ List.replicate late' true)) ++
          ((List.replicate (k.silence - (early + t.unit)) false ++ first) ++
            remaining t late' (l :: ks)) := by
        rw [remaining, hlag, List.flatMap_cons, states, List.append_assoc (List.replicate l.tone true),
          ← List.append_assoc (List.replicate (k.silence - early) false), hover]
        simp only [List.append_assoc, Nat.sub_sub]
        rw [← hfirst]
      rw [hsplit, feed_append, hfeed, feed_append, hsil, ih]
      rfl

/-- From the first tone on, keystrokes are read as their beats. -/
theorem Reads.feed_states (ho : 0 < t.off) {ks : List Keystroke} {bs : List Beat}
    (h : Reads t 0 ks bs) :
    ∃ lead, (feed step (waiting t 0 []) (ks.flatMap states)).2 = lead ++ bs.flatMap Beat.symbols ∧
      ∀ s ∈ lead, s.isMark = false := by
  have hu : 0 < t.unit := by
    unfold Timing.off at ho
    omega
  cases ks with
  | nil => cases h
  | cons k ks =>
    obtain ⟨first, hfirst, hlen, hs, hc⟩ := h.rises ho
    obtain ⟨lead, hlead, hmark⟩ := feed_first_silence hu 0 first hlen hs hc
    rw [List.replicate_zero, List.nil_append] at hlead
    rw [List.flatMap_cons, states, List.append_assoc]
    rw [Nat.sub_zero] at hfirst
    rw [hfirst, feed_append, hlead, h.feed_remaining ho]
    exact ⟨lead, rfl, hmark⟩

end ToneWatch.Morse
