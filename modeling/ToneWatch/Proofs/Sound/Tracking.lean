import Mathlib
import ToneWatch.Proofs.History
import ToneWatch.Proofs.Sound.Chain
import ToneWatch.Sound.Tracker

namespace ToneWatch.Sound

/-- Whether recorded misses are at most `n`. -/
def Within (o : Option UInt8) (n : Nat) : Prop := ∃ v ∈ o, v.toNat ≤ n

theorem not_within_none (n : Nat) : ¬ Within none n := by
  intro h
  obtain ⟨v, hv, -⟩ := h
  cases hv

theorem within_some {v : UInt8} {n : Nat} : Within (some v) n ↔ v.toNat ≤ n := by
  constructor
  · intro h
    obtain ⟨w, hw, hn⟩ := h
    rwa [Option.mem_some_iff.mp hw]
  · intro h
    exact ⟨v, rfl, h⟩

namespace Tracker

theorem within_base_first {length n : Nat} : Within (base? none length) n := by
  rw [base?, within_some]
  exact Nat.zero_le n

theorem within_base {record : History (Option UInt8)} {length n : Nat} :
    Within (base? (some record) length) n ↔
      Within (missesAgo? record length) n ∨ Within (missesAgo? record (length + 1)) n := by
  rw [base?]
  generalize missesAgo? record length = o
  generalize missesAgo? record (length + 1) = p
  have h := not_within_none n
  cases o with
  | none =>
    dsimp only
    tauto
  | some a =>
    cases p with
    | none =>
      dsimp only
      tauto
    | some b =>
      dsimp only
      have hmin : min a b = if a ≤ b then a else b := rfl
      rw [within_some, within_some, within_some, hmin]
      split_ifs with hab
      · have := UInt8.le_iff_toNat_le.mp hab
        omega
      · rw [UInt8.le_iff_toNat_le] at hab
        omega

/-- Whether a sample that ends at the newest frame is accepted with at most `n` misses. -/
def Tried (s : Sound) (recent : List Frame) (before : Option (History (Option UInt8)))
    (q : Sequence) (x : Sample) (n : Nat) : Prop :=
  x ≠ [] ∧ x.length ≤ recent.length ∧ s.Accepts q x (recent.take x.length).reverse ∧
    ∃ b, Within (base? before x.length) b ∧
      b + s.missed q (x.zip (recent.take x.length).reverse) ≤ min n s.maxDeviation.toNat

variable {s : Sound} {recent : List Frame} {before : Option (History (Option UInt8))} {q : Sequence}

theorem not_fewer {best : Option UInt8} {v : UInt8} {n : Nat} (h : isFewer v best = false)
    (hv : v.toNat ≤ n) : Within best n := by
  cases best with
  | none => cases h
  | some w =>
    have hw : ¬ v < w := by simpa [isFewer] using h
    rw [UInt8.lt_iff_toNat_lt] at hw
    exact within_some.mpr (by omega)

theorem fewer {best : Option UInt8} {v : UInt8} {n : Nat} (h : isFewer v best = true)
    (hb : Within best n) : v.toNat ≤ n := by
  obtain ⟨w, rfl, hw⟩ := hb
  have hv : v < w := by simpa [isFewer] using h
  rw [UInt8.lt_iff_toNat_lt] at hv
  omega

theorem within_better {best : Option UInt8} {v : UInt8} {n : Nat} :
    Within (if isFewer v best then some v else best) n ↔ Within best n ∨ v.toNat ≤ n := by
  cases hf : isFewer v best with
  | true =>
    rw [if_pos rfl, within_some]
    apply (or_iff_right_of_imp _).symm
    intro h
    exact fewer hf h
  | false =>
    rw [if_neg Bool.false_ne_true]
    apply (or_iff_left_of_imp _).symm
    intro h
    exact not_fewer hf h

/-- What is not scored could not have improved the record. -/
theorem within_improve {best : Option UInt8} {base : UInt8} {x : Sample} {frames : List Frame}
    {n : Nat} :
    Within (improve s q best base x frames) n ↔
      Within best n ∨ s.Accepts q x frames ∧
        base.toNat + s.missed q (x.zip frames) ≤ min n s.maxDeviation.toNat := by
  rw [improve]
  by_cases hmax : s.maxDeviation < base
  · have hlt := UInt8.lt_iff_toNat_lt.mp hmax
    rw [decide_eq_true hmax, Bool.true_or, if_pos rfl]
    apply (or_iff_left_of_imp _).symm
    intro h
    obtain ⟨-, h⟩ := h
    omega
  rw [decide_eq_false hmax, Bool.false_or]
  cases hb : isFewer base best with
  | false =>
    rw [Bool.not_false, if_pos rfl]
    apply (or_iff_left_of_imp _).symm
    intro h
    obtain ⟨-, h⟩ := h
    exact not_fewer hb (by omega)
  | true =>
    rw [Bool.not_true, if_neg Bool.false_ne_true]
    have hscore := misses?_eq_some_iff s q base x frames
    cases hm : s.misses? q base x frames with
    | none =>
      apply (or_iff_left_of_imp _).symm
      intro h
      obtain ⟨ha, h⟩ := h
      have hle : base.toNat + s.missed q (x.zip frames) ≤ s.maxDeviation.toNat := by omega
      have hv := (hscore (.ofNat (base.toNat + s.missed q (x.zip frames)))).mpr
        ⟨ha, hle, UInt8.toNat_ofNat_of_lt' (Nat.lt_of_le_of_lt hle s.maxDeviation.toNat_lt)⟩
      rw [hm] at hv
      cases hv
    | some v =>
      obtain ⟨ha, hle, hv⟩ := (hscore v).mp hm
      dsimp only
      rw [within_better]
      apply or_congr_right
      constructor
      · intro h
        exact ⟨ha, by omega⟩
      · intro h
        obtain ⟨-, h⟩ := h
        omega

theorem within_tryout {best : Option UInt8} {x : Sample} {n : Nat} :
    Within (tryout s recent before q best x) n ↔ Within best n ∨ Tried s recent before q x n := by
  have hlen : (recent.take x.length).reverse.length = min x.length recent.length := by simp
  rw [tryout, Tried, hlen]
  generalize (recent.take x.length).reverse = frames
  by_cases hx : x ≠ [] ∧ x.length ≤ recent.length
  · obtain ⟨hne, hl⟩ := hx
    have hif : (decide (x = []) || decide (min x.length recent.length < x.length)) = false := by
      rw [decide_eq_false hne, decide_eq_false (by omega), Bool.or_false]
    rw [hif, if_neg Bool.false_ne_true]
    cases hb : base? before x.length with
    | none =>
      apply (or_iff_left_of_imp _).symm
      intro h
      obtain ⟨-, -, -, b, hw, -⟩ := h
      exact absurd hw (not_within_none b)
    | some base =>
      dsimp only
      rw [within_improve]
      apply or_congr_right
      constructor
      · intro h
        obtain ⟨ha, hn⟩ := h
        exact ⟨hne, hl, ha, base.toNat, within_some.mpr (le_refl _), hn⟩
      · intro h
        obtain ⟨-, -, ha, b, hw, hn⟩ := h
        have hle := within_some.mp hw
        exact ⟨ha, by omega⟩
  · have hif : (decide (x = []) || decide (min x.length recent.length < x.length)) = true := by
      rw [Bool.or_eq_true, decide_eq_true_eq, decide_eq_true_eq]
      by_cases hne : x = []
      · exact Or.inl hne
      · right
        have := mt (And.intro hne) hx
        omega
    rw [hif, if_pos rfl]
    apply (or_iff_left_of_imp _).symm
    intro h
    obtain ⟨hne, hl, -⟩ := h
    exact absurd ⟨hne, hl⟩ hx

theorem within_foldl_tryout (xs : List Sample) (best : Option UInt8) {n : Nat} :
    Within (xs.foldl (tryout s recent before q) best) n ↔
      Within best n ∨ ∃ x ∈ xs, Tried s recent before q x n := by
  induction xs generalizing best with
  | nil => simp
  | cons x xs ih =>
    rw [List.foldl_cons, ih, within_tryout]
    simp only [List.mem_cons, exists_eq_or_imp, or_assoc]

theorem within_fewest {n : Nat} :
    Within (fewest? s recent before q) n ↔ ∃ x ∈ q.samples, Tried s recent before q x n := by
  have h := not_within_none n
  rw [fewest?, within_foldl_tryout]
  tauto

end Tracker

/-- Whether a chain within the bounds up to part `k` ends at frame `e`. -/
def Reachable (s : Sound) (fed : List Frame) (r k e n : Nat) : Prop :=
  ∃ m ≤ min n s.maxDeviation.toNat, Reaches s fed r k e m

/-- Whether a record at frame `t` tells what can be reached at the frames in its window. -/
def Tells (s : Sound) (fed : List Frame) (r k t : Nat) (record : History (Option UInt8)) : Prop :=
  ∀ ago ≤ record.window, 0 < ago → ∀ n, Within (Tracker.missesAgo? record ago) n ↔
    ∃ e, e + ago = t + 1 ∧ Reachable s fed r k e n

namespace Tracker

variable {s : Sound} {fed : List Frame} {r t : Nat}

theorem window_eq {length : Nat} (ht : t + 1 ≤ fed.length) :
    (((fed.take (t + 1)).reverse).take length).reverse = window fed (t + 1) length := by
  rw [List.take_reverse, List.reverse_reverse, List.length_take, Nat.min_eq_left ht, window]

theorem within_anchor (hne : ∀ x ∈ (s.part 0).samples, x ≠ []) (hr : r ≤ t)
    (ht : t + 1 ≤ fed.length) {n : Nat} :
    Within (fewest? s (fed.take (t + 1)).reverse none (s.part 0)) n ↔
      Reachable s fed r 0 (t + 1) n := by
  have hlen : (fed.take (t + 1)).reverse.length = t + 1 := by simp [ht]
  rw [within_fewest]
  constructor
  · intro h
    obtain ⟨x, hx, -, hl, ha, b, -, hb⟩ := h
    rw [window_eq ht] at ha hb
    rw [hlen] at hl
    exact ⟨_, by rw [missesAt]; omega, .anchor hx (by omega) hl ha⟩
  · intro h
    obtain ⟨m, hm, h⟩ := h
    cases h with
    | @anchor x e hx _ hl ha =>
      refine ⟨x, hx, hne x hx, by rw [hlen]; exact hl, ?_, 0, within_base_first, ?_⟩
      · rw [window_eq ht]
        exact ha
      · rw [window_eq ht, Nat.zero_add]
        exact hm

theorem within_next {k : Nat} (hne : ∀ x ∈ (s.part (k + 1)).samples, x ≠ [])
    (ht : t + 1 ≤ fed.length) {record : History (Option UInt8)}
    (hrec : Tells s fed r k t record)
    (hw : ∀ x ∈ (s.part (k + 1)).samples, x.length + 1 ≤ record.window) {n : Nat} :
    Within (fewest? s (fed.take (t + 1)).reverse (some record) (s.part (k + 1))) n ↔
      Reachable s fed r (k + 1) (t + 1) n := by
  have hlen : (fed.take (t + 1)).reverse.length = t + 1 := by simp [ht]
  rw [within_fewest]
  constructor
  · intro h
    obtain ⟨x, hx, hxne, hl, ha, b, hb, hn⟩ := h
    have hpos := List.length_pos_of_ne_nil hxne
    have hwx := hw x hx
    rw [window_eq ht] at ha hn
    rw [within_base, hrec _ (by omega) hpos, hrec _ hwx (by omega)] at hb
    obtain ⟨e, he, m, hm, hreach⟩ :
        ∃ e, (t + 1 = e + x.length ∨ t + 1 = e + x.length + 1) ∧ Reachable s fed r k e b := by
      rcases hb with ⟨e, he, h⟩ | ⟨e, he, h⟩
      · exact ⟨e, Or.inl he.symm, h⟩
      · exact ⟨e, Or.inr he.symm, h⟩
    exact ⟨_, by rw [missesAt]; omega, .next hreach hx he ha⟩
  · intro h
    obtain ⟨m, hm, h⟩ := h
    cases h with
    | @next _ e m x _ h hx he ha =>
      have hpos := List.length_pos_of_ne_nil (hne x hx)
      have hwx := hw x hx
      rw [missesAt] at hm
      refine ⟨x, hx, hne x hx, by rw [hlen]; omega, ?_, m, ?_, ?_⟩
      · rw [window_eq ht]
        exact ha
      · have hm : Reachable s fed r k e m := ⟨m, by omega, h⟩
        rw [within_base, hrec _ (by omega) hpos, hrec _ hwx (by omega)]
        rcases he with he | he
        · exact Or.inl ⟨e, he.symm, hm⟩
        · exact Or.inr ⟨e, he.symm, hm⟩
      · rw [window_eq ht]
        exact hm

end Tracker

end ToneWatch.Sound
