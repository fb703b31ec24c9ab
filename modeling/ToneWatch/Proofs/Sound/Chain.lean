import Mathlib
import ToneWatch.Proofs.Sound.Window

namespace ToneWatch.Sound

/-- The part at a place of the chain; past the end there is one without a sample. -/
def part (s : Sound) (k : Nat) : Sequence :=
  s.sequences[k]?.getD { samples := [], threshold := 0, deviation := 0 }

/-- So many frames up to frame `e`, oldest first. -/
def window (fed : List Frame) (e length : Nat) : List Frame :=
  (fed.take e).drop (e - length)

def missesAt (s : Sound) (fed : List Frame) (k : Nat) (x : Sample) (e : Nat) : Nat :=
  s.missed (s.part k) (x.zip (window fed e x.length))

/-- Whether samples of the parts up to `last`, with the frames at which they end, make a chain that
starts to end after frame `r`. -/
structure Chain (s : Sound) (fed : List Frame) (r last : Nat) (sample : Nat → Sample)
    (ends : Nat → Nat) : Prop where
  late : r < ends 0
  room : (sample 0).length ≤ ends 0
  ordered : ∀ k < last, ends k < ends (k + 1)
  joined : ∀ k < last, ends (k + 1) = ends k + (sample (k + 1)).length ∨
    ends (k + 1) = ends k + (sample (k + 1)).length + 1
  sampled : ∀ k ≤ last, sample k ∈ (s.part k).samples
  accepted : ∀ k ≤ last,
    s.Accepts (s.part k) (sample k) (window fed (ends k) (sample k).length)

/-- Whether a chain up to part `k` ends at frame `e` with `m` misses. -/
inductive Reaches (s : Sound) (fed : List Frame) (r : Nat) : Nat → Nat → Nat → Prop
  | anchor {x : Sample} {e : Nat} (hx : x ∈ (s.part 0).samples) (hr : r < e) (hl : x.length ≤ e)
      (ha : s.Accepts (s.part 0) x (window fed e x.length)) :
      Reaches s fed r 0 e (s.missesAt fed 0 x e)
  | next {k e m : Nat} {x : Sample} {e' : Nat} (h : Reaches s fed r k e m)
      (hx : x ∈ (s.part (k + 1)).samples)
      (he : e' = e + x.length ∨ e' = e + x.length + 1)
      (ha : s.Accepts (s.part (k + 1)) x (window fed e' x.length)) :
      Reaches s fed r (k + 1) e' (m + s.missesAt fed (k + 1) x e')

variable {s : Sound} {fed : List Frame} {r k e m : Nat}

theorem Reaches.late (h : Reaches s fed r k e m) : r < e := by
  induction h with
  | anchor hx hr hl ha => exact hr
  | next h hx he ha ih => omega

theorem Chain.init {last : Nat} {sample : Nat → Sample} {ends : Nat → Nat}
    (h : Chain s fed r (last + 1) sample ends) : Chain s fed r last sample ends where
  late := h.late
  room := h.room
  ordered k hk := h.ordered k (Nat.lt_succ_of_lt hk)
  joined k hk := h.joined k (Nat.lt_succ_of_lt hk)
  sampled k hk := h.sampled k (Nat.le_succ_of_le hk)
  accepted k hk := h.accepted k (Nat.le_succ_of_le hk)

theorem Chain.reaches {last : Nat} {sample : Nat → Sample} {ends : Nat → Nat}
    (h : Chain s fed r last sample ends) :
    Reaches s fed r last (ends last)
      (∑ k ∈ Finset.range (last + 1), s.missesAt fed k (sample k) (ends k)) := by
  induction last with
  | zero =>
    rw [Finset.sum_range_one]
    exact .anchor (h.sampled 0 (le_refl 0)) h.late h.room (h.accepted 0 (le_refl 0))
  | succ last ih =>
    rw [Finset.sum_range_succ]
    exact .next (ih h.init) (h.sampled _ (le_refl _)) (h.joined last (Nat.lt_succ_self last))
      (h.accepted _ (le_refl _))

theorem Chain.extend {last : Nat} {sample : Nat → Sample} {ends : Nat → Nat}
    (h : Chain s fed r last sample ends) {x : Sample} {e : Nat}
    (hx : x ∈ (s.part (last + 1)).samples) (hne : x ≠ [])
    (he : e = ends last + x.length ∨ e = ends last + x.length + 1)
    (ha : s.Accepts (s.part (last + 1)) x (window fed e x.length)) :
    Chain s fed r (last + 1) (Function.update sample (last + 1) x)
      (Function.update ends (last + 1) e) := by
  have hpos := List.length_pos_of_ne_nil hne
  have hsample : ∀ k ≤ last, Function.update sample (last + 1) x k = sample k :=
    fun k hk => Function.update_of_ne (by omega) _ _
  have hends : ∀ k ≤ last, Function.update ends (last + 1) e k = ends k :=
    fun k hk => Function.update_of_ne (by omega) _ _
  constructor
  · rw [hends 0 (Nat.zero_le _)]
    exact h.late
  · rw [hends 0 (Nat.zero_le _), hsample 0 (Nat.zero_le _)]
    exact h.room
  · intro k hk
    rw [hends k (by omega)]
    rcases Nat.lt_succ_iff_lt_or_eq.mp hk with hk | rfl
    · rw [hends (k + 1) (by omega)]
      exact h.ordered k hk
    · rw [Function.update_self]
      omega
  · intro k hk
    rw [hends k (by omega)]
    rcases Nat.lt_succ_iff_lt_or_eq.mp hk with hk | rfl
    · rw [hends (k + 1) (by omega), hsample (k + 1) (by omega)]
      exact h.joined k hk
    · rw [Function.update_self, Function.update_self]
      exact he
  · intro k hk
    rcases Nat.le_succ_iff.mp hk with hk | rfl
    · rw [hsample k hk]
      exact h.sampled k hk
    · rw [Function.update_self]
      exact hx
  · intro k hk
    rcases Nat.le_succ_iff.mp hk with hk | rfl
    · rw [hsample k hk, hends k hk]
      exact h.accepted k hk
    · rw [Function.update_self, Function.update_self]
      exact ha

theorem Reaches.chain (hne : ∀ k, ∀ x ∈ (s.part k).samples, x ≠ []) (h : Reaches s fed r k e m) :
    ∃ sample ends, Chain s fed r k sample ends ∧ ends k = e ∧
      ∑ i ∈ Finset.range (k + 1), s.missesAt fed i (sample i) (ends i) = m := by
  induction h with
  | @anchor x e hx hr hl ha =>
    refine ⟨fun _ => x, fun _ => e, ⟨hr, hl, ?_, ?_, ?_, ?_⟩, rfl, Finset.sum_range_one _⟩
    · intro k hk
      omega
    · intro k hk
      omega
    · intro k hk
      rw [Nat.le_zero.mp hk]
      exact hx
    · intro k hk
      rw [Nat.le_zero.mp hk]
      exact ha
  | @next k e m x e' h hx he ha ih =>
    obtain ⟨sample, ends, hc, rfl, hm⟩ := ih
    refine ⟨_, _, hc.extend hx (hne _ x hx) he ha, Function.update_self _ _ _, ?_⟩
    rw [Finset.sum_range_succ, Function.update_self, Function.update_self, ← hm]
    congr 1
    apply Finset.sum_congr rfl
    intro i hi
    have hi : i ≠ k + 1 := by
      have := Finset.mem_range.mp hi
      omega
    rw [Function.update_of_ne hi, Function.update_of_ne hi]

end ToneWatch.Sound
