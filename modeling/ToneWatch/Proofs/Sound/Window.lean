import Mathlib
import ToneWatch.Sound.Pattern

namespace ToneWatch

theorem Frame.foldl_nearer (e : UInt16) (ps : List UInt16) (b : Nat) :
    ps.foldl (nearer e) (some b) = some ((ps.map (distance · e)).foldl min b) := by
  induction ps generalizing b with
  | nil => rfl
  | cons p ps ih =>
    have hn : nearer e (some b) p = some (min b (distance p e)) := by
      rw [nearer, Nat.min_def]
      split_ifs <;> congr 1 <;> omega
    rw [List.foldl_cons, hn, ih, List.map_cons, List.foldl_cons]

theorem Frame.nearest?_eq_min? (f : Frame) (e : UInt16) :
    f.nearest? e = (f.frequencies.map (distance · e)).min? := by
  unfold nearest?
  cases f.frequencies with
  | nil => rfl
  | cons p ps =>
    rw [List.map_cons, List.min?_cons', List.foldl_cons]
    exact foldl_nearer e ps _

namespace Sound

variable (s : Sound) (q : Sequence)

/-- The peaks that a frame is compared by. -/
def peaks (f : Frame) : List UInt16 :=
  if s.allPeaks then f.frequencies else f.frequencies.take 1

/-- How far the closest of them is from an expected frequency, beyond the slack, squared. -/
def cost (p : UInt16 × Frame) : Nat :=
  (((s.peaks p.2).map (distance · p.1)).min?.getD 0xffff - slack) ^ 2

/-- A data point that expects something of a silent frame. -/
def isLost (p : UInt16 × Frame) : Bool := p.1 ≠ 0 && p.2.isSilent

def isHeard (p : UInt16 × Frame) : Bool := p.1 ≠ 0 && !p.2.isSilent

/-- A heard data point that alone costs more than the threshold. -/
def isBeyond (p : UInt16 × Frame) : Bool := isHeard p && q.threshold.toNat < s.cost p

/-- The data points that count as misses: the lost ones and the first few of those beyond. -/
def missed (w : List (UInt16 × Frame)) : Nat :=
  w.countP isLost + ((w.filter (s.isBeyond q)).take q.deviation.toNat).length

/-- The heard data points that are not excused. -/
def counted (w : List (UInt16 × Frame)) : List (UInt16 × Frame) :=
  w.filter (fun p => isHeard p && !s.isBeyond q p) ++
    (w.filter (s.isBeyond q)).drop q.deviation.toNat

/-- Whether a window is heard as a sample. -/
def Accepts (sample : Sample) (frames : List Frame) : Prop :=
  ((s.counted q (sample.zip frames)).map s.cost).sum ≤ sample.length * q.threshold.toNat

variable {s q}

theorem drift_mul_self (e : UInt16) (f : Frame) : s.drift e f * s.drift e f = s.cost (e, f) := by
  have hd : s.drift e f = ((s.peaks f).map (distance · e)).min?.getD 0xffff - slack := by
    unfold drift peaks
    cases s.allPeaks with
    | true => rw [if_pos rfl, if_pos rfl, Frame.nearest?_eq_min?]
    | false =>
      rw [if_neg Bool.false_ne_true, if_neg Bool.false_ne_true, Frame.dominant?]
      cases f.frequencies <;> rfl
  rw [hd, cost, Nat.pow_two]

theorem foldl_score (w : List (UInt16 × Frame)) (c : Score) :
    w.foldl (s.score q) c =
      { misses := c.misses + (w.countP isLost +
          ((w.filter (s.isBeyond q)).take c.excusable).length)
        excusable := c.excusable - (w.filter (s.isBeyond q)).length
        total := c.total + ((w.filter (fun p => isHeard p && !s.isBeyond q p) ++
          (w.filter (s.isBeyond q)).drop c.excusable).map s.cost).sum } := by
  induction w generalizing c with
  | nil => simp
  | cons p w ih =>
    obtain ⟨e, f⟩ := p
    have hcost := drift_mul_self (s := s) e f
    rw [List.foldl_cons, ih]
    unfold score
    by_cases he : e = 0
    · simp [he, isLost, isHeard, isBeyond]
    · cases hf : f.isSilent with
      | true =>
        simp [he, hf, isLost, isHeard, isBeyond]
        omega
      | false =>
        by_cases hb : q.threshold.toNat < s.cost (e, f)
        · cases hx : c.excusable with
          | zero =>
            simp [he, hf, hb, isLost, isHeard, isBeyond, hcost]
            omega
          | succ x =>
            simp [he, hf, hb, isLost, isHeard, isBeyond, hcost]
            omega
        · simp [he, hf, hb, isLost, isHeard, isBeyond, hcost]
          omega

theorem misses?_eq_some_iff (s : Sound) (q : Sequence) (base : UInt8) (sample : Sample)
    (frames : List Frame) (n : UInt8) :
    s.misses? q base sample frames = some n ↔
      s.Accepts q sample frames ∧
        base.toNat + s.missed q (sample.zip frames) ≤ s.maxDeviation.toNat ∧
        n.toNat = base.toNat + s.missed q (sample.zip frames) := by
  have hmax := s.maxDeviation.toNat_lt
  have hfold := foldl_score (s := s) (q := q) (sample.zip frames) ⟨base.toNat, q.deviation.toNat, 0⟩
  simp only [Nat.zero_add] at hfold
  rw [misses?, hfold, Accepts, missed, counted]
  simp only [Bool.and_eq_true, decide_eq_true_eq]
  constructor
  · intro h
    split_ifs at h with hc
    refine ⟨hc.1, hc.2, ?_⟩
    rw [← Option.some.inj h, UInt8.toNat_ofNat']
    exact Nat.mod_eq_of_lt (by omega)
  · intro h
    obtain ⟨ht, hm, hn⟩ := h
    rw [if_pos ⟨ht, hm⟩, ← hn, UInt8.ofNat_toNat]

end Sound

end ToneWatch
