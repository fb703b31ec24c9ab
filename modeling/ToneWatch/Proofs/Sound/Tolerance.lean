import Mathlib
import ToneWatch.Proofs.Sound.Matching
import ToneWatch.Sound.Library

namespace ToneWatch.Sound

/-- Whether a part has the samples of another one and no narrower tolerance. -/
structure Sequence.Widens (q q' : Sequence) : Prop where
  samples : q'.samples = q.samples
  threshold : q.threshold ≤ q'.threshold
  deviation : q.deviation ≤ q'.deviation

/-- Whether a sound has the parts of another one and no narrower tolerance. -/
structure Widens (s s' : Sound) : Prop where
  sequences : List.Forall₂ Sequence.Widens s.sequences s'.sequences
  maxDeviation : s.maxDeviation ≤ s'.maxDeviation
  allPeaks : s.allPeaks = true → s'.allPeaks = true

/-- What the heard data points cost if the first few of those beyond the threshold are excused. -/
def dues (s : Sound) (q : Sequence) (excused : Nat) (w : List (UInt16 × Frame)) : Nat :=
  ((w.filter (fun p => isHeard p && !s.isBeyond q p) ++
    (w.filter (s.isBeyond q)).drop excused).map s.cost).sum

section

variable {s : Sound} {q : Sequence} {n : Nat} {p : UInt16 × Frame} {w : List (UInt16 × Frame)}

theorem accepts_iff_dues {x : Sample} {frames : List Frame} :
    s.Accepts q x frames ↔
      s.dues q q.deviation.toNat (x.zip frames) ≤ x.length * q.threshold.toNat := Iff.rfl

theorem isBeyond_iff : s.isBeyond q p = true ↔ isHeard p = true ∧ q.threshold.toNat < s.cost p := by
  rw [isBeyond, Bool.and_eq_true, decide_eq_true_eq]

theorem dues_within (hb : s.isBeyond q p = false) :
    s.dues q n (p :: w) = (if isHeard p then s.cost p else 0) + s.dues q n w := by
  unfold dues
  cases hh : isHeard p <;> simp [hb, hh]

theorem dues_beyond_zero (hb : s.isBeyond q p = true) :
    s.dues q 0 (p :: w) = s.cost p + s.dues q 0 w := by
  simp [dues, hb, Nat.add_left_comm]

theorem dues_beyond_succ (hb : s.isBeyond q p = true) :
    s.dues q (n + 1) (p :: w) = s.dues q n w := by
  simp [dues, hb]

/-- With an excuse for all that is beyond the threshold, no data point costs more than that. -/
theorem dues_le_of_excused (h : w.countP (s.isBeyond q) ≤ n) :
    s.dues q n w ≤ w.length * q.threshold.toNat := by
  have hnone : (w.filter (s.isBeyond q)).drop n = [] := by
    rw [List.drop_eq_nil_iff, ← List.countP_eq_length_filter]
    exact h
  have hcost : ∀ c ∈ (w.filter fun p => isHeard p && !s.isBeyond q p).map s.cost,
      c ≤ q.threshold.toNat := by
    intro c hc
    obtain ⟨p, hp, rfl⟩ := List.mem_map.mp hc
    have hp := (List.mem_filter.mp hp).2
    rw [Bool.and_eq_true, Bool.not_eq_true'] at hp
    by_contra hlt
    rw [isBeyond_iff.mpr ⟨hp.1, Nat.lt_of_not_le hlt⟩] at hp
    cases hp.2
  have hsum := List.sum_le_card_nsmul _ _ hcost
  rw [List.length_map, smul_eq_mul] at hsum
  rw [dues, hnone, List.append_nil]
  exact hsum.trans (Nat.mul_le_mul_right _ (List.length_filter_le _ _))

end

section

variable {s s' : Sound} {q q' : Sequence} {w : List (UInt16 × Frame)}

theorem cost_le (h : s.allPeaks = true → s'.allPeaks = true) (p : UInt16 × Frame) :
    s'.cost p ≤ s.cost p := by
  unfold cost
  apply Nat.pow_le_pow_left
  apply Nat.sub_le_sub_right
  unfold peaks
  cases hs : s.allPeaks with
  | true => rw [h hs]
  | false =>
    cases hs' : s'.allPeaks with
    | false => exact le_rfl
    | true =>
      rw [if_pos rfl, if_neg Bool.false_ne_true]
      cases p.2.frequencies with
      | nil => exact le_rfl
      | cons a rest =>
        exact List.min?_getD_le_of_mem (List.mem_map_of_mem List.mem_cons_self)

theorem isBeyond_of_widens (hp : s.allPeaks = true → s'.allPeaks = true)
    (hq : q.threshold ≤ q'.threshold) {p : UInt16 × Frame} (h : s'.isBeyond q' p = true) :
    s.isBeyond q p = true := by
  obtain ⟨hh, hlt⟩ := isBeyond_iff.mp h
  have hle := UInt32.le_iff_toNat_le.mp hq
  have hc := cost_le hp p
  exact isBeyond_iff.mpr ⟨hh, by omega⟩

/-- As long as no excuse is left over, every excuse more saves at least the threshold. -/
theorem dues_add_le (hp : s.allPeaks = true → s'.allPeaks = true) (hq : q.threshold ≤ q'.threshold)
    {n n' : Nat} (hn : n ≤ n') (hw : n' ≤ w.countP (s'.isBeyond q')) :
    s'.dues q' n' w + (n' - n) * q'.threshold.toNat ≤ s.dues q n w := by
  induction w generalizing n n' with
  | nil =>
    obtain rfl := Nat.le_zero.mp hw
    simp [dues]
  | cons p w ih =>
    have hc := cost_le hp p
    cases hb' : s'.isBeyond q' p with
    | true =>
      have hb := isBeyond_of_widens hp hq hb'
      have hlt := (isBeyond_iff.mp hb').2
      rw [List.countP_cons_of_pos hb'] at hw
      cases n' with
      | zero =>
        obtain rfl := Nat.le_zero.mp hn
        have h := ih le_rfl (Nat.zero_le _)
        rw [dues_beyond_zero hb, dues_beyond_zero hb']
        omega
      | succ n' =>
        rw [dues_beyond_succ hb']
        cases n with
        | zero =>
          -- both sounds would excuse it, but only one of them can
          have h := ih (Nat.zero_le n') (by omega)
          rw [dues_beyond_zero hb, Nat.sub_zero, Nat.add_mul, Nat.one_mul]
          rw [Nat.sub_zero] at h
          omega
        | succ n =>
          rw [dues_beyond_succ hb, Nat.add_sub_add_right]
          exact ih (Nat.le_of_succ_le_succ hn) (by omega)
    | false =>
      rw [List.countP_cons_of_neg (by simp [hb'])] at hw
      rw [dues_within hb']
      cases hb : s.isBeyond q p with
      | false =>
        have h := ih hn hw
        rw [dues_within hb]
        split <;> omega
      | true =>
        have hh := (isBeyond_iff.mp hb).1
        have hle : s'.cost p ≤ q'.threshold.toNat := by
          by_contra hlt
          rw [isBeyond_iff.mpr ⟨hh, Nat.lt_of_not_le hlt⟩] at hb'
          cases hb'
        rw [if_pos hh]
        cases n with
        | zero =>
          have h := ih hn hw
          rw [dues_beyond_zero hb]
          omega
        | succ n =>
          have h := ih (Nat.le_of_succ_le hn) hw
          have hsub : n' - n = n' - (n + 1) + 1 := by omega
          rw [hsub, Nat.add_mul, Nat.one_mul] at h
          rw [dues_beyond_succ hb]
          omega

theorem Accepts.widens (hp : s.allPeaks = true → s'.allPeaks = true) (hq : q.Widens q')
    {x : Sample} {frames : List Frame} (h : s.Accepts q x frames) : s'.Accepts q' x frames := by
  have hn := UInt8.le_iff_toNat_le.mp hq.deviation
  have ht := UInt32.le_iff_toNat_le.mp hq.threshold
  rw [accepts_iff_dues] at h ⊢
  by_cases hw : (x.zip frames).countP (s'.isBeyond q') ≤ q'.deviation.toNat
  · refine (dues_le_of_excused hw).trans (Nat.mul_le_mul_right _ ?_)
    rw [List.length_zip]
    exact min_le_left _ _
  · have hle := dues_add_le (w := x.zip frames) hp hq.threshold hn (by omega)
    have hmul := Nat.mul_le_mul_left x.length ht
    omega

theorem missed_eq (s : Sound) (q : Sequence) (w : List (UInt16 × Frame)) :
    s.missed q w = w.countP isLost + min q.deviation.toNat (w.countP (s.isBeyond q)) := by
  rw [missed, List.length_take, ← List.countP_eq_length_filter]

theorem missed_le (hp : s.allPeaks = true → s'.allPeaks = true) (hq : q.Widens q') :
    s'.missed q' w ≤ s.missed q w + (q'.deviation.toNat - q.deviation.toNat) := by
  have hc : w.countP (s'.isBeyond q') ≤ w.countP (s.isBeyond q) :=
    List.countP_mono_left fun p _ => isBeyond_of_widens hp hq.threshold
  rw [missed_eq, missed_eq]
  omega

end

section

variable {s s' : Sound} {fed : List Frame} {r t : Nat}

theorem Widens.part (h : s.Widens s') (k : Nat) : (s.part k).Widens (s'.part k) := by
  obtain ⟨hlen, hget⟩ := List.forall₂_iff_get.mp h.sequences
  unfold Sound.part
  by_cases hk : k < s.sequences.length
  · rw [List.getElem?_eq_getElem hk, List.getElem?_eq_getElem (hlen ▸ hk)]
    exact hget k hk (hlen ▸ hk)
  · rw [List.getElem?_eq_none (by omega), List.getElem?_eq_none (by omega)]
    exact ⟨rfl, UInt32.le_refl _, UInt8.le_refl _⟩

theorem Chain.widens (h : s.Widens s') {last : Nat} {sample : Nat → Sample} {ends : Nat → Nat}
    (hc : Chain s fed r last sample ends) : Chain s' fed r last sample ends where
  late := hc.late
  room := hc.room
  ordered := hc.ordered
  joined := hc.joined
  sampled k hk := (h.part k).samples ▸ hc.sampled k hk
  accepted k hk := (hc.accepted k hk).widens h.allPeaks (h.part k)

/-- In a window a sound with wider tolerances finds at most as many misses more as it has excuses. -/
theorem Widens.missesAt_le (h : s.Widens s') (fed : List Frame) (k : Nat) (x : Sample) (e : Nat) :
    s'.missesAt fed k x e ≤
      s.missesAt fed k x e + ((s'.part k).deviation.toNat - (s.part k).deviation.toNat) :=
  missed_le h.allPeaks (h.part k)

theorem Widens.valid (h : s.Widens s') (hs : s.sequences ≠ [])
    (hne : ∀ q ∈ s.sequences, ∀ x ∈ q.samples, x ≠ []) :
    s'.sequences.length = s.sequences.length ∧ s'.sequences ≠ [] ∧
      ∀ q ∈ s'.sequences, ∀ x ∈ q.samples, x ≠ [] := by
  obtain ⟨hlen, hget⟩ := List.forall₂_iff_get.mp h.sequences
  refine ⟨hlen.symm, ?_, ?_⟩
  · apply List.ne_nil_of_length_pos
    have := List.length_pos_of_ne_nil hs
    omega
  · intro q hq
    obtain ⟨k, hk, rfl⟩ := List.getElem_of_mem hq
    have hk' : k < s.sequences.length := by omega
    have hsamples : s'.sequences[k].samples = s.sequences[k].samples := (hget k hk' hk).samples
    rw [hsamples]
    exact hne _ (List.getElem_mem hk')

theorem deviation_part (s : Sound) (k : Nat) :
    (s.part k).deviation = (s.sequences.map (·.deviation))[k]?.getD 0 := by
  rw [Sound.part, List.getElem?_map]
  cases s.sequences[k]? <;> rfl

end

namespace Tracker

variable {s s' : Sound} {fed : List Frame} {t : Nat}

/-- Whether a frame is the first at which a sound matches. -/
structure MatchesFirst (s : Sound) (fed : List Frame) (t : Nat) : Prop where
  heard : t ≤ fed.length
  matched : matchesAt s fed t = true
  before : ∀ u < t, matchesAt s fed u = false

theorem matchesAt_succ_iff (hs : s.sequences ≠ []) (hne : ∀ q ∈ s.sequences, ∀ x ∈ q.samples, x ≠ [])
    (ht : t + 1 ≤ fed.length) :
    matchesAt s fed (t + 1) = true ↔
      Reachable s fed (lastMatch s fed t) (s.sequences.length - 1) (t + 1) s.maxDeviation.toNat := by
  have hpart : ∀ k, ∀ x ∈ (s.part k).samples, x ≠ [] :=
    fun k x hx => hne _ (mem_of_mem_part hx).1 x hx
  exact (((Tracks.after hs hpart (Nat.le_of_succ_le ht)).update hpart ht).matched hs).1

theorem lastMatch_eq_zero (h : ∀ u ≤ t, matchesAt s fed u = false) : lastMatch s fed t = 0 := by
  induction t with
  | zero => rfl
  | succ t ih =>
    rw [lastMatch, h (t + 1) le_rfl, if_neg Bool.false_ne_true]
    exact ih fun u hu => h u (Nat.le_succ_of_le hu)

theorem MatchesFirst.chain (hs : s.sequences ≠ [])
    (hne : ∀ q ∈ s.sequences, ∀ x ∈ q.samples, x ≠ []) (h : MatchesFirst s fed t) :
    ∃ sample ends, Chain s fed 0 (s.sequences.length - 1) sample ends ∧
      ends (s.sequences.length - 1) = t ∧
      ∑ k ∈ Finset.range s.sequences.length, s.missesAt fed k (sample k) (ends k) ≤
        s.maxDeviation.toNat := by
  obtain ⟨ht, hm, hbefore⟩ := h
  cases t with
  | zero => cases hm
  | succ t =>
    have hlast := lastMatch_eq_zero fun u hu => hbefore u (Nat.lt_succ_of_le hu)
    rw [matchesAt_succ_iff hs hne ht, hlast] at hm
    obtain ⟨m, hle, hreach⟩ := hm
    obtain ⟨sample, ends, hc, hend, hsum⟩ :=
      hreach.chain fun k x hx => hne _ (mem_of_mem_part hx).1 x hx
    rw [Nat.sub_add_cancel (List.length_pos_of_ne_nil hs)] at hsum
    exact ⟨sample, ends, hc, hend, by omega⟩

/-- Once a whole chain with few enough misses has ended, a sound has matched. -/
theorem exists_matchesFirst (hs : s.sequences ≠ [])
    (hne : ∀ q ∈ s.sequences, ∀ x ∈ q.samples, x ≠ []) (ht : t ≤ fed.length)
    {sample : Nat → Sample} {ends : Nat → Nat}
    (hc : Chain s fed 0 (s.sequences.length - 1) sample ends)
    (hend : ends (s.sequences.length - 1) = t)
    (hsum : ∑ k ∈ Finset.range s.sequences.length, s.missesAt fed k (sample k) (ends k) ≤
      s.maxDeviation.toNat) : ∃ t' ≤ t, MatchesFirst s fed t' := by
  have hreach := hc.reaches
  rw [hend, Nat.sub_add_cancel (List.length_pos_of_ne_nil hs)] at hreach
  obtain ⟨u, rfl⟩ : ∃ u, t = u + 1 := ⟨t - 1, by have := hreach.late; omega⟩
  have hsome : ∃ v, v ≤ u + 1 ∧ matchesAt s fed v = true := by
    by_contra hnone
    have hno : ∀ v ≤ u + 1, matchesAt s fed v = false := fun v hv =>
      Bool.eq_false_iff.mpr fun hm => hnone ⟨v, hv, hm⟩
    have hm := hno (u + 1) le_rfl
    have hlast := lastMatch_eq_zero fun v hv => hno v (Nat.le_succ_of_le hv)
    rw [Bool.eq_false_iff, ne_eq, matchesAt_succ_iff hs hne ht, hlast] at hm
    exact hm ⟨_, by omega, hreach⟩
  obtain ⟨hle, hm⟩ := Nat.find_spec hsome
  refine ⟨Nat.find hsome, hle, hle.trans ht, hm, ?_⟩
  intro v hv
  have hmin := Nat.find_min hsome hv
  rw [not_and] at hmin
  exact Bool.eq_false_iff.mpr (hmin (by omega))

/-- Where a chain of one sound ends, one with wider tolerances has matched, unless it finds too many
misses in the chain. -/
theorem exists_matchesFirst_of_widens (hs : s.sequences ≠ [])
    (hne : ∀ q ∈ s.sequences, ∀ x ∈ q.samples, x ≠ []) (h : s.Widens s') (ht : t ≤ fed.length)
    {sample : Nat → Sample} {ends : Nat → Nat}
    (hc : Chain s fed 0 (s.sequences.length - 1) sample ends)
    (hend : ends (s.sequences.length - 1) = t)
    (hsum : ∑ k ∈ Finset.range s.sequences.length, s'.missesAt fed k (sample k) (ends k) ≤
      s'.maxDeviation.toNat) : ∃ t' ≤ t, MatchesFirst s' fed t' := by
  obtain ⟨hlen, hs', hne'⟩ := h.valid hs hne
  rw [← hlen] at hc hend hsum
  exact exists_matchesFirst hs' hne' ht (hc.widens h) hend hsum

/-- A sound with higher thresholds, more misses or more peaks to choose from matches no later, if it
has no more excuses. -/
theorem matchesFirst_of_widens (hs : s.sequences ≠ [])
    (hne : ∀ q ∈ s.sequences, ∀ x ∈ q.samples, x ≠ []) (h : s.Widens s')
    (hd : s'.sequences.map (·.deviation) = s.sequences.map (·.deviation))
    (hm : MatchesFirst s fed t) : ∃ t' ≤ t, MatchesFirst s' fed t' := by
  obtain ⟨sample, ends, hc, hend, hsum⟩ := hm.chain hs hne
  have hmax := UInt8.le_iff_toNat_le.mp h.maxDeviation
  have hle : ∀ k ∈ Finset.range s.sequences.length,
      s'.missesAt fed k (sample k) (ends k) ≤ s.missesAt fed k (sample k) (ends k) := by
    intro k _
    have hk := h.missesAt_le fed k (sample k) (ends k)
    rwa [deviation_part, deviation_part, hd, Nat.sub_self] at hk
  have hsum' := Finset.sum_le_sum hle
  exact exists_matchesFirst_of_widens hs hne h hm.heard hc hend (by omega)

/-- Of two frames that drift the first is excused; a higher threshold counts it and excuses the second
one in its place. -/
theorem matchesFirst_of_widens_drifting :
    let s : Sound :=
      { sequences := [⟨[[4000]], 2500, 0⟩, ⟨[[3000, 3000]], 2500, 1⟩]
        maxDeviation := 1
        allPeaks := false }
    let s' : Sound :=
      { sequences := [⟨[[4000]], 2500, 0⟩, ⟨[[3000, 3000]], 4000, 1⟩], maxDeviation := 2 }
    let fed := [Frame.ofList [4000], .ofList [3155, 2000], .ofList [3170]]
    MatchesFirst s fed 3 ∧ ∃ t' ≤ 3, MatchesFirst s' fed t' := by
  intro s s' fed
  have hm : MatchesFirst s fed 3 := ⟨by decide, by decide +kernel, by decide +kernel⟩
  have hparts : List.Forall₂ Sequence.Widens s.sequences s'.sequences :=
    .cons ⟨rfl, by decide, by decide⟩ (.cons ⟨rfl, by decide, by decide⟩ .nil)
  have hw : s.Widens s' := ⟨hparts, by decide, fun _ => rfl⟩
  exact ⟨hm, matchesFirst_of_widens (by decide) (by decide) hw rfl hm⟩

/-- A sound with more excuses matches no later than another one, if a chain by which that one matches
has few enough misses for it. -/
theorem matchesFirst_of_excused (hs : s.sequences ≠ [])
    (hne : ∀ q ∈ s.sequences, ∀ x ∈ q.samples, x ≠ []) (h : s.Widens s')
    (hm : MatchesFirst s fed t)
    (hroom : ∃ sample ends, Chain s fed 0 (s.sequences.length - 1) sample ends ∧
      ends (s.sequences.length - 1) = t ∧
      ∑ k ∈ Finset.range s.sequences.length, s'.missesAt fed k (sample k) (ends k) ≤
        s'.maxDeviation.toNat) : ∃ t' ≤ t, MatchesFirst s' fed t' := by
  obtain ⟨sample, ends, hc, hend, hsum⟩ := hroom
  exact exists_matchesFirst_of_widens hs hne h hm.heard hc hend hsum

/-- A frame that drifts a little too far is heard in spite of it, and excused where that is allowed. -/
theorem matchesFirst_of_excused_once :
    let s : Sound := { sequences := [⟨[[3000, 3000]], 2500, 0⟩], maxDeviation := 1 }
    let s' : Sound := { sequences := [⟨[[3000, 3000]], 2500, 1⟩], maxDeviation := 1 }
    let fed := [Frame.ofList [3000], .ofList [3160]]
    MatchesFirst s fed 2 ∧
      (∃ sample ends, Chain s fed 0 0 sample ends ∧ ends 0 = 2 ∧
        ∑ k ∈ Finset.range 1, s'.missesAt fed k (sample k) (ends k) ≤ 1) ∧
      ∃ t' ≤ 2, MatchesFirst s' fed t' := by
  intro s s' fed
  have hm : MatchesFirst s fed 2 := ⟨by decide, by decide +kernel, by decide +kernel⟩
  have hw : s.Widens s' := ⟨.cons ⟨rfl, by decide, by decide⟩ .nil, by decide, fun h => h⟩
  have hc : Chain s fed 0 0 (fun _ => [3000, 3000]) (fun _ => 2) := by
    refine ⟨by decide, by decide, fun k hk => by omega, fun k hk => by omega, ?_, ?_⟩
    · intro k hk
      obtain rfl := Nat.le_zero.mp hk
      decide
    · intro k hk
      obtain rfl := Nat.le_zero.mp hk
      exact accepts_iff_dues.mpr (by decide +kernel)
  have hroom : ∃ sample ends, Chain s fed 0 0 sample ends ∧ ends 0 = 2 ∧
      ∑ k ∈ Finset.range 1, s'.missesAt fed k (sample k) (ends k) ≤ 1 :=
    ⟨_, _, hc, rfl, by decide +kernel⟩
  exact ⟨hm, hroom, matchesFirst_of_excused (by decide) (by decide) hw hm hroom⟩

/-- Excusing a frame that was heard before can use up the misses, and then the sound is not heard. -/
theorem refused_by_excuse :
    let s : Sound := { sequences := [⟨[[3000, 3000]], 2500, 0⟩], maxDeviation := 0 }
    let s' : Sound := { sequences := [⟨[[3000, 3000]], 2500, 1⟩], maxDeviation := 0 }
    let fed := [Frame.ofList [3000], .ofList [3160]]
    Entry.validate ⟨"pair", s⟩ = .ok () ∧ Entry.validate ⟨"pair", s'⟩ = .ok () ∧ s.Widens s' ∧
      MatchesFirst s fed 2 ∧ ¬ ∃ t, MatchesFirst s' fed t := by
  intro s s' fed
  refine ⟨rfl, rfl, ⟨.cons ⟨rfl, by decide, by decide⟩ .nil, by decide, fun h => h⟩,
    ⟨by decide, by decide +kernel, by decide +kernel⟩, ?_⟩
  rintro ⟨t, ht, hm, -⟩
  have hnone : ∀ u ≤ 2, matchesAt s' fed u = false := by decide +kernel
  rw [hnone t ht] at hm
  cases hm

/-- It always has if it is allowed as many more misses as it has more excuses. -/
theorem matchesFirst_of_allowance (hs : s.sequences ≠ [])
    (hne : ∀ q ∈ s.sequences, ∀ x ∈ q.samples, x ≠ []) (h : s.Widens s')
    (hm : MatchesFirst s fed t)
    (hmax : s.maxDeviation.toNat + ∑ k ∈ Finset.range s.sequences.length,
      ((s'.part k).deviation.toNat - (s.part k).deviation.toNat) ≤ s'.maxDeviation.toNat) :
    ∃ t' ≤ t, MatchesFirst s' fed t' := by
  obtain ⟨sample, ends, hc, hend, hsum⟩ := hm.chain hs hne
  have hsum' := Finset.sum_le_sum fun k (_ : k ∈ Finset.range s.sequences.length) =>
    h.missesAt_le fed k (sample k) (ends k)
  rw [Finset.sum_add_distrib] at hsum'
  exact exists_matchesFirst_of_widens hs hne h hm.heard hc hend (by omega)

end Tracker

end ToneWatch.Sound
