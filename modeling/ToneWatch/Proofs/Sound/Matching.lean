import Mathlib
import ToneWatch.Proofs.Sound.Tracking

namespace ToneWatch.Sound

theorem le_foldl_max {α : Type} (size : α → Nat) (xs : List α) (n : Nat) :
    n ≤ xs.foldl (fun n x => max n (size x)) n ∧
      ∀ x ∈ xs, size x ≤ xs.foldl (fun n x => max n (size x)) n := by
  induction xs generalizing n with
  | nil => simp
  | cons y xs ih =>
    obtain ⟨hn, hx⟩ := ih (max n (size y))
    rw [List.foldl_cons]
    refine ⟨by omega, ?_⟩
    intro x h
    rcases List.mem_cons.mp h with rfl | h
    · omega
    · exact hx x h

theorem mem_of_mem_part {s : Sound} {k : Nat} {x : Sample} (h : x ∈ (s.part k).samples) :
    s.part k ∈ s.sequences ∧ k < s.sequences.length := by
  unfold part at h ⊢
  cases hq : s.sequences[k]? with
  | none =>
    rw [hq] at h
    cases h
  | some q =>
    rw [Option.getD_some]
    exact ⟨List.mem_of_getElem? hq, (List.getElem?_eq_some_iff.mp hq).1⟩

/-- A chain looks back no further than the window. -/
theorem length_lt_historyWindow {s : Sound} {k : Nat} {x : Sample} (h : x ∈ (s.part k).samples) :
    x.length + 1 ≤ s.historyWindow := by
  obtain ⟨hq, -⟩ := mem_of_mem_part h
  have hx : x.length ≤ (s.part k).longest := (le_foldl_max List.length _ 0).2 x h
  have hl := (le_foldl_max Sequence.longest s.sequences 0).2 _ hq
  have hne : s.sequences ≠ [] := List.ne_nil_of_mem hq
  rw [historyWindow, if_neg hne]
  omega

namespace Tracker

def before (tr : Tracker) : Nat → Option (History (Option UInt8))
  | 0 => none
  | k + 1 => tr.records[k]?

theorem length_update (tr : Tracker) (recent : List Frame)
    (h : tr.records.length = tr.sound.sequences.length) :
    (tr.update recent).records.length = tr.records.length := by
  simp [update, h]

/-- Every part records the newest frame by what was recorded before. -/
theorem getElem?_update (tr : Tracker) (recent : List Frame) {k : Nat}
    (h : tr.records.length = tr.sound.sequences.length) (hk : k < tr.records.length) :
    (tr.update recent).records[k]? = some (tr.records[k].push
      (fewest? tr.sound recent (tr.before k) (tr.sound.part k))) := by
  have hq : tr.sound.sequences[k]? = some (tr.sound.part k) := by
    rw [part, List.getElem?_eq_getElem (by omega), Option.getD_some]
  have hb : (none :: tr.records.map some)[k]? = some (tr.before k) := by
    cases k with
    | zero => rfl
    | succ k =>
      rw [List.getElem?_cons_succ, List.getElem?_map, before, List.getElem?_eq_getElem (by omega)]
      rfl
  have hrow := (List.getElem?_zip_eq_some (z := (tr.before k, tr.sound.part k))).mpr ⟨hb, hq⟩
  have hm := congrArg (Option.map fun p => fewest? tr.sound recent p.1 p.2) hrow
  rw [← List.getElem?_map] at hm
  have hz := (List.getElem?_zip_eq_some (z := (tr.records[k], _))).mpr
    ⟨List.getElem?_eq_getElem hk, hm⟩
  have hp := congrArg (Option.map fun p => p.1.push p.2) hz
  rw [← List.getElem?_map] at hp
  exact hp

end Tracker

variable {s : Sound} {fed : List Frame} {r k t : Nat}

/-- Whether a record is what is left of all that part `k` recorded after frame `r`. -/
def Records (s : Sound) (fed : List Frame) (r k t : Nat) (h : History (Option UInt8)) : Prop :=
  h.window = max s.historyWindow 1 ∧ ∃ log, h.Holds log ∧ log.length = t - r ∧
    ∀ i o, log[i]? = some o → ∀ n, Within o n ↔ Reachable s fed r k (t - i) n

theorem Reachable.late {e n : Nat} (h : Reachable s fed r k e n) : r < e := by
  obtain ⟨m, -, h⟩ := h
  exact h.late

theorem Records.tells {h : History (Option UInt8)} (hr : Records s fed r k t h) (hle : r ≤ t) :
    Tells s fed r k t h := by
  obtain ⟨hw, log, hh, hlen, hlog⟩ := hr
  intro ago hago hpos n
  rw [Tracker.missesAgo?, hh.ago? hpos hago]
  by_cases hi : ago - 1 < log.length
  · have ho := hlog (ago - 1) _ (List.getElem?_eq_getElem hi) n
    rw [List.getElem?_eq_getElem hi, Option.join_some, ho]
    constructor
    · intro h
      exact ⟨t - (ago - 1), by omega, h⟩
    · intro h
      obtain ⟨e, he, h⟩ := h
      rwa [show t - (ago - 1) = e by omega]
  · rw [List.getElem?_eq_none (by omega), Option.join_none]
    constructor
    · intro h
      exact absurd h (not_within_none n)
    · intro h
      obtain ⟨e, he, h⟩ := h
      have := h.late
      omega

theorem Records.push {h : History (Option UInt8)} (hr : Records s fed r k t h) (hle : r ≤ t)
    {o : Option UInt8} (ho : ∀ n, Within o n ↔ Reachable s fed r k (t + 1) n) :
    Records s fed r k (t + 1) (h.push o) := by
  obtain ⟨hw, log, hh, hlen, hlog⟩ := hr
  refine ⟨by rw [History.window_push, hw], o :: log, hh.push o, by rw [List.length_cons]; omega, ?_⟩
  intro i p hp n
  cases i with
  | zero =>
    obtain rfl : o = p := by simpa using hp
    exact ho n
  | succ i =>
    rw [Nat.add_sub_add_right]
    exact hlog i p (by simpa using hp) n

theorem Records.fresh {h : History (Option UInt8)} (hw : h.window = max s.historyWindow 1)
    (he : h.newest = []) : Records s fed t k t h := by
  refine ⟨hw, [], .empty h he, by simp, ?_⟩
  intro i o hi
  simp at hi

/-- What a tracker knows at frame `t` if the last match was at frame `r`. -/
structure Tracks (s : Sound) (fed : List Frame) (r t : Nat) (tr : Tracker) : Prop where
  sound : tr.sound = s
  length : tr.records.length = s.sequences.length
  late : r ≤ t
  records : ∀ k h, tr.records[k]? = some h → Records s fed r k t h

theorem Tracks.ofSound : Tracks s fed 0 0 (.ofSound s) := by
  refine ⟨rfl, List.length_map _, le_refl 0, ?_⟩
  intro k h hk
  have hm := List.mem_of_getElem? hk
  obtain ⟨q, -, rfl⟩ := List.mem_map.mp hm
  exact .fresh rfl rfl

theorem Tracks.reset {tr : Tracker} (h : Tracks s fed r t tr) : Tracks s fed t t tr.reset := by
  refine ⟨h.sound, (List.length_map _).trans h.length, le_refl t, ?_⟩
  intro k c hk
  rw [Tracker.reset, List.getElem?_map] at hk
  obtain ⟨d, hd, rfl⟩ := Option.map_eq_some_iff.mp hk
  exact .fresh (h.records k d hd).1 rfl

theorem Tracks.update {tr : Tracker} (h : Tracks s fed r t tr)
    (hne : ∀ k, ∀ x ∈ (s.part k).samples, x ≠ []) (ht : t + 1 ≤ fed.length) :
    Tracks s fed r (t + 1) (tr.update (fed.take (t + 1)).reverse) := by
  have hlen : tr.records.length = tr.sound.sequences.length := by rw [h.length, h.sound]
  have hle := h.late
  refine ⟨h.sound, (Tracker.length_update tr _ hlen).trans h.length, by omega, ?_⟩
  intro k c hk
  have hk' : k < tr.records.length := by
    have := (List.getElem?_eq_some_iff.mp hk).1
    rwa [Tracker.length_update tr _ hlen] at this
  rw [Tracker.getElem?_update tr _ hlen hk', h.sound] at hk
  rw [← Option.some.inj hk]
  apply (h.records k _ (List.getElem?_eq_getElem hk')).push hle
  intro n
  cases k with
  | zero => exact Tracker.within_anchor (hne 0) hle ht
  | succ k =>
    have hb : tr.records[k]? = some tr.records[k] := List.getElem?_eq_getElem (by omega)
    have hr := h.records k _ hb
    rw [Tracker.before, hb]
    apply Tracker.within_next (hne (k + 1)) ht (hr.tells hle)
    intro x hx
    rw [hr.1]
    exact (length_lt_historyWindow hx).trans (le_max_left _ _)

theorem Tracker.matched_eq (tr : Tracker) :
    (tr.matched.2 = true ↔ Within (tr.records.getLast?.bind (missesAgo? · 1))
      tr.sound.maxDeviation.toNat) ∧
    tr.matched.1 = if tr.matched.2 then tr.reset else tr := by
  rw [matched]
  cases tr.records.getLast?.bind (missesAgo? · 1) with
  | none => simp [not_within_none]
  | some v =>
    dsimp only
    rw [within_some, ← UInt8.le_iff_toNat_le]
    by_cases hv : v ≤ tr.sound.maxDeviation
    · simp [hv]
    · simp [hv]

/-- The tracker matches exactly if the whole chain is reached, and then starts anew. -/
theorem Tracks.matched {tr : Tracker} (h : Tracks s fed r t tr) (hs : s.sequences ≠ []) :
    (tr.matched.2 = true ↔
      Reachable s fed r (s.sequences.length - 1) t s.maxDeviation.toNat) ∧
    Tracks s fed (if tr.matched.2 then t else r) t tr.matched.1 := by
  obtain ⟨hm, hnext⟩ := tr.matched_eq
  have hpos := List.length_pos_of_ne_nil hs
  have hlen := h.length
  obtain ⟨c, hc⟩ : ∃ c, tr.records[s.sequences.length - 1]? = some c :=
    ⟨_, List.getElem?_eq_getElem (by omega)⟩
  have hlast : tr.records.getLast? = some c := by
    rw [List.getLast?_eq_getElem?, hlen, hc]
  have hr := h.records _ c hc
  constructor
  · rw [hm, hlast, Option.bind_some, h.sound,
      hr.tells h.late 1 (by rw [hr.1]; exact le_max_right _ _) Nat.one_pos]
    constructor
    · intro h
      obtain ⟨e, he, hreach⟩ := h
      rwa [← Nat.succ.inj he]
    · intro hreach
      exact ⟨t, rfl, hreach⟩
  · rw [hnext]
    cases tr.matched.2 with
    | false => exact h
    | true => exact h.reset

namespace Tracker

/-- The tracker after the first frames, which are fed one at a time. -/
def after (s : Sound) (fed : List Frame) : Nat → Tracker
  | 0 => ofSound s
  | t + 1 => ((after s fed t).step (fed.take (t + 1)).reverse).1

def matchesAt (s : Sound) (fed : List Frame) : Nat → Bool
  | 0 => false
  | t + 1 => ((after s fed t).step (fed.take (t + 1)).reverse).2

/-- The last frame at which the sound matched, or zero. -/
def lastMatch (s : Sound) (fed : List Frame) : Nat → Nat
  | 0 => 0
  | t + 1 => if matchesAt s fed (t + 1) then t + 1 else lastMatch s fed t

end Tracker

theorem Tracks.after (hs : s.sequences ≠ []) (hne : ∀ k, ∀ x ∈ (s.part k).samples, x ≠ [])
    (ht : t ≤ fed.length) :
    Tracks s fed (Tracker.lastMatch s fed t) t (Tracker.after s fed t) := by
  induction t with
  | zero => exact .ofSound
  | succ t ih => exact (((ih (by omega)).update hne ht).matched hs).2

/-- A sound matches at a frame exactly if a chain of all its parts ends there that started to end after
the last match and misses no more than the sound allows. -/
theorem Tracker.matchesAt_iff_chain (hs : s.sequences ≠ [])
    (hne : ∀ q ∈ s.sequences, ∀ x ∈ q.samples, x ≠ []) (h0 : 0 < t) (ht : t ≤ fed.length) :
    matchesAt s fed t = true ↔
      ∃ sample ends, Chain s fed (lastMatch s fed (t - 1)) (s.sequences.length - 1) sample ends ∧
        ends (s.sequences.length - 1) = t ∧
        ∑ k ∈ Finset.range s.sequences.length, s.missesAt fed k (sample k) (ends k) ≤
          s.maxDeviation.toNat := by
  obtain ⟨t, rfl⟩ : ∃ u, t = u + 1 := ⟨t - 1, by omega⟩
  have hpart : ∀ k, ∀ x ∈ (s.part k).samples, x ≠ [] :=
    fun k x hx => hne _ (mem_of_mem_part hx).1 x hx
  have hpos := List.length_pos_of_ne_nil hs
  have hlast : s.sequences.length - 1 + 1 = s.sequences.length := Nat.sub_add_cancel hpos
  have htracks := (Tracks.after hs hpart (t := t) (by omega)).update hpart ht
  rw [Nat.add_sub_cancel, matchesAt, step, (htracks.matched hs).1]
  constructor
  · intro h
    obtain ⟨m, hm, h⟩ := h
    obtain ⟨sample, ends, hc, he, hsum⟩ := h.chain hpart
    rw [hlast] at hsum
    exact ⟨sample, ends, hc, he, by omega⟩
  · intro h
    obtain ⟨sample, ends, hc, he, hsum⟩ := h
    have h := hc.reaches
    rw [hlast, he] at h
    exact ⟨_, by omega, h⟩

/-- One frame of two is lost, which the sound allows. -/
theorem Tracker.matchesAt_iff_chain_lost :
    let s : Sound :=
      { sequences := [⟨[[4000]], 2500, 0⟩, ⟨[[3000, 3000]], 2500, 0⟩], maxDeviation := 1 }
    let fed := [Frame.ofList [4000], Frame.silent, Frame.ofList [3000]]
    matchesAt s fed 3 = true ∧
      ∃ sample ends, Chain s fed 0 1 sample ends ∧ ends 1 = 3 ∧
        ∑ k ∈ Finset.range 2, s.missesAt fed k (sample k) (ends k) ≤ 1 := by
  intro s fed
  have hm : matchesAt s fed 3 = true := by decide +kernel
  have hl : lastMatch s fed 2 = 0 := by decide +kernel
  have h : matchesAt s fed 3 = true ↔ _ :=
    matchesAt_iff_chain (by decide) (by decide) (by decide) (by decide)
  rw [hl] at h
  exact ⟨hm, h.mp hm⟩

end ToneWatch.Sound
