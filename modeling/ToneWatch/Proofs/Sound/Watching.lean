import Mathlib
import ToneWatch.Proofs.Feed
import ToneWatch.Proofs.Sound.Matching
import ToneWatch.Sound.Library

namespace ToneWatch.Sound

/-- Whether a chain up to part `k` that starts to end at frame `start` ends at frame `e` with `m`
misses, if its samples are joined by a clock. -/
inductive Paces (s : Sound) (fed : List Frame) (clock : Nat → Nat) (start : Nat) :
    Nat → Nat → Nat → Prop
  | anchor {x : Sample} (hx : x ∈ (s.part 0).samples) (hl : x.length ≤ start)
      (ha : s.Accepts (s.part 0) x (window fed start x.length)) :
      Paces s fed clock start 0 start (s.missesAt fed 0 x start)
  | next {k e m : Nat} {x : Sample} {e' : Nat} (h : Paces s fed clock start k e m)
      (hx : x ∈ (s.part (k + 1)).samples) (hl : x.length ≤ e') (hlt : e < e')
      (he : clock e' = clock e + x.length ∨ clock e' = clock e + x.length + 1)
      (ha : s.Accepts (s.part (k + 1)) x (window fed e' x.length)) :
      Paces s fed clock start (k + 1) e' (m + s.missesAt fed (k + 1) x e')

variable {s : Sound} {fed : List Frame} {clock : Nat → Nat} {start k e m t n : Nat}

theorem Paces.start_pos (hne : ∀ x ∈ (s.part 0).samples, x ≠ [])
    (h : Paces s fed clock start k e m) : 0 < start := by
  induction h with
  | @anchor x hx hl ha =>
    have hpos := List.length_pos_of_ne_nil (hne x hx)
    omega
  | next h hx hl hlt he ha ih => exact ih

theorem Paces.start_le (h : Paces s fed clock start k e m) : start ≤ e := by
  induction h with
  | anchor hx hl ha => exact le_rfl
  | next h hx hl hlt he ha ih => omega

/-- A clock that stands still at none of its frames makes a true chain. -/
theorem Paces.reaches (h : Paces s fed clock start k e m) (hpos : 0 < start)
    (hclock : ∀ u, start ≤ u → u ≤ e → clock u = clock start + (u - start)) :
    Reaches s fed 0 k e m := by
  induction h with
  | anchor hx hl ha => exact .anchor hx hpos hl ha
  | @next k e m x e' h hx hl hlt he ha ih =>
    have hs := h.start_le
    have hu := hclock e hs hlt.le
    have hv := hclock e' (by omega) le_rfl
    refine .next (ih fun u hsu hue => hclock u hsu (by omega)) hx ?_ ha
    omega

namespace Tracker

theorem missesAgo?_push {h : History (Option UInt8)} {o : Option UInt8} {ago : Nat}
    (hw : Within (missesAgo? (h.push o) ago) n) (hpos : 0 < ago) :
    ago = 1 ∧ Within o n ∨ 1 < ago ∧ Within (missesAgo? h (ago - 1)) n := by
  have hprefix : (h.push o).newest <+: o :: h.newest := by
    unfold History.push
    refine (List.prefix_cons_inj o).mpr ?_
    split
    · exact List.take_prefix _ _
    · exact List.prefix_rfl
  obtain ⟨v, hv, hn⟩ := hw
  have hget : (o :: h.newest)[ago - 1]? = some (some v) := by
    rw [missesAgo?, History.ago?, if_neg (by omega)] at hv
    have hv := Option.join_eq_some_iff.mp hv
    obtain ⟨hlt, hv⟩ := List.getElem?_eq_some_iff.mp hv
    rw [← hv, hprefix.getElem hlt, List.getElem?_eq_getElem]
  cases ago with
  | zero => omega
  | succ j =>
    cases j with
    | zero =>
      left
      exact ⟨rfl, v, Option.some.inj hget, hn⟩
    | succ j =>
      right
      refine ⟨by omega, v, ?_, hn⟩
      exact Option.join_eq_some_iff.mpr hget

end Tracker

/-- Whether recorded misses are those of paced chains, by the frames seen up to frame `t`. -/
def Notes (s : Sound) (fed : List Frame) (clock : Nat → Nat) (k t : Nat)
    (record : History (Option UInt8)) : Prop :=
  ∀ ago n, 0 < ago → Within (Tracker.missesAgo? record ago) n →
    ∃ start e m, e ≤ t ∧ clock e + ago = clock t + 1 ∧ m ≤ min n s.maxDeviation.toNat ∧
      Paces s fed clock start k e m

/-- What a tracker knows at frame `t` that has not seen every frame. -/
structure Follows (s : Sound) (fed : List Frame) (clock : Nat → Nat) (t : Nat) (tr : Tracker) :
    Prop where
  sound : tr.sound = s
  length : tr.records.length = s.sequences.length
  records : ∀ k h, tr.records[k]? = some h → Notes s fed clock k t h

theorem Follows.ofSound : Follows s fed clock 0 (.ofSound s) := by
  refine ⟨rfl, List.length_map _, ?_⟩
  intro k h hk ago n hpos hw
  obtain ⟨q, -, rfl⟩ := List.mem_map.mp (List.mem_of_getElem? hk)
  exact absurd hw (by simpa [Tracker.missesAgo?, History.ago?, History.ofWindow] using not_within_none n)

theorem Follows.unseen {tr : Tracker} (h : Follows s fed clock t tr)
    (hclock : clock (t + 1) = clock t) : Follows s fed clock (t + 1) tr := by
  refine ⟨h.sound, h.length, ?_⟩
  intro k c hk ago n hpos hw
  obtain ⟨start, e, m, he, hago, hm, hp⟩ := h.records k c hk ago n hpos hw
  exact ⟨start, e, m, by omega, by omega, hm, hp⟩

theorem Follows.reset {tr : Tracker} (h : Follows s fed clock t tr) :
    Follows s fed clock t tr.reset := by
  refine ⟨h.sound, (List.length_map _).trans h.length, ?_⟩
  intro k c hk ago n hpos hw
  rw [Tracker.reset, List.getElem?_map] at hk
  obtain ⟨d, -, rfl⟩ := Option.map_eq_some_iff.mp hk
  exact absurd hw (by simpa [Tracker.missesAgo?, History.ago?, History.clear] using not_within_none n)

section

variable {recent : List Frame}

theorem window_of_recent (hr : recent <+: (fed.take (t + 1)).reverse) (ht : t + 1 ≤ fed.length)
    {length : Nat} (hl : length ≤ recent.length) :
    (recent.take length).reverse = window fed (t + 1) length ∧ length ≤ t + 1 := by
  have hlen := hr.length_le
  obtain ⟨rest, hrest⟩ := hr
  rw [List.length_reverse, List.length_take, Nat.min_eq_left ht] at hlen
  rw [← Tracker.window_eq ht, ← hrest, List.take_append_of_le_length hl]
  exact ⟨rfl, by omega⟩

/-- A tracker that sees a frame notes the chains that end there. -/
theorem Follows.update {tr : Tracker} (h : Follows s fed clock t tr)
    (hclock : clock (t + 1) = clock t + 1) (hr : recent <+: (fed.take (t + 1)).reverse)
    (ht : t + 1 ≤ fed.length) : Follows s fed clock (t + 1) (tr.update recent) := by
  have hlen : tr.records.length = tr.sound.sequences.length := by rw [h.length, h.sound]
  refine ⟨h.sound, (Tracker.length_update tr _ hlen).trans h.length, ?_⟩
  intro k c hk ago n hpos hw
  have hk' : k < tr.records.length := by
    have := (List.getElem?_eq_some_iff.mp hk).1
    rwa [Tracker.length_update tr _ hlen] at this
  rw [Tracker.getElem?_update tr _ hlen hk', h.sound] at hk
  rw [← Option.some.inj hk] at hw
  obtain ⟨rfl, hw⟩ | ⟨hago, hw⟩ := Tracker.missesAgo?_push hw hpos
  · obtain ⟨x, hx, hne, hl, ha, b, hb, hm⟩ := Tracker.within_fewest.mp hw
    obtain ⟨hwindow, hroom⟩ := window_of_recent hr ht hl
    rw [hwindow] at ha hm
    cases k with
    | zero =>
      refine ⟨t + 1, t + 1, _, le_rfl, rfl, ?_, .anchor hx hroom ha⟩
      rw [missesAt]
      omega
    | succ k =>
      have hpos := List.length_pos_of_ne_nil hne
      have hget : tr.records[k]? = some tr.records[k] := List.getElem?_eq_getElem (by omega)
      have hnotes := h.records k _ hget
      rw [Tracker.before, hget, Tracker.within_base] at hb
      obtain ⟨start, e, m, he, hjoin, hm', hp⟩ : ∃ start e m, e ≤ t ∧
          (clock (t + 1) = clock e + x.length ∨ clock (t + 1) = clock e + x.length + 1) ∧
          m ≤ min b s.maxDeviation.toNat ∧ Paces s fed clock start k e m := by
        obtain hb | hb := hb
        · obtain ⟨start, e, m, he, hago, hm, hp⟩ := hnotes _ b hpos hb
          exact ⟨start, e, m, he, .inl (by omega), hm, hp⟩
        · obtain ⟨start, e, m, he, hago, hm, hp⟩ := hnotes _ b (by omega) hb
          exact ⟨start, e, m, he, .inr (by omega), hm, hp⟩
      refine ⟨start, t + 1, _, le_rfl, rfl, ?_, .next hp hx hroom (by omega) hjoin ha⟩
      rw [missesAt]
      omega
  · obtain ⟨start, e, m, he, hjoin, hm, hp⟩ :=
      h.records k _ (List.getElem?_eq_getElem hk') (ago - 1) n (by omega) hw
    exact ⟨start, e, m, by omega, by omega, hm, hp⟩

/-- A tracker that matches has noted a whole chain, which ends at the frame it sees. -/
theorem Follows.step {tr : Tracker} (h : Follows s fed clock t tr)
    (hclock : clock (t + 1) = clock t + 1) (hmono : Monotone clock)
    (hr : recent <+: (fed.take (t + 1)).reverse) (ht : t + 1 ≤ fed.length) :
    Follows s fed clock (t + 1) (tr.step recent).1 ∧
      ((tr.step recent).2 = true → ∃ start, ∃ m ≤ s.maxDeviation.toNat,
        Paces s fed clock start (s.sequences.length - 1) (t + 1) m) := by
  have hu := h.update hclock hr ht
  obtain ⟨hm, hnext⟩ := (tr.update recent).matched_eq
  constructor
  · rw [Tracker.step, hnext]
    split
    · exact hu.reset
    · exact hu
  · intro hmatch
    obtain ⟨v, hv, hn⟩ := hm.mp hmatch
    obtain ⟨c, hc, hv⟩ := Option.bind_eq_some_iff.mp hv
    rw [List.getLast?_eq_getElem?, hu.length] at hc
    rw [hu.sound] at hn
    obtain ⟨start, e, m, he, hago, hm, hp⟩ := hu.records _ c hc 1 _ one_pos ⟨v, hv, hn⟩
    obtain rfl | hlt := Nat.eq_or_lt_of_le he
    · exact ⟨start, m, by omega, hp⟩
    · have hle := hmono (Nat.le_of_lt_succ hlt)
      omega

end

namespace Watcher

/-- The place of the sound that takes a frame: the first that matches there. -/
def taker? (recent : List Frame) (trackers : List (String × Tracker)) : Option Nat :=
  trackers.findIdx? fun p => (p.2.step recent).2

/-- Whether the sound at a place sees a frame, by the place of the one that takes it. -/
def sees (i : Nat) (taker : Option Nat) : Bool := taker.all (i ≤ ·)

theorem firstMatch_eq (recent : List Frame) (trackers : List (String × Tracker)) :
    (firstMatch recent trackers).2 =
        (taker? recent trackers).bind (fun i => (trackers.map Prod.fst)[i]?) ∧
      ∀ i, (firstMatch recent trackers).1[i]? = trackers[i]?.map fun p =>
        (p.1, if sees i (taker? recent trackers) then (p.2.step recent).1 else p.2) := by
  induction trackers with
  | nil => simp [firstMatch, taker?]
  | cons p trackers ih =>
    obtain ⟨name, tr⟩ := p
    obtain ⟨hfound, hget⟩ := ih
    have hstep : tr.step recent = ((tr.step recent).1, (tr.step recent).2) := rfl
    unfold taker? at hfound hget ⊢
    rw [List.findIdx?_cons, firstMatch, hstep]
    cases hm : (tr.step recent).2 with
    | true =>
      refine ⟨rfl, ?_⟩
      intro i
      cases i with
      | zero => rfl
      | succ i =>
        rw [List.getElem?_cons_succ, List.getElem?_cons_succ]
        cases trackers[i]? <;> simp [sees]
    | false =>
      simp only [hfound, Bool.false_eq_true, if_false]
      constructor
      · cases trackers.findIdx? fun p => (p.2.step recent).2 <;> simp
      · intro i
        cases i with
        | zero => cases trackers.findIdx? fun p => (p.2.step recent).2 <;> simp [sees]
        | succ i =>
          rw [List.getElem?_cons_succ, List.getElem?_cons_succ, hget]
          cases trackers.findIdx? fun p => (p.2.step recent).2 <;> simp [sees]

/-- The place of the sound that takes the next frame. -/
def takenBy (w : Watcher) (f : Frame) : Option Nat :=
  taker? (w.frames.push f).newest w.trackers

/-- The places of the sounds that take each frame. -/
def takers (w : Watcher) : List Frame → List (Option Nat)
  | [] => []
  | f :: fed => w.takenBy f :: (w.process f).1.takers fed

/-- How many of the first frames the sound at a place has seen. -/
def seen (w : Watcher) (fed : List Frame) (i e : Nat) : Nat :=
  ((w.takers fed).take e).countP (sees i)

variable {w : Watcher}

/-- Every frame is answered and taken by what the frames before it have made of the watcher. -/
theorem replies_takers (w : Watcher) {fed : List Frame} {t : Nat} (ht : t < fed.length) :
    (replies process w fed)[t]? =
        some ((feed process w (fed.take t)).1.process fed[t]).2 ∧
      (w.takers fed)[t]? = some ((feed process w (fed.take t)).1.takenBy fed[t]) := by
  induction fed generalizing w t with
  | nil => cases ht
  | cons f fed ih =>
    cases t with
    | zero => exact ⟨rfl, rfl⟩
    | succ t => exact ih (w.process f).1 (Nat.lt_of_succ_lt_succ ht)

theorem monotone_seen (i : Nat) : Monotone (w.seen fed i) := by
  intro a b hab
  exact (List.take_prefix_take_left hab).sublist.countP_le

theorem seen_succ (w : Watcher) {fed : List Frame} (i : Nat) {t : Nat} (ht : t < fed.length) :
    w.seen fed i (t + 1) = w.seen fed i t +
      if sees i ((feed process w (fed.take t)).1.takenBy fed[t]) then 1 else 0 := by
  have htake := (replies_takers w ht).2
  unfold seen
  rw [List.take_add_one, htake, List.countP_append, Option.toList_some, List.countP_singleton]

/-- What a watcher for a library knows after so many frames. -/
structure Watches (l : Library) (w : Watcher) (fed : List Frame) (t : Nat) (v : Watcher) : Prop where
  frames : v.frames.Holds (fed.take t).reverse
  follows : ∀ i p, v.trackers[i]? = some p → ∃ e, l.entries[i]? = some e ∧ p.1 = e.name ∧
    Follows e.sound fed (w.seen fed i) t p.2

variable {l : Library}

theorem Watches.ofSounds :
    Watches l w fed 0 (.ofSounds (l.entries.map fun e => (e.name, e.sound))) := by
  refine ⟨.empty _ rfl, ?_⟩
  intro i p hp
  simp only [Watcher.ofSounds, List.map_map, List.getElem?_map, Option.map_eq_some_iff] at hp
  obtain ⟨e, he, rfl⟩ := hp
  exact ⟨e, he, rfl, .ofSound⟩

theorem Watches.process {v : Watcher} {t : Nat} (h : Watches l w fed t v) (ht : t < fed.length)
    (hv : v = (feed Watcher.process w (fed.take t)).1) :
    Watches l w fed (t + 1) (v.process fed[t]).1 ∧
      ∀ name, (v.process fed[t]).2 = some name →
        ∃ i e, v.takenBy fed[t] = some i ∧ l.entries[i]? = some e ∧ e.name = name ∧ ∃ start, ∃ m ≤ e.sound.maxDeviation.toNat,
          Paces e.sound fed (w.seen fed i) start (e.sound.sequences.length - 1) (t + 1) m := by
  have hrev : (fed.take (t + 1)).reverse = fed[t] :: (fed.take t).reverse := by
    rw [List.take_succ_eq_append_getElem ht, List.reverse_append]
    rfl
  have hpush := h.frames.push fed[t]
  rw [← hrev] at hpush
  obtain ⟨hfound, hget⟩ := firstMatch_eq (v.frames.push fed[t]).newest v.trackers
  have hseen : ∀ i, w.seen fed i (t + 1) =
      w.seen fed i t + if sees i (v.takenBy fed[t]) then 1 else 0 := by
    intro i
    rw [hv]
    exact seen_succ w i ht
  constructor
  · refine ⟨hpush, ?_⟩
    intro i p hp
    obtain ⟨q, hq, rfl⟩ := Option.map_eq_some_iff.mp ((hget i).symm.trans hp)
    obtain ⟨e, he, hname, hf⟩ := h.follows i q hq
    refine ⟨e, he, hname, ?_⟩
    have hi := hseen i
    unfold takenBy at hi
    split
    · next hs =>
      rw [if_pos hs] at hi
      exact (hf.step hi (monotone_seen i) hpush.1 ht).1
    · next hs =>
      rw [if_neg hs] at hi
      exact hf.unseen hi
  · intro name hname
    obtain ⟨i, hi, hn⟩ := Option.bind_eq_some_iff.mp (hfound.symm.trans hname)
    obtain ⟨p, hp, rfl⟩ := Option.map_eq_some_iff.mp ((List.getElem?_map ..).symm.trans hn)
    obtain ⟨e, he, hname, hf⟩ := h.follows i p hp
    have hmatch : (p.2.step (v.frames.push fed[t]).newest).2 = true := by
      obtain ⟨hlt, hm, -⟩ := List.findIdx?_eq_some_iff_getElem.mp hi
      obtain ⟨-, rfl⟩ := List.getElem?_eq_some_iff.mp hp
      exact hm
    have hs : sees i (v.takenBy fed[t]) = true := by
      rw [takenBy, hi]
      exact decide_eq_true le_rfl
    have hcount := hseen i
    rw [if_pos hs] at hcount
    exact ⟨i, e, hi, he, hname.symm, (hf.step hcount (monotone_seen i) hpush.1 ht).2 hmatch⟩

theorem Watches.feed (hw : w = .ofSounds (l.entries.map fun e => (e.name, e.sound))) {t : Nat}
    (ht : t ≤ fed.length) : Watches l w fed t (feed Watcher.process w (fed.take t)).1 := by
  induction t with
  | zero =>
    rw [hw]
    exact .ofSounds
  | succ t ih =>
    rw [List.take_succ_eq_append_getElem ht, feed_concat]
    exact ((ih (by omega)).process ht rfl).1

end Watcher

/-- What an accepted library has in every sound. -/
structure Entry.Sampled (e : Entry) : Prop where
  sequences : e.sound.sequences ≠ []
  samples : ∀ q ∈ e.sound.sequences, ∀ x ∈ q.samples, x ≠ []

theorem Entry.samples_of_validateFrom {name : String} {qs : List Sequence} {index : Nat}
    (h : validateFrom name index qs = .ok ()) : ∀ q ∈ qs, ∀ x ∈ q.samples, x ≠ [] := by
  induction qs generalizing index with
  | nil => exact fun q hq => absurd hq List.not_mem_nil
  | cons q qs ih =>
    rw [validateFrom] at h
    cases hv : validateSamples name index q.samples with
    | error err =>
      rw [hv] at h
      cases h
    | ok u =>
      rw [hv] at h
      refine List.forall_mem_cons.mpr ⟨?_, ih h⟩
      intro x hx
      unfold validateSamples at hv
      split at hv
      · cases hv
      · split at hv
        · next hf =>
          have hno := List.find?_eq_none.mp hf x hx
          simp only [Bool.or_eq_true, decide_eq_true_eq, not_or] at hno
          exact hno.1
        · cases hv

theorem Entry.sampled_of_validate {e : Entry} (h : e.validate = .ok ()) : e.Sampled := by
  unfold validate at h
  split at h
  · cases h
  · next hs => exact ⟨hs, samples_of_validateFrom h⟩

theorem Library.build_ok {l : Library} {w : Watcher} (h : l.build = .ok w) :
    w = .ofSounds (l.entries.map fun e => (e.name, e.sound)) ∧ ∀ e ∈ l.entries, e.Sampled := by
  unfold build at h
  cases hv : l.validate with
  | error err =>
    rw [hv] at h
    cases h
  | ok u =>
    rw [hv] at h
    refine ⟨(Except.ok.inj h).symm, ?_⟩
    unfold validate at hv
    clear h
    generalize l.entries = es at hv
    induction es with
    | nil => exact fun e he => absurd he List.not_mem_nil
    | cons e es ih =>
      have hv : (e.validate >>= fun _ => es.forM Entry.validate) = .ok u := hv
      cases he : e.validate with
      | error err =>
        rw [he] at hv
        cases hv
      | ok u =>
        rw [he] at hv
        exact List.forall_mem_cons.mpr ⟨Entry.sampled_of_validate he, ih hv⟩

namespace Watcher

variable {w : Watcher} {l : Library}

theorem seen_of_untaken {i start e : Nat} (he : e ≤ fed.length)
    (h : ∀ u, start ≤ u → u < e → ∀ j, (w.takers fed)[u]? = some (some j) → i ≤ j) :
    ∀ u, start ≤ u → u ≤ e → w.seen fed i u = w.seen fed i start + (u - start) := by
  intro u hu hue
  induction u, hu using Nat.le_induction with
  | base => rw [Nat.sub_self, Nat.add_zero]
  | succ u hu ih =>
    have hlt : u < fed.length := by omega
    have htaken := (replies_takers w hlt).2
    have hsees : sees i ((feed process w (fed.take u)).1.takenBy fed[u]) = true := by
      cases ht : (feed process w (fed.take u)).1.takenBy fed[u] with
      | none => rfl
      | some j => exact decide_eq_true (h u hu hue j (htaken.trans (congrArg some ht)))
    rw [seen_succ w i hlt, if_pos hsees, ih (by omega)]
    omega

/-- Whatever sound is reported, a chain of its parts has ended there, joined by the frames that the
sound has seen. It is a true chain if no sound registered before took a frame of it. -/
theorem reported_of_build (hl : l.build = .ok w) {name : String}
    (h : (replies process w fed)[t]? = some (some name)) :
    ∃ i e, (w.takers fed)[t]? = some (some i) ∧ l.entries[i]? = some e ∧ e.name = name ∧
      ∃ start, ∃ m ≤ e.sound.maxDeviation.toNat,
        Paces e.sound fed (w.seen fed i) start (e.sound.sequences.length - 1) (t + 1) m ∧
        ((∀ u, start ≤ u → u ≤ t → ∀ j, (w.takers fed)[u]? = some (some j) → i ≤ j) →
          ∃ sample ends, Chain e.sound fed 0 (e.sound.sequences.length - 1) sample ends ∧
            ends (e.sound.sequences.length - 1) = t + 1 ∧
            ∑ k ∈ Finset.range e.sound.sequences.length, e.sound.missesAt fed k (sample k) (ends k) ≤
              e.sound.maxDeviation.toNat) := by
  obtain ⟨hw, hsampled⟩ := Library.build_ok hl
  have ht : t < fed.length := by
    rw [← length_replies process w fed]
    exact (List.getElem?_eq_some_iff.mp h).1
  obtain ⟨hreply, htaken⟩ := replies_takers w ht
  obtain ⟨i, e, hi, he, hname, start, m, hm, hp⟩ :=
    ((Watches.feed hw ht.le).process ht rfl).2 name (Option.some.inj (hreply.symm.trans h))
  refine ⟨i, e, htaken.trans (congrArg some hi), he, hname, start, m, hm, hp, ?_⟩
  intro huntaken
  obtain ⟨hs, hx⟩ := hsampled e (List.mem_of_getElem? he)
  have hne : ∀ k, ∀ x ∈ (e.sound.part k).samples, x ≠ [] :=
    fun k x hk => hx _ (mem_of_mem_part hk).1 x hk
  have hclock := seen_of_untaken (w := w) (i := i) ht fun u hu hue => huntaken u hu (by omega)
  obtain ⟨sample, ends, hc, hend, hsum⟩ := (hp.reaches (hp.start_pos (hne 0)) hclock).chain hne
  rw [Nat.sub_add_cancel (List.length_pos_of_ne_nil hs)] at hsum
  exact ⟨sample, ends, hc, hend, hsum.le.trans hm⟩

/-- A sound of two parts, behind one that none of the frames are. -/
theorem reported_of_two :
    let l : Library := ⟨[⟨"high", { sequences := [⟨[[3500]], 0, 0⟩], maxDeviation := 0 }⟩,
      ⟨"falling", { sequences := [⟨[[4000]], 0, 0⟩, ⟨[[3000, 3000]], 0, 0⟩], maxDeviation := 0 }⟩]⟩
    let fed := ([4000, 3000, 3000] : List UInt16).map fun p => Frame.ofList [p]
    ∃ w, l.build = .ok w ∧ (replies process w fed)[2]? = some (some "falling") ∧
      ∃ e ∈ l.entries, e.name = "falling" ∧ ∃ sample ends,
        Chain e.sound fed 0 (e.sound.sequences.length - 1) sample ends ∧
          ends (e.sound.sequences.length - 1) = 3 := by
  intro l fed
  have hbuild : l.build = .ok (.ofSounds (l.entries.map fun e => (e.name, e.sound))) := rfl
  generalize hw : Watcher.ofSounds (l.entries.map fun e => (e.name, e.sound)) = w at hbuild
  have hreply : (replies process w fed)[2]? = some (some "falling") := by
    rw [← hw]
    decide +kernel
  have htakers : w.takers fed = [none, none, some 1] := by
    rw [← hw]
    decide +kernel
  obtain ⟨i, e, hi, he, hname, start, m, -, -, hchain⟩ := reported_of_build hbuild hreply
  have huntaken : ∀ u, start ≤ u → u ≤ 2 → ∀ j, (w.takers fed)[u]? = some (some j) → i ≤ j := by
    intro u _ hu j hj
    rw [htakers] at hi hj
    interval_cases u
    · cases hj
    · cases hj
    · cases hi
      cases hj
      exact le_rfl
  obtain ⟨sample, ends, hc, hend, -⟩ := hchain huntaken
  exact ⟨w, hbuild, hreply, e, List.mem_of_getElem? he, hname, sample, ends, hc, hend⟩

instance (s : Sound) (q : Sequence) (x : Sample) (frames : List Frame) :
    Decidable (s.Accepts q x frames) :=
  inferInstanceAs (Decidable (_ ≤ _))

/-- A sound is reported though two frames, which another one took, lie between its parts. -/
theorem reported_without_chain :
    let falling : Sound := { sequences := [⟨[[4000]], 0, 0⟩, ⟨[[3000, 3000]], 0, 0⟩], maxDeviation := 0 }
    let l : Library :=
      ⟨[⟨"high", { sequences := [⟨[[3500]], 0, 0⟩], maxDeviation := 0 }⟩, ⟨"falling", falling⟩]⟩
    let fed := ([4000, 3500, 3500, 3000, 3000] : List UInt16).map fun p => Frame.ofList [p]
    ∃ w, l.build = .ok w ∧
      replies process w fed = [none, some "high", some "high", none, some "falling"] ∧
      ¬ ∃ sample ends, Chain falling fed 0 1 sample ends ∧ ends 1 = 5 := by
  intro falling l fed
  have hbuild : l.build = .ok (.ofSounds (l.entries.map fun e => (e.name, e.sound))) := rfl
  refine ⟨_, hbuild, by decide +kernel, ?_⟩
  rintro ⟨sample, ends, hc, hend⟩
  have h0 : sample 0 = [4000] := List.mem_singleton.mp (hc.sampled 0 (by omega))
  have h1 : sample 1 = [3000, 3000] := List.mem_singleton.mp (hc.sampled 1 le_rfl)
  have hjoined := hc.joined 0 one_pos
  have haccepted := hc.accepted 0 (Nat.zero_le 1)
  rw [Nat.zero_add, hend, h1] at hjoined
  rw [h0] at haccepted
  obtain hends | hends : ends 0 = 3 ∨ ends 0 = 2 := by
    simp only [List.length_cons, List.length_nil] at hjoined
    omega
  · rw [hends] at haccepted
    exact absurd haccepted (by decide +kernel)
  · rw [hends] at haccepted
    exact absurd haccepted (by decide +kernel)

end Watcher

end ToneWatch.Sound
