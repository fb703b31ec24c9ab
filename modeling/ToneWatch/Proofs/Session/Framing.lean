import Mathlib
import ToneWatch.Framer
import ToneWatch.Proofs.Chunks
import ToneWatch.Proofs.Queue
import ToneWatch.Proofs.Settings

namespace ToneWatch

namespace Framer

/-- An analysis that shows the first three values and the last one. -/
def shown (values : List Int) : Spectrum.Analysis :=
  ⟨.ofList (values.map fun v => .ofNat v.toNat), (values.getLastD 0).toNat⟩

variable (analyse : List Int → Spectrum.Analysis) (s : AnalysisSettings)

/-- A sample as it is analysed. -/
def value (zero : Int) (x : Int16) : Int := (x.toInt - zero).tdiv s.divisor.toInt

/-- The mean of a chunk, toward zero. -/
def mean (chunk : List Int16) : Int := (chunk.map Int16.toInt).sum.tdiv s.frameSize.toNat

def frameOf (zero : Int) (chunk : List Int16) : Frame :=
  (analyse (chunk.map (value s zero))).frame

/-- The frames of chunks; the zero point of each is the mean of the one before it. -/
def framesOf (zero : Int) : List (List Int16) → List Frame
  | [] => []
  | c :: cs => frameOf analyse s zero c :: framesOf (mean s c) cs

/-- What is found in chunks, their frames included. -/
def analysesOf (zero : Int) : List (List Int16) → List Spectrum.Analysis
  | [] => []
  | c :: cs => analyse (c.map (value s zero)) :: analysesOf (mean s c) cs

/-- The zero point after chunks. -/
def zeroAfter (zero : Int) (cs : List (List Int16)) : Int := cs.foldl (fun _ c => mean s c) zero

variable {analyse s}

theorem framesOf_eq (zero : Int) (cs : List (List Int16)) :
    framesOf analyse s zero cs = (analysesOf analyse s zero cs).map (·.frame) := by
  induction cs generalizing zero with
  | nil => rfl
  | cons c cs ih =>
    rw [framesOf, ih]
    rfl

theorem analysesOf_append (zero : Int) (cs ds : List (List Int16)) :
    analysesOf analyse s zero (cs ++ ds) =
      analysesOf analyse s zero cs ++ analysesOf analyse s (zeroAfter s zero cs) ds := by
  induction cs generalizing zero with
  | nil => rfl
  | cons c cs ih =>
    rw [List.cons_append, analysesOf, ih]
    rfl

theorem framesOf_append (zero : Int) (cs ds : List (List Int16)) :
    framesOf analyse s zero (cs ++ ds) =
      framesOf analyse s zero cs ++ framesOf analyse s (zeroAfter s zero cs) ds := by
  rw [framesOf_eq, framesOf_eq, framesOf_eq, analysesOf_append, List.map_append]

theorem length_framesOf (zero : Int) (cs : List (List Int16)) :
    (framesOf analyse s zero cs).length = cs.length := by
  induction cs generalizing zero with
  | nil => rfl
  | cons c cs ih => rw [framesOf, List.length_cons, ih, List.length_cons]

/-- Whether a framer holds the beginning of a chunk, in the first or the second half of its values. -/
structure Filled (s : AnalysisSettings) (f : Framer) (begun : List Int16) : Prop where
  settings : f.settings = s
  short : begun.length < s.frameSize.toNat
  size : f.values.size = 2 * s.frameSize.toNat
  half : f.position = begun.length ∨ f.position = s.frameSize.toNat + begun.length
  written : (f.values.extract (f.position - begun.length) f.position).toList =
    begun.map (value s f.offset)
  sum : f.sum = (begun.map Int16.toInt).sum
  capacity : 0 < s.pendingCapacity.toNat
  room : f.pending.size ≤ s.pendingCapacity.toNat

/-- What becomes of a framer that takes samples. -/
structure Takes (s : AnalysisSettings) (f : Framer) (begun xs : List Int16) (g : Framer) : Prop where
  filled : Filled s g (leftOver s.frameSize.toNat (begun ++ xs))
  offset : g.offset = zeroAfter s f.offset (chunks s.frameSize.toNat (begun ++ xs))
  pending : g.pending.toList =
    (f.pending.toList ++ framesOf f.analyse s f.offset (chunks s.frameSize.toNat (begun ++ xs))).rtake
      s.pendingCapacity.toNat
  loudest : g.loudest =
    ((analysesOf f.analyse s f.offset (chunks s.frameSize.toNat (begun ++ xs))).getLast?.map
      (·.loudest)).or f.loudest
  produced : g.produced = f.produced + (chunks s.frameSize.toNat (begun ++ xs)).length
  dropped : g.dropped = f.dropped +
    (f.pending.size + (chunks s.frameSize.toNat (begun ++ xs)).length - s.pendingCapacity.toNat)
  analyse : g.analyse = f.analyse
  recording : g.recording = f.recording

variable {f g : Framer} {begun : List Int16}

theorem Filled.of_empty (hs : f.settings = s) (hn : 0 < s.frameSize.toNat)
    (hsize : f.values.size = 2 * s.frameSize.toNat)
    (hhalf : f.position = 0 ∨ f.position = s.frameSize.toNat) (hsum : f.sum = 0)
    (hc : 0 < s.pendingCapacity.toNat) (hroom : f.pending.size ≤ s.pendingCapacity.toNat) :
    Filled s f [] := by
  refine ⟨hs, hn, hsize, hhalf, ?_, hsum, hc, hroom⟩
  rw [List.length_nil, Nat.sub_zero, Array.extract_empty_of_stop_le_start le_rfl]
  rfl

theorem Filled.of_create (h : create s = .ok f) : Filled s f [] ∧ f = { settings := s } := by
  cases hv : s.validate with
  | error e =>
    rw [create, hv] at h
    cases h
  | ok u =>
    rw [create, hv] at h
    cases h
    obtain ⟨hn, hc⟩ := AnalysisSettings.pos_of_validate hv
    exact ⟨.of_empty rfl hn Array.size_replicate (.inl rfl) rfl hc (Nat.zero_le _), rfl⟩

theorem Filled.start (h : Filled s f begun) : Filled s f.start begun :=
  ⟨h.settings, h.short, h.size, h.half, h.written, h.sum, h.capacity, h.room⟩

theorem Filled.stop (h : Filled s f begun) : Filled s f.stop [] :=
  .of_empty h.settings (Nat.zero_lt_of_lt h.short) h.size (.inl rfl) rfl h.capacity (Nat.zero_le _)

theorem Filled.pull (h : Filled s f begun) : Filled s f.pull.1 begun :=
  ⟨h.settings, h.short, h.size, h.half, h.written, h.sum, h.capacity, Nat.zero_le _⟩

theorem Filled.with_analyse (h : Filled s f begun) (analyse : List Int → Spectrum.Analysis) :
    Filled s { f with analyse } begun :=
  ⟨h.settings, h.short, h.size, h.half, h.written, h.sum, h.capacity, h.room⟩

theorem Filled.halfSample (h : Filled s f begun) {half : Option UInt8} :
    Filled s { f with halfSample := half } begun :=
  ⟨h.settings, h.short, h.size, h.half, h.written, h.sum, h.capacity, h.room⟩

theorem Takes.nil (h : Filled s f begun) : Takes s f begun [] f := by
  obtain ⟨hc, hl⟩ := chunks_of_lt h.short
  have hroom := h.room
  constructor
  · rwa [List.append_nil, hl]
  · rw [List.append_nil, hc]
    rfl
  · rw [List.append_nil, hc, framesOf, List.append_nil, rtake_of_length_le h.room]
  · rw [List.append_nil, hc]
    rfl
  · rw [List.append_nil, hc]
    rfl
  · rw [List.append_nil, hc, List.length_nil]
    omega
  · rfl
  · rfl

theorem Takes.size_pending {xs : List Int16} (h : Takes s f begun xs g) :
    g.pending.size = min s.pendingCapacity.toNat
      (f.pending.size + (chunks s.frameSize.toNat (begun ++ xs)).length) := by
  rw [← Array.length_toList, h.pending, length_rtake, List.length_append, length_framesOf,
    Array.length_toList]

theorem Takes.append {g' : Framer} {xs ys : List Int16} (h : Takes s f begun xs g)
    (h' : Takes s g (leftOver s.frameSize.toNat (begun ++ xs)) ys g') :
    Takes s f begun (xs ++ ys) g' := by
  have hn : 0 < s.frameSize.toNat := Nat.zero_lt_of_lt h.filled.short
  obtain ⟨hc, hl⟩ := chunks_append hn (begun ++ xs) ys
  rw [List.append_assoc] at hc hl
  constructor
  · rw [hl]
    exact h'.filled
  · rw [h'.offset, h.offset, hc, zeroAfter, zeroAfter, zeroAfter, List.foldl_append]
  · rw [h'.pending, h.pending, h.analyse, h.offset, hc, framesOf_append, ← List.append_assoc,
      rtake_rtake_append]
  · rw [h'.loudest, h.loudest, h.analyse, h.offset, hc, analysesOf_append, List.getLast?_append,
      Option.map_or, Option.or_assoc]
  · rw [h'.produced, h.produced, hc, List.length_append, Nat.add_assoc]
  · rw [h'.dropped, h.dropped, h.size_pending, hc, List.length_append]
    omega
  · rw [h'.analyse, h.analyse]
  · rw [h'.recording, h.recording]

theorem extract_setIfInBounds {α : Type} {a : Array α} {i j : Nat} (hij : i ≤ j) (hj : j < a.size)
    (x : α) : (a.setIfInBounds j x).extract i (j + 1) = (a.extract i j).push x := by
  have hsize : j < (a.setIfInBounds j x).size := by rwa [Array.size_setIfInBounds]
  rw [Array.extract_succ_right (by omega) hsize, Array.getElem_setIfInBounds_self]
  congr 1
  rw [← Array.toList_inj, Array.toList_extract, Array.toList_extract, Array.toList_setIfInBounds,
    List.extract_eq_take_drop, List.extract_eq_take_drop, List.drop_set, if_neg (by omega),
    List.take_set, List.set_eq_of_length_le]
  rw [List.length_take]
  exact Nat.min_le_left _ _

theorem Filled.push (h : Filled s f begun) (x : Int16) :
    ((f.values.setIfInBounds f.position (value s f.offset x)).extract (f.position - begun.length)
      (f.position + 1)).toList = (begun ++ [x]).map (value s f.offset) := by
  have hshort := h.short
  have hsize := h.size
  have hposition : f.position < f.values.size := by
    obtain hp | hp := h.half <;> omega
  rw [extract_setIfInBounds (Nat.sub_le _ _) hposition, Array.toList_push, h.written,
    List.map_append]
  rfl

theorem Filled.sums (h : Filled s f begun) (x : Int16) :
    f.sum + x.toInt = ((begun ++ [x]).map Int16.toInt).sum := by
  rw [List.map_append, List.sum_append, h.sum]
  simp

theorem Filled.mod_position (h : Filled s f begun) :
    (f.position + 1) % s.frameSize.toNat = (begun.length + 1) % s.frameSize.toNat := by
  obtain hp | hp := h.half
  · rw [hp]
  · rw [hp, Nat.add_assoc, Nat.add_mod_left]

theorem Filled.accept_of_short (h : Filled s f begun) (x : Int16)
    (hshort : begun.length + 1 ≠ s.frameSize.toNat) :
    f.accept x =
      { f with
        values := f.values.setIfInBounds f.position (value s f.offset x)
        position := f.position + 1
        sum := f.sum + x.toInt } := by
  have hmod := h.mod_position
  have hlt := h.short
  rw [Nat.mod_eq_of_lt (a := begun.length + 1) (by omega)] at hmod
  obtain ⟨rfl, -⟩ := h
  have hne : ¬ (f.position + 1) % f.settings.frameSize.toNat = 0 := by omega
  exact if_neg hne

theorem enqueue_eq (f : Framer) (frame : Frame) :
    f.enqueue frame =
      { f with pending := (f.enqueue frame).pending, dropped := (f.enqueue frame).dropped } := by
  unfold enqueue
  split <;> rfl

theorem pending_enqueue (hc : 0 < f.settings.pendingCapacity.toNat)
    (hroom : f.pending.size ≤ f.settings.pendingCapacity.toNat) (frame : Frame) :
    (f.enqueue frame).pending.toList =
        (f.pending.toList ++ [frame]).rtake f.settings.pendingCapacity.toNat ∧
      (f.enqueue frame).dropped =
        f.dropped + (f.pending.size + 1 - f.settings.pendingCapacity.toNat) := by
  rw [rtake_concat hc, rtake_of_length_le hroom, Array.length_toList, enqueue]
  split
  · next hfull => simp [hfull]
  · next hfull =>
    constructor
    · rw [Array.toList_push]
    · rw [Nat.sub_eq_zero_of_le (by omega)]
      rfl

variable (s f begun) in
/-- A framer that takes the last sample of a chunk, before the frame of it is in the queue. -/
def closing (x : Int16) : Framer :=
  { f with
    values := f.values.setIfInBounds f.position (value s f.offset x)
    position := if f.position + 1 = 2 * s.frameSize.toNat then 0 else f.position + 1
    sum := 0
    offset := mean s (begun ++ [x])
    loudest := some (f.analyse ((begun ++ [x]).map (value s f.offset))).loudest
    produced := f.produced + 1 }

theorem Filled.accept_of_full (h : Filled s f begun) (x : Int16)
    (hfull : begun.length + 1 = s.frameSize.toNat) :
    f.accept x = (closing s f begun x).enqueue (frameOf f.analyse s f.offset (begun ++ [x])) := by
  have hvalues := h.push x
  have hsums := h.sums x
  have hmod := h.mod_position
  have hstart : f.position + 1 - s.frameSize.toNat = f.position - begun.length := by
    omega
  rw [hfull, Nat.mod_self] at hmod
  obtain ⟨rfl, -⟩ := h
  rw [closing, frameOf, mean, ← hvalues, ← hsums, ← hstart]
  exact if_pos hmod

theorem Filled.closing (h : Filled s f begun) (x : Int16)
    (hfull : begun.length + 1 = s.frameSize.toNat) : Filled s (closing s f begun x) [] := by
  have hn : 0 < s.frameSize.toNat := Nat.zero_lt_of_lt h.short
  refine .of_empty h.settings hn (Array.size_setIfInBounds.trans h.size) ?_ rfl h.capacity h.room
  obtain hp | hp := h.half
  · refine .inr ((if_neg ?_).trans ?_) <;> omega
  · exact .inl (if_pos (by omega))

theorem Filled.enqueue (h : Filled s f begun) (frame : Frame) :
    Filled s (f.enqueue frame) begun ∧
      (f.enqueue frame).pending.toList = (f.pending.toList ++ [frame]).rtake s.pendingCapacity.toNat ∧
      (f.enqueue frame).dropped = f.dropped + (f.pending.size + 1 - s.pendingCapacity.toNat) := by
  obtain ⟨hpending, hdropped⟩ := pending_enqueue (f := f) (by rw [h.settings]; exact h.capacity)
    (by rw [h.settings]; exact h.room) frame
  rw [h.settings] at hpending hdropped
  refine ⟨?_, hpending, hdropped⟩
  rw [enqueue_eq]
  refine ⟨h.settings, h.short, h.size, h.half, h.written, h.sum, h.capacity, ?_⟩
  rw [← Array.length_toList, hpending, length_rtake]
  exact Nat.min_le_left _ _

/-- One sample: either the chunk goes on, or it is analysed and the next one begins. -/
theorem Takes.accept (h : Filled s f begun) (x : Int16) : Takes s f begun [x] (f.accept x) := by
  have hn : 0 < s.frameSize.toNat := Nat.zero_lt_of_lt h.short
  have hlen : (begun ++ [x]).length = begun.length + 1 := by simp
  have hlt := h.short
  have hroom := h.room
  by_cases hfull : begun.length + 1 = s.frameSize.toNat
  · obtain ⟨hc, hl⟩ := chunks_of_eq (hlen.trans hfull) hn
    obtain ⟨hfilled, hpending, hdropped⟩ :=
      (h.closing x hfull).enqueue (frameOf f.analyse s f.offset (begun ++ [x]))
    rw [h.accept_of_full x hfull]
    constructor
    · rwa [hl]
    · rw [hc, enqueue_eq]
      rfl
    · rw [hc]
      exact hpending
    · rw [hc, enqueue_eq]
      rfl
    · rw [hc, enqueue_eq]
      rfl
    · rw [hc]
      exact hdropped
    · rw [enqueue_eq]
      rfl
    · rw [enqueue_eq]
      rfl
  · have hgoes : (begun ++ [x]).length < s.frameSize.toNat := by omega
    obtain ⟨hc, hl⟩ := chunks_of_lt hgoes
    rw [h.accept_of_short x hfull]
    constructor
    · rw [hl]
      refine ⟨h.settings, hgoes, Array.size_setIfInBounds.trans h.size, ?_, ?_, h.sums x, h.capacity,
        h.room⟩
      · rw [hlen]
        exact h.half.imp (congrArg (· + 1)) (congrArg (· + 1))
      · rw [hlen, Nat.add_sub_add_right]
        exact h.push x
    · rw [hc]
      rfl
    · rw [hc, framesOf, List.append_nil, rtake_of_length_le h.room]
    · rw [hc]
      rfl
    · rw [hc]
      rfl
    · rw [hc, List.length_nil]
      exact (Nat.add_eq_left.mpr (by omega)).symm
    · rfl
    · rfl

theorem Takes.foldl_accept (h : Filled s f begun) (xs : List Int16) :
    Takes s f begun xs (xs.foldl Framer.accept f) := by
  induction xs generalizing f begun with
  | nil => exact .nil h
  | cons x xs ih =>
    have hx := Takes.accept h x
    exact hx.append (ih hx.filled)

end Framer

end ToneWatch
