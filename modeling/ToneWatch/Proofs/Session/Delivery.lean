import Mathlib
import ToneWatch.Session
import ToneWatch.Sound.Watcher
import ToneWatch.Proofs.Recording
import ToneWatch.Proofs.Session.Framing

namespace ToneWatch

variable {σ ε : Type} [Consumer σ ε]

/-- A consumer that is listened in on: its events are the calls made to it. -/
structure Overheard (σ : Type) where
  consumer : σ

instance : Consumer (Overheard σ) (List Frame) where
  isAnalysing c := Consumer.isAnalysing c.consumer
  consume c frames := (⟨(Consumer.consume c.consumer frames).1⟩, [frames])

namespace Session

/-- A session without the listener. -/
def bare (s : Session (Overheard σ)) : Session σ :=
  { recording := s.recording, framer := s.framer, consumer := s.consumer.consumer, blocks := s.blocks }

omit [Consumer σ ε] in
@[simp] theorem recording_bare (s : Session (Overheard σ)) : s.bare.recording = s.recording := rfl

theorem sync_bare (s : Session (Overheard σ)) : s.bare.sync = s.sync.bare := by
  cases ha : Consumer.isAnalysing s.consumer.consumer <;> cases hr : s.framer.recording <;>
    simp [sync, bare, Consumer.isAnalysing, ha, hr]

theorem take_bare (s : Session (Overheard σ)) (block : List Int16) :
    (s.bare.take block).1 = (s.take block).1.bare := by
  unfold take
  by_cases h : (s.framer.process block).2 = 0
  · simp [bare, h]
  · simp [bare, h, Consumer.consume]

/-- Listening in changes nothing. -/
theorem step_bare (s : Session (Overheard σ)) :
    s.bare.step.1 = s.step.1.bare ∧ s.bare.step.2.isSome = s.step.2.isSome := by
  unfold step
  simp only [sync_bare, recording_bare, recording_sync]
  cases s.recording.pull? with
  | none => exact ⟨rfl, rfl⟩
  | some p => exact ⟨take_bare { s.sync with recording := p.2 } p.1, rfl⟩

/-- A step that takes a block. -/
structure Pass where
  /-- Whether the consumer wants frames when the step begins. -/
  armed : Bool
  block : List Int16
  /-- The frames of each call made to the consumer. -/
  calls : List (List Frame)
  /-- The frames the framer has dropped so far. -/
  dropped : Nat

omit [Consumer σ ε] in
/-- Changes the consumer between two steps. -/
def alter (s : Session (Overheard σ)) (change : σ → σ) : Session (Overheard σ) :=
  { s with consumer := ⟨change s.consumer.consumer⟩ }

/-- Steps, each after a change of the consumer, until the recording ends. -/
def passes (s : Session (Overheard σ)) : List (σ → σ) → List Pass
  | [] => []
  | change :: rest =>
    match s.recording.pull?, (s.alter change).step with
    | some (block, _), (t, some calls) =>
      { armed := Consumer.isAnalysing (s.alter change).consumer, block, calls,
        dropped := t.framer.dropped } :: t.passes rest
    | _, _ => []

/-- The samples of each longest series of passes during which frames are wanted. -/
def stretches (ps : List Pass) : List (List Int16) :=
  (ps.splitOnP (!·.armed)).map (·.flatMap Pass.block)

/-- The framer of a session between two steps. -/
structure Ready (analyse : List Int → Spectrum.Analysis) (a : AnalysisSettings) (f : Framer)
    (begun : List Int16) : Prop where
  filled : f.Filled a begun
  analyse : f.analyse = analyse
  drained : f.pending = #[]
  dropped : f.dropped = 0
  begun : f.recording = false → begun = []

variable {analyse : List Int → Spectrum.Analysis} {a : AnalysisSettings} {begun : List Int16}

@[simp] theorem consumer_sync (s : Session σ) : s.sync.consumer = s.consumer := by
  unfold sync
  split <;> rfl

/-- A consumer that wants no frames makes the framer forget what it holds. -/
theorem Ready.sync {s : Session σ} (h : Ready analyse a s.framer begun) :
    Ready analyse a s.sync.framer (if Consumer.isAnalysing s.consumer then begun else []) ∧
      s.sync.framer.recording = Consumer.isAnalysing s.consumer ∧
      s.sync.framer.offset = s.framer.offset := by
  unfold Session.sync
  cases ha : Consumer.isAnalysing s.consumer <;> cases hr : s.framer.recording
  case false.false =>
    have hb := h.begun hr
    subst hb
    exact ⟨h, hr, rfl⟩
  case false.true =>
    exact ⟨⟨h.filled.stop, h.analyse, rfl, h.dropped, fun _ => rfl⟩, rfl, rfl⟩
  case true.false =>
    exact ⟨⟨h.filled.start, h.analyse, h.drained, h.dropped, nofun⟩, rfl, rfl⟩
  case true.true => exact ⟨h, hr, rfl⟩

theorem Ready.take_of_recording {s : Session σ} (h : Ready analyse a s.framer begun) (block : List Int16)
    (hr : s.framer.recording = true)
    (hroom : (chunks a.frameSize.toNat (begun ++ block)).length ≤ a.pendingCapacity.toNat) :
    Ready analyse a (s.take block).1.framer (leftOver a.frameSize.toNat (begun ++ block)) ∧
      (s.take block).1.framer.offset =
        Framer.zeroAfter a s.framer.offset (chunks a.frameSize.toNat (begun ++ block)) ∧
      ((s.take block).1.consumer, (s.take block).2) =
        if chunks a.frameSize.toNat (begun ++ block) = [] then (s.consumer, [])
        else Consumer.consume s.consumer
          (Framer.framesOf analyse a s.framer.offset (chunks a.frameSize.toNat (begun ++ block))) := by
  have hsize : s.framer.pending.size = 0 := by rw [h.drained]; rfl
  obtain ⟨hfilled, hoffset, hpending, -, hproduced, hdropped, hanalyse, hrecording⟩ :=
    Framer.Takes.foldl_accept h.filled block
  have hprocess : s.framer.process block = (block.foldl Framer.accept s.framer,
      (chunks a.frameSize.toNat (begun ++ block)).length) := by
    rw [Framer.process, if_pos hr]
    simp only [hproduced, Nat.add_sub_cancel_left]
  have hlost : s.framer.pending.size + (chunks a.frameSize.toNat (begun ++ block)).length -
      a.pendingCapacity.toNat = 0 := by omega
  rw [hlost, h.dropped] at hdropped
  rw [h.analyse, h.drained, List.nil_append,
    rtake_of_length_le ((Framer.length_framesOf _ _).le.trans hroom)] at hpending
  unfold Session.take
  simp only [hprocess, List.length_eq_zero_iff]
  split
  · next he =>
    rw [he] at hpending
    refine ⟨⟨hfilled, hanalyse.trans h.analyse, ?_, hdropped, ?_⟩, hoffset, rfl⟩
    · exact Array.toList_eq_nil_iff.mp hpending
    · intro hf
      exact absurd (hf.symm.trans (hrecording.trans hr)) (by simp)
  · next he =>
    refine ⟨⟨hfilled.pull, hanalyse.trans h.analyse, rfl, hdropped, ?_⟩, hoffset, ?_⟩
    · intro hf
      exact absurd (hf.symm.trans (hrecording.trans hr)) (by simp)
    · rw [← hpending]
      rfl

theorem Ready.take_of_not_recording {s : Session σ} (block : List Int16)
    (hr : s.framer.recording = false) :
    s.take block = ({ s with blocks := s.blocks + 1 }, []) := by
  unfold Session.take
  simp [Framer.process, hr]

theorem length_chunks_le {n m : Nat} {block : List Int16} (hb : begun.length < n)
    (hl : block.length ≤ m * n) : (chunks n (begun ++ block)).length ≤ m := by
  have hn : 0 < n := Nat.zero_lt_of_lt hb
  have hlt : (begun ++ block).length < (m + 1) * n := by
    rw [List.length_append, Nat.succ_mul]
    omega
  rw [chunks_eq_map, List.length_map, List.length_range]
  exact Nat.lt_succ_iff.mp ((Nat.div_lt_iff_lt_mul hn).mpr hlt)

/-- The samples in which a pass looks for chunks. -/
def gathered (armed : Bool) (begun block : List Int16) : List Int16 :=
  if armed then begun ++ block else []

theorem step_of_some {s : Session σ} {block : List Int16} {r : Recording}
    (hp : s.recording.pull? = some (block, r)) :
    s.step = (({ s.sync with recording := r }.take block).1,
      some ({ s.sync with recording := r }.take block).2) := by
  unfold Session.step
  simp only [recording_sync, hp]

theorem exists_step_of_some {s : Session σ} {block : List Int16} {r : Recording}
    (hp : s.recording.pull? = some (block, r)) :
    ∃ t es, s.step = (t, some es) ∧ t.recording = r :=
  ⟨_, _, step_of_some hp, recording_take _ _⟩

theorem step_of_none {s : Session σ} (hp : s.recording.pull? = none) : s.step = (s.sync, none) := by
  unfold Session.step
  simp only [recording_sync, hp]

/-- A step takes the next block, and the consumer is called at most once in it. -/
theorem Ready.step {s : Session (Overheard σ)} (h : Ready analyse a s.framer begun) {block : List Int16}
    {r : Recording} (hp : s.recording.pull? = some (block, r))
    (hl : block.length ≤ a.pendingCapacity.toNat * a.frameSize.toNat) :
    ∃ t calls, s.step = (t, some calls) ∧ t.recording = r ∧
      Ready analyse a t.framer
        (leftOver a.frameSize.toNat (gathered (Consumer.isAnalysing s.consumer) begun block)) ∧
      t.framer.offset = Framer.zeroAfter a s.framer.offset
        (chunks a.frameSize.toNat (gathered (Consumer.isAnalysing s.consumer) begun block)) ∧
      calls = if chunks a.frameSize.toNat (gathered (Consumer.isAnalysing s.consumer) begun block) = []
        then []
        else [Framer.framesOf analyse a s.framer.offset
          (chunks a.frameSize.toNat (gathered (Consumer.isAnalysing s.consumer) begun block))] := by
  obtain ⟨hready, hrecording, hoffset⟩ := h.sync
  refine ⟨_, _, step_of_some hp, recording_take _ _, ?_⟩
  cases ha : Consumer.isAnalysing s.consumer with
  | true =>
    rw [ha] at hready hrecording
    have hroom := length_chunks_le h.filled.short hl
    obtain ⟨ht, ho, hc⟩ :=
      Ready.take_of_recording (s := { s.sync with recording := r }) hready block hrecording hroom
    refine ⟨ht, ho.trans (by rw [hoffset]; rfl), ?_⟩
    rw [gathered, if_pos rfl, ← hoffset]
    exact (congrArg Prod.snd hc).trans (apply_ite Prod.snd _ _ _)
  | false =>
    rw [ha] at hready hrecording
    rw [Ready.take_of_not_recording (s := { s.sync with recording := r }) block hrecording]
    rw [gathered, if_neg nofun, chunks_nil, leftOver_nil]
    exact ⟨hready, hoffset, rfl⟩

theorem passes_of_none {s : Session (Overheard σ)} (hp : s.recording.pull? = none)
    (changes : List (σ → σ)) : s.passes changes = [] := by
  cases changes with
  | nil => rfl
  | cons change rest =>
    unfold passes
    rw [hp]

theorem passes_of_some {s t : Session (Overheard σ)} {block : List Int16} {r : Recording}
    {calls : List (List Frame)} {change : σ → σ} (hp : s.recording.pull? = some (block, r))
    (hs : (s.alter change).step = (t, some calls)) (rest : List (σ → σ)) :
    s.passes (change :: rest) =
      ⟨Consumer.isAnalysing (s.alter change).consumer, block, calls, t.framer.dropped⟩ ::
        t.passes rest := by
  rw [passes, hp, hs]

theorem passes_take (s : Session (Overheard σ)) (changes : List (σ → σ)) (k : Nat) :
    (s.passes changes).take k = s.passes (changes.take k) := by
  induction changes generalizing s k with
  | nil => simp [passes]
  | cons change rest ih =>
    cases k with
    | zero => simp [passes]
    | succ k =>
      rw [List.take_succ_cons, passes, passes]
      split
      · rw [List.take_succ_cons, ih]
      · exact List.take_nil

theorem stretches_cons_of_armed {p : Pass} (h : p.armed = true) (ps : List Pass) :
    stretches (p :: ps) = (stretches ps).modifyHead (p.block ++ ·) := by
  rw [stretches, List.splitOnP_cons_eq_if_modifyHead, h]
  cases hs : ps.splitOnP (!·.armed) <;> simp [stretches, hs]

theorem stretches_cons_of_not_armed {p : Pass} (h : p.armed = false) (ps : List Pass) :
    stretches (p :: ps) = [] :: stretches ps := by
  rw [stretches, List.splitOnP_cons_eq_if_modifyHead, h]
  simp [stretches]

theorem stretches_ne_nil (ps : List Pass) : stretches ps ≠ [] := by
  simp [stretches, List.splitOnP_ne_nil]

/-- The chunks of the stretches, the first of which goes on from what was begun before. -/
theorem chunks_stretches_cons {n : Nat} (hb : begun.length < n) (p : Pass) (ps : List Pass) :
    ((stretches (p :: ps)).modifyHead (begun ++ ·)).flatMap (chunks n) =
      chunks n (gathered p.armed begun p.block) ++
        ((stretches ps).modifyHead (leftOver n (gathered p.armed begun p.block) ++ ·)).flatMap
          (chunks n) := by
  have hn : 0 < n := Nat.zero_lt_of_lt hb
  cases ha : p.armed with
  | true =>
    rw [stretches_cons_of_armed ha]
    cases hs : stretches ps with
    | nil => exact absurd hs (stretches_ne_nil ps)
    | cons x xs =>
      have hc := (chunks_append hn (begun ++ p.block) x).1
      rw [List.append_assoc] at hc
      simp only [List.modifyHead_cons, List.flatMap_cons, gathered, if_true, hc, List.append_assoc]
  | false =>
    rw [stretches_cons_of_not_armed ha]
    cases stretches ps <;> simp [gathered, (chunks_of_lt hb).1]

/-- What the passes hand over, from a framer that holds the beginning of a chunk. -/
theorem Ready.passes {s : Session (Overheard σ)} (h : Ready analyse a s.framer begun)
    (hl : max s.recording.block 1 ≤ a.pendingCapacity.toNat * a.frameSize.toNat)
    (changes : List (σ → σ)) :
    (s.passes changes).flatMap (·.calls.flatten) =
        Framer.framesOf analyse a s.framer.offset
          (((stretches (s.passes changes)).modifyHead (begun ++ ·)).flatMap
            (chunks a.frameSize.toNat)) ∧
      ∀ p ∈ s.passes changes, p.dropped = 0 ∧ (p.calls = [] ∨ ∃ fs ≠ [], p.calls = [fs]) := by
  have hn : 0 < a.frameSize.toNat := Nat.zero_lt_of_lt h.filled.short
  have hshort := (chunks_of_lt h.filled.short).1
  induction changes generalizing s begun with
  | nil => simp [Session.passes, stretches, hshort, Framer.framesOf]
  | cons change rest ih =>
    cases hp : s.recording.pull? with
    | none => simp [passes_of_none hp, stretches, hshort, Framer.framesOf]
    | some p =>
      obtain ⟨block, r⟩ := p
      obtain ⟨-, hblock, hr⟩ := Recording.pull?_eq_some hp
      have hlen : block.length ≤ max s.recording.block 1 := by
        rw [hblock, List.length_take]
        exact Nat.min_le_left _ _
      obtain ⟨t, calls, hstep, ht, hready, hoffset, hcalls⟩ :=
        Ready.step (s := s.alter change) h hp (hlen.trans hl)
      have htl : max t.recording.block 1 ≤ a.pendingCapacity.toNat * a.frameSize.toNat := by
        rw [ht, hr]
        exact hl
      obtain ⟨hframes, hpasses⟩ := ih hready htl (chunks_of_lt hready.filled.short).1
      rw [passes_of_some hp hstep]
      constructor
      · have hflat : calls.flatten = Framer.framesOf analyse a s.framer.offset (chunks a.frameSize.toNat
            (gathered (Consumer.isAnalysing (s.alter change).consumer) begun block)) := by
          rw [hcalls]
          split
          · next he => rw [he]; rfl
          · exact List.flatten_singleton
        rw [chunks_stretches_cons h.filled.short, Framer.framesOf_append, List.flatMap_cons, hframes,
          hoffset, hflat]
        rfl
      · intro p hmem
        obtain rfl | hmem := List.mem_cons.mp hmem
        · refine ⟨hready.dropped, ?_⟩
          rw [hcalls]
          split
          · exact .inl rfl
          · next he =>
            refine .inr ⟨_, fun hf => he ?_, rfl⟩
            rw [← List.length_eq_zero_iff, ← Framer.length_framesOf, hf, List.length_nil]
        · exact hpasses p hmem

theorem count_blocks {l n : Nat} (hl : 0 < l) (hn : 0 < n) :
    (l + n - 1) / n = (l - n + n - 1) / n + 1 := by
  have hsum : l + n - 1 = l - 1 + n := by omega
  rw [hsum, Nat.add_div_right _ hn]
  by_cases h : n ≤ l
  · rw [Nat.sub_add_cancel h]
  · have hshort : l - n + n - 1 < n := by omega
    have hone : l - 1 < n := by omega
    rw [Nat.div_eq_of_lt hshort, Nat.div_eq_of_lt hone]

theorem le_blocks (l : Nat) {n : Nat} (hn : 0 < n) : l ≤ min l ((l + n - 1) / n) * n := by
  have hceil : l ≤ (l + n - 1) / n * n := by
    have hmod := Nat.div_add_mod' (l + n - 1) n
    have hlt := Nat.mod_lt (l + n - 1) hn
    omega
  obtain h | h := Nat.le_total l ((l + n - 1) / n)
  · rw [Nat.min_eq_left h]
    exact Nat.le_mul_of_pos_right l hn
  · rw [Nat.min_eq_right h]
    exact hceil

/-- The passes take the recording up block by block, to its end or to the end of the schedule. -/
theorem blocks_passes (s : Session (Overheard σ)) (changes : List (σ → σ)) {n : Nat}
    (hn : max s.recording.block 1 = n) :
    (s.passes changes).length = min changes.length ((s.recording.rest.length + n - 1) / n) ∧
      (s.passes changes).flatMap Pass.block =
        s.recording.rest.take ((s.passes changes).length * n) := by
  have hpos : 0 < n := hn ▸ Nat.le_max_right _ _
  induction changes generalizing s with
  | nil => simp [passes]
  | cons change rest ih =>
    cases hp : s.recording.pull? with
    | none =>
      rw [passes_of_none hp, Recording.pull?_eq_none.mp hp]
      simp [Nat.div_eq_of_lt (Nat.sub_lt hpos one_pos)]
    | some p =>
      obtain ⟨block, r⟩ := p
      obtain ⟨hne, hblock, hr⟩ := Recording.pull?_eq_some hp
      obtain ⟨t, calls, hstep, ht⟩ := exists_step_of_some (s := s.alter change) hp
      obtain ⟨hlength, hblocks⟩ := ih t (by rw [ht, hr]; exact hn)
      rw [ht, hr, hn] at hlength hblocks
      rw [passes_of_some hp hstep, List.length_cons, List.length_cons, List.flatMap_cons]
      constructor
      · rw [hlength, List.length_drop, count_blocks (List.length_pos_iff.mpr hne) hpos, Nat.succ_min_succ]
      · rw [hblocks, hblock, hn, Nat.succ_mul, Nat.add_comm _ n, List.take_add]

theorem runFrom_of_none {s t : Session σ} (h : s.step = (t, none)) (latest : List ε) :
    s.runFrom latest = (t, latest.reverse) := by
  rw [runFrom]
  split <;> simp_all

theorem runFrom_of_some {s t : Session σ} {es : List ε} (h : s.step = (t, some es))
    (latest : List ε) : s.runFrom latest = t.runFrom (es.reverse ++ latest) := by
  rw [runFrom]
  split <;> simp_all

/-- A run is as many passes as there are blocks, with nothing done to the consumer in between. -/
theorem runFrom_eq_passes (s : Session (Overheard σ)) (latest : List (List Frame)) {k : Nat}
    (hk : s.recording.rest.length ≤ k) :
    (s.runFrom latest).2 =
      latest.reverse ++ (s.passes (List.replicate k id)).flatMap Pass.calls := by
  induction k generalizing s latest with
  | zero =>
    have hp : s.recording.pull? = none :=
      Recording.pull?_eq_none.mpr (List.length_eq_zero_iff.mp (Nat.le_zero.mp hk))
    rw [runFrom_of_none (step_of_none hp), passes_of_none hp]
    simp
  | succ k ih =>
    cases hp : s.recording.pull? with
    | none =>
      rw [runFrom_of_none (step_of_none hp), passes_of_none hp]
      simp
    | some p =>
      obtain ⟨t, calls, hstep, -⟩ := exists_step_of_some hp
      have hlt := length_rest_of_step hstep
      have hid : (s.alter id).step = (t, some calls) := hstep
      rw [runFrom_of_some hstep, ih _ _ (by omega), List.replicate_succ, passes_of_some hp hid,
        List.flatMap_cons]
      simp

omit [Consumer σ ε] in
theorem ready_of_create {f : Framer} (h : Framer.create a = .ok f) :
    Ready analyse a { f with analyse } [] ∧ f.offset = 0 := by
  obtain ⟨hfilled, rfl⟩ := Framer.Filled.of_create h
  exact ⟨⟨hfilled.with_analyse analyse, rfl, rfl, rfl, fun _ => rfl⟩, rfl⟩

theorem stretches_of_armed {ps : List Pass} (h : ∀ p ∈ ps, p.armed = true) :
    stretches ps = [ps.flatMap Pass.block] := by
  rw [stretches, List.splitOnP_eq_singleton fun p hp => by rw [h p hp]; rfl]
  rfl

/-- Exactly the samples of the stretches in which frames are wanted reach the consumer, cut into
frames: whatever was done to it before each step, whatever is found in a frame, and whatever the blocks,
if the queue has room for the frames of one. -/
theorem delivers {f : Framer} (hf : Framer.create a = .ok f)
    (analyse : List Int → Spectrum.Analysis) (samples : List Int16) (rate : UInt32) (block : Nat)
    (hl : max block 1 ≤ a.pendingCapacity.toNat * a.frameSize.toNat) (c : σ)
    (changes : List (σ → σ)) :
    let s : Session (Overheard σ) :=
      { recording := .ofSamples samples rate block, framer := { f with analyse }, consumer := ⟨c⟩ }
    let ps := s.passes changes
    ps.length = min changes.length ((samples.length + max block 1 - 1) / max block 1) ∧
      ps.flatMap Pass.block = samples.take (ps.length * max block 1) ∧
      (∀ k, (ps.take k).flatMap (·.calls.flatten) =
        Framer.framesOf analyse a 0 ((stretches (ps.take k)).flatMap (chunks a.frameSize.toNat))) ∧
      (∀ p ∈ ps, p.dropped = 0 ∧ (p.calls = [] ∨ ∃ fs ≠ [], p.calls = [fs])) ∧
      s.run.2 = (s.passes (List.replicate samples.length id)).flatMap Pass.calls := by
  intro s ps
  obtain ⟨hready, hoffset⟩ : Ready analyse a s.framer [] ∧ f.offset = 0 := ready_of_create hf
  have hone : max (max block 1) 1 = max block 1 := Nat.max_eq_left (Nat.le_max_right _ _)
  have hblock : max s.recording.block 1 ≤ a.pendingCapacity.toNat * a.frameSize.toNat :=
    hone.le.trans hl
  obtain ⟨hlength, hblocks⟩ := blocks_passes s changes hone
  refine ⟨hlength, hblocks, ?_, (Ready.passes hready hblock changes).2, runFrom_eq_passes s [] le_rfl⟩
  intro k
  have hframes := (Ready.passes hready hblock (changes.take k)).1
  have hid : ∀ xs : List (List Int16), xs.modifyHead ([] ++ ·) = xs := by
    intro xs
    cases xs <;> rfl
  rw [passes_take, hframes, hid, hoffset]

/-- Frames of four samples from blocks of three. In the fourth pass none are wanted, so the ninth sample
and those of this pass are lost. -/
theorem delivers_shown :
    let a : AnalysisSettings := { frameSize := 4, divisor := 1 }
    let f : Framer := { settings := a }
    let samples : List Int16 :=
      [0, 1, 4, 9, 16, 25, 36, 49, 64, 81, 100, 121, 144, 169, 196, 225, 256, 289, 324, 361, 400, 441]
    let s : Session (Overheard Sound.Watcher) :=
      { recording := .ofSamples samples 11000 3
        framer := { f with analyse := Framer.shown }
        consumer := ⟨.ofSounds []⟩ }
    let ps := s.passes [.start, id, id, .stop, .start, id, id]
    Framer.create a = .ok f ∧ ps.length = 7 ∧
      (stretches ps).flatMap (chunks 4) =
        [[0, 1, 4, 9], [16, 25, 36, 49], [144, 169, 196, 225], [256, 289, 324, 361]] ∧
      ps.map Pass.calls =
        [[], [[.ofList [0, 1, 4]]], [[.ofList [13, 22, 33]]], [], [], [[.ofList [113, 138, 165]]],
          [[.ofList [73, 106, 141]]]] ∧
      ps.flatMap (·.calls.flatten) =
        Framer.framesOf Framer.shown a 0 ((stretches ps).flatMap (chunks 4)) ∧
      ∀ p ∈ ps, p.dropped = 0 := by
  intro a f samples s ps
  have ha : a.validate = .ok () := by decide +kernel
  have hf : Framer.create a = .ok f := by
    rw [Framer.create, ha]
    rfl
  obtain ⟨hlength, -, hframes, hpasses, -⟩ :=
    delivers hf Framer.shown samples 11000 3 (by decide) (Sound.Watcher.ofSounds [])
      [.start, id, id, .stop, .start, id, id]
  have h7 : ps.length = 7 := hlength.trans (by decide)
  have hall := hframes 7
  rw [List.take_of_length_le h7.le] at hall
  exact ⟨hf, h7, by decide +kernel, by decide +kernel, hall, fun p hp => (hpasses p hp).1⟩

theorem consumer_step (s : Session σ) :
    s.step.1.consumer = s.consumer ∨
      ∃ frames, s.step.1.consumer = (Consumer.consume s.consumer frames).1 := by
  cases hp : s.recording.pull? with
  | none =>
    rw [step_of_none hp]
    exact .inl (consumer_sync s)
  | some p =>
    obtain ⟨block, r⟩ := p
    rw [step_of_some hp, ← consumer_sync s]
    unfold Session.take
    by_cases h : (s.sync.framer.process block).2 = 0
    · simp only [h]
      exact .inl rfl
    · simp only [if_neg h]
      exact .inr ⟨_, rfl⟩

/-- Frames are wanted throughout if they are at first and the frames do not change that. -/
theorem armed_of_mem_passes {s : Session (Overheard σ)}
    (ha : Consumer.isAnalysing s.consumer.consumer = true)
    (hkeep : ∀ (c : σ) frames, Consumer.isAnalysing c = true →
      Consumer.isAnalysing (Consumer.consume c frames).1 = true) (k : Nat) :
    ∀ p ∈ s.passes (List.replicate k id), p.armed = true := by
  induction k generalizing s with
  | zero => exact fun p hp => absurd hp List.not_mem_nil
  | succ k ih =>
    cases hp : s.recording.pull? with
    | none => exact fun p hm => absurd (passes_of_none hp _ ▸ hm) List.not_mem_nil
    | some p =>
      obtain ⟨t, calls, hstep, -⟩ := exists_step_of_some hp
      have hid : (s.alter id).step = (t, some calls) := hstep
      rw [List.replicate_succ, passes_of_some hp hid]
      refine List.forall_mem_cons.mpr ⟨ha, ih ?_⟩
      obtain h | ⟨frames, h⟩ := consumer_step s
      · rw [hstep] at h
        rw [h]
        exact ha
      · rw [hstep] at h
        rw [h]
        exact hkeep _ frames ha

/-- A consumer that goes on wanting frames gets the same ones in blocks of any size. -/
theorem run_of_armed {f : Framer} (hf : Framer.create a = .ok f)
    (analyse : List Int → Spectrum.Analysis) (samples : List Int16) (rate : UInt32) (block : Nat)
    (hl : max block 1 ≤ a.pendingCapacity.toNat * a.frameSize.toNat) {c : σ}
    (ha : Consumer.isAnalysing c = true)
    (hkeep : ∀ (c : σ) frames, Consumer.isAnalysing c = true →
      Consumer.isAnalysing (Consumer.consume c frames).1 = true) :
    let s : Session (Overheard σ) :=
      { recording := .ofSamples samples rate block, framer := { f with analyse }, consumer := ⟨c⟩ }
    s.run.2.flatten = Framer.framesOf analyse a 0 (chunks a.frameSize.toNat samples) := by
  intro s
  obtain ⟨hready, hoffset⟩ : Ready analyse a s.framer [] ∧ f.offset = 0 := ready_of_create hf
  have hone : max (max block 1) 1 = max block 1 := Nat.max_eq_left (Nat.le_max_right _ _)
  have hpos : 0 < max block 1 := Nat.le_max_right _ _
  obtain ⟨hlength, hblocks⟩ := blocks_passes s (List.replicate samples.length id) hone
  have hall : samples.length ≤ (s.passes (List.replicate samples.length id)).length * max block 1 := by
    rw [hlength, List.length_replicate]
    exact le_blocks _ hpos
  have harmed := armed_of_mem_passes (s := s) ha hkeep samples.length
  have hframes := (Ready.passes (s := s) hready (hone.le.trans hl) (List.replicate samples.length id)).1
  rw [stretches_of_armed harmed, hblocks, hoffset] at hframes
  have hrun : s.run.2 = (s.passes (List.replicate samples.length id)).flatMap Pass.calls :=
    runFrom_eq_passes s [] le_rfl
  have hrest : s.recording.rest = samples := rfl
  rw [hrun, List.flatMap_def, List.flatten_flatten, List.map_map, ← List.flatMap_def]
  rw [hrest, List.take_of_length_le hall] at hframes
  exact hframes.trans (by simp)

end Session

end ToneWatch
