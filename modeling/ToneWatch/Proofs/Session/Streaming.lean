import Mathlib
import ToneWatch.Proofs.Bytes
import ToneWatch.Proofs.Session.Framing

namespace ToneWatch.Framer

/-- Calls one after another, and how many frames they completed together. -/
def calls {α : Type} (call : Framer → α → Framer × Nat) (f : Framer) : List α → Framer × Nat
  | [] => (f, 0)
  | a :: rest =>
    let (g, first) := call f a
    let (g, others) := calls call g rest
    (g, first + others)

/-- Whatever a sample does, it does not look at the byte that is kept. -/
theorem accept_halfSample (f : Framer) (half : Option UInt8) (x : Int16) :
    { f with halfSample := half }.accept x = { f.accept x with halfSample := half } := by
  unfold accept
  dsimp only
  split
  · unfold complete enqueue
    dsimp only
    split <;> rfl
  · rfl

theorem accept_counts (f : Framer) (x : Int16) :
    f.produced ≤ (f.accept x).produced ∧ (f.accept x).recording = f.recording ∧
      (f.accept x).halfSample = f.halfSample := by
  unfold accept
  dsimp only
  split
  · unfold complete enqueue
    dsimp only
    split <;> exact ⟨Nat.le_succ _, rfl, rfl⟩
  · exact ⟨le_rfl, rfl, rfl⟩

theorem foldl_accept_halfSample (f : Framer) (half : Option UInt8) (xs : List Int16) :
    xs.foldl accept { f with halfSample := half } =
      { xs.foldl accept f with halfSample := half } := by
  induction xs generalizing f with
  | nil => rfl
  | cons x xs ih => rw [List.foldl_cons, List.foldl_cons, accept_halfSample, ih]

theorem foldl_accept_counts (f : Framer) (xs : List Int16) :
    f.produced ≤ (xs.foldl accept f).produced ∧ (xs.foldl accept f).recording = f.recording ∧
      (xs.foldl accept f).halfSample = f.halfSample := by
  induction xs generalizing f with
  | nil => exact ⟨le_rfl, rfl, rfl⟩
  | cons x xs ih =>
    obtain ⟨hp, hr, hh⟩ := accept_counts f x
    obtain ⟨hps, hrs, hhs⟩ := ih (f.accept x)
    exact ⟨hp.trans hps, hrs.trans hr, hhs.trans hh⟩

variable {f : Framer}

theorem process_of_recording (hr : f.recording = true) (xs : List Int16) :
    f.process xs = (xs.foldl accept f, (xs.foldl accept f).produced - f.produced) := by
  rw [process, if_pos hr]

theorem process_of_stopped (hr : f.recording = false) (xs : List Int16) : f.process xs = (f, 0) := by
  rw [process, hr, if_neg nofun]

@[simp] theorem process_nil (f : Framer) : f.process [] = (f, 0) := by
  cases hr : f.recording with
  | false => exact process_of_stopped hr []
  | true => rw [process_of_recording hr, List.foldl_nil, Nat.sub_self]

theorem recording_process (f : Framer) (xs : List Int16) :
    (f.process xs).1.recording = f.recording := by
  cases hr : f.recording with
  | false => rw [process_of_stopped hr, hr]
  | true => rw [process_of_recording hr, (foldl_accept_counts f xs).2.1, hr]

theorem process_halfSample (f : Framer) (half : Option UInt8) (xs : List Int16) :
    { f with halfSample := half }.process xs =
      ({ (f.process xs).1 with halfSample := half }, (f.process xs).2) := by
  unfold process
  dsimp only
  rw [foldl_accept_halfSample]
  split <;> rfl

theorem halfSample_process (f : Framer) (xs : List Int16) :
    (f.process xs).1.halfSample = f.halfSample := by
  unfold process
  split
  · exact (foldl_accept_counts f xs).2.2
  · rfl

theorem process_append (f : Framer) (xs ys : List Int16) :
    f.process (xs ++ ys) =
      (((f.process xs).1.process ys).1, (f.process xs).2 + ((f.process xs).1.process ys).2) := by
  cases hr : f.recording with
  | false => simp only [process_of_stopped hr]
  | true =>
    obtain ⟨hp, hg, -⟩ := foldl_accept_counts f xs
    have hq := (foldl_accept_counts (xs.foldl accept f) ys).1
    rw [process_of_recording hr, process_of_recording hr, process_of_recording (hg.trans hr),
      List.foldl_append]
    congr 1
    omega

theorem calls_nil {α : Type} (call : Framer → α → Framer × Nat) (f : Framer) :
    calls call f [] = (f, 0) := rfl

theorem calls_cons {α : Type} (call : Framer → α → Framer × Nat) (f : Framer) (a : α)
    (rest : List α) :
    calls call f (a :: rest) =
      ((calls call (call f a).1 rest).1, (call f a).2 + (calls call (call f a).1 rest).2) := rfl

/-- It makes no difference how the samples are cut. -/
theorem calls_process (f : Framer) (blocks : List (List Int16)) :
    calls process f blocks = f.process blocks.flatten := by
  induction blocks generalizing f with
  | nil => rw [calls_nil, List.flatten_nil, process_nil]
  | cons block blocks ih => rw [calls_cons, ih, List.flatten_cons, process_append]

/-- Takes samples, and keeps the byte that is left over behind them. -/
def processDecoded (f : Framer) (decoded : List Int16 × Option UInt8) : Framer × Nat :=
  { f with halfSample := decoded.2 }.process decoded.1

theorem processDecoded_eq (f : Framer) (decoded : List Int16 × Option UInt8) :
    f.processDecoded decoded =
      ({ (f.process decoded.1).1 with halfSample := decoded.2 }, (f.process decoded.1).2) :=
  process_halfSample f decoded.2 decoded.1

/-- Samples in front of others may be taken first, whatever byte is kept in between. -/
theorem processDecoded_append (f : Framer) (before decoded : List Int16 × Option UInt8) :
    f.processDecoded (before.1 ++ decoded.1, decoded.2) =
      (((f.processDecoded before).1.processDecoded decoded).1,
        (f.processDecoded before).2 + ((f.processDecoded before).1.processDecoded decoded).2) := by
  simp only [processDecoded_eq, process_append, process_halfSample]

/-- However many blocks the bytes fill, they are taken as the samples they write. -/
theorem processBlocks_eq (f : Framer) (bytes : List UInt8) :
    f.processBlocks bytes = f.processDecoded (samplesOfBytes bytes) := by
  fun_induction processBlocks f bytes with
  | case1 f bytes left h =>
    have hlen := length_samplesOfBytes (bytes.take (2 * blockSize))
    rw [h, List.length_nil, List.length_take, blockSize] at hlen
    rw [List.take_of_length_le (by rw [blockSize]; omega)] at h
    rw [h, processDecoded, process_nil]
  | case2 f bytes x xs left h g first hg g' others hg' ih =>
    have hsplit := samplesOfBytes_split bytes (2 * blockSize)
    simp only [h] at hsplit
    rw [hg'] at ih
    have happ := processDecoded_append f (x :: xs, f.halfSample)
      (samplesOfBytes (bytes.drop (2 * (x :: xs).length)))
    have hfirst : f.processDecoded (x :: xs, f.halfSample) = (g, first) := hg
    rw [hfirst, ← ih] at happ
    rw [hsplit]
    exact happ.symm

theorem processDecoded_half (f : Framer) : f.processDecoded ([], f.halfSample) = (f, 0) :=
  process_nil f

theorem processBytes_of_stopped {f : Framer} (hr : f.recording = false) (bytes : List UInt8) :
    f.processBytes bytes = (f, 0) := by
  unfold processBytes
  rw [hr, if_neg nofun]

theorem processBytes_eq {f : Framer} (hr : f.recording = true) (bytes : List UInt8) :
    f.processBytes bytes = f.processDecoded (samplesOfBytes (f.halfSample.toList ++ bytes)) := by
  have hnone := processDecoded_half f
  unfold processBytes
  rw [if_pos hr]
  cases hhalf : f.halfSample with
  | none => exact processBlocks_eq f bytes
  | some lo =>
    cases bytes with
    | nil =>
      rw [hhalf] at hnone
      exact hnone.symm
    | cons hi rest =>
      have happ := processDecoded_append f ([(wordOfBytes lo hi).toInt16], none) (samplesOfBytes rest)
      rw [← processBlocks_eq] at happ
      rw [Option.toList_some, List.singleton_append, samplesOfBytes_cons]
      exact happ.symm

/-- It makes no difference how the bytes are cut. -/
theorem calls_processBytes {f : Framer} (hr : f.recording = true) (pieces : List (List UInt8)) :
    calls processBytes f pieces =
      f.processDecoded (samplesOfBytes (f.halfSample.toList ++ pieces.flatten)) := by
  induction pieces generalizing f with
  | nil =>
    have hleft : samplesOfBytes (f.halfSample.toList ++ [].flatten) = ([], f.halfSample) := by
      cases f.halfSample <;> rfl
    rw [calls_nil, hleft, processDecoded_half]
  | cons piece pieces ih =>
    have hpiece := processBytes_eq hr piece
    have hrest : (f.processBytes piece).1.recording = true := by
      rw [hpiece, processDecoded, recording_process, hr]
    have hhalf : (f.processBytes piece).1.halfSample =
        (samplesOfBytes (f.halfSample.toList ++ piece)).2 := by
      rw [hpiece, processDecoded_eq]
    rw [calls_cons, ih hrest, hhalf, hpiece, List.flatten_cons, ← List.append_assoc,
      samplesOfBytes_append pieces.flatten (f.halfSample.toList ++ piece), processDecoded_append]

section

variable (analyse : List Int → Spectrum.Analysis) (s : AnalysisSettings) (x : Nat → Int16)

/-- The samples of the frame with a number. -/
def frameSamples (k : Nat) : List Int16 :=
  (List.range s.frameSize.toNat).map fun i => x (k * s.frameSize.toNat + i)

/-- The zero point of the frame with a number: the mean of the frame before it. -/
def zeroPoint : Nat → Int
  | 0 => 0
  | k + 1 => mean s (frameSamples s x k)

/-- What is found in the frame with a number. -/
def analysisAt (k : Nat) : Spectrum.Analysis :=
  analyse ((frameSamples s x k).map (value s (zeroPoint s x k)))

end

variable {analyse : List Int → Spectrum.Analysis} {s : AnalysisSettings} {x : Nat → Int16}

theorem chunks_stream (m : Nat) :
    chunks s.frameSize.toNat ((List.range m).map x) =
      (List.range (m / s.frameSize.toNat)).map (frameSamples s x) := by
  rw [chunks_eq_map, List.length_map, List.length_range]
  apply List.map_congr_left
  intro k hk
  have hle : (k + 1) * s.frameSize.toNat ≤ m :=
    (Nat.mul_le_mul_right _ (List.mem_range.mp hk)).trans (Nat.div_mul_le_self m _)
  rw [Nat.succ_mul] at hle
  apply List.ext_getElem
  · rw [frameSamples, List.length_take, List.length_drop, List.length_map, List.length_range,
      List.length_map, List.length_range]
    omega
  · intro i _ _
    simp [frameSamples]

theorem analysesOf_range' (k count : Nat) :
    analysesOf analyse s (zeroPoint s x k) ((List.range' k count).map (frameSamples s x)) =
      (List.range' k count).map (analysisAt analyse s x) := by
  induction count generalizing k with
  | zero => rfl
  | succ count ih =>
    have hrest : analysesOf analyse s (mean s (frameSamples s x k)) _ = _ := ih (k + 1)
    rw [List.range'_succ, List.map_cons, List.map_cons, analysesOf, hrest]
    rfl

theorem analysesOf_stream (count : Nat) :
    analysesOf analyse s 0 ((List.range count).map (frameSamples s x)) =
      (List.range count).map (analysisAt analyse s x) := by
  rw [List.range_eq_range']
  exact analysesOf_range' 0 count

/-- What a framer makes of the first samples of a stream. -/
structure Framed (analyse : List Int → Spectrum.Analysis) (s : AnalysisSettings) (x : Nat → Int16)
    (m : Nat) (g : Framer) : Prop where
  produced : g.produced = m / s.frameSize.toNat
  pending : g.pending.toList =
    (((List.range (m / s.frameSize.toNat)).map (analysisAt analyse s x)).map (·.frame)).rtake
      s.pendingCapacity.toNat
  dropped : g.dropped = m / s.frameSize.toNat - s.pendingCapacity.toNat
  loudest : g.loudest =
    ((List.range (m / s.frameSize.toNat)).map (analysisAt analyse s x)).getLast?.map (·.loudest)
  recording : g.recording = true

theorem framed_process {f : Framer} (hf : create s = .ok f)
    (analyse : List Int → Spectrum.Analysis) (x : Nat → Int16) (m : Nat) :
    Framed analyse s x m ({ f with analyse }.start.process ((List.range m).map x)).1 ∧
      ({ f with analyse }.start.process ((List.range m).map x)).2 = m / s.frameSize.toNat := by
  obtain ⟨hfilled, rfl⟩ := Filled.of_create hf
  obtain ⟨-, -, hpending, hloudest, hproduced, hdropped, -, hrecording⟩ :=
    Takes.foldl_accept (hfilled.with_analyse analyse).start ((List.range m).map x)
  have hlength : ((List.range (m / s.frameSize.toNat)).map (frameSamples s x)).length =
      m / s.frameSize.toNat := by
    rw [List.length_map, List.length_range]
  rw [List.nil_append, chunks_stream] at hpending hloudest hproduced hdropped
  rw [framesOf_eq] at hpending
  rw [hlength] at hproduced hdropped
  have hcount := hproduced.trans (Nat.zero_add _)
  rw [process_of_recording rfl]
  constructor
  · constructor
    · exact hcount
    · rw [← analysesOf_stream]
      exact hpending
    · exact hdropped.trans ((Nat.zero_add _).trans (congrArg (· - _) (Nat.zero_add _)))
    · rw [← analysesOf_stream]
      exact hloudest.trans Option.or_none
    · exact hrecording
  · exact hcount

/-- However the bytes of a stream are cut into pieces, a framer makes of them what it makes of their
samples: a frame of every so many of them, without a gap, whatever is found in a frame. -/
theorem framed_of_pieces {f : Framer} (hf : create s = .ok f)
    (analyse : List Int → Spectrum.Analysis) (pieces : List (List UInt8)) :
    let f := { f with analyse }
    let bytes := pieces.flatten
    let g := calls processBytes f.start pieces
    Framed analyse s (sampleAt bytes) (bytes.length / 2) g.1 ∧
      g.2 = bytes.length / 2 / s.frameSize.toNat ∧
      ∀ blocks : List (List Int16),
        blocks.flatten = (List.range (bytes.length / 2)).map (sampleAt bytes) →
        calls process f.start blocks = ({ g.1 with halfSample := none }, g.2) := by
  intro f' bytes g
  obtain ⟨hframed, hcount⟩ := framed_process hf analyse (sampleAt bytes) (bytes.length / 2)
  have hnone : f'.start.halfSample = none := by
    obtain ⟨-, rfl⟩ := Filled.of_create hf
    rfl
  have hg : g = f'.start.processDecoded (samplesOfBytes bytes) := by
    have hcalls := calls_processBytes (f := f'.start) rfl pieces
    rwa [hnone, Option.toList_none, List.nil_append] at hcalls
  rw [processDecoded_eq, samplesOfBytes_eq] at hg
  rw [hg]
  refine ⟨?_, hcount, ?_⟩
  · obtain ⟨hproduced, hpending, hdropped, hloudest, hrecording⟩ := hframed
    exact ⟨hproduced, hpending, hdropped, hloudest, hrecording⟩
  · intro blocks hblocks
    have hhalf := halfSample_process f'.start blocks.flatten
    rw [hnone, hblocks] at hhalf
    rw [calls_process, hblocks]
    dsimp only
    rw [← hhalf]

/-- Pieces of 27 bytes that write three frames of four samples, one sample more and half a sample; the
queue has room for two frames. -/
theorem framed_of_pieces_shown :
    let s : AnalysisSettings := { frameSize := 4, divisor := 1, pendingCapacity := 2 }
    let f : Framer := { settings := s, analyse := shown }
    let pieces : List (List UInt8) :=
      [[10], [], [0, 20, 0], [30, 0, 40, 0, 44], [1, 50, 0, 60, 0, 70, 0, 131], [0, 142, 0, 153],
        [0, 170, 0], [5, 0, 9]]
    let g := calls processBytes f.start pieces
    create s = .ok { settings := s } ∧ g.2 = 3 ∧
      g.1.pending.toList = [.ofList [275, 25, 35], .ofList [11, 22, 33]] ∧ g.1.dropped = 1 ∧
      g.1.loudest = some 50 ∧
      calls process f.start [[10, 20, 30, 40, 300, 50], [], [60, 70, 131, 142, 153, 170, 5]] =
        ({ g.1 with halfSample := none }, g.2) := by
  intro s f pieces g
  have hs : s.validate = .ok () := by decide +kernel
  have hf : create s = .ok { settings := s } := by
    rw [create, hs]
    rfl
  obtain ⟨⟨-, hpending, hdropped, hloudest, -⟩, hcount, hblocks⟩ := framed_of_pieces hf shown pieces
  exact ⟨hf, hcount.trans (by decide +kernel), hpending.trans (by decide +kernel),
    hdropped.trans (by decide +kernel), hloudest.trans (by decide +kernel), hblocks _ (by decide +kernel)⟩

end ToneWatch.Framer
