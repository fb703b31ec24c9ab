import Mathlib
import ToneWatch.Proofs.Session.Streaming

namespace ToneWatch.Framer

/-- What a framer may be called for. -/
inductive Call
  | start
  | stop
  | process (samples : List Int16)
  | processBytes (bytes : List UInt8)
  | pull

/-- How many frames were completed, and which ones left the queue for the caller or for good when it
was stopped. -/
structure Outcome where
  completed : Nat := 0
  pulled : List Frame := []
  discarded : List Frame := []

/-- What comes of two calls together. -/
def Outcome.append (o o' : Outcome) : Outcome :=
  ⟨o.completed + o'.completed, o.pulled ++ o'.pulled, o.discarded ++ o'.discarded⟩

def call (f : Framer) : Call → Framer × Outcome
  | .start => (f.start, {})
  | .stop => (f.stop, { discarded := f.pending.toList })
  | .process samples => ((f.process samples).1, { completed := (f.process samples).2 })
  | .processBytes bytes => ((f.processBytes bytes).1, { completed := (f.processBytes bytes).2 })
  | .pull => (f.pull.1, { pulled := f.pull.2 })

def run (f : Framer) : List Call → Framer × Outcome
  | [] => (f, {})
  | c :: cs => ((run (f.call c).1 cs).1, (f.call c).2.append (run (f.call c).1 cs).2)

/-- A record of what was taken, with every frame made of it. -/
structure Tape where
  recording : Bool := false
  /-- The samples that no frame is made of yet. -/
  begun : List Int16 := []
  half : Option UInt8 := none
  zero : Int := 0
  /-- The frames made since the latest pull or stop. -/
  made : List Frame := []
  /-- How many were made before. -/
  earlier : Nat := 0

namespace Tape

/-- Counts the frames made so far among the earlier ones. -/
def clear (t : Tape) : Tape :=
  { t with made := [], earlier := t.earlier + t.made.length }

variable (analyse : List Int → Spectrum.Analysis) (s : AnalysisSettings)

/-- Takes samples, with the byte that is left over behind them. -/
def take (t : Tape) (decoded : List Int16 × Option UInt8) : Tape :=
  let cs := chunks s.frameSize.toNat (t.begun ++ decoded.1)
  { t with
    begun := leftOver s.frameSize.toNat (t.begun ++ decoded.1)
    half := decoded.2
    zero := zeroAfter s t.zero cs
    made := t.made ++ framesOf analyse s t.zero cs }

def call (t : Tape) : Call → Tape
  | .start => { t with recording := true }
  | .stop => { t.clear with recording := false, begun := [], half := none }
  | .process samples => if t.recording then t.take analyse s (samples, t.half) else t
  | .processBytes bytes =>
    if t.recording then t.take analyse s (samplesOfBytes (t.half.toList ++ bytes)) else t
  | .pull => t.clear

end Tape

/-- Whether a framer has a tape in its state, and the newest of the frames in its queue. -/
structure Follows (analyse : List Int → Spectrum.Analysis) (s : AnalysisSettings) (f : Framer)
    (t : Tape) : Prop where
  filled : Filled s f t.begun
  analyse : f.analyse = analyse
  recording : f.recording = t.recording
  half : f.halfSample = t.half
  zero : f.offset = t.zero
  pending : f.pending.toList = t.made.rtake s.pendingCapacity.toNat
  produced : f.produced = t.earlier + t.made.length

/-- Whether an outcome accounts for the frames of a framer that becomes another one. -/
structure Accounts (f : Framer) (o : Outcome) (g : Framer) : Prop where
  completed : g.produced = f.produced + o.completed
  balance : o.pulled.length + g.dropped + o.discarded.length + g.pending.size =
    f.dropped + f.pending.size + o.completed

variable {analyse : List Int → Spectrum.Analysis} {s : AnalysisSettings} {f g : Framer} {t : Tape}

theorem Accounts.refl (f : Framer) : Accounts f {} f := by
  refine ⟨rfl, ?_⟩
  simp

theorem Accounts.trans {o o' : Outcome} {g' : Framer} (h : Accounts f o g) (h' : Accounts g o' g') :
    Accounts f (o.append o') g' := by
  obtain ⟨hcompleted, hbalance⟩ := h
  obtain ⟨hcompleted', hbalance'⟩ := h'
  constructor
  · rw [hcompleted', hcompleted, Outcome.append, Nat.add_assoc]
  · simp only [Outcome.append, List.length_append]
    omega

theorem Follows.of_create (h : create s = .ok f) : Follows analyse s { f with analyse } {} := by
  obtain ⟨hfilled, rfl⟩ := Filled.of_create h
  exact ⟨hfilled.with_analyse analyse, rfl, rfl, rfl, rfl, (rtake_of_length_le (Nat.zero_le _)).symm, rfl⟩

theorem Follows.processDecoded (h : Follows analyse s f t) (hr : f.recording = true)
    (decoded : List Int16 × Option UInt8) :
    Follows analyse s (f.processDecoded decoded).1 (t.take analyse s decoded) ∧
      Accounts f { completed := (f.processDecoded decoded).2 } (f.processDecoded decoded).1 := by
  have htakes := Takes.foldl_accept h.filled decoded.1
  have hsize := htakes.size_pending
  obtain ⟨hfilled, hoffset, hpending, -, hproduced, hdropped, hanalyse, hrecording⟩ := htakes
  have hcompleted : (decoded.1.foldl accept f).produced - f.produced =
      (chunks s.frameSize.toNat (t.begun ++ decoded.1)).length := by omega
  rw [processDecoded_eq, process_of_recording hr, hcompleted]
  constructor
  · constructor
    · exact hfilled.halfSample
    · exact hanalyse.trans h.analyse
    · exact hrecording.trans h.recording
    · rfl
    · exact hoffset.trans (congrArg (zeroAfter s · _) h.zero)
    · rw [h.zero, h.pending, h.analyse, rtake_rtake_append] at hpending
      exact hpending
    · refine hproduced.trans ?_
      rw [h.produced, Tape.take, List.length_append, length_framesOf, Nat.add_assoc]
  · constructor
    · exact hproduced
    · dsimp only
      rw [List.length_nil, hdropped, hsize]
      omega

theorem Follows.call (h : Follows analyse s f t) (c : Call) :
    Follows analyse s (f.call c).1 (t.call analyse s c) ∧ Accounts f (f.call c).2 (f.call c).1 := by
  have hrecording := h.recording
  have hempty : ([] : List Frame) = List.rtake [] s.pendingCapacity.toNat :=
    (rtake_of_length_le (Nat.zero_le _)).symm
  cases c with
  | start =>
    exact ⟨⟨h.filled.start, h.analyse, rfl, h.half, h.zero, h.pending, h.produced⟩, rfl,
      (Accounts.refl f).balance⟩
  | stop =>
    refine ⟨⟨h.filled.stop, h.analyse, rfl, rfl, h.zero, hempty, h.produced⟩, rfl, ?_⟩
    simp [Framer.call, Framer.stop]
  | process samples =>
    cases hr : f.recording with
    | false =>
      rw [Tape.call, ← hrecording, hr, if_neg nofun, Framer.call, process_of_stopped hr]
      exact ⟨h, .refl f⟩
    | true =>
      have hprocess : f.process samples = f.processDecoded (samples, t.half) := by
        rw [← h.half]
        rfl
      rw [Tape.call, ← hrecording, hr, if_pos rfl, Framer.call, hprocess]
      exact h.processDecoded hr _
  | processBytes bytes =>
    cases hr : f.recording with
    | false =>
      rw [Tape.call, ← hrecording, hr, if_neg nofun, Framer.call, processBytes_of_stopped hr]
      exact ⟨h, .refl f⟩
    | true =>
      rw [Tape.call, ← hrecording, hr, if_pos rfl, Framer.call, processBytes_eq hr, h.half]
      exact h.processDecoded hr _
  | pull =>
    refine ⟨⟨h.filled.pull, h.analyse, h.recording, h.half, h.zero, hempty, h.produced⟩, rfl, ?_⟩
    simp [Framer.call, Framer.pull, Nat.add_comm]

theorem Follows.run (h : Follows analyse s f t) (cs : List Call) :
    Follows analyse s (f.run cs).1 (cs.foldl (Tape.call analyse s) t) ∧
      Accounts f (f.run cs).2 (f.run cs).1 := by
  induction cs generalizing f t with
  | nil => exact ⟨h, .refl f⟩
  | cons c cs ih =>
    obtain ⟨hcall, haccounts⟩ := h.call c
    obtain ⟨hrun, haccounts'⟩ := ih hcall
    exact ⟨hrun, haccounts.trans haccounts'⟩

/-- Whatever calls are made and whatever is found in a frame, no more frames wait than there is room for,
and these are the newest of those made since the latest pull or stop. Of all frames each was completed
in one call and was pulled, dropped or discarded, or waits. -/
theorem run_accounted (hf : create s = .ok f) (analyse : List Int → Spectrum.Analysis)
    (cs : List Call) :
    let g := ({ f with analyse }.run cs).1
    let o := ({ f with analyse }.run cs).2
    let t := cs.foldl (Tape.call analyse s) {}
    g.pending.size ≤ s.pendingCapacity.toNat ∧
      g.pending.toList = t.made.rtake s.pendingCapacity.toNat ∧
      g.produced = t.earlier + t.made.length ∧
      g.produced = o.pulled.length + g.dropped + o.discarded.length + g.pending.size ∧
      o.completed = g.produced := by
  intro g o t
  have hcreated : Follows analyse s { f with analyse } {} := .of_create hf
  obtain ⟨hg, hcompleted, hbalance⟩ := hcreated.run cs
  obtain ⟨-, rfl⟩ := Filled.of_create hf
  have hsum : g.produced = o.completed := hcompleted.trans (Nat.zero_add _)
  have hall : _ = o.completed := hbalance.trans (Nat.zero_add _)
  exact ⟨hg.filled.room, hg.pending, hg.produced, hsum.trans hall.symm, hsum.symm⟩

/-- A queue for two frames overruns in three calls; between them frames are pulled and discarded, and a
sample is cut. -/
theorem run_accounted_of_ten :
    let s : AnalysisSettings := { frameSize := 4, divisor := 1, pendingCapacity := 2 }
    let f : Framer := { settings := s }
    let cs : List Call :=
      [.start, .processBytes [1, 0, 2, 0, 4, 0, 8, 0, 16, 0, 32, 0, 64],
        .process [100, 200, 300, 400, 500, 600, 700, 800], .pull,
        .processBytes (List.replicate 31 7), .stop, .start,
        .process [10, 20, 40, 80, 40, 50, 70, 110, 75, 80, 90, 95, 5]]
    let g := ({ f with analyse := shown }.run cs).1
    let o := ({ f with analyse := shown }.run cs).2
    let t := cs.foldl (Tape.call shown s) {}
    create s = .ok f ∧ t.made.length = 3 ∧ g.pending.toList = t.made.rtake 2 ∧
      t.made.rtake 2 = [.ofList [3, 13, 33], .ofList [8, 13, 23]] ∧ o.completed = 10 ∧
      o.pulled.length = 2 ∧ g.dropped = 4 ∧ o.discarded.length = 2 ∧ g.pending.size = 2 := by
  intro s f cs
  have hs : s.validate = .ok () := by decide +kernel
  have hf : create s = .ok f := by
    rw [create, hs]
    rfl
  have hroom : s.pendingCapacity.toNat = 2 := by decide
  obtain ⟨-, hpending, -, hbalance, hcompleted⟩ := run_accounted hf shown cs
  rw [hroom] at hpending
  have hpulled : ({ f with analyse := shown }.run cs).2.pulled.length = 2 := by decide +kernel
  have hdropped : ({ f with analyse := shown }.run cs).1.dropped = 4 := by decide +kernel
  have hdiscarded : ({ f with analyse := shown }.run cs).2.discarded.length = 2 := by decide +kernel
  have hwait : ({ f with analyse := shown }.run cs).1.pending.size = 2 := by decide +kernel
  refine ⟨hf, by decide +kernel, hpending, by decide +kernel, ?_, hpulled, hdropped, hdiscarded, hwait⟩
  rw [hcompleted, hbalance, hpulled, hdropped, hdiscarded, hwait]

end ToneWatch.Framer
