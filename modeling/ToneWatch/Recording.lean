import ToneWatch.Wav

namespace ToneWatch

/-- Samples that are replayed in blocks, of which only the last one may be short. -/
structure Recording where
  samples : List Int16
  rate : UInt32
  block : Nat
  /-- What is still to be replayed. -/
  rest : List Int16

namespace Recording

/-- A recording at its start; a block is at least one sample. -/
def ofSamples (samples : List Int16) (rate : UInt32) (block : Nat) : Recording :=
  { samples, rate, block := max block 1, rest := samples }

/-- The recording in a WAV file, mixed down to mono. -/
def ofWav? (file : Option (List UInt8)) (block : Nat) : Option Recording := do
  let (samples, rate) ← Wav.decode? (← file)
  return ofSamples samples rate block

def rewind (r : Recording) : Recording :=
  { r with rest := r.samples }

/-- The next block, if anything is left. -/
def pull? (r : Recording) : Option (List Int16 × Recording) :=
  match r.rest with
  | [] => none
  | _ :: _ => some (r.rest.take (max r.block 1), { r with rest := r.rest.drop (max r.block 1) })

theorem length_rest_of_pull? {r s : Recording} {b : List Int16} (h : r.pull? = some (b, s)) :
    s.rest.length < r.rest.length := by
  unfold pull? at h
  split at h
  · simp at h
  · next x xs hx =>
    simp only [Option.some.injEq, Prod.mk.injEq] at h
    rw [← h.2, hx]
    simp only [List.length_drop, List.length_cons]
    omega

end Recording

end ToneWatch
