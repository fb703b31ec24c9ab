import ToneWatch.Consumer
import ToneWatch.Framer
import ToneWatch.Recording

namespace ToneWatch

/-- A recording is cut into frames, a block at a time, and a consumer is fed with the frames that each
block completes. The framer records only while the consumer wants frames. -/
structure Session (σ : Type) where
  recording : Recording
  framer : Framer
  consumer : σ
  blocks : Nat := 0

namespace Session

variable {σ ε : Type} [Consumer σ ε]

/-- Starts or stops the framer as the consumer wants frames or not. -/
def sync (s : Session σ) : Session σ :=
  match Consumer.isAnalysing s.consumer, s.framer.recording with
  | true, false => { s with framer := s.framer.start }
  | false, true => { s with framer := s.framer.stop }
  | _, _ => s

/-- Takes a block of samples and gives the events of the frames that it completes. -/
def take (s : Session σ) (block : List Int16) : Session σ × List ε :=
  let (framer, completed) := s.framer.process block
  let s := { s with framer, blocks := s.blocks + 1 }
  if completed = 0 then (s, [])
  else
    let (framer, frames) := s.framer.pull
    let (consumer, events) := Consumer.consume s.consumer frames
    ({ s with framer, consumer }, events)

/-- Takes the next block of the recording; without one there are no events. -/
def step (s : Session σ) : Session σ × Option (List ε) :=
  let s := s.sync
  match s.recording.pull? with
  | none => (s, none)
  | some (block, recording) =>
    let (s, events) := { s with recording }.take block
    (s, some events)

@[simp] theorem recording_sync (s : Session σ) : s.sync.recording = s.recording := by
  unfold sync
  split <;> rfl

@[simp] theorem recording_take (s : Session σ) (block : List Int16) :
    (s.take block).1.recording = s.recording := by
  unfold take
  simp only
  split <;> rfl

theorem length_rest_of_step {s t : Session σ} {es : List ε} (h : s.step = (t, some es)) :
    t.recording.rest.length < s.recording.rest.length := by
  unfold step at h
  simp only [recording_sync] at h
  split at h
  · simp at h
  · next b r hr =>
    have ht : t.recording = r := by
      rw [← (Prod.mk.inj h).1, recording_take]
    rw [ht]
    exact Recording.length_rest_of_pull? hr

/-- Steps to the end of the recording; the events so far are given latest first. -/
def runFrom (s : Session σ) (latest : List ε) : Session σ × List ε :=
  match _h : s.step with
  | (t, none) => (t, latest.reverse)
  | (t, some es) => runFrom t (es.reverse ++ latest)
termination_by s.recording.rest.length
decreasing_by exact length_rest_of_step _h

def run (s : Session σ) : Session σ × List ε :=
  s.runFrom []

end Session

end ToneWatch
