import Mathlib
import ToneWatch.Sound.Watcher
import ToneWatch.Proofs.Feed
import ToneWatch.Proofs.Session.Delivery

namespace ToneWatch

namespace Session

variable {σ ε : Type} [Consumer σ ε]

/-- A session that listens in on its consumer. -/
def overheard (s : Session σ) : Session (Overheard σ) :=
  { recording := s.recording, framer := s.framer, consumer := ⟨s.consumer⟩, blocks := s.blocks }

/-- The frames that a run hands to the consumer. -/
def handed (s : Session σ) : List Frame := s.overheard.run.2.flatten

/-- What holds of a session that has ended, and before a step if it holds after it, holds of every
session. -/
theorem step_induction {motive : Session σ → Prop} (ended : ∀ s t, s.step = (t, none) → motive s)
    (goes : ∀ s t es, s.step = (t, some es) → motive t → motive s) (s : Session σ) : motive s := by
  induction hn : s.recording.rest.length using Nat.strong_induction_on generalizing s with
  | h n ih =>
    rcases hs : s.step with ⟨t, _ | es⟩
    · exact ended s t hs
    · have hlt := length_rest_of_step hs
      rw [hn] at hlt
      exact goes s t es hs (ih _ hlt t rfl)

theorem run_of_none {s t : Session σ} (h : s.step = (t, none)) : s.run.2 = [] := by
  rw [run, runFrom_of_none h]
  rfl

theorem runFrom_eq_run (s : Session σ) (latest : List ε) :
    (s.runFrom latest).2 = latest.reverse ++ s.run.2 := by
  induction s using step_induction generalizing latest with
  | ended s t h => rw [runFrom_of_none h, run_of_none h, List.append_nil]
  | goes s t es h ih =>
    rw [run, runFrom_of_some h, runFrom_of_some h, ih, ih (es.reverse ++ [])]
    simp

theorem run_of_some {s t : Session σ} {es : List ε} (h : s.step = (t, some es)) :
    s.run.2 = es ++ t.run.2 := by
  rw [run, runFrom_of_some h, runFrom_eq_run]
  simp

variable {P : σ → Prop} {step : σ → Frame → σ × Option ε}

theorem take_overheard (s : Session (Overheard σ)) (block : List Int16)
    (hconsume : ∀ frames, Consumer.consume s.consumer.consumer frames =
      feed step s.consumer.consumer frames) :
    ((s.bare.take block).1.consumer, (s.bare.take block).2) =
      feed step s.consumer.consumer (s.take block).2.flatten := by
  unfold take
  by_cases h : (s.framer.process block).2 = 0
  · simp [bare, h]
  · simp [bare, h, hconsume, Consumer.consume]

/-- In a step the consumer takes the frames that it is called with, and the step gives its reports. -/
theorem step_overheard {s t : Session (Overheard σ)} {calls : List (List Frame)}
    (h : s.step = (t, some calls))
    (hconsume : ∀ frames, Consumer.consume s.consumer.consumer frames =
      feed step s.consumer.consumer frames) :
    s.bare.step = (t.bare, some (feed step s.consumer.consumer calls.flatten).2) ∧
      t.consumer.consumer = (feed step s.consumer.consumer calls.flatten).1 := by
  cases hp : s.recording.pull? with
  | none =>
    rw [step_of_none hp] at h
    cases h
  | some p =>
    obtain ⟨block, r⟩ := p
    rw [step_of_some hp] at h
    cases h
    have hsync : s.sync.consumer.consumer = s.consumer.consumer := by rw [consumer_sync]
    rw [← hsync] at hconsume ⊢
    have hbare := take_bare { s.sync with recording := r } block
    obtain ⟨hnext, hevents⟩ :=
      Prod.mk.inj (take_overheard { s.sync with recording := r } block hconsume)
    rw [hbare] at hnext
    refine ⟨?_, hnext⟩
    rw [step_of_some (s := s.bare) hp, sync_bare, ← hevents, ← hbare]
    rfl

/-- A consumer that takes frames one at a time reports on them as if they came in one piece. -/
theorem run_overheard (hconsume : ∀ c frames, P c → Consumer.consume c frames = feed step c frames)
    (hkeep : ∀ c f, P c → P (step c f).1) (s : Session (Overheard σ))
    (hc : P s.consumer.consumer) :
    s.bare.run.2 = (feed step s.consumer.consumer s.run.2.flatten).2 := by
  induction s using step_induction with
  | ended s t h =>
    have hbare : s.bare.step = (s.bare.step.1, none) := by
      have hnone := (step_bare s).2
      rw [h, Option.isSome_none, Option.isSome_eq_false_iff, Option.isNone_iff_eq_none] at hnone
      rw [← hnone]
    rw [run_of_none h, run_of_none hbare]
    rfl
  | goes s t calls h ih =>
    obtain ⟨hbare, hnext⟩ := step_overheard h fun frames => hconsume _ frames hc
    have hkept := feed_invariant step P hkeep s.consumer.consumer hc calls.flatten
    rw [← hnext] at hkept
    rw [run_of_some h, run_of_some hbare, ih hkept, hnext, List.flatten_append, feed_append]

theorem run_eq_feed (hconsume : ∀ c frames, P c → Consumer.consume c frames = feed step c frames)
    (hkeep : ∀ c f, P c → P (step c f).1) (s : Session σ) (hc : P s.consumer) :
    s.run.2 = (feed step s.consumer s.handed).2 :=
  run_overheard hconsume hkeep s.overheard hc

end Session

theorem Sound.Watcher.consume_eq_feed (w : Watcher) (frames : List Frame) (hw : w.analysing = true) :
    Consumer.consume w frames = feed Watcher.process w frames :=
  if_pos hw

theorem Sound.Watcher.isAnalysing_consume (w : Watcher) (frames : List Frame)
    (hw : w.analysing = true) : (Consumer.consume w frames).1.analysing = true := by
  rw [consume_eq_feed w frames hw]
  exact feed_invariant process (fun w => w.analysing = true) (fun _ _ h => h) w hw frames

end ToneWatch
