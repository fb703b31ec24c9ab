import Mathlib
import ToneWatch.Proofs.Morse.Edges
import ToneWatch.Proofs.Morse.Reception

namespace ToneWatch.Morse

/-- A tone and the silence after it, in frames. -/
structure Keystroke where
  tone : Nat
  silence : Nat
  deriving DecidableEq

namespace Keystroke

def states (k : Keystroke) : List Bool :=
  List.replicate k.tone true ++ List.replicate k.silence false

def Lasts (unit : Nat) (k : Keystroke) : Prop := unit ≤ k.tone ∧ unit ≤ k.silence

instance (unit : Nat) (k : Keystroke) : Decidable (k.Lasts unit) :=
  inferInstanceAs (Decidable (_ ∧ _))

def mark (t : Timing) (k : Keystroke) : Symbol :=
  .mark (if t.nearest k.tone ≤ 2 then .dot else .dash)

/-- What a silence gives, by what follows it. The last one must be two units longer than nine to be
noticed. -/
def gap (t : Timing) (silence : Nat) : List Keystroke → List Symbol
  | [] => if 11 * t.unit ≤ silence then [.endOfTransmission] else []
  | _ :: _ => (spacing? (t.nearest silence)).toList

/-- What keystrokes are read as. -/
def reading (t : Timing) : List Keystroke → List Symbol
  | [] => []
  | k :: ks => k.mark t :: (gap t k.silence ks ++ reading t ks)

theorem markOf_nearest (t : Timing) (k : Keystroke) :
    Symbol.mark (markOf (t.nearest k.tone)) = k.mark t := by
  unfold markOf mark
  split_ifs <;> first | rfl | omega

theorem head_reading (t : Timing) (ks : List Keystroke) :
    ∀ s ∈ (reading t ks).head?, s.isMark = true := by
  cases ks with
  | nil => simp [reading]
  | cons k ks => simp [reading, mark, Symbol.isMark]

end Keystroke

theorem replicate_split {unit n : Nat} (h : unit ≤ n) (b : Bool) :
    List.replicate n b = List.replicate unit b ++ List.replicate (n - unit) b := by
  rw [← List.replicate_add, Nat.add_sub_cancel' h]

theorem Timing.on_le_unit {t : Timing} (ho : 0 < t.off) :
    t.on ≤ (List.replicate t.unit true).countP id := by
  unfold Timing.off at ho
  simp [List.countP_replicate]
  omega

namespace RunTimer

open Keystroke

variable {t : Timing}

theorem feed_tone (hu : 0 < t.unit) (ho : 0 < t.off) {n : Nat} (hn : t.unit ≤ n) :
    feed step (sounding t [])
        (List.replicate (n - t.unit) true ++ List.replicate t.unit false) =
      (waiting t 1 [], [.mark (markOf (t.nearest n))]) := by
  obtain ⟨hf, hq⟩ := Timing.falls_tone hu ho (List.replicate (n - t.unit) true) (by
    intro i hi
    left
    rw [List.getElem?_replicate, if_pos (by simpa using hi)])
  have hlen : (List.replicate (n - t.unit) true ++ List.replicate t.unit false).length = n := by
    simp
    omega
  rw [feed_fall hu _ hf hq, hlen]

/-- Once a tone has risen, it and all that follows are read by the law. -/
theorem feed_keystrokes (hu : 0 < t.unit) (ho : 0 < t.off) (k : Keystroke) (ks : List Keystroke)
    (hk : ∀ l ∈ k :: ks, l.Lasts t.unit) :
    (feed step (sounding t []) (List.replicate (k.tone - t.unit) true ++
      (List.replicate k.silence false ++ ks.flatMap states))).2 = reading t (k :: ks) := by
  induction ks generalizing k with
  | nil =>
    obtain ⟨hn, hm⟩ := hk k (by simp)
    have hs := replicate_split hm false
    rw [List.flatMap_nil, List.append_nil, hs, ← List.append_assoc, feed_append, feed_tone hu ho hn,
      feed_only_silence hu (le_refl 1), markOf_nearest]
    simp only [reading, gap, List.append_nil, List.singleton_append, Timing.endAfter, endUnits]
    exact congrArg _ (if_congr (by omega) rfl rfl)
  | cons l ks ih =>
    obtain ⟨hn, hm⟩ := hk k (by simp)
    obtain ⟨hl, -⟩ := hk l (by simp)
    have hs := replicate_split hm false
    have hr := replicate_split hl true
    have hsil := feed_silence hu (k.silence - t.unit) (List.replicate t.unit true) (by simp)
      (by simp [hu]) (Timing.on_le_unit ho)
    have hsplit : List.replicate (k.tone - t.unit) true ++
        (List.replicate k.silence false ++ (l :: ks).flatMap states) =
        (List.replicate (k.tone - t.unit) true ++ List.replicate t.unit false) ++
        ((List.replicate (k.silence - t.unit) false ++ List.replicate t.unit true) ++
        (List.replicate (l.tone - t.unit) true ++
          (List.replicate l.silence false ++ ks.flatMap states))) := by
      rw [hs, List.flatMap_cons, states, hr]
      simp only [List.append_assoc]
    rw [hsplit, feed_append, feed_tone hu ho hn, feed_append, hsil,
      ih l fun x hx => hk x (List.mem_cons_of_mem _ hx), Nat.sub_add_cancel hm, markOf_nearest]
    rfl

end RunTimer

namespace Receiver

open Keystroke

/-- After any first silence, what a receiver reads of tones and silences is settled by the nearest
units of each. -/
theorem process_keystrokes {m : MorseSettings} {a : AnalysisSettings} {r : Receiver}
    (hr : create m a = .ok r) (ho : 1 ≤ r.timer.timing.off) (quiet : Nat) (ks : List Keystroke)
    (hk : ∀ k ∈ ks, k.Lasts r.timer.timing.unit)
    (hl : (reading r.timer.timing ks).length ≤ Outbox.maxMessage) (frames : List Frame)
    (hf : frames.map r.hears = List.replicate quiet false ++ ks.flatMap states) :
    (feed process r.start frames).2 = reading r.timer.timing ks := by
  have hu := (unit_pos hr).1
  rw [feed_start hr, hf, RunTimer.ofTiming_eq_waiting hu]
  generalize r.timer.timing = t at *
  cases ks with
  | nil =>
    rw [List.flatMap_nil, List.append_nil, RunTimer.feed_only_silence hu (Nat.zero_le 1),
      Outbox.feed_offer_of_empty {} rfl _ fun s hs => isMark_end hs]
    rfl
  | cons k ks =>
    obtain ⟨hn, -⟩ := hk k (by simp)
    obtain ⟨lead, hlead, hmark⟩ := RunTimer.feed_first_silence hu quiet
      (List.replicate t.unit true) (by simp) (by simp [hu]) (Timing.on_le_unit ho)
    have hsplit : List.replicate quiet false ++ (k :: ks).flatMap states =
        (List.replicate quiet false ++ List.replicate t.unit true) ++
        (List.replicate (k.tone - t.unit) true ++
          (List.replicate k.silence false ++ ks.flatMap states)) := by
      rw [List.flatMap_cons, states, replicate_split hn true]
      simp only [List.append_assoc]
    rw [hsplit, feed_append, hlead, RunTimer.feed_keystrokes hu ho k ks hk,
      Outbox.feed_offer_message {} rfl lead _ hmark (head_reading t _) hl]

theorem process_keystrokes_default :
    ∃ r, create {} .forMorse = .ok r ∧
      (feed process r.start
        (List.replicate 5 Frame.silent ++
          (List.replicate 22 (Frame.ofList [1950]) ++ List.replicate 13 Frame.silent ++
          (List.replicate 23 (Frame.ofList [1950]) ++ List.replicate 95 Frame.silent ++
          (List.replicate 9 (Frame.ofList [1950]) ++ List.replicate 99 Frame.silent))))).2 =
        [.mark .dot, .mark .dash, .endOfTransmission, .mark .dot, .endOfTransmission] := by
  refine ⟨_, create_default, ?_⟩
  rw [process_keystrokes create_default (by decide) 5 [⟨22, 13⟩, ⟨23, 95⟩, ⟨9, 99⟩] (by decide)
    (by decide)]
  · decide
  · simp only [List.map_append, List.map_replicate, hears_default, List.flatMap_cons, states,
      List.flatMap_nil, List.append_nil]

end Receiver

end ToneWatch.Morse
