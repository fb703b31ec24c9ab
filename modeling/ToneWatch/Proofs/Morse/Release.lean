import Mathlib
import ToneWatch.Proofs.Morse.Resync
import ToneWatch.Proofs.Numeric.Rounding

namespace ToneWatch.Morse

namespace Timing

variable {m : MorseSettings} {a : AnalysisSettings}

theorem on_eq_of_full (hr : m.trueRate.toRat = 1) (hu : m.timeUnit a ≤ 500) :
    (ofSettings m a).on = m.timeUnit a := by
  have hround : Precision.single.round (m.timeUnit a * m.trueRate.toRat) = m.timeUnit a := by
    rw [hr, mul_one]
    exact Precision.round_natCast (by decide) (by decide) (hu.trans (by decide))
  change (truncate (Precision.single.round (m.timeUnit a * m.trueRate.toRat))).toNat = _
  rw [hround, truncate_natCast, Int.toNat_natCast]

theorem on_lt_of_part (h0 : 0 < m.timeUnit a) (hpos : 0 < m.trueRate.toRat)
    (hr : m.trueRate.toRat < 1) : (ofSettings m a).on < m.timeUnit a := by
  have hlt := truncate_lt h0 (Single.round_mul_lt h0 hpos hr)
  change (truncate (Precision.single.round (m.timeUnit a * m.trueRate.toRat))).toNat < _
  omega

end Timing

namespace RunTimer

variable {t : Timing}

/-- The timers that any observations lead to, each with the log of its stretch. -/
inductive Timed (t : Timing) : List Bool → RunTimer → Prop
  | waiting {counted : Nat} (hc : counted ≤ 1) (log : List Bool) : Timed t log (waiting t counted log)
  | sounding (log : List Bool) : Timed t log (sounding t log)

theorem Timed.seen {log : List Bool} {timer : RunTimer} (h : Timed t log timer) :
    timer.timing = t ∧ timer.recent = historyOf t log := by
  cases h <;> exact ⟨rfl, rfl⟩

theorem Timed.step (hu : 0 < t.unit) {log : List Bool} {timer : RunTimer} (h : Timed t log timer)
    (b : Bool) :
    Timed t (if (timer.step b).1.isSynchronised = timer.isSynchronised then b :: log else [])
      (timer.step b).1 := by
  cases h with
  | waiting hc log =>
    rw [step_waiting hu hc]
    split
    · exact .sounding []
    · exact .waiting hc (b :: log)
  | sounding log =>
    rw [step_sounding hu]
    split
    · exact .waiting le_rfl []
    · exact .sounding (b :: log)

theorem Timed.reset (hu : 0 < t.unit) {log : List Bool} {timer : RunTimer} (h : Timed t log timer) :
    Timed t [] timer.reset := by
  have hr : timer.reset = RunTimer.waiting t 0 [] := by
    cases h with
    | waiting hc log => exact reset_stretch hu log _
    | sounding log => exact reset_stretch hu log _
  rw [hr]
  exact .waiting (Nat.zero_le 1) []

theorem Timed.fading (hu : 0 < t.unit) {log : List Bool} {timer : RunTimer} (h : Timed t log timer) :
    Fading t 0 timer := by
  cases h with
  | waiting hc log => exact .still hc log
  | sounding log => exact .rose 0 log hu (by omega)

/-- Two units are one for a late rise and one for the fall after it. -/
theorem Fading.released {timer : RunTimer} (h : Fading t (2 * t.unit) timer) :
    timer.isSynchronised = false := by
  cases h with
  | still hc log => rfl
  | rose k log hk hn => omega
  | fell k hn => rfl

/-- A timer that calls no unit off holds a tone once it has risen. -/
theorem held_of_off (hu : 0 < t.unit) (ho : t.off = 0) (hon : t.on ≤ t.unit) (n : Nat) :
    (feed step (waiting t 0 [])
      (List.replicate t.unit true ++ List.replicate n false)).1.isSynchronised = true := by
  have hfirst : t.on ≤ (List.replicate t.unit true).countP id := by
    simpa [List.countP_replicate] using hon
  obtain ⟨lead, hrise, -⟩ := feed_first_silence hu 0 (List.replicate t.unit true) (by simp)
    (by simp [hu]) hfirst
  have hnever : ∀ i < (List.replicate n false).length,
      ¬ t.Falls (((List.replicate n false).take (i + 1)).reverse ++ []) := by
    intro i hi h
    have hlt := h.2.1
    omega
  rw [List.replicate_zero, List.nil_append] at hrise
  rw [feed_append, hrise, feed_sounding hu [] _ hnever]
  rfl

end RunTimer

namespace Receiver

/-- What can be done to a receiver. -/
inductive Event where
  | start
  | stop
  | pull
  | frame (f : Frame)

def react (r : Receiver) : Event → Receiver
  | .start => r.start
  | .stop => r.stop
  | .pull => r.pull.1
  | .frame f => (r.process f).1

def after (r : Receiver) (history : List Event) : Receiver :=
  history.foldl react r

variable {m : MorseSettings} {a : AnalysisSettings} {r : Receiver}

theorem after_append (r : Receiver) (history later : List Event) :
    r.after (history ++ later) = (r.after history).after later := List.foldl_append

theorem after_frames (r : Receiver) (frames : List Frame) :
    r.after (frames.map .frame) = (feed process r frames).1 := by
  induction frames generalizing r with
  | nil => rfl
  | cons f frames ih => exact ih _

theorem settings_react (r : Receiver) (e : Event) : (r.react e).settings = r.settings := by
  cases e with
  | frame f =>
    simp only [react, process]
    split
    · exact (settings_observe r _).1
    · rfl
  | _ => rfl

theorem timer_observe (r : Receiver) (tone : Bool) :
    (r.observe tone).1.timer = (r.timer.step tone).1 := by
  rw [observe_eq]
  cases (r.timer.step tone).2 <;> rfl

/-- What resetting a timer and observing frames keep holds after any history. -/
theorem timer_after {P : RunTimer → Prop} (hreset : ∀ timer, P timer → P timer.reset)
    (hstep : ∀ timer f, P timer → P (timer.step (r.hears f)).1) (hr : P r.timer)
    (history : List Event) :
    (r.after history).settings = r.settings ∧ P (r.after history).timer := by
  induction history generalizing r with
  | nil => exact ⟨rfl, hr⟩
  | cons e history ih =>
    have hs := settings_react r e
    have hp : P (r.react e).timer := by
      cases e with
      | start => exact hr
      | stop => exact hreset _ hr
      | pull => exact hr
      | frame f =>
        simp only [react, process]
        split
        · rw [timer_observe]
          exact hstep _ f hr
        · exact hr
    have hnext : ∀ timer f, P timer → P (timer.step ((r.react e).hears f)).1 := by
      intro timer f ht
      rw [hears_congr hs]
      exact hstep timer f ht
    obtain ⟨hset, hafter⟩ := ih hnext hp
    exact ⟨hset.trans hs, hafter⟩

theorem timer_of_create (hr : create m a = .ok r) : r.timer = .waiting r.timer.timing 0 [] := by
  rw [← RunTimer.ofTiming_eq_waiting (unit_pos hr).1]
  obtain ⟨-, rfl⟩ := create_ok hr
  rfl

theorem timed_of_create (hr : create m a = .ok r) : RunTimer.Timed r.timer.timing [] r.timer := by
  rw [timer_of_create hr]
  exact .waiting (Nat.zero_le 1) []

theorem timer_feed (ha : r.analysing = true) (frames : List Frame) :
    (feed process r frames).1.timer = (feed RunTimer.step r.timer (frames.map r.hears)).1 := by
  rw [feed_process r ha, feed_observe]

theorem rate_of_create (hr : create m a = .ok r) :
    0 < m.trueRate.toRat ∧ m.trueRate.toRat ≤ 1 := by
  obtain ⟨hm, -⟩ := create_ok hr
  unfold MorseSettings.validate at hm
  simp only at hm
  split_ifs at hm with hunit hfreq hrate
  simp only [MorseSettings.isRate, Bool.not_and, Bool.or_eq_true, Bool.not_eq_true', not_or,
    Bool.not_eq_false, decide_eq_true_eq] at hrate
  exact ⟨hrate.1.2, hrate.2⟩

/-- A frame with nothing but the tone is heard, unless nothing is. -/
theorem hears_target (hd : r.settings.detectionThreshold ≠ 0) : r.hears (.ofList [r.target]) = true := by
  have hpos : 0 < min r.settings.detectionThreshold.toNat 0xffff := by
    have hne : r.settings.detectionThreshold.toNat ≠ 0 := fun h => hd (UInt32.toNat_inj.mp h)
    omega
  have hfrequencies : (Frame.ofList [r.target]).frequencies = [r.target] := rfl
  simpa [hears, Frame.isNear, hfrequencies, distance] using hpos

theorem hears_of_deaf (hd : r.settings.detectionThreshold = 0) (f : Frame) : r.hears f = false := by
  simp [hears, Frame.isNear, hd]

theorem released_of_off (hr : create m a = .ok r) (ho : 0 < r.timer.timing.off)
    (history : List Event) (ha : (r.after history).analysing = true) (silence : List Frame)
    (hs : ∀ f ∈ silence, r.hears f = false) (hl : silence.length = 2 * r.timer.timing.unit) :
    (feed process (r.after history) silence).1.timer.isSynchronised = false := by
  have hu := (unit_pos hr).1
  have hfresh := timed_of_create hr
  generalize r.timer.timing = t at *
  obtain ⟨hset, log, htimed⟩ := timer_after (P := fun timer => ∃ log, RunTimer.Timed t log timer)
    (fun _ ⟨_, h⟩ => ⟨_, h.reset hu⟩) (fun _ f ⟨_, h⟩ => ⟨_, h.step hu (r.hears f)⟩) ⟨_, hfresh⟩ history
  have hquiet : silence.map (r.after history).hears = List.replicate (2 * t.unit) false := by
    rw [← hl]
    exact List.map_eq_replicate_iff.mpr fun f hf => (hears_congr hset f).trans (hs f hf)
  rw [timer_feed ha, hquiet]
  exact ((htimed.fading hu).feed hu ho _).released

theorem unsynchronised_of_deaf (hr : create m a = .ok r) (hd : r.settings.detectionThreshold = 0)
    (history : List Event) : (r.after history).timer.isSynchronised = false := by
  have hu := (unit_pos hr).1
  have hfresh := timer_of_create hr
  generalize r.timer.timing = t at *
  have hreset : ∀ timer : RunTimer, (∃ n, timer = .waiting t 0 (List.replicate n false)) →
      ∃ n, timer.reset = .waiting t 0 (List.replicate n false) := by
    rintro _ ⟨n, rfl⟩
    exact ⟨0, RunTimer.reset_stretch hu _ _⟩
  have hstep : ∀ (timer : RunTimer) (f : Frame),
      (∃ n, timer = .waiting t 0 (List.replicate n false)) →
      ∃ n, (timer.step (r.hears f)).1 = .waiting t 0 (List.replicate n false) := by
    rintro _ f ⟨n, rfl⟩
    rw [hears_of_deaf hd, RunTimer.step_waiting hu (Nat.zero_le 1), ← List.replicate_succ,
      if_neg (Timing.not_rises_replicate _)]
    exact ⟨n + 1, rfl⟩
  obtain ⟨-, n, hn⟩ := timer_after hreset hstep ⟨0, hfresh⟩ history
  rw [hn]
  rfl

/-- What holds a receiver of full rate: a unit of the tone. -/
def holding (r : Receiver) : List Event :=
  .start :: (List.replicate r.timer.timing.unit (Frame.ofList [r.target])).map .frame

theorem analysing_after_frames (r : Receiver) (frames : List Frame) :
    (r.after (frames.map .frame)).analysing = r.analysing := by
  induction frames generalizing r with
  | nil => rfl
  | cons f frames ih =>
    refine (ih _).trans ?_
    simp only [react, process]
    split
    · exact (settings_observe r _).2
    · rfl

/-- No silence releases a receiver of full rate that has heard a unit of the tone. -/
theorem held_of_full (hr : create m a = .ok r) (hrate : m.trueRate.toRat = 1)
    (hd : m.detectionThreshold ≠ 0) (n : Nat) :
    (r.after r.holding).analysing = true ∧
      (feed process (r.after r.holding) (List.replicate n .silent)).1.timer.isSynchronised = true := by
  have hu := unit_pos hr
  have hset := (create_ok hr).2
  have hon : r.timer.timing.on = r.timer.timing.unit := by
    rw [hset] at hu ⊢
    exact Timing.on_eq_of_full hrate hu.2
  have htone : r.start.hears (.ofList [r.target]) = true :=
    (hears_congr rfl _).trans (hears_target (by rw [hset]; exact hd))
  have hheard : (List.replicate r.timer.timing.unit (Frame.ofList [r.target]) ++
      List.replicate n Frame.silent).map r.start.hears =
      List.replicate r.timer.timing.unit true ++ List.replicate n false := by
    rw [List.map_append, List.map_replicate, List.map_replicate, htone]
    rfl
  have hafter : r.after r.holding =
      (feed process r.start (List.replicate r.timer.timing.unit (.ofList [r.target]))).1 :=
    after_frames r.start _
  constructor
  · exact analysing_after_frames r.start _
  · have hfeed := feed_append process r.start
      (List.replicate r.timer.timing.unit (Frame.ofList [r.target])) (List.replicate n Frame.silent)
    have htimer : r.start.timer = r.timer := rfl
    rw [hafter, ← congrArg Prod.fst hfeed, timer_feed rfl, hheard, htimer, timer_of_create hr]
    refine RunTimer.held_of_off hu.1 ?_ hon.le n
    rw [Timing.off, hon, Nat.sub_self]

/-- Two units of silence end every tone that a receiver has heard, exactly if its rate is below one
or it hears nothing at all. -/
theorem released_iff (hr : create m a = .ok r) :
    (∀ (history : List Event) (silence : List Frame), (r.after history).analysing = true →
      (∀ f ∈ silence, r.hears f = false) → silence.length = 2 * r.timer.timing.unit →
      (feed process (r.after history) silence).1.timer.isSynchronised = false) ↔
    m.trueRate.toRat < 1 ∨ m.detectionThreshold = 0 := by
  obtain ⟨hpos, hle⟩ := rate_of_create hr
  have hu := unit_pos hr
  have hset := (create_ok hr).2
  constructor
  · intro h
    by_contra hn
    obtain ⟨hrate, hd⟩ := not_or.mp hn
    have hfull : m.trueRate.toRat = 1 := le_antisymm hle (not_lt.mp hrate)
    obtain ⟨ha, hheld⟩ := held_of_full hr hfull hd (2 * r.timer.timing.unit)
    have hrel := h r.holding (List.replicate _ .silent) ha
      (fun f hf => by rw [List.eq_of_mem_replicate hf]; rfl) List.length_replicate
    exact absurd (hheld.symm.trans hrel) (by simp)
  · rintro (hrate | hd) history silence ha hs hl
    · have hon : r.timer.timing.on < r.timer.timing.unit := by
        rw [hset] at hu ⊢
        exact Timing.on_lt_of_part hu.1 hpos hrate
      exact released_of_off hr (Nat.sub_pos_of_lt hon) history ha silence hs hl
    · rw [← after_frames, ← after_append]
      exact unsynchronised_of_deaf hr (by rw [hset]; exact hd) _

/-- Twenty frames of the tone, then two units of silence. -/
theorem released_default :
    ∃ r, create {} .forMorse = .ok r ∧
      let history := Event.start :: (List.replicate 20 (Frame.ofList [1950])).map .frame
      (r.after history).analysing = true ∧
        (feed process (r.after history) (List.replicate 18 .silent)).1.timer.isSynchronised = false := by
  refine ⟨_, create_default, rfl, ?_⟩
  have hrate : ({} : MorseSettings).trueRate.toRat < 1 := by decide +kernel
  refine (released_iff create_default).mpr (.inl hrate) _ _ rfl ?_ rfl
  intro f hf
  rw [List.eq_of_mem_replicate hf]
  rfl

/-- A rate of one is accepted, and then nine frames of the tone are never over. -/
theorem held_at_rate_one :
    ∃ r, create { trueRate := .ofNat 1 } .forMorse = .ok r ∧ r.timer.timing.unit = 9 ∧
      (r.after r.holding).analysing = true ∧ (∀ f ∈ List.replicate 18 Frame.silent, r.hears f = false) ∧
      (feed process (r.after r.holding) (List.replicate 18 .silent)).1.timer.isSynchronised = true := by
  have ha : AnalysisSettings.forMorse.validate = .ok () := rfl
  have hm : MorseSettings.validate { trueRate := .ofNat 1 } .forMorse = .ok () := by decide +kernel
  have ht : Timing.ofSettings { trueRate := .ofNat 1 } .forMorse = ⟨9, 9⟩ := by decide +kernel
  have hr : create { trueRate := .ofNat 1 } .forMorse =
      .ok { settings := { trueRate := .ofNat 1 }, timer := .ofTiming ⟨9, 9⟩ } := by
    unfold create
    rw [ha, hm, ht]
    rfl
  have hrate : (Single.ofNat 1).toRat = 1 := by decide +kernel
  obtain ⟨hanalysing, hheld⟩ := held_of_full hr hrate (by decide) 18
  refine ⟨_, hr, rfl, hanalysing, ?_, hheld⟩
  intro f hf
  rw [List.eq_of_mem_replicate hf]
  rfl

end Receiver

end ToneWatch.Morse
