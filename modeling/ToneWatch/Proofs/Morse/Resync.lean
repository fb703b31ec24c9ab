import Mathlib
import ToneWatch.Proofs.Morse.Edges
import ToneWatch.Proofs.Morse.Reception

namespace ToneWatch.Morse

namespace Timing

variable {t : Timing}

/-- Of a log, edges depend on the newest unit alone. -/
theorem rises_congr (hu : 0 < t.unit) {log old : List Bool} (hl : t.unit ≤ log.length)
    (ho : t.unit ≤ old.length) (h : log.take t.unit = old.take t.unit) :
    t.Rises log ↔ t.Rises old := by
  have hs : log[t.unit - 1]? = old[t.unit - 1]? := by
    have hg := congrArg (fun l => l[t.unit - 1]?) h
    simpa [List.getElem?_take, hu] using hg
  simp only [Rises, hl, ho, h, hs]

theorem not_rises_of_silence (hu : 0 < t.unit) {n : Nat} (hn : t.unit ≤ n) (log : List Bool) :
    ¬ t.Rises (List.replicate n false ++ log) := by
  intro h
  obtain ⟨-, -, hs⟩ := h
  rw [List.getElem?_append_left (by simp; omega), List.getElem?_replicate, if_pos (by omega)] at hs
  cases hs

theorem not_rises_replicate (n : Nat) : ¬ t.Rises (List.replicate n false) := by
  intro h
  obtain ⟨-, -, hs⟩ := h
  rw [List.getElem?_replicate] at hs
  split_ifs at hs
  cases hs

theorem falls_of_silence (hu : 0 < t.unit) (ho : 0 < t.off) (log : List Bool) :
    t.Falls (List.replicate t.unit false ++ log) := by
  refine ⟨by simp, ?_, ?_⟩
  · rw [List.take_left' (by simp), List.countP_replicate]
    simpa using ho
  · rw [List.getElem?_append_left (by simp; omega), List.getElem?_replicate, if_pos (by omega)]

theorem endAfter_le (t : Timing) (counted : Nat) : t.endAfter counted ≤ 11 * t.unit :=
  Nat.mul_le_mul_right _ (by simp only [endUnits]; omega)

theorem le_endAfter {counted : Nat} (hc : counted ≤ 1) : 10 * t.unit ≤ t.endAfter counted :=
  Nat.mul_le_mul_right _ (by simp only [endUnits]; omega)

end Timing

namespace RunTimer

variable {t : Timing}

theorem reset_stretch (hu : 0 < t.unit) (log : List Bool) (phase : Phase) :
    reset { timing := t, recent := historyOf t log, phase } = waiting t 0 [] := by
  have he : ¬ t.endAfter 0 ≤ 0 := by simp [Timing.endAfter, endUnits]; omega
  simp [reset, waiting, historyOf, History.clear, Timing.forgotten, he]

/-- Timers that any observations can lead to, after so many silent ones: there was no edge since, or
there was a rise, which came in the first unit, or there was a fall, which came in the first two. -/
inductive Fading (t : Timing) (n : Nat) : RunTimer → Prop
  | still {counted : Nat} (hc : counted ≤ 1) (log : List Bool) :
      Fading t n (waiting t counted (List.replicate n false ++ log))
  | rose (k : Nat) (log : List Bool) (hk : k < t.unit) (hn : n + 1 ≤ k + t.unit) :
      Fading t n (sounding t (List.replicate k false ++ log))
  | fell (k : Nat) (hn : n + 1 ≤ k + 2 * t.unit) :
      Fading t n (waiting t 1 (List.replicate k false))

theorem Fading.step (hu : 0 < t.unit) (ho : 0 < t.off) {n : Nat} {timer : RunTimer}
    (h : Fading t n timer) : Fading t (n + 1) (timer.step false).1 := by
  cases h with
  | still hc log =>
    rw [step_waiting hu hc, ← List.cons_append, ← List.replicate_succ]
    by_cases hr : t.Rises (List.replicate (n + 1) false ++ log)
    · have hn : ¬ t.unit ≤ n + 1 := fun hn => Timing.not_rises_of_silence hu hn log hr
      rw [if_pos hr]
      exact .rose 0 [] hu (by omega)
    · rw [if_neg hr]
      exact .still hc log
  | rose k log hk hn =>
    rw [step_sounding hu, ← List.cons_append, ← List.replicate_succ]
    by_cases hf : t.Falls (List.replicate (k + 1) false ++ log)
    · rw [if_pos hf]
      exact .fell 0 (by omega)
    · have hne : k + 1 ≠ t.unit := by
        intro he
        rw [he] at hf
        exact hf (Timing.falls_of_silence hu ho log)
      rw [if_neg hf]
      exact .rose (k + 1) log (by omega) (by omega)
  | fell k hn =>
    rw [step_waiting hu (le_refl 1), ← List.replicate_succ, if_neg (Timing.not_rises_replicate _)]
    exact .fell (k + 1) (by omega)

theorem Fading.feed (hu : 0 < t.unit) (ho : 0 < t.off) {timer : RunTimer} (h : Fading t 0 timer)
    (n : Nat) : Fading t n (feed RunTimer.step timer (List.replicate n false)).1 := by
  induction n with
  | zero => exact h
  | succ n ih =>
    rw [List.replicate_succ', feed_concat]
    exact ih.step hu ho

/-- A timer in a silence that has ended the transmission, with the newest unit of it. -/
inductive Spent (t : Timing) (unit : List Bool) : RunTimer → Prop
  | intro {counted : Nat} (hc : counted ≤ 1) (log : List Bool)
      (he : t.endAfter counted ≤ log.length) (hl : log.take t.unit = unit) :
      Spent t unit (waiting t counted log)

def hasEnded (timer : RunTimer) : Bool :=
  match timer.phase with
  | .silence _ ended => ended
  | .tone _ => false

theorem Spent.hasEnded {unit : List Bool} {timer : RunTimer} (h : Spent t unit timer) :
    timer.hasEnded = true := by
  obtain ⟨hc, log, he, rfl⟩ := h
  exact decide_eq_true he

/-- Twelve units are one for a late rise, one for the fall after it and ten for the end. -/
theorem Fading.spent {timer : RunTimer} (h : Fading t (12 * t.unit) timer) :
    Spent t (List.replicate t.unit false) timer := by
  cases h with
  | @still counted hc log =>
    refine .intro hc _ ?_ ?_
    · have he := t.endAfter_le counted
      rw [List.length_append, List.length_replicate]
      omega
    · rw [List.take_append_of_le_length (by simp; omega), List.take_replicate]
      congr 1
      omega
  | rose k log hk hn => omega
  | fell k hn =>
    refine .intro (le_refl 1) _ ?_ ?_
    · rw [Timing.endAfter, endUnits, List.length_replicate]
      omega
    · rw [List.take_replicate]
      congr 1
      omega

/-- After the end of a transmission nothing gives a symbol, and the newest unit decides about a rise. -/
theorem Spent.step (hu : 0 < t.unit) {unit : List Bool} {timer : RunTimer} (h : Spent t unit timer)
    (b : Bool) :
    (timer.step b).2 = none ∧
    (t.Rises (b :: unit) → (timer.step b).1 = sounding t []) ∧
    (¬ t.Rises (b :: unit) → Spent t ((b :: unit).take t.unit) (timer.step b).1) := by
  obtain ⟨hc, log, he, rfl⟩ := h
  rename_i counted
  have hten := Timing.le_endAfter (t := t) hc
  have hunit : (b :: log).take t.unit = (b :: log.take t.unit).take t.unit := by
    obtain ⟨u, hv⟩ : ∃ u, t.unit = u + 1 := ⟨t.unit - 1, by omega⟩
    rw [hv, List.take_succ_cons, List.take_succ_cons, List.take_take, min_eq_left (Nat.le_succ u)]
  have hr : t.Rises (b :: log) ↔ t.Rises (b :: log.take t.unit) := by
    apply Timing.rises_congr hu _ _ hunit
    · rw [List.length_cons]
      omega
    · rw [List.length_cons, List.length_take]
      omega
  rw [step_waiting hu hc, ← hr, ← hunit]
  by_cases hrise : t.Rises (b :: log)
  · rw [if_pos hrise]
    refine ⟨?_, fun _ => rfl, fun hn => absurd hrise hn⟩
    rw [decide_eq_true he]
    apply gap?_true
    have hlen : (11 - counted) * t.unit ≤ log.length := he
    have hn : 11 - counted ≤ t.nearest (log.length + 1) := by
      rw [Timing.nearest, Nat.le_div_iff_mul_le hu]
      omega
    simp only [endUnits]
    omega
  · rw [if_neg hrise]
    refine ⟨if_neg (by omega), fun hn => absurd hn hrise, fun _ => ?_⟩
    exact .intro hc (b :: log) (by rw [List.length_cons]; omega) rfl

end RunTimer

namespace Transcriber

/-- What can be done to a transcriber. -/
inductive Event where
  | start
  | stop
  | frame (f : Frame)

def react (t : Transcriber) : Event → Transcriber
  | .start => t.start
  | .stop => t.stop
  | .frame f => (t.process f).1

def after (t : Transcriber) (history : List Event) : Transcriber :=
  history.foldl react t

/-- The timers that histories lead to. Once a silence has ended the transmission, no symbol waits. -/
inductive Tidy (t : Timing) : RunTimer → List Symbol → Prop
  | waiting {counted : Nat} (hc : counted ≤ 1) (log : List Bool) {symbols : List Symbol}
      (h : t.endAfter counted ≤ log.length → symbols = []) : Tidy t (.waiting t counted log) symbols
  | sounding (log : List Bool) (symbols : List Symbol) : Tidy t (.sounding t log) symbols

variable {t : Timing}

theorem Tidy.fresh (hu : 0 < t.unit) (symbols : List Symbol) :
    Tidy t (.waiting t 0 []) symbols := by
  have h0 := Timing.le_endAfter (t := t) (Nat.zero_le 1)
  refine .waiting (Nat.zero_le 1) [] fun h => ?_
  rw [List.length_nil] at h
  omega

theorem Tidy.reset (hu : 0 < t.unit) {timer : RunTimer} {symbols : List Symbol}
    (h : Tidy t timer symbols) : Tidy t timer.reset symbols := by
  have hr : timer.reset = .waiting t 0 [] := by
    cases h with
    | waiting hc log h => exact RunTimer.reset_stretch hu log _
    | sounding log => exact RunTimer.reset_stretch hu log _
  rw [hr]
  exact .fresh hu symbols

theorem Tidy.fading {timer : RunTimer} {symbols : List Symbol} (hu : 0 < t.unit)
    (h : Tidy t timer symbols) : RunTimer.Fading t 0 timer := by
  cases h with
  | waiting hc log h => exact .still hc log
  | sounding log => exact .rose 0 log hu (by omega)

theorem Tidy.observe (hu : 0 < t.unit) {timer : RunTimer} {o : Outbox} (h : Tidy t timer o.symbols)
    (b : Bool) :
    Tidy t (timer.step b).1 ((timer.step b).2.elim o (fun s => (o.collect s).1)).symbols := by
  generalize hs : o.symbols = symbols at h
  cases h with
  | @waiting counted hc log _ h =>
    rw [RunTimer.step_waiting hu hc]
    by_cases hr : t.Rises (b :: log)
    · rw [if_pos hr]
      exact .sounding [] _
    · rw [if_neg hr]
      refine .waiting hc (b :: log) fun hle => ?_
      by_cases he : log.length + 1 = t.endAfter counted
      · rw [if_pos he]
        exact Outbox.symbols_collect_end o
      · rw [if_neg he]
        rw [List.length_cons] at hle
        exact hs.trans (h (by omega))
  | sounding log =>
    rw [RunTimer.step_sounding hu]
    by_cases hf : t.Falls (b :: log)
    · rw [if_pos hf]
      refine .waiting (le_refl 1) [] fun hle => ?_
      have hten := Timing.le_endAfter (t := t) (le_refl 1)
      rw [List.length_nil] at hle
      omega
    · rw [if_neg hf]
      exact .sounding (b :: log) _

theorem Tidy.symbols_eq_nil {timer : RunTimer} {symbols : List Symbol} (h : Tidy t timer symbols)
    (he : timer.hasEnded = true) : symbols = [] := by
  cases h with
  | waiting hc log h => exact h (of_decide_eq_true he)
  | sounding log => cases he

/-- The settings of a transcriber never change, and it stays tidy. -/
def Kept (m : MorseSettings) (t : Timing) (tr : Transcriber) : Prop :=
  tr.receiver.settings = m ∧ Tidy t tr.receiver.timer tr.receiver.outbox.symbols

theorem Kept.process (hu : 0 < t.unit) {m : MorseSettings} {tr : Transcriber} (h : Kept m t tr)
    (f : Frame) : Kept m t (tr.process f).1 := by
  obtain ⟨hs, ht⟩ := h
  refine ⟨(settings_process tr f).1.trans hs, ?_⟩
  cases ha : tr.isInterpreting with
  | false =>
    rw [process_of_stopped tr ha]
    exact ht
  | true =>
    obtain ⟨htimer, hout, -⟩ := process_parts tr ha f
    rw [htimer, hout]
    exact ht.observe hu _

theorem Kept.react (hu : 0 < t.unit) {m : MorseSettings} {tr : Transcriber} (h : Kept m t tr)
    (e : Event) : Kept m t (tr.react e) := by
  cases e with
  | start => exact h
  | stop => exact ⟨h.1, h.2.reset hu⟩
  | frame f => exact h.process hu f

theorem Kept.after (hu : 0 < t.unit) {m : MorseSettings} {tr : Transcriber} (h : Kept m t tr)
    (history : List Event) : Kept m t (tr.after history) := by
  induction history generalizing tr with
  | nil => exact h
  | cons e history ih => exact ih (h.react hu e)

/-- Transcribers that no frame can tell apart any more. -/
structure Alike (t : Timing) (a b : Transcriber) : Prop where
  settings : a.receiver.settings = b.receiver.settings
  interpreting : a.isInterpreting = true ∧ b.isInterpreting = true
  symbols : a.receiver.outbox.symbols = b.receiver.outbox.symbols
  timers : a.receiver.timer = b.receiver.timer ∨
    ∃ unit, RunTimer.Spent t unit a.receiver.timer ∧ RunTimer.Spent t unit b.receiver.timer

theorem Alike.timers_step (hu : 0 < t.unit) {a b : Transcriber} (h : Alike t a b) (tone : Bool) :
    (a.receiver.timer.step tone).2 = (b.receiver.timer.step tone).2 ∧
    ((a.receiver.timer.step tone).1 = (b.receiver.timer.step tone).1 ∨
      ∃ unit, RunTimer.Spent t unit (a.receiver.timer.step tone).1 ∧
        RunTimer.Spent t unit (b.receiver.timer.step tone).1) := by
  rcases h.timers with he | ⟨unit, ha, hb⟩
  · rw [he]
    exact ⟨rfl, Or.inl rfl⟩
  · obtain ⟨hna, hra, hqa⟩ := ha.step hu tone
    obtain ⟨hnb, hrb, hqb⟩ := hb.step hu tone
    refine ⟨hna.trans hnb.symm, ?_⟩
    by_cases hr : t.Rises (tone :: unit)
    · exact Or.inl ((hra hr).trans (hrb hr).symm)
    · exact Or.inr ⟨_, hqa hr, hqb hr⟩

theorem Alike.process (hu : 0 < t.unit) {a b : Transcriber} (h : Alike t a b) (f : Frame) :
    (a.process f).2 = (b.process f).2 ∧ Alike t (a.process f).1 (b.process f).1 := by
  obtain ⟨hia, hib⟩ := h.interpreting
  obtain ⟨hta, hoa, hra⟩ := process_parts a hia f
  obtain ⟨htb, hob, hrb⟩ := process_parts b hib f
  obtain ⟨hsa, hka⟩ := settings_process a f
  obtain ⟨hsb, hkb⟩ := settings_process b f
  have hh : b.receiver.hears f = a.receiver.hears f := Receiver.hears_congr h.settings.symm f
  rw [hh] at htb hob hrb
  obtain ⟨hstep, htimers⟩ := h.timers_step hu (a.receiver.hears f)
  rw [← hstep] at hob hrb
  refine ⟨?_, hsa.trans (h.settings.trans hsb.symm), ⟨hka.trans hia, hkb.trans hib⟩, ?_, ?_⟩
  · rw [hra, hrb]
    cases (a.receiver.timer.step (a.receiver.hears f)).2 with
    | none => rfl
    | some s => exact (Outbox.collect_congr h.symbols s).1
  · rw [hoa, hob]
    cases (a.receiver.timer.step (a.receiver.hears f)).2 with
    | none => exact h.symbols
    | some s => exact (Outbox.collect_congr h.symbols s).2
  · rw [hta, htb]
    exact htimers

theorem spent_of_silence (hu : 0 < t.unit) (ho : 0 < t.off) {m : MorseSettings} {tr : Transcriber}
    (h : Kept m t tr) (ha : tr.isInterpreting = true) (silence : List Frame)
    (hs : ∀ f ∈ silence, tr.receiver.hears f = false) (hl : silence.length = 12 * t.unit) :
    (feed process tr silence).1.receiver.settings = m ∧
    (feed process tr silence).1.isInterpreting = true ∧
    (feed process tr silence).1.receiver.outbox.symbols = [] ∧
    RunTimer.Spent t (List.replicate t.unit false) (feed process tr silence).1.receiver.timer := by
  obtain ⟨hm, ht⟩ := feed_invariant process (Kept m t) (fun s f hk => hk.process hu f) tr h silence
  have hquiet : silence.map tr.receiver.hears = List.replicate (12 * t.unit) false := by
    rw [← hl]
    exact List.map_eq_replicate_iff.mpr hs
  have hspent : RunTimer.Spent t (List.replicate t.unit false)
      (feed process tr silence).1.receiver.timer := by
    rw [(feed_process tr ha silence).1, hquiet]
    exact ((h.2.fading hu).feed hu ho _).spent
  exact ⟨hm, (isInterpreting_feed tr silence).trans ha, ht.symbols_eq_nil hspent.hasEnded, hspent⟩

theorem Kept.fresh {m : MorseSettings} {a : AnalysisSettings} {r : Receiver}
    (hr : Receiver.create m a = .ok r) : Kept m r.timer.timing { receiver := r } := by
  have hu := (Receiver.unit_pos hr).1
  have hw : r.timer = .waiting r.timer.timing 0 [] := by
    rw [← RunTimer.ofTiming_eq_waiting hu]
    obtain ⟨-, rfl⟩ := Receiver.create_ok hr
    rfl
  obtain ⟨-, hs⟩ := Receiver.create_ok hr
  refine ⟨by rw [hs], ?_⟩
  have h := Tidy.fresh hu r.outbox.symbols
  rwa [← hw] at h

/-- After any two histories, twelve units of silence make two transcribers answer alike. -/
theorem resynchronise {m : MorseSettings} {a : AnalysisSettings} {r : Receiver}
    (hr : Receiver.create m a = .ok r) (ho : 1 ≤ r.timer.timing.off) (earlier other : List Event)
    (he : (after { receiver := r } earlier).isInterpreting = true)
    (hi : (after { receiver := r } other).isInterpreting = true) (silence : List Frame)
    (hs : ∀ f ∈ silence, r.hears f = false) (hl : silence.length = 12 * r.timer.timing.unit)
    (rest : List Frame) :
    let x := (feed process (after { receiver := r } earlier) silence).1
    let y := (feed process (after { receiver := r } other) silence).1
    replies process x rest = replies process y rest ∧
      (feed process x rest).2 = (feed process y rest).2 := by
  intro x y
  have hu := (Receiver.unit_pos hr).1
  have hfresh := Kept.fresh hr
  have hset : r.settings = m := hfresh.1
  generalize r.timer.timing = t at *
  have hkx := hfresh.after hu earlier
  have hky := hfresh.after hu other
  have hsx : ∀ f ∈ silence, (after { receiver := r } earlier).receiver.hears f = false :=
    fun f hf => (Receiver.hears_congr (hkx.1.trans hset.symm) f).trans (hs f hf)
  have hsy : ∀ f ∈ silence, (after { receiver := r } other).receiver.hears f = false :=
    fun f hf => (Receiver.hears_congr (hky.1.trans hset.symm) f).trans (hs f hf)
  obtain ⟨hmx, hix, hox, htx⟩ := spent_of_silence hu ho hkx he silence hsx hl
  obtain ⟨hmy, hiy, hoy, hty⟩ := spent_of_silence hu ho hky hi silence hsy hl
  have halike : Alike t x y :=
    ⟨hmx.trans hmy.symm, ⟨hix, hiy⟩, hox.trans hoy.symm, Or.inr ⟨_, htx, hty⟩⟩
  have hreplies : replies process x rest = replies process y rest :=
    replies_congr process (Alike t) (fun _ _ f h => h.process hu f) x y halike rest
  refine ⟨hreplies, ?_⟩
  rw [feed_events, feed_events, hreplies]

/-- After a fresh start, and after one in the middle of a tone, an A is received. -/
theorem resynchronise_default :
    let tone := Frame.ofList [1950]
    let other := .start :: List.replicate 20 (.frame tone) ++ [.start]
    let rest := List.replicate 9 tone ++ List.replicate 9 Frame.silent ++ List.replicate 27 tone ++
      List.replicate 99 Frame.silent
    ∃ r, Receiver.create {} .forMorse = .ok r ∧
      let x := (feed process (after { receiver := r } [.start]) (List.replicate 108 Frame.silent)).1
      let y := (feed process (after { receiver := r } other) (List.replicate 108 Frame.silent)).1
      replies process x rest = replies process y rest ∧
        (feed process x rest).2 = ["A"] ∧ (feed process y rest).2 = ["A"] := by
  intro tone other rest
  refine ⟨_, Receiver.create_default, ?_⟩
  intro x y
  have hsilence : ∀ f ∈ List.replicate 108 Frame.silent,
      Receiver.hears { settings := {}, timer := .ofTiming ⟨9, 7⟩ } f = false := by
    intro f hf
    rw [List.eq_of_mem_replicate hf]
    exact (Receiver.hears_default rfl).1
  obtain ⟨hreplies, hmessages⟩ := resynchronise Receiver.create_default (by decide) [.start] other rfl rfl _
    hsilence (by decide) rest
  have hx : (feed process x rest).2 = ["A"] := by decide +kernel
  exact ⟨hreplies, hx, hmessages.symm.trans hx⟩

end Transcriber

end ToneWatch.Morse
