import Mathlib
import ToneWatch.Proofs.Morse.Release

namespace ToneWatch.Morse

namespace Timing

/-- A silence has ended the transmission exactly when ten units are counted. -/
theorem endAfter_le_iff {t : Timing} (hu : 0 < t.unit) {counted : Nat} (hc : counted ≤ 1) (count : Nat) :
    t.endAfter counted ≤ count ↔ endUnits + 1 ≤ counted + t.forgotten count := by
  have hend : endUnits = 9 := rfl
  rw [endAfter, ← Nat.le_div_iff_mul_le hu, forgotten]
  omega

end Timing

namespace RunTimer

theorem step_of_silence (t : Timing) (recent : History Bool) (units : Nat) (ended tone : Bool) :
    step { timing := t, recent, phase := .silence units ended } tone =
      let pushed := recent.push tone
      if pushed.size < t.unit then ({ timing := t, recent := pushed, phase := .silence units ended }, none)
      else if t.on ≤ (pushed.latest t.unit).countP id ∧
          (pushed.get? (pushed.size - t.unit)).getD false = true then
        ({ timing := t, recent := pushed.clear, phase := .tone 1 },
          gap? (units + ((pushed.size + t.unit / 2) / t.unit - 1)) ended)
      else if pushed.size = 2 * t.unit then
        let ends := units = endUnits && !ended
        ({ timing := t, recent := pushed.compact, phase := .silence (units + 1) (ended || ends) },
          if ends then some .endOfTransmission else none)
      else ({ timing := t, recent := pushed, phase := .silence units ended }, none) := by
  unfold step
  simp only [isOverdue, Bool.and_eq_true, decide_eq_true_eq]
  rfl

theorem step_of_tone (t : Timing) (recent : History Bool) (units : Nat) (tone : Bool) :
    step { timing := t, recent, phase := .tone units } tone =
      let pushed := recent.push tone
      if pushed.size < t.unit then ({ timing := t, recent := pushed, phase := .tone units }, none)
      else if (pushed.latest t.unit).countP id < t.off ∧
          (pushed.get? (pushed.size - t.unit)).getD false = false then
        ({ timing := t, recent := pushed.clear, phase := .silence 1 false },
          some (.mark (markOf (units + ((pushed.size + t.unit / 2) / t.unit - 1)))))
      else if pushed.size = 2 * t.unit then
        ({ timing := t, recent := pushed.compact, phase := .tone (units + 1) }, none)
      else ({ timing := t, recent := pushed, phase := .tone units }, none) := by
  unfold step
  simp only [isOverdue, Bool.and_eq_true, decide_eq_true_eq, Bool.not_eq_true']
  rfl

end RunTimer

/-- The first number beyond a machine word. -/
def wordLimit : Nat := 2 ^ 64

def sub? (a b : Nat) : Option Nat :=
  if b ≤ a then some (a - b) else none

def add? (a b : Nat) : Option Nat :=
  if a + b < wordLimit then some (a + b) else none

theorem sub?_of_le {a b : Nat} (h : b ≤ a) : sub? a b = some (a - b) := if_pos h

theorem add?_of_lt {a b : Nat} (h : a + b < wordLimit) : add? a b = some (a + b) := if_pos h

/-- What changes in a receiver, register by register. -/
structure Registers where
  recent : History Bool
  synchronised : Bool := false
  /-- The units of the silence being timed. -/
  zeros : Nat := 0
  /-- The units of the tone being timed. -/
  ones : Nat := 0
  ended : Bool := false
  outbox : Outbox := {}
  analysing : Bool := false

namespace Registers

def ofTiming (t : Timing) : Registers :=
  { recent := .ofWindow t.unit }

def stop (s : Registers) : Registers :=
  { s with
    analysing := false, recent := s.recent.clear
    synchronised := false, zeros := 0, ones := 0, ended := false }

/-- Offers what is completed, if anything. -/
def emit (s : Registers) (completed : Option Symbol) : Registers × Option Symbol :=
  ({ s with outbox := completed.elim s.outbox fun symbol => (s.outbox.offer symbol).1 },
    completed.bind fun symbol => (s.outbox.offer symbol).2)

/-- A tone follows a silence. -/
def rise? (s : Registers) (units : Nat) : Option (Registers × Option Symbol) := do
  let zeros ← add? s.zeros (← sub? units 1)
  return { s with
    recent := s.recent.clear, synchronised := true
    zeros := 0, ones := 1, ended := false }.emit (gap? zeros s.ended)

/-- A silence follows a tone. -/
def fall? (s : Registers) (units : Nat) : Option (Registers × Option Symbol) := do
  let ones ← add? s.ones (← sub? units 1)
  return { s with
    recent := s.recent.clear, synchronised := false
    zeros := 1, ones := 0 }.emit (some (.mark (markOf ones)))

/-- A unit has passed without an edge. -/
def lapse? (s : Registers) : Option (Registers × Option Symbol) := do
  let ends := !s.synchronised && s.zeros = endUnits && !s.ended
  let (s, out) := { s with ended := s.ended || ends }.emit (if ends then some .endOfTransmission else none)
  if s.synchronised then
    let ones ← add? s.ones 1
    return ({ s with ones, recent := s.recent.compact }, out)
  else
    return ({ s with zeros := min (s.zeros + 1) (wordLimit - 1), recent := s.recent.compact }, out)

/-- Takes an observation and gives the symbol that was let out. -/
def hear? (t : Timing) (s : Registers) (tone : Bool) : Option (Registers × Option Symbol) := do
  let s := { s with recent := s.recent.push tone }
  let size := s.recent.size
  if size < t.unit then return (s, none)
  let tones := (s.recent.latest t.unit).countP id
  let unitStart := (s.recent.get? (← sub? size t.unit)).getD false
  let units := (size + t.unit / 2) / t.unit
  if !s.synchronised && t.on ≤ tones && unitStart then s.rise? units
  else if s.synchronised && tones < t.off && !unitStart then s.fall? units
  else if size = 2 * t.unit then s.lapse?
  else return (s, none)

/-- What becomes of the registers of a receiver with some settings and timing. -/
def react? (r : Receiver) (s : Registers) : Receiver.Event → Option Registers
  | .start => some { s with analysing := true }
  | .stop => some s.stop
  | .pull => some { s with outbox := s.outbox.drain.1 }
  | .frame f =>
    if s.analysing then (s.hear? r.timer.timing (r.hears f)).map Prod.fst else some s

def after? (r : Receiver) (s : Registers) (history : List Receiver.Event) : Option Registers :=
  history.foldlM (react? r) s

/-- How a timer stands in the registers, among the rest of a receiver. -/
def ofTimer (timer : RunTimer) (outbox : Outbox) (analysing : Bool) : Registers :=
  match timer.phase with
  | .silence zeros ended => { recent := timer.recent, zeros, ended, outbox, analysing }
  | .tone ones => { recent := timer.recent, synchronised := true, ones, outbox, analysing }

def ofReceiver (r : Receiver) : Registers :=
  ofTimer r.timer r.outbox r.analysing

/-- The registers after a step of the timer, with what was let out. -/
def settle (step : RunTimer × Option Symbol) (outbox : Outbox) (analysing : Bool) :
    Registers × Option Symbol :=
  (ofTimer step.1 outbox analysing).emit step.2

theorem rise?_eq {s : Registers} {units : Nat} (hunits : 1 ≤ units)
    (hzeros : s.zeros + (units - 1) < wordLimit) :
    s.rise? units = some ({ s with
      recent := s.recent.clear, synchronised := true
      zeros := 0, ones := 1, ended := false }.emit (gap? (s.zeros + (units - 1)) s.ended)) := by
  rw [rise?, sub?_of_le hunits, Option.bind_eq_bind, Option.bind_some, add?_of_lt hzeros]
  rfl

theorem fall?_eq {s : Registers} {units : Nat} (hunits : 1 ≤ units)
    (hones : s.ones + (units - 1) < wordLimit) :
    s.fall? units = some ({ s with
      recent := s.recent.clear, synchronised := false
      zeros := 1, ones := 0 }.emit (some (.mark (markOf (s.ones + (units - 1)))))) := by
  rw [fall?, sub?_of_le hunits, Option.bind_eq_bind, Option.bind_some, add?_of_lt hones]
  rfl

theorem lapse?_silence {s : Registers} (hs : s.synchronised = false)
    (hzeros : s.zeros + 1 < wordLimit) :
    let ends := s.zeros = endUnits && !s.ended
    s.lapse? = some ({ s with
      recent := s.recent.compact, zeros := s.zeros + 1, ended := s.ended || ends }.emit
        (if ends then some .endOfTransmission else none)) := by
  have hmin : min (s.zeros + 1) (wordLimit - 1) = s.zeros + 1 := by omega
  simp [lapse?, emit, hs, hmin]

theorem lapse?_tone {s : Registers} (hs : s.synchronised = true) (hones : s.ones + 1 < wordLimit) :
    s.lapse? = some ({ s with recent := s.recent.compact, ones := s.ones + 1 }, none) := by
  simp [lapse?, emit, hs, add?_of_lt hones]

variable {t : Timing} {recent : History Bool} {tone : Bool}

theorem spanned_bounds (hu : 0 < t.unit) {size : Nat} (hfull : t.unit ≤ size)
    (hsize : size ≤ 2 * t.unit) :
    1 ≤ (size + t.unit / 2) / t.unit ∧ (size + t.unit / 2) / t.unit ≤ 2 := by
  constructor
  · rw [Nat.one_le_div_iff hu]
    omega
  · rw [← Nat.lt_succ_iff, Nat.div_lt_iff_lt_mul hu]
    omega

theorem hear?_silence (hu : 0 < t.unit) (hsize : (recent.push tone).size ≤ 2 * t.unit)
    {units : Nat} (hroom : units + 2 < wordLimit) (ended : Bool) (outbox : Outbox) (analysing : Bool) :
    hear? t { recent, zeros := units, ended, outbox, analysing } tone =
      some (settle (RunTimer.step { timing := t, recent, phase := .silence units ended } tone)
        outbox analysing) := by
  rw [RunTimer.step_of_silence]
  unfold hear?
  dsimp only
  generalize recent.push tone = pushed at *
  by_cases hshort : pushed.size < t.unit
  · simp only [hshort, if_true]
    rfl
  have hfull := Nat.le_of_not_lt hshort
  obtain ⟨hone, htwo⟩ := spanned_bounds hu hfull hsize
  simp only [hshort, if_false, sub?_of_le hfull, Option.bind_eq_bind, Option.bind_some, Bool.not_false,
    Bool.true_and, Bool.false_and, Bool.false_eq_true, Bool.and_eq_true, decide_eq_true_eq]
  by_cases hrise : t.on ≤ (pushed.latest t.unit).countP id ∧
      (pushed.get? (pushed.size - t.unit)).getD false = true
  · rw [if_pos hrise, if_pos hrise, rise?_eq hone (by dsimp only; omega)]
    rfl
  rw [if_neg hrise, if_neg hrise]
  by_cases hover : pushed.size = 2 * t.unit
  · rw [if_pos hover, if_pos hover, lapse?_silence rfl (by dsimp only; omega)]
    simp only [Bool.and_eq_true, decide_eq_true_eq]
    rfl
  · rw [if_neg hover, if_neg hover]
    rfl

theorem hear?_tone (hu : 0 < t.unit) (hsize : (recent.push tone).size ≤ 2 * t.unit)
    {units : Nat} (hroom : units + 2 < wordLimit) (outbox : Outbox) (analysing : Bool) :
    hear? t { recent, synchronised := true, ones := units, outbox, analysing } tone =
      some (settle (RunTimer.step { timing := t, recent, phase := .tone units } tone)
        outbox analysing) := by
  rw [RunTimer.step_of_tone]
  unfold hear?
  dsimp only
  generalize recent.push tone = pushed at *
  by_cases hshort : pushed.size < t.unit
  · simp only [hshort, if_true]
    rfl
  have hfull := Nat.le_of_not_lt hshort
  obtain ⟨hone, htwo⟩ := spanned_bounds hu hfull hsize
  simp only [hshort, if_false, sub?_of_le hfull, Option.bind_eq_bind, Option.bind_some, Bool.not_true,
    Bool.true_and, Bool.false_and, Bool.false_eq_true, Bool.and_eq_true, decide_eq_true_eq,
    Bool.not_eq_true']
  by_cases hfall : (pushed.latest t.unit).countP id < t.off ∧
      (pushed.get? (pushed.size - t.unit)).getD false = false
  · rw [if_pos hfall, if_pos hfall, fall?_eq hone (by dsimp only; omega)]
    rfl
  rw [if_neg hfall, if_neg hfall]
  by_cases hover : pushed.size = 2 * t.unit
  · rw [if_pos hover, if_pos hover, lapse?_tone rfl (by dsimp only; omega)]
    rfl
  · rw [if_neg hover, if_neg hover]
    rfl

theorem settle_step (r : Receiver) (tone : Bool) :
    settle (r.timer.step tone) r.outbox r.analysing =
      (ofReceiver (r.observe tone).1, (r.observe tone).2) := by
  rw [Receiver.observe_eq, settle, ofTimer]
  cases (r.timer.step tone).2 <;> cases hp : (r.timer.step tone).1.phase <;>
    simp [emit, ofReceiver, ofTimer, hp]

/-- No word is left while the counter in use has room for two more units. -/
theorem hear?_ofReceiver {r : Receiver} (hu : 0 < r.timer.timing.unit)
    (hsize : (r.timer.recent.push tone).size ≤ 2 * r.timer.timing.unit)
    (hroom : (ofReceiver r).zeros + (ofReceiver r).ones + 2 < wordLimit) :
    (ofReceiver r).hear? r.timer.timing tone =
      some (ofReceiver (r.observe tone).1, (r.observe tone).2) := by
  rw [← settle_step]
  obtain ⟨settings, ⟨t, recent, phase⟩, outbox, analysing⟩ := r
  cases phase with
  | silence units ended => exact hear?_silence hu hsize hroom ended outbox analysing
  | tone units =>
    have hones : units + 2 < wordLimit := by
      rwa [ofReceiver, ofTimer, Nat.zero_add] at hroom
    exact hear?_tone hu hsize hones outbox analysing

/-- The registers between two calls, if a log was observed since the last edge or stop, latest first.
Only the counter of the state is in use, and the history has room for whatever comes next. -/
structure Consistent (t : Timing) (log : List Bool) (s : Registers) : Prop where
  short : s.recent.size < 2 * t.unit
  /-- A push forgets nothing. -/
  keeps : ∀ tone, (s.recent.push tone).newest = tone :: s.recent.newest
  newest : s.recent.newest <+: log
  enough : s.recent.newest = log ∨ t.unit ≤ s.recent.size
  of_tone : s.synchronised = true → s.zeros = 0 ∧ 1 ≤ s.ones ∧ s.ended = false
  of_silence : s.synchronised = false → s.ones = 0 ∧ (s.ended = true ↔ endUnits + 1 ≤ s.zeros)
  fits : s.outbox.symbols.length ≤ Outbox.maxMessage

variable {log : List Bool} {r : Receiver}

theorem recent_ofReceiver (r : Receiver) : (ofReceiver r).recent = r.timer.recent := by
  rw [ofReceiver, ofTimer]
  cases r.timer.phase <;> rfl

theorem consistent_ofReceiver (hu : 0 < t.unit) (h : RunTimer.Timed t log r.timer)
    (hfits : r.outbox.symbols.length ≤ Outbox.maxMessage) : (ofReceiver r).Consistent t log := by
  have hrecent := (recent_ofReceiver r).trans h.seen.2
  have hsize : (ofReceiver r).recent.size = t.kept log.length := by
    rw [hrecent, RunTimer.size_historyOf]
  obtain ⟨settings, timer, outbox, analysing⟩ := r
  refine ⟨?_, ?_, ?_, ?_, ?_, ?_, ?_⟩
  · rw [hsize]
    exact Timing.kept_lt hu _
  · intro tone
    rw [hrecent, RunTimer.historyOf_push hu]
    rfl
  · rw [hrecent]
    exact List.take_prefix _ _
  · rw [hsize, hrecent, Timing.unit_le_kept_iff hu]
    obtain hl | hl := Nat.lt_or_ge log.length t.unit
    · left
      rw [RunTimer.historyOf, Timing.kept_of_lt hl, List.take_length]
    · exact .inr hl
  · cases h with
    | waiting hc log => exact fun hs => absurd hs Bool.false_ne_true
    | sounding log => exact fun _ => ⟨rfl, Nat.le_add_right 1 _, rfl⟩
  · cases h with
    | waiting hc log => exact fun _ => ⟨rfl, decide_eq_true_iff.trans (Timing.endAfter_le_iff hu hc _)⟩
    | sounding log => exact fun hs => absurd hs.symm Bool.false_ne_true
  · cases h <;> exact hfits

theorem counted_le (h : RunTimer.Timed t log r.timer) :
    (ofReceiver r).zeros + (ofReceiver r).ones ≤ log.length + 1 := by
  have hle : t.forgotten log.length ≤ log.length := (Nat.sub_le _ _).trans (Nat.div_le_self _ _)
  obtain ⟨settings, timer, outbox, analysing⟩ := r
  cases h with
  | waiting hc log =>
    change _ + t.forgotten log.length + 0 ≤ _
    omega
  | sounding log =>
    change 0 + (1 + t.forgotten log.length) ≤ _
    omega

end Registers

namespace Receiver

def Event.isFrame : Event → Bool
  | .frame _ => true
  | _ => false

/-- What was observed since the last edge or stop, latest first, after one more event. -/
def note (r : Receiver) (log : List Bool) : Event → List Bool
  | .stop => []
  | .frame f =>
    if r.analysing then
      if (r.process f).1.timer.isSynchronised = r.timer.isSynchronised then r.hears f :: log else []
    else log
  | _ => log

def stretch (r : Receiver) (log : List Bool) : List Event → List Bool
  | [] => log
  | e :: history => (r.react e).stretch (r.note log e) history

variable {t : Timing} {log : List Bool} {m : MorseSettings} {a : AnalysisSettings} {r r₀ : Receiver}

theorem length_note_le (r : Receiver) (log : List Bool) (e : Event) :
    (r.note log e).length ≤ log.length + if e.isFrame then 1 else 0 := by
  cases e with
  | frame f =>
    simp only [note, Event.isFrame, if_true]
    split_ifs <;> simp
  | _ => simp [note, Event.isFrame]

theorem timed_react (hu : 0 < t.unit) (h : RunTimer.Timed t log r.timer) (e : Event) :
    RunTimer.Timed t (r.note log e) (r.react e).timer := by
  cases e with
  | start => exact h
  | stop => exact h.reset hu
  | pull => exact h
  | frame f =>
    have hstep := h.step hu (r.hears f)
    by_cases ha : r.analysing = true
    · simp only [note, react, process, ha, if_true, timer_observe]
      exact hstep
    · simp only [note, react, process, ha, if_false, Bool.false_eq_true]
      exact h

theorem length_offer_le {o : Outbox} (h : o.symbols.length ≤ Outbox.maxMessage) (s : Symbol) :
    (o.offer s).1.symbols.length ≤ Outbox.maxMessage := by
  have hmax : Outbox.maxMessage = 500 := rfl
  unfold Outbox.offer
  split_ifs <;> simp only [List.length_append, List.length_dropLast, List.length_singleton] <;> omega

theorem fits_react (h : r.outbox.symbols.length ≤ Outbox.maxMessage) (e : Event) :
    (r.react e).outbox.symbols.length ≤ Outbox.maxMessage := by
  cases e with
  | start => exact h
  | stop => exact h
  | pull => exact Nat.zero_le _
  | frame f =>
    simp only [react, process]
    split
    · rw [observe_eq]
      cases (r.timer.step (r.hears f)).2 with
      | none => exact h
      | some s => exact length_offer_le h s
    · exact h

/-- An event takes the registers where it takes the receiver. -/
theorem react?_ofReceiver (hu : 0 < t.unit) (h : RunTimer.Timed t log r.timer)
    (hset : r.settings = r₀.settings) (ht : r₀.timer.timing = t) (hlog : log.length < 2 ^ 63)
    (e : Event) :
    (Registers.ofReceiver r).react? r₀ e = some (Registers.ofReceiver (r.react e)) := by
  have hanalysing : (Registers.ofReceiver r).analysing = r.analysing := by
    rw [Registers.ofReceiver, Registers.ofTimer]
    cases r.timer.phase <;> rfl
  cases e with
  | frame f =>
    have hheard := hears_congr hset f
    obtain ⟨htiming, hrecent⟩ := h.seen
    have hsize : (r.timer.recent.push (r.hears f)).size ≤ 2 * r.timer.timing.unit := by
      rw [hrecent, htiming, RunTimer.historyOf_push hu, RunTimer.size_pushed]
      exact Timing.kept_lt hu _
    have hcounted := Registers.counted_le h
    have hword : wordLimit = 2 ^ 64 := rfl
    have hobserved := Registers.hear?_ofReceiver (by rwa [htiming]) hsize (by omega)
    rw [Registers.react?, react, process, hanalysing, ht, ← hheard]
    by_cases ha : r.analysing = true
    · rw [if_pos ha, if_pos ha, ← htiming, hobserved]
      rfl
    · rw [if_neg ha, if_neg ha]
  | start =>
    simp only [Registers.react?, react, start, Registers.ofReceiver, Registers.ofTimer]
    cases r.timer.phase <;> rfl
  | stop =>
    simp only [Registers.react?, react, stop, Registers.ofReceiver, Registers.ofTimer]
    cases r.timer.phase <;> rfl
  | pull =>
    simp only [Registers.react?, react, pull, Registers.ofReceiver, Registers.ofTimer]
    cases r.timer.phase <;> rfl

/-- Whatever is done, the registers go where the receiver goes. -/
theorem after?_ofReceiver (hu : 0 < t.unit) (h : RunTimer.Timed t log r.timer)
    (hset : r.settings = r₀.settings) (ht : r₀.timer.timing = t)
    (hfits : r.outbox.symbols.length ≤ Outbox.maxMessage) (history : List Event)
    (hn : log.length + history.countP Event.isFrame < 2 ^ 63) :
    (Registers.ofReceiver r).after? r₀ history = some (Registers.ofReceiver (r.after history)) ∧
      (Registers.ofReceiver (r.after history)).Consistent t (r.stretch log history) := by
  induction history generalizing r log with
  | nil => exact ⟨rfl, Registers.consistent_ofReceiver hu h hfits⟩
  | cons e history ih =>
    have hlength := length_note_le r log e
    rw [List.countP_cons] at hn
    have hreact := react?_ofReceiver hu h hset ht (by omega) e
    have hset' := (settings_react r e).trans hset
    obtain ⟨hafter, hconsistent⟩ := ih (timed_react hu h e) hset' (fits_react hfits e) (by omega)
    rw [Registers.after?, List.foldlM_cons, hreact]
    exact ⟨hafter, hconsistent⟩

theorem off_add_on (hr : create m a = .ok r) :
    r.timer.timing.off + r.timer.timing.on = r.timer.timing.unit := by
  obtain ⟨hpos, hle⟩ := rate_of_create hr
  have hu := unit_pos hr
  obtain ⟨-, rfl⟩ := create_ok hr
  have hon : (Timing.ofSettings m a).on ≤ m.timeUnit a := by
    obtain hrate | hrate := hle.lt_or_eq
    · exact (Timing.on_lt_of_part hu.1 hpos hrate).le
    · exact (Timing.on_eq_of_full hrate hu.2).le
  exact Nat.sub_add_cancel hon

/-- Whatever is done to a receiver with fewer than 2⁶³ frames, its registers follow it, without leaving a
word anywhere, and are consistent with what it has observed since the last edge or stop. -/
theorem registers_after (hr : create m a = .ok r) (history : List Event)
    (hn : history.countP Event.isFrame < 2 ^ 63) :
    r.timer.timing.unit = m.timeUnit a ∧
      r.timer.timing.off + r.timer.timing.on = r.timer.timing.unit ∧
      ∃ s, (Registers.ofTiming r.timer.timing).after? r history = some s ∧
        s = Registers.ofReceiver (r.after history) ∧
        s.Consistent r.timer.timing (r.stretch [] history) := by
  have hfresh : Registers.ofTiming r.timer.timing = Registers.ofReceiver r ∧
      r.timer.timing.unit = m.timeUnit a ∧ r.outbox = {} := by
    obtain ⟨-, rfl⟩ := create_ok hr
    exact ⟨rfl, rfl, rfl⟩
  obtain ⟨hregisters, hunit, houtbox⟩ := hfresh
  have hfits : r.outbox.symbols.length ≤ Outbox.maxMessage := by
    rw [houtbox]
    exact Nat.zero_le _
  obtain ⟨hafter, hconsistent⟩ := after?_ofReceiver (unit_pos hr).1 (timed_of_create hr) rfl rfl hfits
    history (by simpa using hn)
  rw [hregisters]
  exact ⟨hunit, off_add_on hr, _, hafter, rfl, hconsistent⟩

/-- A tone of twenty frames, a pull, thirty frames of silence and a stop. -/
theorem registers_after_default :
    ∃ r, create {} .forMorse = .ok r ∧
      let history := Event.start :: (List.replicate 20 (Frame.ofList [1950])).map .frame ++
        .pull :: (List.replicate 30 Frame.silent).map .frame ++ [.stop]
      history.countP Event.isFrame < 2 ^ 63 ∧
      r.timer.timing.unit = ({} : MorseSettings).timeUnit .forMorse ∧
      r.timer.timing.off + r.timer.timing.on = r.timer.timing.unit ∧
      ∃ s, (Registers.ofTiming r.timer.timing).after? r history = some s ∧
        s = Registers.ofReceiver (r.after history) ∧
        s.Consistent r.timer.timing (r.stretch [] history) := by
  refine ⟨_, create_default, ?_⟩
  exact ⟨by decide, registers_after create_default _ (by decide)⟩

end Receiver

end ToneWatch.Morse
