import Mathlib
import ToneWatch.Morse.Transcriber
import ToneWatch.Proofs.Feed

namespace ToneWatch.Morse

namespace Receiver

theorem create_ok {m : MorseSettings} {a : AnalysisSettings} {r : Receiver}
    (h : create m a = .ok r) :
    m.validate a = .ok () ∧ r = { settings := m, timer := .ofTiming (.ofSettings m a) } := by
  unfold create at h
  cases ha : a.validate with
  | error e =>
    rw [ha] at h
    cases h
  | ok u =>
    cases hm : m.validate a with
    | error e =>
      rw [ha, hm] at h
      cases h
    | ok v =>
      rw [ha, hm] at h
      exact ⟨rfl, (Except.ok.inj h).symm⟩

/-- With the default settings a dot lasts nine frames, and a unit with seven tones is on. -/
theorem create_default :
    create {} .forMorse = .ok { settings := {}, timer := .ofTiming ⟨9, 7⟩ } := by
  have ha : AnalysisSettings.forMorse.validate = .ok () := rfl
  have hm : MorseSettings.validate {} .forMorse = .ok () := by decide +kernel
  have ht : Timing.ofSettings {} .forMorse = ⟨9, 7⟩ := by decide +kernel
  unfold create
  rw [ha, hm, ht]
  rfl

theorem hears_congr {r s : Receiver} (h : r.settings = s.settings) (f : Frame) :
    r.hears f = s.hears f := by
  rw [hears, hears, target, target, h]

/-- With the default settings a peak at 1950 Hz is the tone. -/
theorem hears_default {r : Receiver} (h : r.settings = {}) :
    r.hears .silent = false ∧ r.hears (.ofList [1950]) = true := by
  let s : Receiver := { settings := {}, timer := .ofTiming ⟨9, 7⟩ }
  have hs : s.hears .silent = false ∧ s.hears (.ofList [1950]) = true := by decide +kernel
  exact ⟨(hears_congr h _).trans hs.1, (hears_congr h _).trans hs.2⟩

theorem map_hears_default {r : Receiver} (h : r.settings = {}) (heard : List Bool) :
    (heard.map fun b => if b then Frame.ofList [1950] else Frame.silent).map r.hears = heard := by
  obtain ⟨hoff, hon⟩ := hears_default h
  have hkeyed : ∀ b : Bool, r.hears (if b then Frame.ofList [1950] else Frame.silent) = b := by
    intro b
    cases b with
    | false => exact hoff
    | true => exact hon
  rw [List.map_map]
  exact (List.map_congr_left fun b _ => hkeyed b).trans (List.map_id _)

theorem unit_pos {m : MorseSettings} {a : AnalysisSettings} {r : Receiver}
    (h : create m a = .ok r) : 0 < r.timer.timing.unit ∧ r.timer.timing.unit ≤ 500 := by
  obtain ⟨hm, rfl⟩ := create_ok h
  change 0 < m.timeUnit a ∧ m.timeUnit a ≤ MorseSettings.maxTimeUnit
  unfold MorseSettings.validate at hm
  by_cases hf : m.timeUnit a = 0 ∨ MorseSettings.maxTimeUnit < m.timeUnit a
  · simp [hf] at hm
  · omega

theorem observe_eq (r : Receiver) (tone : Bool) :
    r.observe tone =
      match (r.timer.step tone).2 with
      | none => ({ r with timer := (r.timer.step tone).1 }, none)
      | some s =>
        ({ r with timer := (r.timer.step tone).1, outbox := (r.outbox.offer s).1 },
          (r.outbox.offer s).2) := by
  unfold observe
  rcases r.timer.step tone with ⟨timer, _ | s⟩ <;> rfl

theorem settings_observe (r : Receiver) (tone : Bool) :
    (r.observe tone).1.settings = r.settings ∧ (r.observe tone).1.analysing = r.analysing := by
  rw [observe_eq]
  cases (r.timer.step tone).2 <;> exact ⟨rfl, rfl⟩

theorem feed_observe (r : Receiver) (tones : List Bool) :
    feed observe r tones =
      ({ r with
          timer := (feed RunTimer.step r.timer tones).1
          outbox := (feed Outbox.offer r.outbox (feed RunTimer.step r.timer tones).2).1 },
        (feed Outbox.offer r.outbox (feed RunTimer.step r.timer tones).2).2) := by
  induction tones generalizing r with
  | nil => rfl
  | cons b tones ih =>
    rw [feed_cons, ih, observe_eq, feed_cons]
    cases (r.timer.step b).2 with
    | none => rfl
    | some s => simp [feed_cons]

theorem feed_process (r : Receiver) (hr : r.analysing = true) (frames : List Frame) :
    feed process r frames = feed observe r (frames.map r.hears) := by
  induction frames generalizing r with
  | nil => rfl
  | cons f frames ih =>
    obtain ⟨hs, ha⟩ := settings_observe r (r.hears f)
    have hh : frames.map (r.observe (r.hears f)).1.hears = frames.map r.hears :=
      List.map_congr_left fun g _ => hears_congr hs g
    rw [feed_cons, process, if_pos hr, ih _ (ha.trans hr), hh, List.map_cons, feed_cons]

theorem feed_start {m : MorseSettings} {a : AnalysisSettings} {r : Receiver}
    (h : create m a = .ok r) (frames : List Frame) :
    (feed process r.start frames).2 =
      (feed Outbox.offer {}
        (feed RunTimer.step (.ofTiming r.timer.timing) (frames.map r.hears)).2).2 := by
  obtain ⟨-, rfl⟩ := create_ok h
  rw [feed_process _ rfl, feed_observe]
  rfl

end Receiver

namespace Outbox

theorem offer_of_empty (o : Outbox) (ho : o.symbols = []) {s : Symbol} (hs : s.isMark = false) :
    o.offer s = (o, none) := by
  simp [offer, ho, hs]

theorem offer_of_room (o : Outbox) (s : Symbol) (hs : o.symbols ≠ [] ∨ s.isMark = true)
    (hl : o.symbols.length < maxMessage) :
    o.offer s = ({ o with symbols := o.symbols ++ [s] }, some s) := by
  have h : (o.symbols.isEmpty && !s.isMark) = false := by
    rcases hs with h | h <;> simp [h]
  rw [offer, h, if_neg Bool.false_ne_true, if_pos hl]

theorem feed_offer_of_empty (o : Outbox) (ho : o.symbols = []) (lead : List Symbol)
    (hs : ∀ s ∈ lead, s.isMark = false) : feed offer o lead = (o, []) :=
  feed_still offer o lead fun s h => offer_of_empty o ho (hs s h)

theorem feed_offer_of_room (o : Outbox) (symbols : List Symbol)
    (hs : o.symbols ≠ [] ∨ ∀ s ∈ symbols.head?, s.isMark = true)
    (hl : o.symbols.length + symbols.length ≤ maxMessage) :
    feed offer o symbols = ({ o with symbols := o.symbols ++ symbols }, symbols) := by
  induction symbols generalizing o with
  | nil => simp
  | cons s symbols ih =>
    rw [List.length_cons] at hl
    have ho := offer_of_room o s (hs.imp_right fun h => h s (by simp)) (by omega)
    rw [feed_cons, ho, ih _ (Or.inl (by simp)) (by simp; omega)]
    simp

theorem feed_offer_message (o : Outbox) (ho : o.symbols = []) (lead symbols : List Symbol)
    (hd : ∀ s ∈ lead, s.isMark = false) (hs : ∀ s ∈ symbols.head?, s.isMark = true)
    (hl : symbols.length ≤ maxMessage) :
    feed offer o (lead ++ symbols) = ({ o with symbols }, symbols) := by
  rw [feed_append, feed_offer_of_empty o ho lead hd,
    feed_offer_of_room o symbols (Or.inr hs) (by simpa [ho] using hl), ho]
  rfl

/-- Adds a symbol; the end of a transmission empties the outbox and gives what was in it. -/
def collect (o : Outbox) (s : Symbol) : Outbox × Option String :=
  match o.offer s with
  | (o, some .endOfTransmission) => (o.drain.1, some (decode o.symbols))
  | (o, _) => (o, none)

theorem collect_of_empty (o : Outbox) (ho : o.symbols = []) {s : Symbol} (hs : s.isMark = false) :
    o.collect s = (o, none) := by
  rw [collect, offer_of_empty o ho hs]

theorem collect_of_room (o : Outbox) (s : Symbol) (hs : o.symbols ≠ [] ∨ s.isMark = true)
    (hl : o.symbols.length < maxMessage) (he : s ≠ .endOfTransmission) :
    o.collect s = ({ o with symbols := o.symbols ++ [s] }, none) := by
  rw [collect, offer_of_room o s hs hl]
  cases s with
  | endOfTransmission => exact absurd rfl he
  | _ => rfl

theorem collect_end (o : Outbox) (ho : o.symbols ≠ []) (hl : o.symbols.length < maxMessage) :
    o.collect .endOfTransmission =
      ({ o with symbols := [] }, some (decode (o.symbols ++ [.endOfTransmission]))) := by
  rw [collect, offer_of_room o _ (Or.inl ho) hl]
  rfl

/-- The end of a transmission leaves nothing behind, whether or not it is let in. -/
theorem symbols_collect_end (o : Outbox) : (o.collect .endOfTransmission).1.symbols = [] := by
  by_cases ho : o.symbols = []
  · rw [collect_of_empty o ho rfl, ho]
  · have hf : (o.symbols.isEmpty && !Symbol.isMark .endOfTransmission) = false := by simp [ho]
    rw [collect, offer, hf, if_neg Bool.false_ne_true]
    by_cases hl : o.symbols.length < maxMessage
    · rw [if_pos hl]
      rfl
    · rw [if_neg hl, if_pos rfl]
      rfl

theorem collect_congr {o p : Outbox} (h : o.symbols = p.symbols) (s : Symbol) :
    (o.collect s).2 = (p.collect s).2 ∧ (o.collect s).1.symbols = (p.collect s).1.symbols := by
  obtain ⟨symbols, m⟩ := o
  obtain ⟨_, n⟩ := p
  obtain rfl : symbols = _ := h
  unfold collect offer
  dsimp only
  split_ifs <;> cases s <;> exact ⟨rfl, rfl⟩

theorem feed_collect_of_empty (o : Outbox) (ho : o.symbols = []) (lead : List Symbol)
    (hs : ∀ s ∈ lead, s.isMark = false) : feed collect o lead = (o, []) :=
  feed_still collect o lead fun s h => collect_of_empty o ho (hs s h)

theorem feed_collect_of_room (o : Outbox) (body : List Symbol)
    (hs : o.symbols ≠ [] ∨ ∀ s ∈ body.head?, s.isMark = true)
    (hl : o.symbols.length + body.length ≤ maxMessage)
    (he : Symbol.endOfTransmission ∉ body) :
    feed collect o body = ({ o with symbols := o.symbols ++ body }, []) := by
  induction body generalizing o with
  | nil => simp
  | cons s body ih =>
    rw [List.length_cons] at hl
    rw [List.mem_cons, not_or] at he
    have ho := collect_of_room o s (hs.imp_right fun h => h s (by simp)) (by omega) (Ne.symm he.1)
    rw [feed_cons, ho, ih _ (Or.inl (by simp)) (by simp; omega) he.2]
    simp

theorem feed_collect_message (o : Outbox) (ho : o.symbols = []) (body : List Symbol)
    (hs : ∀ s ∈ body.head?, s.isMark = true) (hne : body ≠ [])
    (hl : (body ++ [Symbol.endOfTransmission]).length ≤ maxMessage)
    (he : Symbol.endOfTransmission ∉ body) :
    feed collect o (body ++ [.endOfTransmission]) =
      (o, [decode (body ++ [.endOfTransmission])]) := by
  rw [List.length_append, List.length_singleton] at hl
  obtain ⟨symbols, dropped⟩ := o
  obtain rfl : symbols = [] := ho
  rw [feed_concat, feed_collect_of_room _ body (Or.inr hs) (by simp; omega) he, List.nil_append,
    collect_end _ hne (by simp; omega)]
  rfl

end Outbox

namespace Transcriber

theorem process_eq (t : Transcriber) (ha : t.isInterpreting = true) (f : Frame) :
    t.process f =
      match (t.receiver.timer.step (t.receiver.hears f)).2 with
      | none =>
        ({ t with receiver :=
          { t.receiver with timer := (t.receiver.timer.step (t.receiver.hears f)).1 } }, none)
      | some s =>
        ({ receiver :=
            { t.receiver with
              timer := (t.receiver.timer.step (t.receiver.hears f)).1
              outbox := (t.receiver.outbox.collect s).1 }
           lastMessage := (t.receiver.outbox.collect s).2.or t.lastMessage
           messages := t.messages + (t.receiver.outbox.collect s).2.toList.length },
          (t.receiver.outbox.collect s).2) := by
  have ha : t.receiver.analysing = true := ha
  rw [process, Receiver.process, if_pos ha, Receiver.observe_eq]
  cases (t.receiver.timer.step (t.receiver.hears f)).2 with
  | none => rfl
  | some s =>
    dsimp only
    rw [Outbox.collect]
    rcases t.receiver.outbox.offer s with ⟨o, _ | _ | _ | _ | _⟩ <;> rfl

theorem process_of_stopped (t : Transcriber) (ha : t.isInterpreting = false) (f : Frame) :
    t.process f = (t, none) := by
  have ha : t.receiver.analysing = false := ha
  rw [process, Receiver.process, ha]
  rfl

theorem settings_process (t : Transcriber) (f : Frame) :
    (t.process f).1.receiver.settings = t.receiver.settings ∧
      (t.process f).1.isInterpreting = t.isInterpreting := by
  cases ha : t.isInterpreting with
  | false =>
    rw [process_of_stopped t ha]
    exact ⟨rfl, ha⟩
  | true =>
    rw [process_eq t ha]
    cases (t.receiver.timer.step (t.receiver.hears f)).2 <;> exact ⟨rfl, ha⟩

theorem process_parts (t : Transcriber) (ha : t.isInterpreting = true) (f : Frame) :
    (t.process f).1.receiver.timer = (t.receiver.timer.step (t.receiver.hears f)).1 ∧
    (t.process f).1.receiver.outbox =
      (t.receiver.timer.step (t.receiver.hears f)).2.elim t.receiver.outbox
        (fun s => (t.receiver.outbox.collect s).1) ∧
    (t.process f).2 =
      (t.receiver.timer.step (t.receiver.hears f)).2.bind
        (fun s => (t.receiver.outbox.collect s).2) := by
  rw [process_eq t ha]
  cases (t.receiver.timer.step (t.receiver.hears f)).2 <;> exact ⟨rfl, rfl, rfl⟩

theorem isInterpreting_feed (t : Transcriber) (frames : List Frame) :
    (feed process t frames).1.isInterpreting = t.isInterpreting := by
  induction frames generalizing t with
  | nil => rfl
  | cons f frames ih =>
    rw [feed_cons, ih]
    exact (settings_process t f).2

/-- The messages are those that the outbox collects from what the timer gives. -/
theorem feed_process (t : Transcriber) (ha : t.isInterpreting = true) (frames : List Frame) :
    (feed process t frames).1.receiver.timer =
      (feed RunTimer.step t.receiver.timer (frames.map t.receiver.hears)).1 ∧
    (feed process t frames).2 =
      (feed Outbox.collect t.receiver.outbox
        (feed RunTimer.step t.receiver.timer (frames.map t.receiver.hears)).2).2 := by
  induction frames generalizing t with
  | nil => exact ⟨rfl, rfl⟩
  | cons f frames ih =>
    obtain ⟨hs, hi⟩ := settings_process t f
    have hh : frames.map (t.process f).1.receiver.hears = frames.map t.receiver.hears :=
      List.map_congr_left fun g _ => Receiver.hears_congr hs g
    obtain ⟨htimer, hout⟩ := ih _ (hi.trans ha)
    rw [hh] at htimer hout
    rw [feed_cons, htimer, hout, List.map_cons, feed_cons, process_eq t ha]
    cases (t.receiver.timer.step (t.receiver.hears f)).2 with
    | none => exact ⟨rfl, rfl⟩
    | some s =>
      rw [Option.toList_some, List.singleton_append, feed_cons]
      exact ⟨rfl, rfl⟩

theorem feed_start {m : MorseSettings} {a : AnalysisSettings} {r : Receiver}
    (h : Receiver.create m a = .ok r) (frames : List Frame) :
    (feed process (start { receiver := r }) frames).2 =
      (feed Outbox.collect {}
        (feed RunTimer.step (.ofTiming r.timer.timing) (frames.map r.hears)).2).2 := by
  obtain ⟨-, rfl⟩ := Receiver.create_ok h
  rw [(feed_process _ rfl frames).2]
  rfl

end Transcriber

end ToneWatch.Morse
