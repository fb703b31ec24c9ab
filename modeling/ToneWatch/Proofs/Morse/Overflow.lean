import Mathlib
import ToneWatch.Proofs.Morse.Reception

namespace ToneWatch.Morse

/-- A transcriber without a bound: it keeps all symbols of a message until the message ends. -/
structure Recorder where
  hears : Frame → Bool
  timer : RunTimer
  kept : List Symbol := []

namespace Recorder

def ofReceiver (r : Receiver) : Recorder :=
  { hears := r.hears, timer := r.timer }

/-- Adds a symbol to what is kept and gives the message that it ends. A message starts with a mark. -/
def note (kept : List Symbol) (s : Symbol) : List Symbol × Option (List Symbol) :=
  if kept.isEmpty && !s.isMark then (kept, none)
  else if s = .endOfTransmission then ([], some (kept ++ [s]))
  else (kept ++ [s], none)

/-- Takes a frame and gives the symbols of the message that it completes. -/
def process (c : Recorder) (f : Frame) : Recorder × Option (List Symbol) :=
  match c.timer.step (c.hears f) with
  | (timer, none) => ({ c with timer }, none)
  | (timer, some s) =>
    let (kept, message) := note c.kept s
    ({ c with timer, kept }, message)

theorem note_of_empty {s : Symbol} (hs : s.isMark = false) : note [] s = ([], none) := by
  simp [note, hs]

theorem note_end {kept : List Symbol} (hk : kept ≠ []) :
    note kept .endOfTransmission = ([], some (kept ++ [.endOfTransmission])) := by
  simp [note, hk]

theorem note_of_mark {kept : List Symbol} {s : Symbol} (hk : kept ≠ [] ∨ s.isMark = true)
    (he : s ≠ .endOfTransmission) : note kept s = (kept ++ [s], none) := by
  have h : (kept.isEmpty && !s.isMark) = false := by
    rcases hk with h | h <;> simp [h]
  rw [note, h, if_neg Bool.false_ne_true, if_neg he]

/-- What can happen to a symbol: it means nothing yet, ends the message or is part of it. -/
theorem note_cases (kept : List Symbol) (s : Symbol) :
    (kept = [] ∧ s.isMark = false ∧ note kept s = (kept, none)) ∨
    (kept ≠ [] ∧ s = .endOfTransmission ∧ note kept s = ([], some (kept ++ [s]))) ∨
    ((kept ≠ [] ∨ s.isMark = true) ∧ s ≠ .endOfTransmission ∧ note kept s = (kept ++ [s], none)) := by
  by_cases hk : kept = []
  · subst hk
    cases hs : s.isMark with
    | false => exact .inl ⟨rfl, rfl, note_of_empty hs⟩
    | true =>
      have he : s ≠ .endOfTransmission := by
        rintro rfl
        cases hs
      exact .inr (.inr ⟨.inr rfl, he, note_of_mark (.inr hs) he⟩)
  · by_cases he : s = .endOfTransmission
    · subst he
      exact .inr (.inl ⟨hk, rfl, note_end hk⟩)
    · exact .inr (.inr ⟨.inl hk, he, note_of_mark (.inl hk) he⟩)

theorem process_parts (c : Recorder) (f : Frame) :
    (c.process f).1 =
      { c with
          timer := (c.timer.step (c.hears f)).1
          kept := (c.timer.step (c.hears f)).2.elim c.kept fun s => (note c.kept s).1 } ∧
    (c.process f).2 = (c.timer.step (c.hears f)).2.bind fun s => (note c.kept s).2 := by
  unfold process
  rcases c.timer.step (c.hears f) with ⟨timer, _ | s⟩ <;> exact ⟨rfl, rfl⟩

theorem note_keeps {kept : List Symbol} (hk : Symbol.endOfTransmission ∉ kept) (s : Symbol) :
    Symbol.endOfTransmission ∉ (note kept s).1 ∧
      ∀ m ∈ (note kept s).2, m = kept ++ [.endOfTransmission] := by
  obtain ⟨-, -, h⟩ | ⟨-, rfl, h⟩ | ⟨-, he, h⟩ := note_cases kept s
  · rw [h]
    exact ⟨hk, by simp⟩
  · rw [h]
    exact ⟨by simp, by simp⟩
  · rw [h]
    exact ⟨by simp [hk, Ne.symm he], by simp⟩

theorem feed_note_end {kept : List Symbol} (hk : Symbol.endOfTransmission ∉ kept)
    (symbols : List Symbol) :
    ∀ m ∈ (feed note kept symbols).2,
      ∃ body, m = body ++ [.endOfTransmission] ∧ Symbol.endOfTransmission ∉ body := by
  induction symbols generalizing kept with
  | nil => simp
  | cons s symbols ih =>
    obtain ⟨hnext, hreply⟩ := note_keeps hk s
    intro m hm
    rw [feed_cons, List.mem_append, Option.mem_toList] at hm
    rcases hm with hm | hm
    · exact ⟨kept, hreply m hm, hk⟩
    · exact ih hnext m hm

/-- A recorder notes what the timer gives. -/
theorem feed_process (c : Recorder) (frames : List Frame) :
    let noted := feed note c.kept (feed RunTimer.step c.timer (frames.map c.hears)).2
    (feed process c frames).1.kept = noted.1 ∧ (feed process c frames).2 = noted.2 := by
  induction frames generalizing c with
  | nil => exact ⟨rfl, rfl⟩
  | cons f frames ih =>
    obtain ⟨hnext, hreply⟩ := process_parts c f
    obtain ⟨hkept, hmessages⟩ := ih (c.process f).1
    rw [feed_cons, hkept, hmessages, hreply, hnext, List.map_cons, feed_cons]
    cases (c.timer.step (c.hears f)).2 with
    | none => exact ⟨rfl, rfl⟩
    | some s => exact ⟨rfl, rfl⟩

end Recorder

/-- What is delivered of a message: its first symbols and its end, as many as there is room for. -/
def shorten (message : List Symbol) : List Symbol :=
  message.dropLast.take (Outbox.maxMessage - 1) ++ [.endOfTransmission]

/-- How many symbols there is no room for. -/
def excess (symbols : List Symbol) : Nat :=
  symbols.length - Outbox.maxMessage

theorem sum_excess_ended (before : Nat) (kept : List Symbol) (s : Symbol) :
    before + ([kept ++ [s]].map excess).sum + excess [] =
      before + (kept.length + 1 - Outbox.maxMessage) := by
  simp [excess]

namespace Outbox

theorem collect_of_full (o : Outbox) {s : Symbol} (hl : maxMessage ≤ o.symbols.length)
    (he : s ≠ .endOfTransmission) :
    o.collect s = ({ o with dropped := o.dropped + 1 }, none) := by
  have hne : o.symbols ≠ [] := List.ne_nil_of_length_pos (Nat.lt_of_lt_of_le (by decide) hl)
  have h : (o.symbols.isEmpty && !s.isMark) = false := by simp [hne]
  rw [collect, offer, h, if_neg Bool.false_ne_true, if_neg (by omega), if_neg he]

theorem collect_end_of_full (o : Outbox) (hl : maxMessage ≤ o.symbols.length) :
    o.collect .endOfTransmission =
      ({ symbols := [], dropped := o.dropped + 1 },
        some (decode (o.symbols.dropLast ++ [.endOfTransmission]))) := by
  have hne : o.symbols ≠ [] := List.ne_nil_of_length_pos (Nat.lt_of_lt_of_le (by decide) hl)
  have h : (o.symbols.isEmpty && !Symbol.isMark .endOfTransmission) = false := by simp [hne]
  rw [collect, offer, h, if_neg Bool.false_ne_true, if_neg (by omega), if_pos rfl]
  rfl

/-- An outbox with the first symbols of a message collects what can be delivered of it, and counts the
symbols it has no room for. -/
theorem collect_note (o : Outbox) (kept : List Symbol) (ho : o.symbols = kept.take maxMessage)
    (s : Symbol) :
    (o.collect s).1.symbols = (Recorder.note kept s).1.take maxMessage ∧
    (o.collect s).2 = (Recorder.note kept s).2.map (fun m => decode (shorten m)) ∧
    (o.collect s).1.dropped + excess kept =
      o.dropped + ((Recorder.note kept s).2.toList.map excess).sum +
        excess (Recorder.note kept s).1 := by
  have hlen : o.symbols.length = min maxMessage kept.length := by rw [ho, List.length_take]
  have hmax : maxMessage = 500 := rfl
  have hempty : kept ≠ [] → o.symbols ≠ [] := by
    intro hk
    apply List.ne_nil_of_length_pos
    have := List.length_pos_of_ne_nil hk
    omega
  obtain ⟨rfl, hs, h⟩ | ⟨hk, rfl, h⟩ | ⟨hk, he, h⟩ := Recorder.note_cases kept s
  · rw [h, collect_of_empty o (by rw [ho, List.take_nil]) hs]
    exact ⟨ho, rfl, by simp⟩
  · rw [h]
    obtain hl | hl := Nat.lt_or_ge kept.length maxMessage
    · have hall : o.symbols = kept := by rw [ho, List.take_of_length_le hl.le]
      have hwhole : shorten (kept ++ [.endOfTransmission]) = kept ++ [.endOfTransmission] := by
        rw [shorten, List.dropLast_concat, List.take_of_length_le (by omega)]
      rw [collect_end o (hempty hk) (by omega), Option.map_some, hwhole, hall]
      refine ⟨rfl, rfl, ?_⟩
      dsimp only [Option.toList_some]
      rw [sum_excess_ended, excess]
      omega
    · have hshort : shorten (kept ++ [.endOfTransmission]) =
          o.symbols.dropLast ++ [.endOfTransmission] := by
        rw [shorten, List.dropLast_concat, ho, List.dropLast_eq_take, List.length_take,
          List.take_take]
        congr 2
        omega
      rw [collect_end_of_full o (by omega), Option.map_some, hshort]
      refine ⟨rfl, rfl, ?_⟩
      dsimp only [Option.toList_some]
      rw [sum_excess_ended, excess]
      omega
  · rw [h]
    simp only [excess, Option.toList_none, List.map_nil, List.sum_nil, List.length_append,
      List.length_singleton, Option.map_none]
    obtain hl | hl := Nat.lt_or_ge kept.length maxMessage
    · rw [collect_of_room o s (hk.imp_left hempty) (by omega) he]
      refine ⟨?_, rfl, by simp only; omega⟩
      rw [ho, List.take_of_length_le hl.le, List.take_of_length_le (by simp; omega)]
    · rw [collect_of_full o (by omega) he]
      refine ⟨?_, rfl, by simp only; omega⟩
      rw [ho, List.take_append_of_le_length hl]

end Outbox

/-- Whether a recorder has heard what a transcriber has, and has kept all of the message of which the
transcriber has the first symbols. -/
structure Recorder.Mirrors (c : Recorder) (t : Transcriber) : Prop where
  interpreting : t.isInterpreting = true
  hears : t.receiver.hears = c.hears
  timer : t.receiver.timer = c.timer
  symbols : t.receiver.outbox.symbols = c.kept.take Outbox.maxMessage

namespace Recorder.Mirrors

variable {c : Recorder} {t : Transcriber}

/-- A frame completes a message for both or for neither. -/
theorem process (h : c.Mirrors t) (f : Frame) :
    (c.process f).1.Mirrors (t.process f).1 ∧
    (t.process f).2 = (c.process f).2.map (fun m => decode (shorten m)) ∧
    (t.process f).1.receiver.outbox.dropped + excess c.kept =
      t.receiver.outbox.dropped + ((c.process f).2.toList.map excess).sum +
        excess (c.process f).1.kept := by
  obtain ⟨hnext, hmessage⟩ := Recorder.process_parts c f
  obtain ⟨htimer, houtbox, hreply⟩ := Transcriber.process_parts t h.interpreting f
  obtain ⟨hsettings, hinterpreting⟩ := Transcriber.settings_process t f
  have hhears : (t.process f).1.receiver.hears = c.hears :=
    (funext (Receiver.hears_congr hsettings)).trans h.hears
  have hnote := fun s => Outbox.collect_note t.receiver.outbox c.kept h.symbols s
  rw [h.timer, h.hears] at htimer houtbox hreply
  rw [hreply, houtbox, hmessage, hnext]
  cases hstep : (c.timer.step (c.hears f)).2 with
  | none =>
    rw [hstep] at houtbox
    refine ⟨⟨hinterpreting.trans h.interpreting, hhears, htimer, ?_⟩, rfl, by simp⟩
    rw [houtbox]
    exact h.symbols
  | some s =>
    rw [hstep] at houtbox
    obtain ⟨hsymbols, hdelivered, hdropped⟩ := hnote s
    refine ⟨⟨hinterpreting.trans h.interpreting, hhears, htimer, ?_⟩, hdelivered, hdropped⟩
    rw [houtbox]
    exact hsymbols

theorem feed_process (h : c.Mirrors t) (frames : List Frame) :
    (feed Recorder.process c frames).1.Mirrors (feed Transcriber.process t frames).1 ∧
    replies Transcriber.process t frames =
      (replies Recorder.process c frames).map (Option.map fun m => decode (shorten m)) ∧
    (feed Transcriber.process t frames).1.receiver.outbox.dropped + excess c.kept =
      t.receiver.outbox.dropped + ((feed Recorder.process c frames).2.map excess).sum +
        excess (feed Recorder.process c frames).1.kept := by
  induction frames generalizing c t with
  | nil => exact ⟨h, rfl, rfl⟩
  | cons f frames ih =>
    obtain ⟨hnext, hreply, hdropped⟩ := h.process f
    obtain ⟨hlast, hreplies, hcount⟩ := ih hnext
    refine ⟨hlast, ?_, ?_⟩
    · rw [replies, replies, hreply, hreplies, List.map_cons]
    · simp only [feed_cons, List.map_append, List.sum_append]
      omega

theorem start {m : MorseSettings} {a : AnalysisSettings} {r : Receiver}
    (hr : Receiver.create m a = .ok r) :
    (Recorder.ofReceiver r).Mirrors (Transcriber.start { receiver := r }) := by
  obtain ⟨-, rfl⟩ := Receiver.create_ok hr
  exact ⟨rfl, rfl, rfl, rfl⟩

end Recorder.Mirrors

namespace Transcriber

/-- Whatever is heard, messages are cut but neither lost nor split, and the symbols that are missing
are counted. -/
theorem process_shortens {m : MorseSettings} {a : AnalysisSettings} {r : Receiver}
    (hr : Receiver.create m a = .ok r) (frames : List Frame) :
    let whole := feed Recorder.process (.ofReceiver r) frames
    let outbox := (feed process (start { receiver := r }) frames).1.receiver.outbox
    replies process (start { receiver := r }) frames =
      (replies Recorder.process (.ofReceiver r) frames).map
        (Option.map fun m => decode (shorten m)) ∧
    (∀ m ∈ whole.2, ∃ body, m = body ++ [.endOfTransmission] ∧ Symbol.endOfTransmission ∉ body) ∧
    outbox.symbols = whole.1.kept.take Outbox.maxMessage ∧
    outbox.dropped = (whole.2.map excess).sum + excess whole.1.kept := by
  intro whole outbox
  obtain ⟨hlast, hreplies, hcount⟩ := (Recorder.Mirrors.start hr).feed_process frames
  have hnone : (Recorder.ofReceiver r).kept = [] ∧
      (start { receiver := r }).receiver.outbox.dropped = 0 := by
    obtain ⟨-, rfl⟩ := Receiver.create_ok hr
    exact ⟨rfl, rfl⟩
  rw [hnone.1, hnone.2, Nat.zero_add] at hcount
  refine ⟨hreplies, ?_, hlast.symbols, hcount⟩
  rw [(Recorder.feed_process _ frames).2]
  exact Recorder.feed_note_end (by simp [hnone.1]) _

/-- A message with three symbols too many is delivered, and nothing of it is left in the next one. -/
theorem process_shortens_long :
    let keys := fun n => (List.replicate n [Frame.ofList [1950], .silent]).flatten
    let dots := fun n => List.replicate n (Symbol.mark .dot)
    let frames := keys 502 ++ List.replicate 12 Frame.silent ++ keys 2
    ∃ r, Receiver.create { dotDurationMs := 12 } .forMorse = .ok r ∧
      (feed Recorder.process (.ofReceiver r) frames).2 = [dots 502 ++ [.endOfTransmission]] ∧
      (feed process (start { receiver := r }) frames).2 =
        [decode (dots 499 ++ [.endOfTransmission])] ∧
      (feed process (start { receiver := r }) frames).1.receiver.outbox.symbols = dots 2 ∧
      (feed process (start { receiver := r }) frames).1.receiver.outbox.dropped = 3 := by
  intro keys dots frames
  let r : Receiver := { settings := { dotDurationMs := 12 }, timer := .ofTiming ⟨1, 0⟩ }
  have hcreate : Receiver.create { dotDurationMs := 12 } .forMorse = .ok r := by
    have ha : AnalysisSettings.forMorse.validate = .ok () := rfl
    have hm : MorseSettings.validate { dotDurationMs := 12 } .forMorse = .ok () := by decide +kernel
    have ht : Timing.ofSettings { dotDurationMs := 12 } .forMorse = ⟨1, 0⟩ := by decide +kernel
    rw [Receiver.create, ha, hm, ht]
    rfl
  have hsymbols : (feed RunTimer.step (Recorder.ofReceiver r).timer
      (frames.map (Recorder.ofReceiver r).hears)).2 =
        dots 502 ++ .endOfTransmission :: dots 2 := by decide +kernel
  have hnoted : feed Recorder.note (Recorder.ofReceiver r).kept
      (dots 502 ++ .endOfTransmission :: dots 2) =
        (dots 2, [dots 502 ++ [.endOfTransmission]]) := by decide +kernel
  obtain ⟨hkept, hmessages⟩ := Recorder.feed_process (.ofReceiver r) frames
  rw [hsymbols, hnoted] at hkept hmessages
  have hshort : shorten (dots 502 ++ [.endOfTransmission]) = dots 499 ++ [.endOfTransmission] := by
    decide +kernel
  obtain ⟨hreplies, -, hleft, hdropped⟩ := process_shortens hcreate frames
  have hdelivered := congrArg List.reduceOption hreplies
  rw [List.reduceOption_map, ← feed_events, ← feed_events, hmessages, List.map_singleton,
    hshort] at hdelivered
  rw [hkept] at hleft
  rw [hkept, hmessages] at hdropped
  exact ⟨r, hcreate, hmessages, hdelivered, hleft.trans (by decide +kernel),
    hdropped.trans (by decide +kernel)⟩

end Transcriber

end ToneWatch.Morse
