import Mathlib
import ToneWatch.Proofs.Morse.Alternation
import ToneWatch.Proofs.Morse.Reception

namespace ToneWatch.Morse

open Outbox (maxMessage)

/-- What a message looks like. In one that fills an outbox some symbols are missing. -/
structure IsMessage (symbols : List Symbol) : Prop where
  starts : ∃ m rest, symbols = .mark m :: rest
  ends : ∃ body, symbols = body ++ [.endOfTransmission] ∧ Symbol.endOfTransmission ∉ body
  fits : symbols.length ≤ maxMessage
  apart : symbols.length < maxMessage → symbols.IsChain Symbol.Apart

/-- What the beginning of a message looks like. -/
structure IsBegun (symbols : List Symbol) : Prop where
  starts : ∀ s ∈ symbols.head?, s.isMark = true
  unended : Symbol.endOfTransmission ∉ symbols
  fits : symbols.length ≤ maxMessage
  apart : symbols.length < maxMessage → symbols.IsChain Symbol.Apart

/-- Whether symbols can go on with a gap. -/
def EndsInMark (symbols : List Symbol) : Prop := ∀ s ∈ symbols.getLast?, s.isMark = true

theorem exists_mark {s : Symbol} (h : s.isMark = true) : ∃ m, s = .mark m := by
  cases s with
  | mark m => exact ⟨m, rfl⟩
  | _ => cases h

theorem apart_concat {symbols : List Symbol} {s : Symbol} (h : symbols.IsChain Symbol.Apart)
    (hs : s.isMark = false → EndsInMark symbols) : (symbols ++ [s]).IsChain Symbol.Apart := by
  refine List.isChain_append.mpr ⟨h, .singleton s, ?_⟩
  intro last hlast first hfirst
  obtain rfl : s = first := Option.some.inj hfirst
  cases hm : s.isMark with
  | true => exact .inr hm
  | false => exact .inl (hs hm last hlast)

theorem IsBegun.nil : IsBegun [] := ⟨by simp, by simp, by simp, fun _ => .nil⟩

theorem IsBegun.concat {symbols : List Symbol} (h : IsBegun symbols) {s : Symbol}
    (hs : symbols ≠ [] ∨ s.isMark = true) (he : s ≠ .endOfTransmission)
    (hl : symbols.length < maxMessage) (hgap : s.isMark = false → EndsInMark symbols) :
    IsBegun (symbols ++ [s]) := by
  refine ⟨?_, ?_, ?_, fun _ => apart_concat (h.apart hl) hgap⟩
  · intro first hfirst
    cases symbols with
    | nil =>
      obtain rfl : s = first := Option.some.inj hfirst
      exact hs.resolve_left fun hne => hne rfl
    | cons a rest => exact h.starts first hfirst
  · simp [h.unended, Ne.symm he]
  · rw [List.length_append, List.length_singleton]
    exact hl

/-- An end makes a message of its beginning, also where it takes the place of its last symbol. -/
theorem IsBegun.ended {symbols : List Symbol} (h : IsBegun symbols) (hne : symbols ≠ [])
    (hgap : symbols.length < maxMessage → EndsInMark symbols) :
    IsMessage (symbols.take (maxMessage - 1) ++ [.endOfTransmission]) := by
  obtain ⟨first, rest, rfl⟩ := List.exists_cons_of_ne_nil hne
  obtain ⟨m, rfl⟩ := exists_mark (h.starts first rfl)
  refine ⟨⟨m, rest.take (maxMessage - 2) ++ [.endOfTransmission], rfl⟩, ⟨_, rfl, ?_⟩, ?_, ?_⟩
  · exact fun hmem => h.unended (List.mem_of_mem_take hmem)
  · rw [List.length_append, List.length_singleton, List.length_take]
    have hmax : maxMessage = 500 := rfl
    omega
  · intro hl
    rw [List.length_append, List.length_singleton, List.length_take] at hl
    have hshort : (Symbol.mark m :: rest).length < maxMessage - 1 := by omega
    rw [List.take_of_length_le hshort.le]
    exact apart_concat (h.apart (by omega)) fun _ => hgap (by omega)

namespace Outbox

/-- The symbols that are drained with a symbol: all, if it is the end of a transmission and is let in. -/
def message? (o : Outbox) (s : Symbol) : Option (List Symbol) :=
  match o.offer s with
  | (o, some .endOfTransmission) => some o.symbols
  | _ => none

theorem message?_end (o : Outbox) (ho : o.symbols ≠ []) (hl : o.symbols.length ≤ maxMessage) :
    o.message? .endOfTransmission =
      some (o.symbols.take (maxMessage - 1) ++ [.endOfTransmission]) := by
  obtain hroom | hfull := Nat.lt_or_eq_of_le hl
  · rw [message?, offer_of_room o _ (.inl ho) hroom, List.take_of_length_le (by omega)]
  · have hlead : (o.symbols.isEmpty && !Symbol.isMark .endOfTransmission) = false := by simp [ho]
    rw [message?, offer, hlead, if_neg Bool.false_ne_true, if_neg (by omega), if_pos rfl,
      List.dropLast_eq_take, hfull]

theorem offer_of_full (o : Outbox) {s : Symbol} (ho : o.symbols ≠ [])
    (hl : maxMessage ≤ o.symbols.length) (he : s ≠ .endOfTransmission) :
    o.offer s = ({ o with dropped := o.dropped + 1 }, none) := by
  have hlead : (o.symbols.isEmpty && !s.isMark) = false := by simp [ho]
  rw [offer, hlead, if_neg Bool.false_ne_true, if_neg (by omega), if_neg he]

theorem collect_part (o : Outbox) {s : Symbol} (hs : o.symbols ≠ [] ∨ s.isMark = true)
    (he : s ≠ .endOfTransmission) :
    o.message? s = none ∧ (o.collect s).1.symbols =
      if o.symbols.length < maxMessage then o.symbols ++ [s] else o.symbols := by
  by_cases hl : o.symbols.length < maxMessage
  · rw [collect_of_room o s hs hl he, if_pos hl, message?, offer_of_room o s hs hl]
    refine ⟨?_, rfl⟩
    cases s with
    | endOfTransmission => exact absurd rfl he
    | _ => rfl
  · have ho : o.symbols ≠ [] := by
      rintro ho
      rw [ho] at hl
      exact hl (by decide)
    rw [message?, collect, offer_of_full o ho (Nat.le_of_not_lt hl) he, if_neg hl]
    exact ⟨rfl, rfl⟩

end Outbox

/-- What a phase and the symbols of an outbox have to do with each other: the outbox holds the beginning
of a message, and that ends in a mark wherever a gap may be next. -/
structure Composes (p : Phase) (symbols : List Symbol) : Prop where
  regular : p.Regular
  begun : IsBegun symbols
  marked : p.owesMark = false → symbols.length < maxMessage → EndsInMark symbols

namespace Composes

variable {p p' : Phase} {o : Outbox} {s : Symbol}

theorem of_empty (hp : p.Regular) : Composes p [] :=
  ⟨hp, .nil, fun _ _ s hs => by cases hs⟩

theorem rest (h : Composes p o.symbols) (hm : p.Moves none p') : Composes p' o.symbols := by
  obtain ⟨-, -, hnone⟩ := hm.owes h.regular
  refine ⟨hm.regular h.regular, h.begun, fun hp' hl => h.marked ?_ hl⟩
  cases hp : p.owesMark with
  | false => rfl
  | true => exact (hnone rfl hp).symm.trans hp'

/-- Where a gap is completed, it finds a mark before it. -/
theorem before_gap (h : Composes p o.symbols) (hm : p.Moves (some s) p') (hs : s.isMark = false)
    (hl : o.symbols.length < maxMessage) : EndsInMark o.symbols := by
  refine h.marked ?_ hl
  rw [Bool.eq_false_iff]
  intro howes
  have hmark := (hm.owes h.regular).1 s rfl howes
  rw [hs] at hmark
  cases hmark

/-- A symbol means nothing yet, goes on with the message or ends it. -/
theorem collect (h : Composes p o.symbols) (hm : p.Moves (some s) p') :
    Composes p' (o.collect s).1.symbols ∧ ∀ m ∈ o.message? s, IsMessage m := by
  have hregular := hm.regular h.regular
  by_cases hlead : o.symbols = [] ∧ s.isMark = false
  · obtain ⟨ho, hs⟩ := hlead
    rw [Outbox.message?, Outbox.collect, Outbox.offer_of_empty o ho hs]
    exact ⟨ho ▸ of_empty hregular, by simp⟩
  have hs : o.symbols ≠ [] ∨ s.isMark = true := by
    rw [not_and, Bool.not_eq_false] at hlead
    exact not_or_of_imp hlead
  by_cases he : s = .endOfTransmission
  · obtain rfl := he
    have ho : o.symbols ≠ [] := hs.resolve_right Bool.false_ne_true
    rw [Outbox.symbols_collect_end, Outbox.message?_end o ho h.begun.fits]
    refine ⟨of_empty hregular, ?_⟩
    intro m hmessage
    rw [← Option.some.inj hmessage]
    exact h.begun.ended ho (h.before_gap hm rfl)
  · obtain ⟨hmessage, hsymbols⟩ := o.collect_part hs he
    rw [hmessage, hsymbols]
    refine ⟨?_, by simp⟩
    split
    · next hl =>
      refine ⟨hregular, h.begun.concat hs he hl fun hgap => h.before_gap hm hgap hl, ?_⟩
      intro howes _ last hlast
      rw [List.getLast?_concat] at hlast
      obtain rfl : s = last := Option.some.inj hlast
      by_contra hgap
      rw [(hm.owes h.regular).2.1 s rfl (Bool.eq_false_iff.mpr hgap)] at howes
      cases howes
    · next hl => exact ⟨hregular, h.begun, fun _ hlt => absurd hlt hl⟩

end Composes

namespace Transcriber

/-- Takes a frame and gives the symbols that are drained for the message that it completes. -/
def drain (t : Transcriber) (f : Frame) : Transcriber × Option (List Symbol) :=
  ((t.process f).1,
    match t.receiver.process f with
    | (receiver, some .endOfTransmission) => some receiver.pull.2
    | _ => none)

/-- A message is the text of the symbols that are drained for it. -/
theorem process_eq_drain (t : Transcriber) (f : Frame) :
    t.process f = ((t.drain f).1, (t.drain f).2.map decode) := by
  unfold drain process
  rcases t.receiver.process f with ⟨receiver, _ | _ | _ | _ | _⟩ <;> rfl

theorem drain_eq (t : Transcriber) (ha : t.isInterpreting = true) (f : Frame) :
    (t.drain f).2 =
      (t.receiver.timer.step (t.receiver.hears f)).2.bind t.receiver.outbox.message? := by
  have ha : t.receiver.analysing = true := ha
  rw [drain, Receiver.process, if_pos ha, Receiver.observe_eq]
  cases (t.receiver.timer.step (t.receiver.hears f)).2 with
  | none => rfl
  | some s =>
    dsimp only [Option.bind_some]
    rw [Outbox.message?]
    rcases t.receiver.outbox.offer s with ⟨o, _ | _ | _ | _ | _⟩ <;> rfl

/-- Whether a transcriber listens and holds the beginning of a message. -/
def Composing (t : Transcriber) : Prop :=
  t.isInterpreting = true ∧ Composes t.receiver.timer.phase t.receiver.outbox.symbols

theorem Composing.drain {t : Transcriber} (h : t.Composing) (f : Frame) :
    (t.drain f).1.Composing ∧ ∀ m ∈ (t.drain f).2, IsMessage m := by
  obtain ⟨ha, hcomposes⟩ := h
  obtain ⟨htimer, houtbox, -⟩ := process_parts t ha f
  have hm := t.receiver.timer.step_moves (t.receiver.hears f)
  have hnext : (t.process f).1.isInterpreting = true := (settings_process t f).2.trans ha
  rw [drain_eq t ha]
  change (_ ∧ Composes (t.process f).1.receiver.timer.phase (t.process f).1.receiver.outbox.symbols) ∧
    _
  rw [htimer, houtbox]
  cases hs : (t.receiver.timer.step (t.receiver.hears f)).2 with
  | none =>
    rw [hs] at hm
    exact ⟨⟨hnext, hcomposes.rest hm⟩, by simp⟩
  | some s =>
    rw [hs] at hm
    obtain ⟨hcollect, hmessage⟩ := hcomposes.collect hm
    exact ⟨⟨hnext, hcollect⟩, hmessage⟩

/-- Whatever is heard, every message is the text of drained symbols that look like a message. -/
theorem drained_messages {m : MorseSettings} {a : AnalysisSettings} {r : Receiver}
    (hr : Receiver.create m a = .ok r) (frames : List Frame) :
    replies process (start { receiver := r }) frames =
      (replies drain (start { receiver := r }) frames).map (Option.map decode) ∧
    ∀ symbols ∈ (feed drain (start { receiver := r }) frames).2, IsMessage symbols := by
  obtain ⟨-, rfl⟩ := Receiver.create_ok hr
  constructor
  · rw [← replies_map]
    congr 1
    funext t f
    exact process_eq_drain t f
  · refine feed_events_forall drain Composing IsMessage (fun t f ht => ht.drain f) _ ?_ frames
    exact ⟨rfl, .of_empty (RunTimer.regular_ofTiming _)⟩

/-- Two dots with a gap between them, a few stray frames of the tone and a long silence. -/
theorem drained_messages_noisy :
    let frames := [(4, false), (9, true), (27, false), (20, true), (3, false), (1, true), (13, false),
      (2, true), (120, false)].flatMap fun (n, tone) =>
        List.replicate n (if tone then Frame.ofList [1950] else .silent)
    let message : List Symbol := [.mark .dot, .letterGap, .mark .dot, .endOfTransmission]
    ∃ r, Receiver.create {} .forMorse = .ok r ∧
      (feed drain (start { receiver := r }) frames).2 = [message] ∧ IsMessage message := by
  intro frames message
  have hdrained : (feed drain (start { receiver := { settings := {}, timer := .ofTiming ⟨9, 7⟩ } })
      frames).2 = [message] := by decide +kernel
  have hmessages := (drained_messages Receiver.create_default frames).2
  rw [hdrained] at hmessages
  exact ⟨_, Receiver.create_default, hdrained, hmessages message (List.mem_singleton_self _)⟩

end Transcriber

end ToneWatch.Morse
