import Mathlib
import ToneWatch.CommandLine.Listen
import ToneWatch.Proofs.Mailbox
import ToneWatch.Proofs.Queue
import ToneWatch.Proofs.Session.Events

namespace ToneWatch

theorem Mailbox.foldl_send (c : Nat) (events : List String) :
    (events.foldl (fun m e => m.send 0 e) (ofCapacity c)).capacity = max c 1 ∧
      (events.foldl (fun m e => m.send 0 e) (ofCapacity c)).queued = events.rtake (max c 1) := by
  induction events using List.reverseRecOn with
  | nil => exact ⟨rfl, (List.rtake_nil _).symm⟩
  | append_singleton events e ih =>
    obtain ⟨hcapacity, hqueued⟩ := ih
    have hlen := length_rtake (max c 1) events
    rw [List.foldl_append, List.foldl_cons, List.foldl_nil, rtake_concat (by omega)]
    generalize events.foldl (fun m e => m.send 0 e) (ofCapacity c) = m at *
    have hm : m.queued.length ≤ m.capacity := by
      rw [hcapacity, hqueued]
      omega
    rw [← hqueued, ← hcapacity]
    by_cases hfull : m.queued.length = m.capacity
    · rw [if_pos hfull, send_of_full hm (decide_eq_true hfull.ge)]
      exact ⟨rfl, rfl⟩
    · rw [if_neg hfull, send_of_room (decide_eq_false (by omega))]
      exact ⟨rfl, rfl⟩

namespace CommandLine

theorem report_eq (events : List String) :
    report events = (events.rtake eventCapacity).map fun e => .print (e ++ "\n") :=
  congrArg (List.map _) (Mailbox.foldl_send eventCapacity events).2

/-- What a command is after, the frames that it hands over and the events that these cause. -/
inductive Aim.Tells (files : Files) (r : Recording) (s : AnalysisSettings) :
    Aim → List Frame → List String → Prop
  | morse {given m : MorseSettings} {config : Option String} {receiver : Morse.Receiver}
      {framer : Framer} {t : Morse.Transcriber} {frames : List Frame}
      (hm : config.elim (.ok given) (fun path => MorseSettings.load s (files path)) = .ok m)
      (hr : Morse.Receiver.create m s = .ok receiver) (hf : Framer.create s = .ok framer)
      (ht : t = .start { receiver })
      (hframes : frames = Session.handed { recording := r, framer, consumer := t }) :
      Tells files r s (.morse given config) frames (feed Morse.Transcriber.process t frames).2
  | sounds {library : Option String} {l : Sound.Library} {w : Sound.Watcher} {framer : Framer}
      {frames : List Frame}
      (hl : library.elim (.ok .emoji) (fun path => Sound.Library.load (files path)) = .ok l)
      (hw : l.build = .ok w) (hf : Framer.create s = .ok framer)
      (hframes : frames = Session.handed { recording := r, framer, consumer := w.start }) :
      Tells files r s (.sounds library) frames (feed Sound.Watcher.process w.start frames).2

variable {files : Files} {r : Recording} {s : AnalysisSettings} {actions : List Action}

theorem exists_of_bind {ε α β : Type} {x : Except ε α} {f : α → Except ε β} {b : β}
    (h : x >>= f = .ok b) : ∃ a, x = .ok a ∧ f a = .ok b := by
  cases x with
  | error e => cases h
  | ok a => exact ⟨a, rfl, h⟩

theorem exists_of_mapError {ε ε' α : Type} {x : Except ε α} {f : ε → ε'} {a : α}
    (h : x.mapError f = .ok a) : x = .ok a := by
  cases x with
  | error e => cases h
  | ok a =>
    cases h
    rfl

theorem exists_of_map {ε α β : Type} {x : Except ε α} {f : α → β} {b : β}
    (h : f <$> x = .ok b) : ∃ a, x = .ok a ∧ f a = b := by
  cases x with
  | error e => cases h
  | ok a => exact ⟨a, rfl, Except.ok.inj h⟩

theorem listen_ok {σ ε : Type} [Consumer σ ε] {consumer : σ} {events : List ε}
    (h : listen r s consumer = .ok events) :
    ∃ framer, Framer.create s = .ok framer ∧
      events = (Session.run { recording := r, framer, consumer }).2 := by
  obtain ⟨framer, hframer, h⟩ := exists_of_bind h
  refine ⟨framer, exists_of_mapError hframer, ?_⟩
  cases hs : Framer.isStorable s with
  | false =>
    rw [hs] at h
    cases h
  | true =>
    rw [hs] at h
    exact (Except.ok.inj h).symm

theorem actions_sounds {library : Option String} {l : Sound.Library} {w : Sound.Watcher}
    {framer : Framer}
    (hl : library.elim (.ok .emoji) (fun path => Sound.Library.load (files path)) = .ok l)
    (hw : l.build = .ok w) (hf : Framer.create s = .ok framer) (hs : Framer.isStorable s = true) :
    (Aim.sounds library).actions files r s =
      .ok (report (Session.run { recording := r, framer, consumer := w.start }).2) := by
  have hlisten : listen r s w.start =
      .ok (Session.run { recording := r, framer, consumer := w.start }).2 := by
    rw [listen, hf, hs]
    rfl
  have hactions : (Aim.sounds library).actions files r s = report <$> listen r s w.start := by
    rw [Aim.actions, hl]
    change (Except.mapError _ l.build >>= _) = _
    rw [hw]
    rfl
  rw [hactions, hlisten]
  rfl

/-- Whether a command prints the events of its consumer. -/
def Aim.reports : Aim → Bool
  | morse .. => true
  | sounds _ => true
  | peaks .. => false

/-- The actions of a command report the events that the frames of its run cause. -/
theorem Aim.tells_of_actions {a : Aim} (ha : a.reports = true)
    (h : a.actions files r s = .ok actions) :
    ∃ frames events, a.Tells files r s frames events ∧ actions = report events := by
  cases a with
  | peaks short output packed => cases ha
  | morse given config =>
    obtain ⟨m, hm, h⟩ := exists_of_bind h
    obtain ⟨receiver, hr, h⟩ := exists_of_bind h
    obtain ⟨events, hlisten, rfl⟩ := exists_of_map h
    obtain ⟨framer, hf, rfl⟩ := listen_ok hlisten
    rw [Session.run_eq_feed (P := fun _ => True) (fun _ _ _ => rfl) (fun _ _ _ => trivial) _ trivial]
    exact ⟨_, _, .morse (exists_of_mapError hm) (exists_of_mapError hr) hf rfl rfl, rfl⟩
  | sounds library =>
    obtain ⟨l, hl, h⟩ := exists_of_bind h
    obtain ⟨w, hw, h⟩ := exists_of_bind h
    obtain ⟨events, hlisten, rfl⟩ := exists_of_map h
    obtain ⟨framer, hf, rfl⟩ := listen_ok hlisten
    rw [Session.run_eq_feed (P := fun w => w.analysing = true)
      Sound.Watcher.consume_eq_feed (fun _ _ hw => hw) _ rfl]
    exact ⟨_, _, .sounds (exists_of_mapError hl) (exists_of_mapError hw) hf rfl, rfl⟩

/-- A command prints one line for each of the newest events of a run, and a line for every event only
if there are no more of them than the mailbox has room for. -/
theorem Aim.prints_latest {a : Aim} (ha : a.reports = true)
    (h : a.actions files r s = .ok actions) :
    ∃ frames events, a.Tells files r s frames events ∧
      actions = (events.rtake eventCapacity).map (fun e => .print (e ++ "\n")) ∧
      (actions = events.map (fun e => .print (e ++ "\n")) ↔ events.length ≤ eventCapacity) := by
  obtain ⟨frames, events, htells, rfl⟩ := Aim.tells_of_actions ha h
  rw [report_eq]
  refine ⟨frames, events, htells, rfl, ?_⟩
  constructor
  · intro hall
    have hlen := congrArg List.length hall
    rw [List.length_map, List.length_map, length_rtake] at hlen
    omega
  · intro hle
    rw [rtake_of_length_le hle]

/-- A sound that is heard in every frame. -/
def anyFrame : Sound := { sequences := [⟨[[0]], 0, 0⟩], maxDeviation := 0 }

theorem feed_anyFrame {name : String} {w : Sound.Watcher}
    (hw : w.trackers = [(name, .ofSound anyFrame)]) (frames : List Frame) :
    (feed Sound.Watcher.process w frames).2 = List.replicate frames.length name := by
  induction frames generalizing w with
  | nil => rfl
  | cons f frames ih =>
    have hprocess : (w.process f).2 = some name ∧ (w.process f).1.trackers = w.trackers := by
      rw [Sound.Watcher.process, hw]
      exact ⟨rfl, rfl⟩
    rw [feed_cons, hprocess.1, ih (hprocess.2.trans hw)]
    rfl

/-- A library file that names it. -/
def anyFrameFile : String :=
  "\x7b\"sounds\": [\x7b\"name\": \"tick\", \"max_deviation\": 0, " ++
    "\"sequences\": [\x7b\"threshold\": 0, \"deviation\": 0, \"samples\": [[0]]\x7d]\x7d]\x7d"

theorem load_anyFrameFile :
    Sound.Library.load (some anyFrameFile.toUTF8.toList) = .ok ⟨[⟨"tick", anyFrame⟩]⟩ := by
  have hload : (Sound.Library.load (some anyFrameFile.toUTF8.toList)).toOption =
      some ⟨[⟨"tick", anyFrame⟩]⟩ := by
    decide +kernel
  revert hload
  cases Sound.Library.load (some anyFrameFile.toUTF8.toList) <;> simp [Except.toOption]

/-- Of 65 events the first is not printed. -/
theorem Aim.prints_latest_anyFrame :
    let files : Files := fun _ => some anyFrameFile.toUTF8.toList
    let r := Recording.ofSamples (List.replicate 260 0) 11000 256
    let s : AnalysisSettings := { frameSize := 4 }
    ∃ frames actions, (Aim.sounds (some "library.json")).actions files r s = .ok actions ∧
      Aim.Tells files r s (.sounds (some "library.json")) frames (List.replicate 65 "tick") ∧
      actions = List.replicate 64 (.print "tick\n") := by
  intro files r s
  let l : Sound.Library := ⟨[⟨"tick", anyFrame⟩]⟩
  have hload : Sound.Library.load (files "library.json") = .ok l := load_anyFrameFile
  have hbuild : l.build = .ok (.ofSounds [("tick", anyFrame)]) := rfl
  have hframer : Framer.create s = .ok { settings := s } :=
    (rfl : Framer.create { frameSize := 4 } = _)
  have hstorable : Framer.isStorable s = true :=
    (rfl : Framer.isStorable { frameSize := 4 } = true)
  have hactions : (Aim.sounds (some "library.json")).actions files r s = .ok _ :=
    actions_sounds hload hbuild hframer hstorable
  obtain ⟨frames, events, htells, hprinted, -⟩ := Aim.prints_latest rfl hactions
  have hevents : events = List.replicate 65 "tick" := by
    cases htells with
    | @sounds _ _ _ framer _ hl hw hf hframes =>
      obtain rfl := Except.ok.inj (hload.symm.trans hl)
      obtain rfl := Except.ok.inj (hbuild.symm.trans hw)
      have hhanded := Session.run_of_armed hf framer.analyse (List.replicate 260 0) 11000 256
        (by decide) (c := Sound.Watcher.start (.ofSounds [("tick", anyFrame)])) rfl
        Sound.Watcher.isAnalysing_consume
      have hcount := congrArg List.length hhanded
      rw [Framer.length_framesOf, chunks_eq_map, List.length_map, List.length_range,
        List.length_replicate] at hcount
      rw [feed_anyFrame rfl, hframes]
      have hquotient : 260 / (4 : UInt64).toNat = 65 := rfl
      exact congrArg (List.replicate · "tick") (hcount.trans hquotient)
  subst hevents
  rw [List.rtake, List.length_replicate, List.drop_replicate, List.map_replicate] at hprinted
  exact ⟨frames, _, hactions, htells, hprinted⟩

end CommandLine

end ToneWatch
