import Mathlib
import ToneWatch.Proofs.Sound.Watching

namespace ToneWatch

namespace History

variable {α : Type}

/-- A history that has forgotten nothing of a log, latest first. -/
def whole (log : List α) : History α := { window := log.length, newest := log }

end History

namespace Sound

/-- A sound and all rows recorded since it last matched, latest first. -/
structure Chronicle where
  sound : Sound
  rows : List (List (Option UInt8)) := []

namespace Chronicle

/-- All that the sequence at a place has recorded, latest first. -/
def column (c : Chronicle) (k : Nat) : List (Option UInt8) :=
  c.rows.map fun row => row[k]?.join

def record (c : Chronicle) (k : Nat) : History (Option UInt8) :=
  .whole (c.column k)

/-- The record that the sequence at a place goes on from. -/
def before (c : Chronicle) : Nat → Option (History (Option UInt8))
  | 0 => none
  | k + 1 => some (c.record k)

/-- Records the newest of all frames, latest first. -/
def update (c : Chronicle) (fed : List Frame) : Chronicle :=
  let row := c.sound.sequences.mapIdx fun k q => Tracker.fewest? c.sound fed (c.before k) q
  { c with rows := row :: c.rows }

/-- Whether the whole chain ends at the newest frame; if so, the rows are forgotten. -/
def matched (c : Chronicle) : Chronicle × Bool :=
  match Tracker.missesAgo? (c.record (c.sound.sequences.length - 1)) 1 with
  | none => (c, false)
  | some misses => if misses ≤ c.sound.maxDeviation then ({ c with rows := [] }, true) else (c, false)

def step (c : Chronicle) (fed : List Frame) : Chronicle × Bool :=
  (c.update fed).matched

end Chronicle

/-- Chronicles of several sounds and all frames since the last stop, latest first. -/
structure Chronicler where
  chronicles : List (String × Chronicle)
  fed : List Frame := []
  analysing : Bool := false

/-- What may be done to a watcher. -/
inductive Call where
  | start
  | stop
  | process (frame : Frame)
  | consume (frames : List Frame)

/-- What comes back from a call that takes frames, and what the handler hears meanwhile. -/
structure Answer where
  returned : Option String := none
  told : List String
  deriving DecidableEq

namespace Chronicler

def ofSounds (sounds : List (String × Sound)) : Chronicler :=
  { chronicles := sounds.map fun (name, s) => (name, { sound := s }) }

def start (c : Chronicler) : Chronicler :=
  { c with analysing := true }

def stop (c : Chronicler) : Chronicler :=
  { chronicles := c.chronicles.map fun (name, d) => (name, { d with rows := [] }) }

/-- Steps the chronicles until one matches; the others are left as they are. -/
def firstMatch (fed : List Frame) :
    List (String × Chronicle) → List (String × Chronicle) × Option String
  | [] => ([], none)
  | (name, c) :: rest =>
    match c.step fed with
    | (c, true) => ((name, c) :: rest, some name)
    | (c, false) =>
      let (rest, found) := firstMatch fed rest
      ((name, c) :: rest, found)

def process (c : Chronicler) (f : Frame) : Chronicler × Option String :=
  let fed := f :: c.fed
  let (chronicles, found) := firstMatch fed c.chronicles
  ({ c with chronicles, fed }, found)

def call (c : Chronicler) : Call → Chronicler × Option Answer
  | .start => (c.start, none)
  | .stop => (c.stop, none)
  | .process f =>
    let (d, found) := c.process f
    (d, some { returned := found, told := if c.analysing then found.toList else [] })
  | .consume fs =>
    let (d, names) := if c.analysing then feed process c fs else (c, [])
    (d, some { told := names })

end Chronicler

namespace Watcher

def call (w : Watcher) : Call → Watcher × Option Answer
  | .start => (w.start, none)
  | .stop => (w.stop, none)
  | .process f =>
    let (v, found) := w.process f
    (v, some { returned := found, told := (w.handled found).toList })
  | .consume fs =>
    let (v, names) := Consumer.consume w fs
    (v, some { told := names })

end Watcher

/-- Whether a tracker has kept what it may still look up of a chronicle. -/
structure Remembers (t : Tracker) (c : Chronicle) : Prop where
  sound : t.sound = c.sound
  length : t.records.length = c.sound.sequences.length
  width : ∀ row ∈ c.rows, row.length = c.sound.sequences.length
  records : ∀ (k : Nat) (h : History (Option UInt8)), t.records[k]? = some h →
    h.window = max c.sound.historyWindow 1 ∧ h.Holds (c.column k)

variable {t : Tracker} {c : Chronicle} {recent : History Frame} {fed : List Frame}

theorem missesAgo?_whole {h : History (Option UInt8)} {log : List (Option UInt8)} (hh : h.Holds log)
    {ago : Nat} (h0 : 0 < ago) (hago : ago ≤ h.window) :
    Tracker.missesAgo? h ago = Tracker.missesAgo? (.whole log) ago := by
  rw [Tracker.missesAgo?, Tracker.missesAgo?, hh.ago? h0 hago, History.ago?, if_neg (by omega)]
  rfl

/-- What a sequence goes on from is the same if its record is still known so far back. -/
theorem Remembers.base? (h : Remembers t c) {k : Nat} (hk : k < t.records.length) {length : Nat}
    (h0 : 0 < length) (hl : length + 1 ≤ c.sound.historyWindow) :
    Tracker.base? (t.before k) length = Tracker.base? (c.before k) length := by
  cases k with
  | zero => rfl
  | succ k =>
    have hget : t.records[k]? = some t.records[k] := List.getElem?_eq_getElem (by omega)
    obtain ⟨hwindow, hholds⟩ := h.records k _ hget
    rw [Tracker.before, hget, Chronicle.before, Chronicle.record, Tracker.base?, Tracker.base?,
      missesAgo?_whole hholds h0 (by omega), missesAgo?_whole hholds (Nat.succ_pos _) (by omega)]

theorem Remembers.fewest? (h : Remembers t c) (hrecent : recent.Holds fed)
    (hwindow : c.sound.historyWindow ≤ recent.window) {k : Nat} (hk : k < t.records.length) :
    Tracker.fewest? t.sound recent.newest (t.before k) (t.sound.part k) =
      Tracker.fewest? c.sound fed (c.before k) (c.sound.part k) := by
  rw [h.sound]
  apply List.foldl_ext
  intro best x hx
  have hl := length_lt_historyWindow hx
  rw [Tracker.tryout, Tracker.tryout, hrecent.take (n := x.length) (by omega)]
  by_cases hempty : x = []
  · simp [hempty]
  · rw [h.base? hk (List.length_pos_of_ne_nil hempty) hl]

theorem Remembers.update (h : Remembers t c) (hrecent : recent.Holds fed)
    (hwindow : c.sound.historyWindow ≤ recent.window) :
    Remembers (t.update recent.newest) (c.update fed) := by
  have hlen : t.records.length = t.sound.sequences.length := by rw [h.length, h.sound]
  refine ⟨h.sound, (Tracker.length_update t _ hlen).trans h.length,
    List.forall_mem_cons.mpr ⟨List.length_mapIdx, h.width⟩, ?_⟩
  intro k r hr
  have hk : k < t.records.length := by
    have hlt := (List.getElem?_eq_some_iff.mp hr).1
    rwa [Tracker.length_update t _ hlen] at hlt
  have hq : c.sound.sequences[k]? = some (c.sound.part k) := by
    rw [part, List.getElem?_eq_getElem (h.length ▸ hk), Option.getD_some]
  have hcolumn : (c.update fed).column k =
      Tracker.fewest? c.sound fed (c.before k) (c.sound.part k) :: c.column k := by
    rw [Chronicle.column, Chronicle.update, List.map_cons, List.getElem?_mapIdx, hq]
    rfl
  obtain ⟨hw, hholds⟩ := h.records k _ (List.getElem?_eq_getElem hk)
  rw [Tracker.getElem?_update t _ hlen hk, h.fewest? hrecent hwindow hk] at hr
  rw [← Option.some.inj hr, hcolumn]
  exact ⟨(History.window_push _ _).trans hw, hholds.push _⟩

theorem Remembers.reset (h : Remembers t c) : Remembers t.reset { c with rows := [] } := by
  refine ⟨h.sound, (List.length_map _).trans h.length, nofun, ?_⟩
  intro k r hr
  rw [Tracker.reset, List.getElem?_map] at hr
  obtain ⟨d, hd, rfl⟩ := Option.map_eq_some_iff.mp hr
  exact ⟨(h.records k d hd).1, .empty _ rfl⟩

theorem Remembers.ofSound (s : Sound) : Remembers (.ofSound s) { sound := s } := by
  refine ⟨rfl, List.length_map _, nofun, ?_⟩
  intro k r hr
  obtain ⟨q, -, rfl⟩ := List.mem_map.mp (List.mem_of_getElem? hr)
  exact ⟨rfl, .empty _ rfl⟩

/-- Whether a chain ends at the newest frame is never forgotten. -/
theorem Remembers.latest (h : Remembers t c) :
    t.records.getLast?.bind (Tracker.missesAgo? · 1) =
      Tracker.missesAgo? (c.record (c.sound.sequences.length - 1)) 1 := by
  rw [List.getLast?_eq_getElem?, h.length]
  cases hr : t.records[c.sound.sequences.length - 1]? with
  | none =>
    have hlast := List.getElem?_eq_none_iff.mp hr
    rw [h.length] at hlast
    have hnone : ∀ o ∈ c.column (c.sound.sequences.length - 1), o = none := by
      intro o ho
      obtain ⟨row, hrow, rfl⟩ := List.mem_map.mp ho
      rw [List.getElem?_eq_none (by rw [h.width row hrow]; exact hlast), Option.join_none]
    symm
    rw [Option.bind_none, Tracker.missesAgo?, Chronicle.record, History.ago?, if_neg Nat.one_ne_zero]
    cases hc : c.column (c.sound.sequences.length - 1) with
    | nil => rfl
    | cons o rest =>
      rw [hc] at hnone
      exact hnone o List.mem_cons_self
  | some r =>
    obtain ⟨hw, hholds⟩ := h.records _ r hr
    exact missesAgo?_whole hholds Nat.one_pos (by omega)

theorem Remembers.matched (h : Remembers t c) :
    t.matched.2 = c.matched.2 ∧ Remembers t.matched.1 c.matched.1 := by
  rw [Tracker.matched, Chronicle.matched, h.latest, h.sound]
  cases Tracker.missesAgo? (c.record (c.sound.sequences.length - 1)) 1 with
  | none => exact ⟨rfl, h⟩
  | some misses =>
    dsimp only
    split
    · exact ⟨rfl, h.reset⟩
    · exact ⟨rfl, h⟩

theorem Remembers.step (h : Remembers t c) (hrecent : recent.Holds fed)
    (hwindow : c.sound.historyWindow ≤ recent.window) :
    (t.step recent.newest).2 = (c.step fed).2 ∧
      Remembers (t.step recent.newest).1 (c.step fed).1 :=
  (h.update hrecent hwindow).matched

theorem Chronicle.sound_step (c : Chronicle) (fed : List Frame) : (c.step fed).1.sound = c.sound := by
  unfold step matched
  split
  · rfl
  · split <;> rfl

/-- Whether a tracker under some name and a chronicle go together, within a window of frames. -/
structure Paired (window : Nat) (p : String × Tracker) (q : String × Chronicle) : Prop where
  name : p.1 = q.1
  remembers : Remembers p.2 q.2
  window_le : q.2.sound.historyWindow ≤ window

theorem firstMatch_paired (hrecent : recent.Holds fed) {trackers : List (String × Tracker)}
    {chronicles : List (String × Chronicle)}
    (h : List.Forall₂ (Paired recent.window) trackers chronicles) :
    (Watcher.firstMatch recent.newest trackers).2 = (Chronicler.firstMatch fed chronicles).2 ∧
      List.Forall₂ (Paired recent.window) (Watcher.firstMatch recent.newest trackers).1
        (Chronicler.firstMatch fed chronicles).1 := by
  induction h with
  | nil => exact ⟨rfl, .nil⟩
  | @cons p q trackers chronicles hp hrest ih =>
    obtain ⟨name, t⟩ := p
    obtain ⟨name', c⟩ := q
    obtain ⟨rfl, hremembers, hwindow⟩ := hp
    have hpaired : Paired recent.window (name, (t.step recent.newest).1) (name, (c.step fed).1) :=
      ⟨rfl, (hremembers.step hrecent hwindow).2, by rw [c.sound_step]; exact hwindow⟩
    have hm := (hremembers.step hrecent hwindow).1
    rw [Watcher.firstMatch, Chronicler.firstMatch]
    revert hpaired hm
    generalize t.step recent.newest = x
    generalize c.step fed = y
    obtain ⟨t', b⟩ := x
    obtain ⟨c', b'⟩ := y
    rintro hpaired rfl
    cases b with
    | true => exact ⟨rfl, .cons hpaired hrest⟩
    | false => exact ⟨ih.1, .cons hpaired ih.2⟩

/-- Whether a watcher has kept what it may still look up of a chronicler. -/
structure Recalls (w : Watcher) (c : Chronicler) : Prop where
  analysing : w.analysing = c.analysing
  frames : w.frames.Holds c.fed
  trackers : List.Forall₂ (Paired w.frames.window) w.trackers c.chronicles

variable {w : Watcher} {d : Chronicler}

theorem Recalls.ofSounds (sounds : List (String × Sound)) :
    Recalls (.ofSounds sounds) (.ofSounds sounds) := by
  refine ⟨rfl, .empty _ rfl, ?_⟩
  refine List.forall₂_map_left_iff.mpr (List.forall₂_map_right_iff.mpr ?_)
  apply List.forall₂_same.mpr
  intro p hp
  have hle := (le_foldl_max (fun q : String × Sound => q.2.historyWindow) sounds 0).2 p hp
  exact ⟨rfl, .ofSound p.2, hle.trans (Nat.le_max_left _ _)⟩

theorem Recalls.start (h : Recalls w d) : Recalls w.start d.start :=
  ⟨rfl, h.frames, h.trackers⟩

theorem Recalls.stop (h : Recalls w d) : Recalls w.stop d.stop := by
  refine ⟨rfl, .empty _ rfl, ?_⟩
  refine List.forall₂_map_left_iff.mpr (List.forall₂_map_right_iff.mpr ?_)
  apply h.trackers.imp
  intro p q hp
  exact ⟨hp.name, hp.remembers.reset, hp.window_le⟩

theorem Recalls.process (h : Recalls w d) (f : Frame) :
    (w.process f).2 = (d.process f).2 ∧ Recalls (w.process f).1 (d.process f).1 := by
  have htrackers : List.Forall₂ (Paired (w.frames.push f).window) w.trackers d.chronicles := by
    rw [History.window_push]
    exact h.trackers
  obtain ⟨hfound, hpaired⟩ := firstMatch_paired (h.frames.push f) htrackers
  exact ⟨hfound, h.analysing, h.frames.push f, hpaired⟩

theorem Recalls.call (h : Recalls w d) (call : Call) :
    (w.call call).2 = (d.call call).2 ∧ Recalls (w.call call).1 (d.call call).1 := by
  cases call with
  | start => exact ⟨rfl, h.start⟩
  | stop => exact ⟨rfl, h.stop⟩
  | process f =>
    obtain ⟨hfound, hnext⟩ := h.process f
    refine ⟨?_, hnext⟩
    simp only [Watcher.call, Chronicler.call, Watcher.handled, hfound, h.analysing]
    cases d.analysing <;> rfl
  | consume fs =>
    obtain ⟨hreplies, hnext⟩ := replies_simulates Watcher.process Chronicler.process Recalls
      (fun _ _ f h => h.process f) h fs
    have hnames := congrArg List.reduceOption hreplies
    rw [← feed_events, ← feed_events] at hnames
    rw [Watcher.call, Chronicler.call]
    simp only [Consumer.consume, h.analysing]
    cases d.analysing with
    | false => exact ⟨rfl, h⟩
    | true =>
      simp only [if_true, hnames]
      exact ⟨trivial, hnext⟩

/-- Whatever is done to a watcher, it answers as if it had forgotten nothing. -/
theorem replies_unbounded {l : Library} (hl : l.build = .ok w) (calls : List Call) :
    replies Watcher.call w calls =
      replies Chronicler.call (.ofSounds (l.entries.map fun e => (e.name, e.sound))) calls := by
  obtain ⟨rfl, -⟩ := Library.build_ok hl
  exact (replies_simulates _ _ Recalls (fun _ _ call h => h.call call) (.ofSounds _) calls).1

/-- A sound is heard behind more frames than its histories can keep, and again while stopped. -/
theorem replies_unbounded_emoji :
    let frames := ([3024, 3024, 3276, 3276, 3255, 3423, 3276, 3276, 3024, 3024, 3024] :
      List UInt16).map fun p => Frame.ofList [p]
    let calls := [.start, .consume (List.replicate 20 .silent ++ frames), .stop] ++
      frames.map Call.process
    let answers := [none, some { told := ["happy"] }, none] ++
      List.replicate 10 (some { told := [] }) ++ [some { returned := some "happy", told := [] }]
    ∃ w, Library.emoji.build = .ok w ∧ replies Watcher.call w calls = answers ∧
      replies Chronicler.call
        (.ofSounds (Library.emoji.entries.map fun e => (e.name, e.sound))) calls = answers := by
  intro frames calls answers
  have hbuild : Library.emoji.build =
      .ok (.ofSounds (Library.emoji.entries.map fun e => (e.name, e.sound))) := rfl
  have hanswers : replies Watcher.call
      (.ofSounds (Library.emoji.entries.map fun e => (e.name, e.sound))) calls = answers := by
    decide +kernel
  exact ⟨_, hbuild, hanswers, (replies_unbounded hbuild calls).symm.trans hanswers⟩

end Sound

end ToneWatch
