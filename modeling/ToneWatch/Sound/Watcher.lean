import ToneWatch.Consumer
import ToneWatch.Sound.Tracker

namespace ToneWatch.Sound

/-- Sounds are tried in the order of registration, and the first one that matches a frame takes it: the
sounds after it do not see that frame. -/
structure Watcher where
  trackers : List (String × Tracker)
  frames : History Frame
  analysing : Bool := false
  matchCount : Nat := 0

namespace Watcher

def ofSounds (sounds : List (String × Sound)) : Watcher :=
  { trackers := sounds.map fun (name, s) => (name, .ofSound s)
    frames := .ofWindow (sounds.foldl (fun n s => max n s.2.historyWindow) 0) }

def start (w : Watcher) : Watcher :=
  { w with analysing := true }

def stop (w : Watcher) : Watcher :=
  { w with
    analysing := false
    frames := w.frames.clear
    trackers := w.trackers.map fun (name, t) => (name, t.reset) }

/-- Steps the trackers until one matches; the others keep their state. -/
def firstMatch (recent : List Frame) :
    List (String × Tracker) → List (String × Tracker) × Option String
  | [] => ([], none)
  | (name, t) :: rest =>
    match t.step recent with
    | (t, true) => ((name, t) :: rest, some name)
    | (t, false) =>
      let (rest, found) := firstMatch recent rest
      ((name, t) :: rest, found)

/-- Takes a frame and gives the sound that it completes, also while stopped. -/
def process (w : Watcher) (f : Frame) : Watcher × Option String :=
  let frames := w.frames.push f
  let (trackers, found) := firstMatch frames.newest w.trackers
  ({ w with frames, trackers, matchCount := w.matchCount + found.toList.length }, found)

/-- A handler hears of a match only while the watcher is started. -/
def handled (w : Watcher) (found : Option String) : Option String :=
  if w.analysing then found else none

def names (w : Watcher) : List String :=
  w.trackers.map Prod.fst

def find? (w : Watcher) (name : String) : Option Tracker :=
  w.trackers.lookup name

instance : Consumer Watcher String where
  isAnalysing := analysing
  consume w fs := if w.analysing then feed process w fs else (w, [])

end Watcher

end ToneWatch.Sound
