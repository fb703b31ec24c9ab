import ToneWatch.CommandLine.Arguments
import ToneWatch.CommandLine.Command
import ToneWatch.Mailbox
import ToneWatch.Morse.Transcriber
import ToneWatch.Packet
import ToneWatch.Session
import ToneWatch.Sound.Library

namespace ToneWatch.CommandLine

/-- What a recording is listened to for. -/
inductive Aim where
  /-- Messages, with settings from a file if one is named. -/
  | morse (given : MorseSettings) (config : Option String)
  /-- Sounds, the built-in ones if no library is named. -/
  | sounds (library : Option String)
  /-- Peaks in short or long frames, as text and also packed. -/
  | peaks (short : Bool) (output packed : Option String)

structure Listen where
  input : String
  analysis : Option String
  block : Nat
  aim : Aim

namespace Aim

def flags? : String → Option (List Flag)
  | "morse" => some [⟨"frequency", some 'f', true⟩, ⟨"dot-ms", some 'd', true⟩, ⟨"config", none, true⟩]
  | "sounds" => some [⟨"library", some 'l', true⟩]
  | "peaks" => some [⟨"morse", none, false⟩, ⟨"output", some 'o', true⟩, ⟨"packed", none, true⟩]
  | _ => none

def ofArguments? (name : String) (a : Arguments) : Option Aim := do
  match name with
  | "morse" =>
    let listeningFrequency ← a.valueD "frequency" uint32? 2000
    let dotDurationMs ← a.valueD "dot-ms" uint32? 100
    return .morse { listeningFrequency, dotDurationMs } (← a.value? "config" path?)
  | "sounds" => return .sounds (← a.value? "library" path?)
  | "peaks" => return .peaks (a.has "morse") (← a.value? "output" path?) (← a.value? "packed" path?)
  | _ => none

/-- The settings of the analysis if no file has any. -/
def preset : Aim → AnalysisSettings
  | morse .. => .forMorse
  | sounds _ => .forSounds
  | peaks short .. => if short then .forMorse else .forSounds

def inputs : Aim → List String
  | morse _ config => config.toList
  | sounds library => library.toList
  | peaks .. => []

end Aim

/-- The settings of a file or else given ones, at the rate of a recording. A file must be acceptable
at its own rate, too. -/
def analysisAt (rate : UInt32) (otherwise : AnalysisSettings) (file : Option (Option (List UInt8))) :
    Except LoadError AnalysisSettings := do
  let s ← file.elim (.ok otherwise) AnalysisSettings.load
  let s := { s with sampleRate := rate }
  s.validate.mapError .refused
  return s

/-- The events of a consumer that listens to a whole recording. -/
def listen {σ ε : Type} [Consumer σ ε] (r : Recording) (s : AnalysisSettings) (consumer : σ) :
    Except Failure (List ε) := do
  let framer ← (Framer.create s).mapError (.settings ∘ .refused)
  if !Framer.isStorable s then throw .storage
  return (Session.run { recording := r, framer, consumer }).2

/-- The most events that are kept until they are printed. -/
def eventCapacity : Nat := 64

/-- Prints the events that a mailbox still holds after all of them, one a line. -/
def report (events : List String) : List Action :=
  let m := events.foldl (fun m e => m.send 0 e) (Mailbox.ofCapacity eventCapacity)
  m.queued.map fun e => .print (e ++ "\n")

/-- A consumer that always wants frames and gives them back as its events. -/
structure Recorder where

instance : Consumer Recorder Frame where
  isAnalysing _ := true
  consume r fs := (r, fs)

/-- Shows frames as text, which is printed if there is no file for it, and also packs them. -/
def keep (output packed : Option String) (frames : List Frame) : List Action :=
  let text := (Json.array (frames.map Frame.toJson)).pretty
  let shown := match output with
    | none => .print (text ++ "\n")
    | some path => .write path text.toUTF8.toList
  shown :: (packed.map fun path => Action.write path (Packet.pack frames)).toList

/-- What is done about a recording. -/
def Aim.actions (files : Files) (r : Recording) (s : AnalysisSettings) :
    Aim → Except Failure (List Action)
  | .morse given config => do
    let loaded := config.elim (.ok given) fun path => MorseSettings.load s (files path)
    let m ← loaded.mapError .settings
    let receiver ← (Morse.Receiver.create m s).mapError (.settings ∘ .refused)
    report <$> listen r s (Morse.Transcriber.start { receiver })
  | .sounds library => do
    let loaded := library.elim (.ok .emoji) fun path => Sound.Library.load (files path)
    let l ← loaded.mapError .settings
    let w ← l.build.mapError (.settings ∘ .refused)
    report <$> listen r s w.start
  | .peaks _ output packed =>
    keep output packed <$> listen r s Recorder.mk

namespace Listen

/-- The options of all commands that listen, which are given before or after the name. -/
def sharedFlags : List Flag := [⟨"analysis", none, true⟩, ⟨"block-size", none, true⟩]

def parse? (args : List String) : Option Listen := do
  let before ← Arguments.parse? sharedFlags true args
  match before.operands with
  | [] => none
  | name :: rest =>
    let a ← Arguments.parse? (sharedFlags ++ (← Aim.flags? name)) false rest
    let analysis ← before.value? "analysis" path?
    let block ← before.valueD "block-size" count? 256
    match a.operands with
    | [input] =>
      return {
        input := ← path? input
        analysis := ← a.valueD "analysis" (fun text => (path? text).map some) analysis
        block := ← a.valueD "block-size" count? block
        aim := ← Aim.ofArguments? name a }
    | _ => none

def actions (l : Listen) (files : Files) : Except Failure (List Action) :=
  match Recording.ofWav? (files l.input) l.block with
  | none => .error (.recording l.input)
  | some r => do
    let s ← (analysisAt r.rate l.aim.preset (l.analysis.map files)).mapError .settings
    l.aim.actions files r s

def command (l : Listen) : Command :=
  ⟨l.input :: l.analysis.toList ++ l.aim.inputs, l.actions⟩

end Listen

end ToneWatch.CommandLine
