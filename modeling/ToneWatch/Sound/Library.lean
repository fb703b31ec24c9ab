import ToneWatch.Settings.Store
import ToneWatch.Sound.Watcher

namespace ToneWatch.Sound

structure Entry where
  name : String
  sound : Sound
  deriving DecidableEq

/-- Trained sounds in the order in which they are tried. -/
structure Library where
  entries : List Entry
  deriving DecidableEq

namespace Sequence

def toJson (q : Sequence) : Json :=
  .ofMembers [
    ("threshold", .ofNat q.threshold.toNat),
    ("deviation", .ofNat q.deviation.toNat),
    ("samples", .array (q.samples.map fun s => .array (s.map fun p => .ofNat p.toNat)))]

def ofJson? (v : Json) : Option Sequence := do
  match ← v.fields? ["threshold", "deviation", "samples"] with
  | [some threshold, some deviation, some samples] =>
    return { threshold := ← threshold.uint32?
             deviation := ← deviation.uint8?
             samples := ← samples.list? fun s => s.list? Json.uint16? }
  | _ => none

end Sequence

namespace Entry

/-- Refuses the samples of a sequence: there must be some, none empty or too long. -/
def validateSamples (name : String) (index : Nat) (samples : List Sample) :
    Except SettingsError Unit :=
  if samples = [] then .error (.noSamples name index)
  else match samples.find? fun s => s = [] || maxSampleLength < s.length with
    | none => .ok ()
    | some s => .error (.sampleLength name s.length maxSampleLength)

/-- Refuses the sequences from an index on; the first fault is the error. -/
def validateFrom (name : String) (index : Nat) : List Sequence → Except SettingsError Unit
  | [] => .ok ()
  | q :: rest => do
    validateSamples name index q.samples
    validateFrom name (index + 1) rest

/-- Refuses a sound that could match without hearing anything. -/
def validate (e : Entry) : Except SettingsError Unit :=
  if e.sound.sequences = [] then .error (.noSequences e.name)
  else validateFrom e.name 0 e.sound.sequences

def toJson (e : Entry) : Json :=
  .ofMembers [
    ("name", .ofString e.name),
    ("max_deviation", .ofNat e.sound.maxDeviation.toNat),
    ("consider_all_frequencies", .bool e.sound.allPeaks),
    ("sequences", .array (e.sound.sequences.map Sequence.toJson))]

/-- Reads an entry; all peaks count if nothing else is said. -/
def ofJson? (v : Json) : Option Entry := do
  match ← v.fields? ["name", "max_deviation", "consider_all_frequencies", "sequences"] with
  | [some name, some deviation, all, some sequences] =>
    let name ← name.string?
    let maxDeviation ← deviation.uint8?
    let allPeaks ← all.elim (some true) Json.bool?
    let sequences ← sequences.list? Sequence.ofJson?
    return { name, sound := { sequences, maxDeviation, allPeaks } }
  | _ => none

end Entry

namespace Library

/-- Refuses a library with a refused entry; the first one is the error. -/
def validate (l : Library) : Except SettingsError Unit :=
  l.entries.forM Entry.validate

/-- A stopped watcher for the sounds of the library. -/
def build (l : Library) : Except SettingsError Watcher := do
  l.validate
  return .ofSounds (l.entries.map fun e => (e.name, e.sound))

def toJson (l : Library) : Json :=
  .ofMembers [("sounds", .array (l.entries.map Entry.toJson))]

def ofJson? (v : Json) : Option Library := do
  match ← v.fields? ["sounds"] with
  | [some sounds] => return { entries := ← sounds.list? Entry.ofJson? }
  | _ => none

def load (file : Option (List UInt8)) : Except LoadError Library :=
  loadRecord ofJson? validate file

def save (l : Library) : String := l.toJson.pretty

/-- A rising chirp and a falling tail, trained on the long frames. -/
def happy : Sound where
  sequences := [
    { threshold := 5000
      deviation := 1
      samples := [
        [3024, 3024, 3276, 3276, 3255],
        [3024, 3024, 3717, 3276, 3276, 3255],
        [2751, 3003, 3276, 3276, 3276]] },
    { threshold := 5000
      deviation := 1
      samples := [
        [3423, 3276, 3276, 3024, 3024, 3024],
        [3423, 3276, 3276, 3255, 3024, 3024],
        [3423, 3276, 3276, 3024, 3024, 2961],
        [3276, 3234, 3234, 3276, 3003, 3003]] }]
  maxDeviation := 3

/-- The built-in signatures. -/
def emoji : Library where
  entries := [⟨"happy", happy⟩]

end Library

end ToneWatch.Sound
