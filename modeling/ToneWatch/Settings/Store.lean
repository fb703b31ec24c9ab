import ToneWatch.Settings.Morse
import ToneWatch.Json.Reader
import ToneWatch.Json.Printer

namespace ToneWatch

/-- The text of a file, which is missing if there are no bytes. -/
def readText (file : Option (List UInt8)) : Except LoadError String :=
  match file.bind fun bytes => String.fromUTF8? bytes.toByteArray with
  | none => .error .unreadable
  | some text => .ok text

/-- Reads a record from a text. -/
def readRecord {α : Type} (ofJson? : Json → Option α) (text : String) : Except LoadError α :=
  match (Json.parse? text).bind ofJson? with
  | none => .error .malformed
  | some a => .ok a

/-- Loads a record from a file and keeps it if it is not refused. -/
def loadRecord {α : Type} (ofJson? : Json → Option α) (validate : α → Except SettingsError Unit)
    (file : Option (List UInt8)) : Except LoadError α := do
  let a ← readRecord ofJson? (← readText file)
  match validate a with
  | .ok () => return a
  | .error e => throw (.refused e)

namespace AnalysisSettings

def load (file : Option (List UInt8)) : Except LoadError AnalysisSettings :=
  loadRecord ofJson? validate file

def save (s : AnalysisSettings) : String := s.toJson.pretty

end AnalysisSettings

namespace MorseSettings

def load (a : AnalysisSettings) (file : Option (List UInt8)) : Except LoadError MorseSettings :=
  loadRecord ofJson? (fun m => m.validate a) file

def save (m : MorseSettings) : String := m.toJson.pretty

end MorseSettings

end ToneWatch
