import ToneWatch.CommandLine.Directory
import ToneWatch.Settings.Store

namespace ToneWatch.CommandLine

/-- Why a command fails before it does anything. -/
inductive Failure where
  | recording (path : String)
  | settings (e : LoadError)
  /-- There is no room for what was asked for. -/
  | storage
  deriving DecidableEq

/-- A refusal is reported, a lack of room breaks the command off. -/
def Failure.exit : Failure → Exit
  | recording _ => .failed
  | settings _ => .failed
  | storage => .brokenOff

def Failure.message : Failure → String
  | recording path => s!"no recording can be read from {path}"
  | settings .unreadable => "a settings file is missing or is not text"
  | settings .malformed => "a settings file does not hold settings"
  | settings (.refused e) => e.message
  | storage => "there is no room for what was asked for"

/-- The files of a command by path, `none` for one that cannot be read. -/
abbrev Files := String → Option (List UInt8)

structure Command where
  /-- The paths of the files that it reads. -/
  inputs : List String
  actions : Files → Except Failure (List Action)

/-- Carries out a command in a directory; without a command the arguments were not understood. -/
def Directory.execute (d : Directory) : Option Command → Outcome
  | none => { directory := d, exit := .misused }
  | some c =>
    match c.actions d.read? with
    | .error e => { directory := d, exit := e.exit }
    | .ok actions => d.perform actions

end ToneWatch.CommandLine
