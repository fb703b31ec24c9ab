import ToneWatch.CommandLine.Place

namespace ToneWatch.CommandLine

/-- A step of a command that others can see. -/
inductive Action where
  | print (text : String)
  | write (path : String) (bytes : List UInt8)
  | breakOff
  deriving DecidableEq

/-- The files of a directory, each under its name. -/
structure Directory where
  files : List (String × List UInt8) := []
  deriving DecidableEq

namespace Directory

/-- The contents of a file; what keeps nothing has none. -/
def read? (d : Directory) (path : String) : Option (List UInt8) :=
  match Place.ofPath? path with
  | none => none
  | some .sink => some []
  | some (.file name) => d.files.lookup name

def write? (d : Directory) (path : String) (bytes : List UInt8) : Option Directory :=
  match Place.ofPath? path with
  | none => none
  | some .sink => some d
  | some (.file name) => some ⟨(name, bytes) :: d.files.filter fun f => f.1 ≠ name⟩

end Directory

inductive Exit where
  | done
  | failed
  | misused
  | brokenOff
  deriving DecidableEq

def Exit.code : Exit → UInt32
  | done => 0
  | failed => 1
  | misused => 2
  | brokenOff => 101

/-- What a command leaves behind. -/
structure Outcome where
  printed : String := ""
  directory : Directory
  exit : Exit := .done
  deriving DecidableEq

/-- Performs actions up to the first one that fails. -/
def Directory.perform (d : Directory) : List Action → Outcome
  | [] => { directory := d }
  | .print text :: rest =>
    let o := d.perform rest
    { o with printed := text ++ o.printed }
  | .write path bytes :: rest =>
    match d.write? path bytes with
    | none => { directory := d, exit := .failed }
    | some d => d.perform rest
  | .breakOff :: _ => { directory := d, exit := .brokenOff }

end ToneWatch.CommandLine
