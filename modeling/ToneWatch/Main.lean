import ToneWatch.CommandLine.Key
import ToneWatch.CommandLine.Listen

namespace ToneWatch.CommandLine

def usage : String :=
  "usage: key TEXT [options] | [--analysis FILE] [--block-size N] morse|sounds|peaks RECORDING [options]"

def command? : List String → Option Command
  | "key" :: args => (Key.parse? args).map Key.command
  | args => (Listen.parse? args).map Listen.command

/-- The contents of a file that can be read. -/
def contents? (path : String) : IO (Option (List UInt8)) := do
  try
    let bytes ← IO.FS.readBinFile path
    return some bytes.toList
  catch _ => return none

def perform : List Action → IO Exit
  | [] => return .done
  | .print text :: rest => do
    IO.print text
    perform rest
  | .write path bytes :: rest => do
    try
      IO.FS.writeBinFile path bytes.toByteArray
    catch e =>
      IO.eprintln e
      return .failed
    perform rest
  | .breakOff :: _ => do
    IO.eprintln "the command was broken off"
    return .brokenOff

def Command.execute (c : Command) : IO Exit := do
  let files ← c.inputs.mapM fun path => do return (path, ← contents? path)
  match c.actions fun path => (files.lookup path).join with
  | .error e =>
    IO.eprintln e.message
    return e.exit
  | .ok actions => perform actions

end ToneWatch.CommandLine

def main (args : List String) : IO UInt32 := do
  match ToneWatch.CommandLine.command? args with
  | none =>
    IO.eprintln ToneWatch.CommandLine.usage
    return ToneWatch.CommandLine.Exit.misused.code
  | some c => return (← c.execute).code
