import ToneWatch.CommandLine.Arguments
import ToneWatch.CommandLine.Command
import ToneWatch.Morse.Tone
import ToneWatch.Wav

namespace ToneWatch.CommandLine

structure Key where
  text : String
  output : String
  tone : Morse.Tone
  /-- The silence before the first mark, in time units. -/
  lead : Nat
  /-- The silence after the end of the transmission. -/
  tail : Nat

namespace Key

def flags : List Flag := [
  ⟨"output", some 'o', true⟩,
  ⟨"frequency", some 'f', true⟩,
  ⟨"dot-ms", some 'd', true⟩,
  ⟨"sample-rate", none, true⟩,
  ⟨"amplitude", none, true⟩,
  ⟨"lead-units", none, true⟩,
  ⟨"tail-units", none, true⟩]

def parse? (args : List String) : Option Key := do
  let a ← Arguments.parse? flags false args
  match a.operands with
  | [text] =>
    let tone : Morse.Tone := {
      frequency := ← a.valueD "frequency" Single.parse? (.ofNat 2000)
      sampleRate := ← a.valueD "sample-rate" uint32? 11000
      dotDurationMs := ← a.valueD "dot-ms" uint32? 100
      amplitude := ← a.valueD "amplitude" int16? 12000 }
    let lead ← a.valueD "lead-units" count? 2
    let tail ← a.valueD "tail-units" count? 4
    return { text, output := ← a.valueD "output" some "morse.wav", tone, lead, tail }
  | _ => none

def keying (k : Key) : Morse.Keying :=
  let symbols := Morse.encode k.text
  ((Morse.Keying.push {} ⟨false, k.lead⟩).append (Morse.Keying.ofSymbols symbols).toList).push
    ⟨false, k.tail⟩

/-- Writes the recording; if there can be no header, an unfinished file is left behind. -/
def actions (k : Key) : Except Failure (List Action) :=
  if !k.tone.isStorable k.keying then .error .storage
  else match Wav.encode? (k.tone.render k.keying) k.tone.sampleRate with
    | some bytes => .ok [.write k.output bytes]
    | none => .ok [.write k.output Wav.unfinished, .breakOff]

def command (k : Key) : Command :=
  ⟨[], fun _ => k.actions⟩

end Key

end ToneWatch.CommandLine
