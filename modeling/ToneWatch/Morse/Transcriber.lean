import ToneWatch.Consumer
import ToneWatch.Morse.Receiver

namespace ToneWatch.Morse

/-- Collects the symbols of a receiver up to the end of a transmission, which is then decoded at once. -/
structure Transcriber where
  receiver : Receiver
  lastMessage : Option String := none
  messages : Nat := 0

namespace Transcriber

def start (t : Transcriber) : Transcriber :=
  { t with receiver := t.receiver.start }

def stop (t : Transcriber) : Transcriber :=
  { t with receiver := t.receiver.stop }

def isInterpreting (t : Transcriber) : Bool := t.receiver.analysing

/-- Takes a frame and gives the message that it completes. -/
def process (t : Transcriber) (f : Frame) : Transcriber × Option String :=
  match t.receiver.process f with
  | (receiver, some .endOfTransmission) =>
    let (receiver, symbols) := receiver.pull
    let message := decode symbols
    ({ receiver, lastMessage := some message, messages := t.messages + 1 }, some message)
  | (receiver, _) => ({ t with receiver }, none)

instance : Consumer Transcriber String where
  isAnalysing := isInterpreting
  consume := feed process

end Transcriber

end ToneWatch.Morse
