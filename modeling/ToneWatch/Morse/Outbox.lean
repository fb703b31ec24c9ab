import ToneWatch.Morse.Code

namespace ToneWatch.Morse

/-- The bounded output of a receiver. A message starts with a mark, and when it is full only its end is
still let in, in place of the last symbol. -/
structure Outbox where
  symbols : List Symbol := []
  dropped : Nat := 0
  deriving DecidableEq

namespace Outbox

/-- The most symbols that wait to be pulled. -/
def maxMessage : Nat := 500

/-- Adds a symbol and gives it back if it was let in. -/
def offer (o : Outbox) (s : Symbol) : Outbox × Option Symbol :=
  if o.symbols.isEmpty && !s.isMark then (o, none)
  else if o.symbols.length < maxMessage then ({ o with symbols := o.symbols ++ [s] }, some s)
  else if s = .endOfTransmission then
    ({ symbols := o.symbols.dropLast ++ [s], dropped := o.dropped + 1 }, some s)
  else ({ o with dropped := o.dropped + 1 }, none)

def drain (o : Outbox) : Outbox × List Symbol :=
  ({ o with symbols := [] }, o.symbols)

end Outbox

end ToneWatch.Morse
