namespace ToneWatch.Storage

/-- Whether so many items of some size in bytes can be laid out in one piece, which has fewer than `2 ^ 63`
bytes. Asking for more breaks the program off. -/
def holds (items size : Nat) : Bool :=
  items * size < 0x8000000000000000

end ToneWatch.Storage
