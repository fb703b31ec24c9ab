import ToneWatch.Storage

namespace ToneWatch

/-- A history that answers about its newest `window` items. -/
structure History (α : Type) where
  window : Nat
  newest : List α := []

namespace History

variable {α : Type}

/-- The empty history; a window is at least one item. -/
def ofWindow (window : Nat) : History α :=
  { window := max window 1 }

/-- Whether there can be room for a history of items of some size in bytes. -/
def isStorable (window size : Nat) : Bool :=
  Storage.holds (2 * max window 1) size

def capacity (h : History α) : Nat := 2 * h.window

def size (h : History α) : Nat := h.newest.length

def isFull (h : History α) : Bool := h.capacity ≤ h.size

def toList (h : History α) : List α := h.newest.reverse

def compact (h : History α) : History α :=
  { h with newest := h.newest.take h.window }

def push (h : History α) (a : α) : History α :=
  let kept := if h.isFull then h.compact else h
  { kept with newest := a :: kept.newest }

def clear (h : History α) : History α :=
  { h with newest := [] }

def get? (h : History α) (index : Nat) : Option α :=
  if index < h.size then h.newest[h.size - 1 - index]? else none

/-- The item pushed `ago` pushes back, the latest one being one back. -/
def ago? (h : History α) (ago : Nat) : Option α :=
  if ago = 0 then none else h.newest[ago - 1]?

/-- The newest `n` items, or all if there are fewer, oldest first. -/
def latest (h : History α) (n : Nat) : List α :=
  (h.newest.take n).reverse

end History

end ToneWatch
