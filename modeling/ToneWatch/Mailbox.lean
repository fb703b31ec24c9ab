import ToneWatch.Storage

namespace ToneWatch

/-- A bounded mailbox. Sending never waits: as long as the mailbox is full the oldest event is evicted,
and the sender counts it. -/
structure Mailbox where
  capacity : Nat
  /-- The events that wait, oldest first. -/
  queued : List String := []
  /-- What each sender evicted. -/
  dropped : List Nat := [0]
  /-- Whether there still is a receiver; events are sent and evicted also without one. -/
  hasReceiver : Bool := true
  capacity_pos : 0 < capacity
  deriving DecidableEq

namespace Mailbox

/-- An empty mailbox with one sender; it has room for at least one event. -/
def ofCapacity (capacity : Nat) : Mailbox :=
  { capacity := max capacity 1, capacity_pos := Nat.le_max_right capacity 1 }

/-- The bytes that the mailbox keeps for each event it has room for. -/
def slotSize : Nat := 32

/-- Whether there can be room for a mailbox. -/
def isStorable (capacity : Nat) : Bool :=
  Storage.holds (max capacity 1) slotSize

def isFull (m : Mailbox) : Bool :=
  m.capacity ≤ m.queued.length

/-- Puts an event behind the others, if there is room. -/
def put? (m : Mailbox) (event : String) : Option Mailbox :=
  if m.isFull then none else some { m with queued := m.queued ++ [event] }

/-- Takes out the oldest event on behalf of a sender. -/
def evict (m : Mailbox) (sender : Nat) : Mailbox :=
  match m.queued with
  | [] => m
  | _ :: rest => { m with queued := rest, dropped := m.dropped.modify sender (· + 1) }

theorem length_evict_lt {m : Mailbox} {event : String} (h : m.put? event = none) (sender : Nat) :
    (m.evict sender).queued.length < m.queued.length := by
  have hcapacity := m.capacity_pos
  cases hq : m.queued with
  | nil => simp [put?, isFull, hq, Nat.ne_of_gt hcapacity] at h
  | cons e rest => simp [evict, hq]

/-- Tries to put an event in, and evicts one event before each further try. -/
def send (m : Mailbox) (sender : Nat) (event : String) : Mailbox :=
  match _full : m.put? event with
  | some m => m
  | none => (m.evict sender).send sender event
termination_by m.queued.length
decreasing_by exact length_evict_lt ‹_› sender

/-- Adds a sender that starts with the count of another one. -/
def clone (m : Mailbox) (sender : Nat) : Mailbox :=
  { m with dropped := m.dropped ++ [m.dropped.getD sender 0] }

def receive (m : Mailbox) : Mailbox × Option String :=
  match m.hasReceiver, m.queued with
  | true, e :: rest => ({ m with queued := rest }, some e)
  | _, _ => (m, none)

/-- Takes out all events, if there is a receiver. -/
def drain (m : Mailbox) : Mailbox × Option (List String) :=
  if m.hasReceiver then ({ m with queued := [] }, some m.queued) else (m, none)

def dropReceiver (m : Mailbox) : Mailbox :=
  { m with hasReceiver := false }

end Mailbox

end ToneWatch
