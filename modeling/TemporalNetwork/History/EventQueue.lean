/-
Event queues and their readers.

One producer appends events and takes back those of the last levels;
any number of readers follow at their own pace. A reader is a position
in the queue. When events are taken back, positions beyond them are
stale, and what stands there later is new. The queue therefore keeps,
for every backtrack that ever occurred, its size right after it, and a
reader counts the backtracks it has seen: before each access it moves
back to the smallest size among those it has not.

# Delivery

An event is thus delivered to a reader once, and an event that is
derived anew after it was taken back is delivered again.
-/
import TemporalNetwork.History.DecisionLevel

namespace TemporalNetwork

/-- Events in the order in which they were appended. -/
structure EventQueue (α : Type) where
  events : Array α
  /-- Size at each saved state, newest first. -/
  marks : List Nat
  /-- Size right after each backtrack, oldest first. -/
  backtracks : Array Nat

namespace EventQueue

variable {α : Type}

def empty : EventQueue α := ⟨#[], [], #[]⟩

def size (q : EventQueue α) : Nat := q.events.size

def isEmpty (q : EventQueue α) : Bool := q.events.isEmpty

def toList (q : EventQueue α) : List α := q.events.toList

def level (q : EventQueue α) : DecisionLevel := ⟨q.marks.length⟩

def push (q : EventQueue α) (a : α) : EventQueue α := { q with events := q.events.push a }

def get? (q : EventQueue α) (i : Nat) : Option α := q.events[i]?

/-- The newest event. -/
def last? (q : EventQueue α) : Option α := q.events.back?

/-- The events appended since the last saved state. -/
def levelEvents (q : EventQueue α) : List α := q.toList.drop (q.marks.headD 0)

def save (q : EventQueue α) : EventQueue α := { q with marks := q.size :: q.marks }

/-- Takes back the events of the last level. -/
def restoreLast (q : EventQueue α) : Checked (EventQueue α) :=
  match q.marks with
  | [] => .error .nothingSaved
  | m :: rest => .ok ⟨q.events.take m, rest, q.backtracks.push m⟩

/-- Takes back the events of the last `n` levels. -/
def restoreTimes (q : EventQueue α) : Nat → Checked (EventQueue α)
  | 0 => .ok q
  | n + 1 => q.restoreLast >>= fun q => q.restoreTimes n

/-- Takes back the events of all levels above the given one. -/
def restore (q : EventQueue α) (l : DecisionLevel) : Checked (EventQueue α) :=
  q.restoreTimes (q.marks.length - l.depth)

end EventQueue

-- ================================================================= readers

/-- A read position in a queue, which may have gone stale. -/
structure QueueReader where
  /-- Position of the next event to read. -/
  next : Nat
  /-- Number of backtracks of the queue that were taken into account. -/
  seen : Nat
  deriving DecidableEq

namespace QueueReader

variable {α : Type}

/-- At the first event. -/
def start : QueueReader := ⟨0, 0⟩

/-- Moves back to the smallest queue there was since the last access. -/
def sync (r : QueueReader) (q : EventQueue α) : QueueReader :=
  ⟨q.backtracks.foldl min r.next r.seen, q.backtracks.size⟩

/-- Number of events not yet read. -/
def pending (r : QueueReader) (q : EventQueue α) : QueueReader × Nat :=
  let r := r.sync q
  (r, q.size - r.next)

/-- Reads the next event, if there is one. -/
def pop (r : QueueReader) (q : EventQueue α) : QueueReader × Option α :=
  let r := r.sync q
  match q.get? r.next with
  | some a => ({ r with next := r.next + 1 }, some a)
  | none => (r, none)

/-- Reads all events that are left. -/
def popAll (r : QueueReader) (q : EventQueue α) : QueueReader × List α :=
  let r := r.sync q
  ({ r with next := q.size }, q.toList.drop r.next)

/-- Counts all events in the queue as read. -/
def toEnd (r : QueueReader) (q : EventQueue α) : QueueReader :=
  { r.sync q with next := q.size }

end QueueReader

end TemporalNetwork
