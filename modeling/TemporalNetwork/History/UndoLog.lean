/-
Undo logs.

A log records the changes made to a structure, and marks the states to
which it can return. Undoing takes events off in reverse order and hands
them to the owner, newest first: the log itself does not know what they
mean. Events are held newest first as well, so that what is undone is a
front piece of the list.

A partial undo goes back to a size rather than to a mark. It must not
reach back over the last mark, which would then point past the end.
-/
import TemporalNetwork.History.DecisionLevel

namespace TemporalNetwork

/-- Changes and saved states, newest first. A mark is the number of
events there were when the state was saved. -/
structure UndoLog (α : Type) where
  events : List α
  marks : List Nat

namespace UndoLog

variable {α : Type}

def empty : UndoLog α := ⟨[], []⟩

def size (g : UndoLog α) : Nat := g.events.length

def isEmpty (g : UndoLog α) : Bool := g.events.isEmpty

def level (g : UndoLog α) : DecisionLevel := ⟨g.marks.length⟩

def record (g : UndoLog α) (e : α) : UndoLog α := { g with events := e :: g.events }

/-- Marks the present state. -/
def save (g : UndoLog α) : UndoLog α := { g with marks := g.size :: g.marks }

/-- Takes off all events after the first `n`, newest first. -/
def undoTo (g : UndoLog α) (n : Nat) : Checked (UndoLog α × List α) := do
  Checked.require (∀ m ∈ g.marks.head?, m ≤ n) .undoCrossesCheckpoint
  let surplus := g.size - n
  return ({ g with events := g.events.drop surplus }, g.events.take surplus)

/-- Takes off the last mark and all events after it. -/
def restoreLast (g : UndoLog α) : Checked (UndoLog α × List α) :=
  match g.marks with
  | [] => .error .nothingSaved
  | m :: rest => undoTo { g with marks := rest } m

end UndoLog

end TemporalNetwork
