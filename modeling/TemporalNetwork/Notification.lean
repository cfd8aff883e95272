/-
Telling a search engine what the theory infers.

A notifier reads the queue of implications and passes each on once;
those that were undone and are derived again are passed on again. A
conflict is passed on as the clause that is violated. What an engine is
told is a list of notifications, in order.
-/
import TemporalNetwork.Theory.Propagation

namespace TemporalNetwork

/-- One thing that an engine is told. -/
inductive Notification where
  /-- The literal is true because those of the explanation are. -/
  | implied (l : Literal) (explanation : Explanation)
  /-- The clause is violated. -/
  | conflict (clause : Disjunction)
  deriving DecidableEq

/-- Passes implications on, each once. -/
structure Notifier where
  reader : QueueReader
  deriving DecidableEq

namespace Notifier

def initial : Notifier := ⟨.start⟩

/-- Passes on all implications that were not yet. -/
def sync (c : Notifier) (t : Theory) : Notifier × List Notification :=
  let (r, implications) := c.reader.popAll t.implications
  (⟨r⟩, implications.map fun i => .implied i.literal i.explanation)

/-- What assigning a literal through a notifier led to. -/
structure Assigned where
  notifier : Notifier
  theory : Theory
  /-- Whether the literal was accepted; a conflict is not an error. -/
  accepted : Except Misuse Bool
  notifications : List Notification

/-- Sets a literal in the theory and passes on what follows. -/
def assign (c : Notifier) (t : Theory) (l : Literal) : Checked Assigned := do
  let (t, result) ← t.assign l
  return match result with
    | .ok () =>
      let (c, notifications) := c.sync t
      ⟨c, t, .ok true, notifications⟩
    | .error (.conflict conflict) => ⟨c, t, .ok false, [.conflict conflict.clause]⟩
    | .error (.invalid misuse) => ⟨c, t, .error misuse, []⟩

end Notifier

end TemporalNetwork
