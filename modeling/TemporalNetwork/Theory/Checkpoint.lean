/-
Checkpoints: going back to an earlier state of the theory.

Opening a checkpoint saves the logs and both queues; restoring the last
one undoes what was recorded since, newest first. `backtrack` goes down
to a level, `popTo` also takes back what was done at that level itself
and leaves its checkpoint open. Timepoints, edges and variables are not
undone: the problem is only changed at the root.
-/
import TemporalNetwork.Theory.Setup

namespace TemporalNetwork

namespace Theory

/-- Undoes a change of the theory's own state. -/
def undo (t : Theory) : TheoryChange → Theory
  | .literalSet v => { t with values := t.values.set v none }
  | .conflictRecorded => { t with conflict := none }

/-- Saves the state, and opens the next level. It is taken that levels are
not so deep that their 32 bits run out. -/
def pushCheckpoint (t : Theory) : Checked Theory := do
  Checked.require (t.pending = []) .pendingAtCheckpoint
  return { t with
    log := t.log.save
    graph := t.graph.save
    assignments := t.assignments.save
    implications := t.implications.save }

/-- Returns to the last saved state, and closes its level. -/
def restoreLast (t : Theory) : Checked Theory := do
  let (log, changes) ← t.log.restoreLast
  let t := changes.foldl undo { t with log, pending := [] }
  let graph ← t.graph.restoreLast t.network
  let assignments ← t.assignments.restoreLast
  let implications ← t.implications.restoreLast
  return { t with graph, assignments, implications }

/-- Closes the last `n` levels. -/
def restoreTimes (t : Theory) : Nat → Checked Theory
  | 0 => .ok t
  | n + 1 => t.restoreLast >>= fun t => t.restoreTimes n

/-- Closes all levels above the given one. -/
def restore (t : Theory) (l : DecisionLevel) : Checked Theory :=
  t.restoreTimes (t.level.depth - l.depth)

/-- Undoes everything done above the level, which must be open. -/
def backtrack (t : Theory) (l : DecisionLevel) : Checked (Theory × Except Misuse Unit) :=
  if t.level.depth < l.depth then .ok (t, .error (.unknownLevel l t.level))
  else (t.restore l).map fun t => (t, .ok ())

/-- Returns to the state right after the checkpoint that opened the
level. At the root this undoes everything above it. -/
def popTo (t : Theory) (l : DecisionLevel) : Checked (Theory × Except Misuse Unit) :=
  match l.parent? with
  | none => t.backtrack .root
  | some parent =>
    if t.level.depth < l.depth then .ok (t, .error (.unknownLevel l t.level))
    else do
      let t ← t.restore l
      let t ← t.restore parent
      let t ← t.pushCheckpoint
      Checked.require (t.level = l) .wrongLevelReopened
      return (t, .ok ())

/-- Undoes everything above the root. -/
def reset (t : Theory) : Checked Theory := t.restore .root

end Theory

end TemporalNetwork
