/-
Unit propagation of clauses, together with the theory.

Watches of new clauses are selected first. Then the assignments that the
theory publishes are read one by one, and the clauses that watch the
negation of such a literal are revisited. A literal that a clause forces
is set in the theory at once; what the theory implies in turn is
published and read like any other assignment.

Propagation ends at a fixed point, where no clause is unit or violated,
or with a contradiction. Clauses that were taken off a list and not yet
revisited are then given back.
-/
import TemporalNetwork.Solver

namespace TemporalNetwork

/-- Why propagation ended before a fixed point. -/
inductive Contradiction where
  /-- All literals of the clause are false. -/
  | clause (id : ClauseId)
  /-- The theory is in conflict, and the clause is violated by it. -/
  | theory (clause : Disjunction)
  deriving DecidableEq

namespace Solver

/-- A state, and the contradiction that arose. -/
abbrev Propagated : Type := Solver × Option Contradiction

/-- The contradiction in the theory, if there is one. -/
def theoryContradiction (s : Solver) : Option Contradiction :=
  s.theory.conflict.map fun c => .theory c.clause

/-- Sets a literal in the theory. A conflict stays there for the next
propagation to find. -/
def assign (s : Solver) (l : Literal) : Checked Solver := do
  let a ← s.notifier.assign s.theory l
  Checked.require (a.accepted.isOk = true) .misuse
  let implied := match a.accepted with
    | .ok true => a.notifications.length
    | _ => 0
  return { s with
    theory := a.theory
    notifier := a.notifier
    stats := { s.stats with theoryPropagations := s.stats.theoryPropagations + implied } }

/-- Sets a literal that a clause forces. -/
def assignUnit (s : Solver) (l : Literal) : Checked Propagated := do
  let s ← assign { s with
    stats := { s.stats with propagations := s.stats.propagations + 1 } } l
  return (s, s.theoryContradiction)

/-- Deals with what a clause was found to be. -/
def onStatus (s : Solver) (id : ClauseId) : ClauseStatus → Checked Propagated
  | .unit l => s.assignUnit l
  | .violated => .ok (s, some (.clause id))
  | .satisfied | .undetermined => .ok (s, none)

/-- Selects the watches of clauses in turn, up to a contradiction. -/
def watchAll : List ClauseId → Solver → Checked Propagated
  | [], s => .ok ({ s with unwatched := [] }, none)
  | id :: rest, s => do
    let (clauses, status) ← s.clauses.watch id s.theory.value
    let (s, contradiction) ← onStatus { s with clauses, unwatched := rest } id status
    if contradiction.isSome then return (s, contradiction) else watchAll rest s

/-- Revisits clauses that watch the negation of `p` in turn. The rest is
given back at a contradiction. -/
def revisitAll (p : Literal) : List ClauseId → Solver → Checked Propagated
  | [], s => .ok (s, none)
  | id :: rest, s => do
    let (clauses, status) ← s.clauses.revisit id p s.theory.value
    let (s, contradiction) ← onStatus { s with clauses } id status
    if contradiction.isSome then
      return ({ s with clauses := s.clauses.restoreWatchers p rest }, contradiction)
    else revisitAll p rest s

/-- Reads at most `n` assignments, until none is left or a contradiction
arises. -/
def readAssignments : Nat → Solver → Checked Propagated
  | 0, _ => .error .stepLimit
  | n + 1, s =>
    match s.reader.pop s.theory.assignments with
    | (reader, none) => .ok ({ s with reader }, none)
    | (reader, some p) => do
      let (clauses, ids) := s.clauses.takeWatchers p
      let (s, contradiction) ← revisitAll p ids { s with reader, clauses }
      if contradiction.isSome then return (s, contradiction) else readAssignments n s

/-- Propagates clauses and theory to a fixed point or a contradiction. A
variable is set once, which bounds the assignments that can be read. -/
def propagate (s : Solver) : Checked Propagated :=
  match s.theoryContradiction with
  | some c => .ok (s, some c)
  | none => do
    let (s, contradiction) ← watchAll s.unwatched s
    if contradiction.isSome then return (s, contradiction)
    else readAssignments (s.theory.numVariables + 1) s

end Solver

end TemporalNetwork
