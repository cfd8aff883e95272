/-
Search for a consistent assignment of all variables.

The solver propagates, and at a fixed point decides the first variable
without a value, on a new level of the theory. At a contradiction it
closes decisions until the last one of which only one value was explored,
and takes the other value. A violated clause of the theory is learnt; a
violated clause of the database has its watches selected anew, since
both are false. If no decision is left to flip the problem has no
solution.

The decisions open at any time are a path in the binary tree of values,
and each step goes to a path that comes later in it; with `n` variables
there are fewer than `2 ^ (n + 1)` of them.
-/
import TemporalNetwork.Solver.Propagation

namespace TemporalNetwork

/-- A consistent and complete assignment. -/
structure Solution where
  /-- The earliest schedule of the assignment. -/
  schedule : HandleVector Timepoint Int
  values : HandleVector BoolVar Bool

namespace Solution

/-- The time of a timepoint. -/
def time (x : Solution) (tp : Timepoint) : Checked Int := x.schedule.read tp

/-- The true literal of each variable. -/
def trueLiterals (x : Solution) : List Literal :=
  x.values.entries.map fun (v, positive) => ⟨v, positive⟩

end Solution

/-- When a search gives up. Time is told in steps, as the clock is only
looked at before a step. -/
inductive Deadline where
  | never
  /-- Reached once so many steps have been taken. -/
  | after (steps : Nat)
  deriving DecidableEq

namespace Deadline

/-- A deadline that may have been reached at the outset. -/
instance : Coe Bool Deadline := ⟨fun expired => if expired then .after 0 else .never⟩

def isReached : Deadline → Bool
  | .after 0 => true
  | _ => false

/-- The deadline as seen one step later. -/
def next : Deadline → Deadline
  | .never => .never
  | .after steps => .after (steps - 1)

end Deadline

/-- How a search ended. -/
inductive SearchResult where
  | sat (solution : Solution)
  | unsat
  /-- The deadline was reached first. -/
  | timeout

namespace Solver

-- ================================================================ decisions

/-- The literal to decide next, none if all variables have values. -/
def nextDecision (s : Solver) : Option Literal :=
  (s.theory.boolVars.find? fun v => s.theory.value ⟨v, true⟩ == none).map
    fun v => ⟨v, s.polarity⟩

/-- Opens a level and sets a literal on it. -/
def openDecision (s : Solver) (d : Decision) : Checked Solver := do
  let theory ← s.theory.pushCheckpoint
  assign { s with theory, decisions := d :: s.decisions } d.literal

/-- Decides a literal. -/
def decide (s : Solver) (l : Literal) : Checked Solver :=
  openDecision { s with stats := { s.stats with decisions := s.stats.decisions + 1 } } ⟨l, false⟩

-- ============================================================ backtracking

/-- Closes decisions until one was not flipped, and flips it. None if
there is no such decision. -/
def flipLast : List Decision → Solver → Checked (Solver × Bool)
  | [], s => .ok ({ s with decisions := [] }, false)
  | d :: rest, s => do
    let parent := s.theory.level.parent?.getD .root
    let (theory, result) ← s.theory.backtrack parent
    Checked.require (result.isOk = true) .misuse
    let s := { s with theory, decisions := rest }
    if d.flipped then flipLast rest s
    else do
      let s ← s.openDecision ⟨d.literal.negate, true⟩
      return (s, true)

/-- Nothing can satisfy the clause that is violated. -/
def isHopeless (s : Solver) : Contradiction → Checked Bool
  | .theory clause => .ok clause.isEmpty
  | .clause id => (s.clauses.clause id).map (·.isEmpty)

/-- Keeps the clause of a contradiction for later: it waits for its
watches to be selected. -/
def keep (s : Solver) : Contradiction → Checked Solver
  | .theory clause =>
    let (clauses, id) := s.clauses.add (.ofDisjunction clause true)
    .ok { s with clauses, unwatched := id :: s.unwatched }
  | .clause id => do
    let clauses ← s.clauses.unwatch id
    return { s with clauses, unwatched := id :: s.unwatched }

/-- Goes to the next branch after a contradiction, if there is one. -/
def backtrackFrom (s : Solver) (c : Contradiction) : Checked (Solver × Bool) := do
  if ← s.isHopeless c then return (s, false)
  else
    let (s, flipped) ← flipLast s.decisions s
    if flipped then
      let s ← s.keep c
      return (s, true)
    else return (s, false)

-- ================================================================== search

/-- The assignment that was found. -/
def solution (s : Solver) : Checked Solution := do
  Checked.require (s.theory.isConsistent = true) .inconsistentSolution
  return ⟨s.theory.earliestSchedule,
    .ofList (s.theory.boolVars.map fun v =>
      (s.theory.value ⟨v, true⟩).getD s.polarity)⟩

/-- Prepares a search from the root. All watches are selected anew, for
the assignment that holds there. -/
def start (s : Solver) : Checked Solver := do
  let (s, result) ← s.reset
  Checked.require (result.isOk = true) .misuse
  return { s with
    clauses := s.clauses.unwatchAll
    unwatched := s.clauses.ids.reverse
    reader := s.reader.toEnd s.theory.assignments }

/-- Propagates once, and decides, backtracks, or ends the search. -/
def step (s : Solver) : Checked (Solver × Option SearchResult) := do
  match ← s.propagate with
  | (s, none) =>
    match s.nextDecision with
    | some l =>
      let s ← s.decide l
      return (s, none)
    | none =>
      let x ← s.solution
      return (s, some (.sat x))
  | (s, some c) =>
    let s := { s with stats := { s.stats with conflicts := s.stats.conflicts + 1 } }
    let (s, goesOn) ← s.backtrackFrom c
    return (s, if goesOn then none else some .unsat)

/-- Takes up to `n` steps, and none once the deadline is reached. -/
def run : Nat → Deadline → Solver → Checked (Solver × SearchResult)
  | 0, _, _ => .error .stepLimit
  | n + 1, deadline, s =>
    if deadline.isReached then .ok (s, .timeout)
    else do
      match ← s.step with
      | (s, some result) => return (s, result)
      | (s, none) => run n deadline.next s

/-- More steps than a search can take. -/
def stepBound (s : Solver) : Nat := Nat.pow 2 (s.theory.numVariables + 1)

/-- Searches from the root, until the deadline is reached. -/
def solve (s : Solver) (deadline : Deadline) : Checked (Solver × SearchResult) := do
  let s ← s.start
  run s.stepBound deadline s

end Solver

end TemporalNetwork
