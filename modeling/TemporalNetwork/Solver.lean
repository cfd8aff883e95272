/-
The solver: its state, and the clauses of a problem.

The solver owns a theory and the clauses that must hold as well. All
values of variables are held by the theory; the solver keeps the
decisions that it took, each with a level of the theory to itself, and
the position up to which it has read the assignments.
-/
import TemporalNetwork.Clause.Database
import TemporalNetwork.Notification
import TemporalNetwork.Theory.Checkpoint
import TemporalNetwork.Theory.Query

namespace TemporalNetwork

/-- A literal that was decided. -/
structure Decision where
  literal : Literal
  /-- The other value of the variable was explored before. -/
  flipped : Bool
  deriving DecidableEq

/-- Counts of what the search did. -/
structure SolverStats where
  decisions : Nat
  conflicts : Nat
  /-- Literals set because of a clause. -/
  propagations : Nat
  /-- Literals set by the theory. -/
  theoryPropagations : Nat
  deriving DecidableEq, Inhabited

instance : ToString SolverStats :=
  ⟨fun s => "\n".intercalate
    [s!"# decisions: {s.decisions}", s!"# conflicts: {s.conflicts}",
      s!"# clause propagations: {s.propagations}",
      s!"# theory propagations: {s.theoryPropagations}"]⟩

/-- A theory, clauses, and a search for an assignment of all variables. -/
structure Solver where
  theory : Theory
  clauses : ClauseDatabase
  /-- Clauses whose watches are still to be selected, the next one
  first. -/
  unwatched : List ClauseId
  /-- Position in the assignments of the theory. -/
  reader : QueueReader
  notifier : Notifier
  /-- The decisions that are open, the last one first. -/
  decisions : List Decision
  /-- The value with which a variable is decided first. -/
  polarity : Bool
  stats : SolverStats

namespace Solver

def ofTheory (t : Theory) (polarity : Bool) : Solver :=
  { theory := t
    clauses := .empty
    unwatched := []
    reader := .start
    notifier := .initial
    decisions := []
    polarity
    stats := default }

/-- The first literal of a variable that the theory lacks. -/
def checkLiterals (t : Theory) : List Literal → Except Refusal Unit
  | [] => .ok ()
  | l :: ls => do
    t.checkLiteral l
    checkLiterals t ls

/-- Adds a clause that must hold. It is taken up by the next search. A
clause that holds anyway is not kept. -/
def addClause (s : Solver) (d : Disjunction) : Solver × Except Refusal Unit :=
  match checkLiterals s.theory d.literals with
  | .error refusal => (s, .error refusal)
  | .ok () =>
    if d.isTautology then (s, .ok ())
    else ({ s with clauses := (s.clauses.add (.ofDisjunction d false)).1 }, .ok ())

/-- Closes all decisions, so that the problem can be extended. -/
def reset (s : Solver) : Checked (Solver × Except Misuse Unit) := do
  let (theory, result) ← s.theory.backtrack .root
  return ({ s with decisions := [], theory }, result)

/-- The counts of the search and of the theory, one on a line. -/
def report (s : Solver) : String :=
  s!"{s.stats}\n# learnt clauses: {s.clauses.numLearnt}\n{s.theory.report}"

end Solver

end TemporalNetwork
