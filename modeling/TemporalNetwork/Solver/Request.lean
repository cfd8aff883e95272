/-
Requests to a solver, as data.

A solver is asked what its theory can be asked, and besides to take
clauses, to search and to go back to the root. A history of a solver is
a list of such requests.
-/
import TemporalNetwork.Solver.Search
import TemporalNetwork.Theory.Request

namespace TemporalNetwork.Solver

/-- Something asked of a solver. -/
inductive Request where
  | theory (r : Theory.Request)
  | addClause (d : Disjunction)
  | setPolarity (positive : Bool)
  | solve (deadline : Deadline)
  | reset
  deriving DecidableEq

/-- What a solver answers. -/
inductive Reply where
  | theory (r : Theory.Reply)
  | done
  | solved (result : SearchResult)
  | refused (r : Refusal)
  | misused (m : Misuse)

/-- Carries out a request. -/
def perform (s : Solver) : Request → Checked (Solver × Reply)
  | .theory r => (s.theory.perform r).map fun (theory, reply) =>
      ({ s with theory }, .theory reply)
  | .addClause d =>
    match s.addClause d with
    | (s, .ok ()) => .ok (s, .done)
    | (s, .error r) => .ok (s, .refused r)
  | .setPolarity positive => .ok ({ s with polarity := positive }, .done)
  | .solve deadline => (s.solve deadline).map fun (s, result) => (s, .solved result)
  | .reset => s.reset.map fun (s, result) =>
      (s, match result with
        | .ok () => .done
        | .error m => .misused m)

/-- Carries out requests in turn, and lists what was asked and what was
answered. -/
def performAll (s : Solver) : List Request → Checked (Solver × List (Request × Reply))
  | [] => .ok (s, [])
  | r :: rs => do
    let (s, reply) ← s.perform r
    let (s, history) ← s.performAll rs
    return (s, (r, reply) :: history)

end TemporalNetwork.Solver
