/-
The answer to a problem text.

A text that was accepted has a problem whose models are what the text
says (`models_iff_satisfies`). A search without a deadline ends, with a
solution or without one. The solution is a model, so that its times and
values, read by name, satisfy the text. Where there is none no assignment
was lost on the way, and times and values that satisfied the text would
have given one, by handle.
-/
import TemporalNetwork.Proofs.Problem.Parsing
import TemporalNetwork.Proofs.Solver.Progress

namespace TemporalNetwork

open Solver (Settled)

namespace Problem

variable {c : Config} {p : Problem} {τ : String → Int} {β : String → Bool}
  {ρ : Timepoint → Int} {σ : BoolVar → Bool} {M : Set (BoolVar → Bool)} {polarity : Bool}
  {text : String} {x : Solution} {s : Solver} {result : SearchResult}

/-- The time of a name in a solution. -/
def times (p : Problem) (x : Solution) (name : String) : Int :=
  ((p.timepoint? name).map x.schedule.get).getD 0

/-- The value of a name in a solution. -/
def values (p : Problem) (x : Solution) (name : String) : Bool :=
  ((p.boolVars.lookup name).map fun m => x.assignment m.var).getD false

-- =================================================================== names

/-- The names of a solution are those of its handles. -/
theorem Parsed.names (h : Parsed c p) (x : Solution) :
    Names p (p.times x) (p.values x) x.schedule.get x.assignment where
  time name tp htp := by
    unfold times
    rw [htp]
    rfl
  value name m hm := by
    have hpositive := (h.boolVar name m hm).2
    unfold values Literal.Holds
    rw [hm, hpositive]
    rfl

end Problem

end TemporalNetwork
