/-
Options of the theory.

Whatever the level of propagation, an edge that would close a negative
cycle is noticed when its guard is set. The levels say which of these
edges are ruled out beforehand, by setting the negation of their guard.
-/
namespace TemporalNetwork

/-- Which edges that are not in force are ruled out beforehand. -/
inductive PropagationLevel where
  /-- None. -/
  | off
  /-- Those that no longer fit between the bounds of their ends. -/
  | bounds
  /-- Those that would close a negative cycle with an edge just put in
  force. -/
  | edges
  /-- Both kinds. -/
  | full
  deriving DecidableEq, Inhabited

namespace PropagationLevel

/-- Edges are held against the bounds of their ends. -/
def usesBounds : PropagationLevel → Bool
  | off | edges => false
  | bounds | full => true

/-- Cycles through an edge just put in force are looked for. -/
def usesEdges : PropagationLevel → Bool
  | off | bounds => false
  | edges | full => true

/-- Reads the name of a level. -/
def ofText? (s : String) : Option PropagationLevel :=
  if s = "none" then some off
  else if s = "bounds" then some bounds
  else if s = "edges" then some edges
  else if s = "full" then some full
  else none

/-- What is said of a text that names no level. -/
def unknownMessage (s : String) : String :=
  "unknown propagation level `" ++ s ++ "` (expected none, bounds, edges or full)"

instance : ToString PropagationLevel :=
  ⟨fun
    | off => "None"
    | bounds => "Bounds"
    | edges => "Edges"
    | full => "Full"⟩

end PropagationLevel

/-- Options of the theory. -/
structure Config where
  propagation : PropagationLevel
  /-- Conflicts, chains and potentials are checked as they arise. -/
  selfCheck : Bool
  deriving DecidableEq, Inhabited

/-- Bounds are used, and nothing is checked twice. -/
def Config.standard : Config := ⟨.bounds, false⟩

end TemporalNetwork
