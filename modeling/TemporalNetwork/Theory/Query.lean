/-
Questions to the theory.

None of them changes the state. Those about a timepoint fault if there
is no such timepoint; those about an edge or a literal have an answer
for unknown ones too.
-/
import TemporalNetwork.ActiveGraph.ShortestPath
import TemporalNetwork.Theory

namespace TemporalNetwork

namespace Theory

def requireTimepoint (t : Theory) (tp : Timepoint) : Checked Unit :=
  Checked.require (t.network.hasTimepoint tp) .outOfBounds

-- ================================================================== bounds

/-- The least value the timepoint can still take. -/
def lower (t : Theory) (tp : Timepoint) : Checked Int := do
  t.requireTimepoint tp
  return t.graph.lower tp

/-- The greatest value the timepoint can still take. -/
def upper (t : Theory) (tp : Timepoint) : Checked Int := do
  t.requireTimepoint tp
  return t.graph.upper tp

/-- The domain with which the timepoint was added. -/
def initialDomain (t : Theory) (tp : Timepoint) : Checked Domain := do
  t.requireTimepoint tp
  return t.network.domain tp

/-- The potential of every node in a view. -/
def potentials (t : Theory) (d : Direction) : HandleVector Timepoint Int :=
  .ofList (t.network.timepoints.map (t.graph.value d))

/-- Every timepoint at its lower bound. This respects all edges in force
but those that are only used for upper bounds. -/
def earliestSchedule (t : Theory) : HandleVector Timepoint Int :=
  .ofList (t.network.timepoints.map t.graph.lower)

/-- Every timepoint at its upper bound. This respects all edges in force
but those that are only used for lower bounds. -/
def latestSchedule (t : Theory) : HandleVector Timepoint Int :=
  .ofList (t.network.timepoints.map t.graph.upper)

-- =============================================================== distances

/-- The least upper bound on `b - a` that follows from the edges in
force. -/
def distance (t : Theory) (a b : Timepoint) : Checked Int := do
  t.requireTimepoint a
  t.requireTimepoint b
  let s ← PathSearch.run t.network t.graph .forward a false (some b)
  match ← s.distance? t.graph b with
  | some d => return d
  | none => int32 (t.graph.upper b - t.graph.lower a)

/-- Distances in a view between a timepoint and each timepoint: from it
in the forward view, to it in the backward one. -/
def distances (t : Theory) (d : Direction) (a : Timepoint) :
    Checked (List (Timepoint × Int)) := do
  t.requireTimepoint a
  let s ← PathSearch.run t.network t.graph d a false none
  s.distances t.graph

-- ================================================================ the rest

def edge (t : Theory) (id : EdgeId) : Except Refusal Edge :=
  if t.network.hasEdge id then .ok (t.network.edge id) else .error (.unknownEdge id)

def isActive (t : Theory) (id : EdgeId) : Bool := t.graph.isActive id

/-- The guard of the edge is false. -/
def isDisabled (t : Theory) (id : EdgeId) : Bool :=
  t.network.hasEdge id && (t.network.edge id).guard?.any (t.value · == some false)

/-- All edges, those of domains and of bound literals included. -/
def edges (t : Theory) : List Edge := t.network.edges.values

/-- The edges in force. -/
def activeEdges (t : Theory) : List EdgeId := t.network.edgeIds.filter t.isActive

/-- The edges whose guard is false. -/
def disabledEdges (t : Theory) : List EdgeId := t.network.edgeIds.filter t.isDisabled

/-- The counts of a theory, one on a line. -/
def report (t : Theory) : String :=
  s!"# timepoints: {t.network.numTimepoints}\n# edges: {t.network.numEdges}\n{t.stats}"

end Theory

end TemporalNetwork
