/-
The theory of a temporal network: its state.

The theory holds the problem, the graph of the edges in force, and the
values of the boolean variables. Literals are set from outside or by the
theory itself; a literal that is set waits in the list of pending
activations until the edges that it guards are put in force. True
literals are published in one queue in the order in which they were set,
and those that the theory implied, with their explanations, in another.

# Levels

The log of the theory, the log of the graph and both queues are saved
and restored together, so that one number is the level of all four.
-/
import TemporalNetwork.ActiveGraph
import TemporalNetwork.Binding
import TemporalNetwork.History.EventQueue
import TemporalNetwork.Inference
import TemporalNetwork.Theory.Config

namespace TemporalNetwork

/-- A change of the theory that is undone with its level. -/
inductive TheoryChange where
  | literalSet (v : BoolVar)
  | conflictRecorded
  deriving DecidableEq

/-- Work that propagation has still to do. -/
inductive PendingActivation where
  /-- The literal was set: the edges that it guards are to be put in
  force. -/
  | literal (l : Literal)
  /-- The edge is to be put in force. -/
  | edge (id : EdgeId)
  deriving DecidableEq

/-- Counts of what the theory did. -/
structure TheoryStats where
  activations : Nat
  distanceUpdates : Nat
  conflicts : Nat
  implications : Nat
  /-- Edges that were found to be out of reach. -/
  edgePropagations : Nat
  deriving DecidableEq, Inhabited

instance : ToString TheoryStats :=
  ⟨fun s => "\n".intercalate
    [s!"# edge activations: {s.activations}", s!"# distance updates: {s.distanceUpdates}",
      s!"# conflicts: {s.conflicts}", s!"# implications: {s.implications}",
      s!"# unactivable edges: {s.edgePropagations}"]⟩

/-- A temporal network under a partial assignment. -/
structure Theory where
  config : Config
  network : Network
  graph : ActiveGraph
  bindings : Bindings
  values : HandleVector BoolVar (Option Bool)
  /-- The true literals, in the order in which they were set. -/
  assignments : EventQueue Literal
  /-- The literals that were implied, in that order. -/
  implications : EventQueue Implication
  log : UndoLog TheoryChange
  pending : List PendingActivation
  /-- A negative cycle among the edges that should be in force. -/
  conflict : Option Conflict
  stats : TheoryStats

namespace Theory

/-- The theory of the origin alone. -/
def initial (config : Config) : Theory :=
  { config
    network := .initial
    graph := .initial
    bindings := .empty
    values := .empty
    assignments := .empty
    implications := .empty
    log := .empty
    pending := []
    conflict := none
    stats := default }

-- ================================================================== values

def level (t : Theory) : DecisionLevel := t.log.level

def numVariables (t : Theory) : Nat := t.values.size

def boolVars (t : Theory) : List BoolVar := t.values.keys

def hasVariable (t : Theory) (v : BoolVar) : Bool := t.values.contains v

/-- What is known of the literal. -/
def value (t : Theory) : Valuation := fun l =>
  ((t.values.get? l.var).getD none).map (· == l.positive)

def isConsistent (t : Theory) : Bool := t.conflict.isNone

/-- Sets a literal of a variable that has no value, and leaves its edges
to propagation. A literal that is set already, or whose negation is, is
left alone. -/
def setLiteral (t : Theory) (l : Literal) : Theory :=
  if (t.value l).isSome then t
  else
    { t with
      values := t.values.set l.var (some l.positive)
      assignments := t.assignments.push l
      log := t.log.record (.literalSet l.var)
      pending := t.pending ++ [.literal l] }

/-- Sets a literal that was derived, and publishes it, unless its
variable has a value. -/
def imply (t : Theory) (l : Literal) (x : Explanation) : Theory :=
  if (t.value l).isSome then t
  else
    let t := t.setLiteral l
    { t with
      implications := t.implications.push ⟨l, x.sorted⟩
      stats := { t.stats with implications := t.stats.implications + 1 } }

/-- As `imply`, for the negated guard of an edge that is out of reach. -/
def ruleOut (t : Theory) (guard : Literal) (x : Explanation) : Theory :=
  imply { t with
    stats := { t.stats with edgePropagations := t.stats.edgePropagations + 1 } }
    guard.negate x

-- ============================================================ explanations

/-- Adds the guards of the chain that accounts for a potential. -/
def explainPotential (t : Theory) (d : Direction) (node : Timepoint) (x : Explanation) :
    Checked Explanation := do
  let chain ← t.graph.predecessorChain t.network d node
  if t.config.selfCheck then
    Checked.require (t.network.weight chain ≤ t.graph.value d node) .chainTooHeavy
  return x.addGuards t.network chain

end Theory

end TemporalNetwork
