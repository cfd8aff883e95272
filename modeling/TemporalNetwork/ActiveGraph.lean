/-
The graph of the edges in force.

Each view keeps a potential for every node, its distance from the
origin: the upper bound of the timepoint in the forward view, the
negated lower bound in the backward one. With the value goes the last
edge that lowered it, so that following these predecessors from any node
leads back to the origin along a path that accounts for the value.

# Undoing

Every change is recorded: an edge put in force, a potential lowered with
what it was before. Edges are appended to the out-lists of the views and
taken off again from the end, which is right because changes are undone
in reverse order; the edge found at the end is looked at all the same.
Nodes are only added at the root and are never taken back.
-/
import TemporalNetwork.History.UndoLog
import TemporalNetwork.Network

namespace TemporalNetwork

/-- The value of a node in a view, and the last edge that lowered it. -/
structure Potential where
  value : Int
  predecessor : Option EdgeId
  deriving DecidableEq, Inhabited

/-- One view of the edges in force. -/
structure View where
  potentials : HandleVector Timepoint Potential
  /-- The edges that begin at each node, in the order of activation. -/
  out : HandleVector Timepoint (Array EdgeId)

/-- A change of the graph, with what it takes to undo it. -/
inductive GraphChange where
  | activated (id : EdgeId)
  | lowered (view : Direction) (node : Timepoint) (previous : Potential)
  deriving DecidableEq

/-- Both views of the edges in force, and how they came about. -/
structure ActiveGraph where
  forward : View
  backward : View
  /-- One flag for each edge of the network. -/
  active : HandleVector EdgeId Bool
  log : UndoLog GraphChange

namespace ActiveGraph

/-- The graph of the origin alone. -/
def initial : ActiveGraph :=
  let view : View := ⟨.ofList [⟨0, none⟩], .ofList [#[]]⟩
  ⟨view, view, .empty, .empty⟩

-- ================================================================= queries

def view (g : ActiveGraph) : Direction → View
  | .forward => g.forward
  | .backward => g.backward

def numNodes (g : ActiveGraph) : Nat := g.forward.potentials.size

def nodes (g : ActiveGraph) : List Timepoint := g.forward.potentials.keys

def isActive (g : ActiveGraph) (id : EdgeId) : Bool := (g.active.get? id).getD false

def potential (g : ActiveGraph) (d : Direction) (node : Timepoint) : Potential :=
  (g.view d).potentials.get node

def value (g : ActiveGraph) (d : Direction) (node : Timepoint) : Int :=
  (g.potential d node).value

def upper (g : ActiveGraph) (tp : Timepoint) : Int := g.value .forward tp

def lower (g : ActiveGraph) (tp : Timepoint) : Int := -g.value .backward tp

/-- The edges in force that begin at the node, in the order of
activation. -/
def out (g : ActiveGraph) (d : Direction) (node : Timepoint) : List EdgeId :=
  ((g.view d).out.get node).toList

-- ================================================================= changes

def modifyView (g : ActiveGraph) (d : Direction) (f : View → View) : ActiveGraph :=
  match d with
  | .forward => { g with forward := f g.forward }
  | .backward => { g with backward := f g.backward }

def setPotential (g : ActiveGraph) (d : Direction) (node : Timepoint) (p : Potential) :
    ActiveGraph :=
  g.modifyView d fun v => { v with potentials := v.potentials.set node p }

/-- Makes room for one more edge, not in force. -/
def addEdge (g : ActiveGraph) : ActiveGraph := { g with active := g.active.push false }

/-- Lowers a potential and records what it was. -/
def lowerPotential (g : ActiveGraph) (d : Direction) (node : Timepoint) (value : Int)
    (predecessor : EdgeId) : ActiveGraph :=
  let g := { g with log := g.log.record (.lowered d node (g.potential d node)) }
  g.setPotential d node ⟨value, some predecessor⟩

/-- Appends the edge to the out-list of its tail, if the view has it. -/
def attach (net : Network) (id : EdgeId) (d : Direction) (g : ActiveGraph) : ActiveGraph :=
  let e := net.edge id
  if e.isIn d then
    g.modifyView d fun v => { v with out := v.out.modify (e.tail d) (·.push id) }
  else g

/-- Puts the edge in force, leaving potentials alone. -/
def insertEdge (net : Network) (g : ActiveGraph) (id : EdgeId) : ActiveGraph :=
  let g := { g with active := g.active.set id true, log := g.log.record (.activated id) }
  attach net id .backward (attach net id .forward g)

/-- Adds a node whose domain is enforced by two edges that follow all
edges of the graph: one from the origin to it for the upper bound, then
one from it to the origin for the lower bound. Both are in force.

The edge back to the origin is the first that leaves the node, so that a
relaxation which lowers the node too far is noticed before it goes on. -/
def addNode (g : ActiveGraph) (tp : Timepoint) (dom : Domain) : Checked ActiveGraph := do
  Checked.require (g.log.level = .root) .nodeAboveRoot
  let upperEdge : EdgeId := g.active.nextKey
  let lowerEdge : EdgeId := (g.active.push true).nextKey
  let grow (v : View) (value : Int) (toNode back : EdgeId) : View :=
    ⟨v.potentials.push ⟨value, some toNode⟩,
      (v.out.push #[back]).modify .origin (·.push toNode)⟩
  Checked.require (g.forward.potentials.nextKey = tp) .outOfBounds
  return { g with
    forward := grow g.forward dom.upper upperEdge lowerEdge
    backward := grow g.backward (-dom.lower) lowerEdge upperEdge
    active := (g.active.push true).push true }

-- ================================================================= undoing

/-- Takes the edge off the out-list of its tail, if the view has it. -/
def detach (net : Network) (id : EdgeId) (d : Direction) (g : ActiveGraph) :
    Checked ActiveGraph :=
  let e := net.edge id
  if e.isIn d then do
    Checked.require ((g.out d (e.tail d)).getLast? = some id) .wrongEdgeUndone
    return g.modifyView d fun v => { v with out := v.out.modify (e.tail d) (·.pop) }
  else .ok g

def undo (net : Network) (g : ActiveGraph) : GraphChange → Checked ActiveGraph
  | .activated id => do
    let g := { g with active := g.active.set id false }
    let g ← detach net id .forward g
    detach net id .backward g
  | .lowered d node previous => .ok (g.setPotential d node previous)

/-- Undoes changes in turn, the newest first. -/
def undoAll (net : Network) (g : ActiveGraph) : List GraphChange → Checked ActiveGraph
  | [] => .ok g
  | c :: cs => g.undo net c >>= fun g => g.undoAll net cs

/-- Undoes all changes after the first `mark`. -/
def undoTo (net : Network) (g : ActiveGraph) (mark : Nat) : Checked ActiveGraph := do
  let (log, changes) ← g.log.undoTo mark
  undoAll net { g with log } changes

def save (g : ActiveGraph) : ActiveGraph := { g with log := g.log.save }

/-- Returns to the last saved state. -/
def restoreLast (net : Network) (g : ActiveGraph) : Checked ActiveGraph := do
  let (log, changes) ← g.log.restoreLast
  undoAll net { g with log } changes

-- ================================================================== chains

/-- Follows up to `n` predecessors: the edges, and where they end. -/
def chainFrom (net : Network) (g : ActiveGraph) (d : Direction) :
    Nat → Timepoint → List EdgeId × Timepoint
  | 0, node => ([], node)
  | n + 1, node =>
    match (g.potential d node).predecessor with
    | none => ([], node)
    | some e =>
      let (es, last) := chainFrom net g d n ((net.edge e).tail d)
      (e :: es, last)

/-- The edges that account for the potential of the node, from it back
to the origin. -/
def predecessorChain (net : Network) (g : ActiveGraph) (d : Direction) (node : Timepoint) :
    Checked (List EdgeId) := do
  let (es, last) := chainFrom net g d g.numNodes node
  Checked.require (last = .origin) .chainMissesOrigin
  return es

end ActiveGraph

end TemporalNetwork
