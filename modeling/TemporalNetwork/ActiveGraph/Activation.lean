/-
Putting an edge in force.

A new edge can only lower potentials. The decrease is carried along the
edges in force by a queue of the nodes still to be looked at, each at
most once in the queue, so that only nodes whose potential changes are
visited. The views are relaxed one after the other.

# Negative cycles

If the decrease comes round to the tail of the new edge, lowering it
would lower the new edge's head again and so on for ever: the new edge
closes a negative cycle. The same holds of the origin, whose potential
is 0 whatever happens. The cycle is read off the predecessors. A view
without negative cycles can still leave a timepoint with its upper bound
below its lower bound, because directed edges are in one view only; the
two chains that account for the bounds then form the cycle.

If there is a cycle all changes are undone: the edge is not in force,
and the graph is as it was.
-/
import TemporalNetwork.ActiveGraph

namespace TemporalNetwork

/-- A relaxation under way. -/
structure Relaxation where
  graph : ActiveGraph
  /-- Nodes still to be looked at, each once. -/
  queue : List Timepoint
  /-- Nodes lowered so far, in order, with repetitions. -/
  lowered : Array (Direction × Timepoint)
  /-- A negative cycle that was found, in order. -/
  cycle : Option (List EdgeId)

namespace Relaxation

/-- Lowers a potential and queues the node. -/
def lower (r : Relaxation) (d : Direction) (node : Timepoint) (value : Int)
    (predecessor : EdgeId) : Relaxation :=
  { r with
    graph := r.graph.lowerPotential d node value predecessor
    queue := if node ∈ r.queue then r.queue else r.queue ++ [node]
    lowered := r.lowered.push (d, node) }

/-- Gives up the queue for a cycle that was found. -/
def close (r : Relaxation) (cycle : List EdgeId) : Relaxation :=
  { r with queue := [], cycle := some cycle }

-- =================================================================== cycles

/-- Follows up to `n` predecessors until `start` is reached, as if the
predecessor of `violated` were `via`: the edges, and where they end. -/
def closingFrom (net : Network) (g : ActiveGraph) (d : Direction)
    (start violated : Timepoint) (via : EdgeId) : Nat → Timepoint → List EdgeId × Timepoint
  | 0, node => ([], node)
  | n + 1, node =>
    match if node = violated then some via else (g.potential d node).predecessor with
    | none => ([], node)
    | some e =>
      let before := (net.edge e).tail d
      if before = start then ([e], start)
      else
        let (es, last) := closingFrom net g d start violated via n before
        (e :: es, last)

/-- The cycle that is closed when `violated` would be lowered through
`via`. It runs through `start`, where the new edge begins. -/
def extractCycle (net : Network) (g : ActiveGraph) (d : Direction)
    (start violated : Timepoint) (via : EdgeId) : Checked (List EdgeId) := do
  let (es, last) := closingFrom net g d start violated via (g.numNodes + 1) start
  Checked.require (last = start) .predecessorsNotClosed
  -- edges were met from the last to the first in the forward view only
  return match d with
    | .forward => es.reverse
    | .backward => es

-- =============================================================== relaxation

/-- Looks at one edge that leaves a node whose potential is `value`. -/
def visitEdge (net : Network) (d : Direction) (start : Timepoint) (value : Int)
    (r : Relaxation) (id : EdgeId) : Checked Relaxation := do
  let e := net.edge id
  let node := e.head d
  let candidate ← int32 (value + e.weight)
  if candidate < r.graph.value d node then
    if node = start ∨ node = .origin then
      let cycle ← extractCycle net r.graph d start node id
      return r.close cycle
    else
      return r.lower d node candidate id
  else
    return r

/-- Looks at edges in turn, up to a cycle. -/
def visitEdges (net : Network) (d : Direction) (start : Timepoint) (value : Int) :
    Relaxation → List EdgeId → Checked Relaxation
  | r, [] => .ok r
  | r, id :: ids => do
    let r ← visitEdge net d start value r id
    if r.cycle.isSome then return r else visitEdges net d start value r ids

/-- Looks at the queued nodes, at most `n` of them, until the queue is
empty or a cycle is found. -/
def drain (net : Network) (d : Direction) (start : Timepoint) :
    Nat → Relaxation → Checked Relaxation
  | 0, _ => .error .stepLimit
  | n + 1, r =>
    match r.queue with
    | [] => .ok r
    | node :: rest => do
      let r := { r with queue := rest }
      let r ← visitEdges net d start (r.graph.value d node) r (r.graph.out d node)
      drain net d start n r

/-- More nodes than can be taken from the queue: each was queued when a
potential was lowered, and potentials have 32 bits. -/
def bound (d : Direction) (r : Relaxation) : Nat :=
  (r.graph.nodes.map fun node => (r.graph.value d node + 2147483648).toNat).foldr (· + ·) 0
    + r.queue.length + 1

/-- Carries the effect of a new edge through one view. -/
def relax (net : Network) (id : EdgeId) (d : Direction) (r : Relaxation) :
    Checked Relaxation :=
  let e := net.edge id
  if r.cycle.isSome || !e.isIn d then .ok r
  else do
    let candidate ← int32 (r.graph.value d (e.tail d) + e.weight)
    if r.graph.value d (e.head d) ≤ candidate then
      return r
    else if e.head d = .origin then
      let cycle ← extractCycle net r.graph d (e.tail d) .origin id
      return r.close cycle
    else
      let r := r.lower d (e.head d) candidate id
      drain net d (e.tail d) (r.bound d) r

-- ============================================================ empty domains

/-- The first node whose upper bound is below its lower bound. -/
def firstEmpty (g : ActiveGraph) : List (Direction × Timepoint) → Checked (Option Timepoint)
  | [] => .ok none
  | (_, node) :: rest => do
    let slack ← int32 (g.value .forward node + g.value .backward node)
    if slack < 0 then return some node else firstEmpty g rest

/-- Looks for a lowered node without values. The cycle goes from the
origin to the node along its forward chain, and back along its backward
one. -/
def checkDomains (net : Network) (r : Relaxation) : Checked Relaxation :=
  if r.cycle.isSome then .ok r
  else do
    match ← firstEmpty r.graph r.lowered.toList with
    | none => return r
    | some node =>
      let there ← r.graph.predecessorChain net .forward node
      let back ← r.graph.predecessorChain net .backward node
      return r.close (there.reverse ++ back)

end Relaxation

-- =============================================================== activation

/-- What came of putting an edge in force. -/
structure Activation where
  graph : ActiveGraph
  /-- Number of potentials lowered on the way, undone ones included. -/
  steps : Nat
  /-- The nodes lowered, in order; or the negative cycle that the edge
  closes, in which case the graph is as it was. -/
  verdict : Except (List EdgeId) (List (Direction × Timepoint))

namespace ActiveGraph

/-- Puts the edge in force, unless it closes a negative cycle. -/
def activate (net : Network) (g : ActiveGraph) (id : EdgeId) : Checked Activation :=
  let e := net.edge id
  if g.isActive id then .ok ⟨g, 0, .ok []⟩
  else if e.isLoop ∧ e.weight < 0 then .ok ⟨g, 0, .error [id]⟩
  else do
    let r : Relaxation := ⟨g.insertEdge net id, [], #[], none⟩
    let r ← r.relax net id .forward
    let r ← r.relax net id .backward
    let r ← r.checkDomains net
    match r.cycle with
    | none => return ⟨r.graph, r.lowered.size, .ok r.lowered.toList⟩
    | some cycle =>
      let g ← r.graph.undoTo net g.log.size
      return ⟨g, r.lowered.size, .error cycle⟩

end ActiveGraph

end TemporalNetwork
