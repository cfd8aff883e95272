/-
Shortest paths among the edges in force.

The potential of a view makes every reduced weight `w + π(u) - π(v)`
nonnegative, so that nodes can be settled in the order of their reduced
distance from the start, negative edges notwithstanding. The distance
itself follows from the reduced one: all paths between two nodes are
shifted by the same amount.

A node is labelled with the least reduced distance found so far and the
edge by which it was found; following these edges back from any labelled
node gives a shortest path from the start.
-/
import TemporalNetwork.ActiveGraph
import TemporalNetwork.Handle.Set

namespace TemporalNetwork

/-- The least reduced distance found for a node, and the last edge of a
path of that length. -/
structure PathLabel where
  distance : Int
  incoming : Option EdgeId
  deriving DecidableEq

/-- A search for the shortest paths from one node. -/
structure PathSearch where
  view : Direction
  start : Timepoint
  labels : HandleMap Timepoint PathLabel
  settled : HandleSet Timepoint

namespace PathSearch

/-- Only the start is labelled. -/
def initial (d : Direction) (start : Timepoint) : PathSearch :=
  ⟨d, start, HandleMap.empty.insert start ⟨0, none⟩, .empty⟩

-- ================================================================== search

/-- A labelled node that is not settled, at the least distance. Of several
the one with the least handle is taken, where a heap of nodes gives them in
an order of its own. Distances do not depend on it, but which of the shortest
paths is found does, and so does the explanation of what follows from it.
Whatever the order, the same literals follow and each is explained validly
(`Theory.exists_ruleOutClosing_of_finds`). -/
def nearest? (s : PathSearch) : Option (Timepoint × Int) :=
  s.labels.toList.foldl choose none
where
  choose (best : Option (Timepoint × Int)) (entry : Timepoint × PathLabel) :
      Option (Timepoint × Int) :=
    if s.settled.contains entry.1 then best
    else match best with
      | none => some (entry.1, entry.2.distance)
      | some (_, distance) =>
        if entry.2.distance < distance then some (entry.1, entry.2.distance) else best

/-- Labels the node, if the distance is less than what was found. -/
def improve (s : PathSearch) (node : Timepoint) (distance : Int) (via : EdgeId) :
    PathSearch :=
  if (s.labels.get? node).all (distance < ·.distance) then
    { s with labels := s.labels.insert node ⟨distance, some via⟩ }
  else s

/-- Looks at one edge that leaves a node settled at the distance. -/
def scanEdge (net : Network) (g : ActiveGraph) (sharedOnly : Bool) (node : Timepoint)
    (distance : Int) (s : PathSearch) (id : EdgeId) : Checked PathSearch :=
  let e := net.edge id
  let next := e.head s.view
  if sharedOnly && !e.isShared then .ok s
  else if (s.labels.get? next).any (·.distance ≤ distance) then .ok s
  else do
    let shifted ← int32 (e.weight + g.value s.view node)
    let reduced ← int32 (shifted - g.value s.view next)
    Checked.require (0 ≤ reduced) .negativeReducedCost
    let total ← int32 (distance + reduced)
    return s.improve next total id

def scanEdges (net : Network) (g : ActiveGraph) (sharedOnly : Bool) (node : Timepoint)
    (distance : Int) : PathSearch → List EdgeId → Checked PathSearch
  | s, [] => .ok s
  | s, id :: ids => do
    let s ← scanEdge net g sharedOnly node distance s id
    scanEdges net g sharedOnly node distance s ids

/-- Settles up to `n` nodes, the nearest first, until `stop` is settled
or no labelled node is left. -/
def settle (net : Network) (g : ActiveGraph) (sharedOnly : Bool) (stop : Option Timepoint) :
    Nat → PathSearch → Checked PathSearch
  | 0, s => .ok s
  | n + 1, s =>
    match s.nearest? with
    | none => .ok s
    | some (node, distance) =>
      let s := { s with settled := s.settled.insert node }
      if stop = some node then .ok s
      else do
        let s ← scanEdges net g sharedOnly node distance s (g.out s.view node)
        settle net g sharedOnly stop n s

/-- Searches from a node, along shared edges only or along all edges of
the view, and no further than until `stop` is settled. -/
def run (net : Network) (g : ActiveGraph) (d : Direction) (start : Timepoint)
    (sharedOnly : Bool) (stop : Option Timepoint) : Checked PathSearch :=
  settle net g sharedOnly stop g.numNodes (initial d start)

-- ================================================================= answers

/-- Distance from the start to the node, none if no path was found. -/
def distance? (g : ActiveGraph) (s : PathSearch) (node : Timepoint) : Checked (Option Int) :=
  match s.labels.get? node with
  | none => .ok none
  | some label => do
    let shifted ← int32 (label.distance - g.value s.view s.start)
    let distance ← int32 (shifted + g.value s.view node)
    return some distance

/-- The nodes to which a path was found, with their distances. -/
def distances (g : ActiveGraph) (s : PathSearch) : Checked (List (Timepoint × Int)) :=
  go s.labels.toList
where
  go : List (Timepoint × PathLabel) → Checked (List (Timepoint × Int))
    | [] => .ok []
    | (node, _) :: rest => do
      let distance ← s.distance? g node
      let others ← go rest
      return match distance with
        | some distance => (node, distance) :: others
        | none => others

/-- The edges of a shortest path, from the node back to the start. At
most `n` edges are followed. -/
def pathFrom (net : Network) (s : PathSearch) : Nat → Timepoint → Checked (List EdgeId)
  | n, node =>
    match (s.labels.get? node).bind (·.incoming), n with
    | none, _ => .ok []
    | some _, 0 => .error .stepLimit
    | some e, n + 1 => do
      let es ← pathFrom net s n ((net.edge e).tail s.view)
      return e :: es

/-- The edges of a shortest path, from the node back to the start. -/
def pathTo (net : Network) (g : ActiveGraph) (s : PathSearch) (node : Timepoint) :
    Checked (List EdgeId) :=
  s.pathFrom net g.numNodes node

end PathSearch

end TemporalNetwork
