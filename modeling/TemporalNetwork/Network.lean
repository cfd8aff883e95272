/-
Temporal networks: the timepoints and edges of a problem.

A network records the problem and nothing else: which edges are in
force, and what bounds follow, is the business of the graph built on
it. Timepoint 0 is the origin, there from the start with the domain
`[0, 0]`. Timepoints and edges are only ever added.

The guarded edges of each timepoint are indexed by where they leave and
where they enter, in the order in which they were added: these are the
edges a change of bound can rule out.
-/
import TemporalNetwork.Handle.Vector
import TemporalNetwork.Network.Edge
import TemporalNetwork.Refusal

namespace TemporalNetwork

/-- The values a timepoint may take at first. -/
structure Domain where
  lower : Int
  upper : Int
  deriving DecidableEq, Inhabited

/-- Timepoints with their domains, and the edges between them. -/
structure Network where
  domains : HandleVector Timepoint Domain
  edges : HandleVector EdgeId Edge
  /-- Guarded edges by source. -/
  guardedOut : HandleVector Timepoint (Array EdgeId)
  /-- Guarded edges by target. -/
  guardedIn : HandleVector Timepoint (Array EdgeId)

namespace Network

/-- The network of the origin alone. -/
def initial : Network := ⟨.ofList [⟨0, 0⟩], .empty, .ofList [#[]], .ofList [#[]]⟩

-- ================================================================= queries

def numTimepoints (net : Network) : Nat := net.domains.size

def numEdges (net : Network) : Nat := net.edges.size

def timepoints (net : Network) : List Timepoint := net.domains.keys

def edgeIds (net : Network) : List EdgeId := net.edges.keys

def hasTimepoint (net : Network) (tp : Timepoint) : Bool := net.domains.contains tp

def hasEdge (net : Network) (id : EdgeId) : Bool := net.edges.contains id

def edge (net : Network) (id : EdgeId) : Edge := net.edges.get id

def domain (net : Network) (tp : Timepoint) : Domain := net.domains.get tp

/-- The guarded edges that a change in a view can rule out: an upper
bound constrains the edges leaving the node, a lower bound those
entering it. -/
def guardedAt (net : Network) (d : Direction) (tp : Timepoint) : List EdgeId :=
  match d with
  | .forward => (net.guardedOut.get tp).toList
  | .backward => (net.guardedIn.get tp).toList

/-- Sum of the weights of edges. -/
def weight (net : Network) : List EdgeId → Int
  | [] => 0
  | e :: es => (net.edge e).weight + net.weight es

/-- Each edge starts where the one before ends. -/
def isPath (net : Network) : List EdgeId → Bool
  | a :: b :: rest => (net.edge a).target == (net.edge b).source && net.isPath (b :: rest)
  | _ => true

/-- The edges form a closed walk, in order. -/
def isCycle (net : Network) (es : List EdgeId) : Bool :=
  match es.head?, es.getLast? with
  | some first, some last =>
    (net.edge last).target == (net.edge first).source && net.isPath es
  | _, _ => false

-- ============================================================== validation

def checkMagnitude (value : Int) : Except Refusal Unit :=
  if -maxMagnitude ≤ value ∧ value ≤ maxMagnitude then .ok ()
  else .error (.outOfRange value)

def checkTimepoint (net : Network) (tp : Timepoint) : Except Refusal Unit :=
  if net.hasTimepoint tp then .ok () else .error (.unknownTimepoint tp)

def checkDomain (dom : Domain) : Except Refusal Unit := do
  checkMagnitude dom.lower
  checkMagnitude dom.upper
  if dom.lower ≤ dom.upper then .ok () else .error (.emptyDomain dom.lower dom.upper)

def checkEdge (net : Network) (source target : Timepoint) (weight : Int) :
    Except Refusal Unit := do
  net.checkTimepoint source
  net.checkTimepoint target
  checkMagnitude weight

-- =============================================================== additions

/-- Adds a timepoint, without the edges that enforce its domain. -/
def addTimepoint (net : Network) (dom : Domain) : Network :=
  { net with
    domains := net.domains.push dom
    guardedOut := net.guardedOut.push #[]
    guardedIn := net.guardedIn.push #[] }

/-- Adds an edge between timepoints of the network. -/
def addEdge (net : Network) (e : Edge) : Network :=
  let id := net.edges.nextKey
  let net := { net with edges := net.edges.push e }
  match e.guard? with
  | none => net
  | some _ =>
    { net with
      guardedOut := net.guardedOut.modify e.source (·.push id)
      guardedIn := net.guardedIn.modify e.target (·.push id) }

/-- Adds a timepoint with the permanent edges that enforce its domain:
from the origin for the upper bound, and to it for the lower bound. -/
def addBounded (net : Network) (dom : Domain) : Network :=
  (net.addTimepoint dom).addEdge ⟨.origin, net.domains.nextKey, dom.upper, .permanent⟩
    |>.addEdge ⟨net.domains.nextKey, .origin, -dom.lower, .permanent⟩

end Network

end TemporalNetwork
