/-
Difference constraints, as edges of a graph.

The edge `(source, target, weight)` says `target - source ≤ weight`. It
is either permanent or guarded by a literal, and then in force only
while the literal is true.

# Two views

In the forward view the edge leads from its source to its target, and
distances from the origin are upper bounds. In the backward view it
leads from its target to its source, and distances from the origin are
negated lower bounds. A directed edge belongs to one view only: a
forward one tightens the upper bound of its target, a backward one the
lower bound of its source. All other edges are shared by both views.
-/
import TemporalNetwork.Literal
import TemporalNetwork.Text.Structure

namespace TemporalNetwork

/-- One of the two views of the graph. -/
inductive Direction where
  | forward
  | backward
  deriving DecidableEq, Inhabited

namespace Direction

/-- Both views, in the order in which they are worked on. -/
def both : List Direction := [forward, backward]

instance : ToString Direction :=
  ⟨fun | .forward => "Forward" | .backward => "Backward"⟩

end Direction

/-- When and where an edge is in force. -/
inductive EdgeKind where
  /-- Always. -/
  | permanent
  /-- While the guard is true. -/
  | conditional (guard : Literal)
  /-- While the guard is true, in one view. -/
  | directed (guard : Literal) (view : Direction)
  deriving DecidableEq, Inhabited

/-- The constraint `target - source ≤ weight`. -/
structure Edge where
  source : Timepoint
  target : Timepoint
  weight : Int
  kind : EdgeKind
  deriving DecidableEq, Inhabited

namespace Edge

/-- The literal under which the edge is in force. -/
def guard? (e : Edge) : Option Literal :=
  match e.kind with
  | .permanent => none
  | .conditional l => some l
  | .directed l _ => some l

/-- The edge belongs to the view. -/
def isIn (e : Edge) (d : Direction) : Bool :=
  match e.kind with
  | .directed _ view => view == d
  | _ => true

/-- The edge belongs to both views. -/
def isShared (e : Edge) : Bool :=
  match e.kind with
  | .directed _ _ => false
  | _ => true

def isLoop (e : Edge) : Bool := e.source == e.target

/-- Where the edge begins in a view. -/
def tail (e : Edge) : Direction → Timepoint
  | .forward => e.source
  | .backward => e.target

/-- Where the edge ends in a view. -/
def head (e : Edge) : Direction → Timepoint
  | .forward => e.target
  | .backward => e.source

instance : ToString EdgeKind :=
  ⟨fun
    | .permanent => "Permanent"
    | .conditional l => Text.applied "Conditional" [toString l]
    | .directed l d => Text.applied "Directed" [toString l, toString d]⟩

instance : ToString Edge :=
  ⟨fun e => Text.record "Edge"
    [("source", toString e.source), ("target", toString e.target),
      ("weight", toString e.weight), ("kind", toString e.kind)]⟩

end Edge

end TemporalNetwork
