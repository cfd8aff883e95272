/-
What literals stand for.

A literal may guard edges, and may be equivalent to a fact on the value
of one timepoint. Over the integers a fact `x ≤ k` and its negation
`x ≥ k + 1` are both edges between `x` and the origin, so a literal
bound to a fact guards the edge of the fact and its negation guards the
edge of the negated one. In the other direction a fact is watched: it
is entailed as soon as one potential drops to a threshold.
-/
import TemporalNetwork.Network

namespace TemporalNetwork

/-- A fact on the value of one timepoint. -/
inductive BoundFact where
  /-- `tp ≤ k`. -/
  | leq (tp : Timepoint) (k : Int)
  /-- `tp ≥ k`. -/
  | geq (tp : Timepoint) (k : Int)
  deriving DecidableEq

namespace BoundFact

def timepoint : BoundFact → Timepoint
  | .leq tp _ => tp
  | .geq tp _ => tp

def value : BoundFact → Int
  | .leq _ k => k
  | .geq _ k => k

/-- The fact that holds exactly when this one does not. -/
def negation : BoundFact → BoundFact
  | .leq tp k => .geq tp (k + 1)
  | .geq tp k => .leq tp (k - 1)

/-- The edge that enforces the fact while the guard is true. -/
def edge (guard : Literal) : BoundFact → Edge
  | .leq tp k => ⟨.origin, tp, k, .conditional guard⟩
  | .geq tp k => ⟨tp, .origin, -k, .conditional guard⟩

/-- The fact is entailed once the potential of its timepoint in this
view is at most the threshold. -/
def view : BoundFact → Direction
  | .leq _ _ => .forward
  | .geq _ _ => .backward

/-- See `view`. -/
def threshold : BoundFact → Int
  | .leq _ k => k
  | .geq _ k => -k

/-- The negation and the edge of the fact can be written with 32 bits. -/
def checkRange (f : BoundFact) : Checked Unit := do
  let _ ← int32 f.negation.value
  let _ ← int32 f.threshold
  return ()

instance : ToString BoundFact :=
  ⟨fun
    | .leq tp k => Text.applied "Leq" [toString tp, toString k]
    | .geq tp k => Text.applied "Geq" [toString tp, toString k]⟩

@[simp] theorem negation_negation (f : BoundFact) : f.negation.negation = f := by
  cases f with
  | leq tp k => exact congrArg _ (Int.add_sub_cancel k 1)
  | geq tp k => exact congrArg _ (Int.sub_add_cancel k 1)

end BoundFact

-- ================================================================ bindings

/-- One thing that a literal stands for. -/
inductive Binding where
  /-- The edge is in force exactly when the literal is true. -/
  | edge (id : EdgeId)
  /-- The literal is equivalent to the fact. -/
  | bound (fact : BoundFact)
  deriving DecidableEq

/-- A literal that becomes true once a potential is at most the
threshold. -/
structure Watch where
  threshold : Int
  literal : Literal
  deriving DecidableEq

/-- What each literal stands for, and the bound literals that each
potential can entail. -/
structure Bindings where
  byLiteral : HandleVector Literal (Array Binding)
  forwardWatches : HandleVector Timepoint (Array Watch)
  backwardWatches : HandleVector Timepoint (Array Watch)

namespace Bindings

def empty : Bindings := ⟨.empty, .empty, .empty⟩

/-- What the literal stands for, in the order in which it was bound. -/
def of (b : Bindings) (l : Literal) : List Binding := (b.byLiteral.get l).toList

/-- The edges that the literal guards. -/
def edgesOf (b : Bindings) (l : Literal) : List EdgeId :=
  (b.of l).filterMap fun
    | .edge id => some id
    | .bound _ => none

def watches (b : Bindings) (d : Direction) (tp : Timepoint) : List Watch :=
  match d with
  | .forward => (b.forwardWatches.get tp).toList
  | .backward => (b.backwardWatches.get tp).toList

/-- Lets the literal guard the edge. -/
def addEdge (b : Bindings) (l : Literal) (id : EdgeId) : Bindings :=
  { b with byLiteral := b.byLiteral.update l (·.push (.edge id)) }

/-- Lets the literal stand for the fact, and watches the fact. -/
def addBound (b : Bindings) (l : Literal) (f : BoundFact) : Bindings :=
  let watch (ws : HandleVector Timepoint (Array Watch)) :=
    ws.update f.timepoint (·.push ⟨f.threshold, l⟩)
  let b := { b with byLiteral := b.byLiteral.update l (·.push (.bound f)) }
  match f.view with
  | .forward => { b with forwardWatches := watch b.forwardWatches }
  | .backward => { b with backwardWatches := watch b.backwardWatches }

-- ==================================================== reading after writing

theorem mem_edgesOf_addEdge {b : Bindings} {l m : Literal} {id i : EdgeId} :
    i ∈ (b.addEdge l id).edgesOf m ↔ i ∈ b.edgesOf m ∨ m = l ∧ i = id := by
  have hindex : Handle.index l = Handle.index m ↔ m = l := Handle.index_inj.trans eq_comm
  unfold edgesOf of addEdge
  simp only [HandleVector.get_update, hindex]
  split
  next hm => simp [hm]
  next hm => simp [hm]

theorem mem_edgesOf_addBound {b : Bindings} {l m : Literal} {f : BoundFact} {i : EdgeId} :
    i ∈ (b.addBound l f).edgesOf m ↔ i ∈ b.edgesOf m := by
  have hindex : Handle.index l = Handle.index m ↔ m = l := Handle.index_inj.trans eq_comm
  have hof : (b.addBound l f).byLiteral = b.byLiteral.update l (·.push (.bound f)) := by
    unfold addBound
    cases f.view <;> rfl
  unfold edgesOf of
  rw [hof, HandleVector.get_update]
  simp only [hindex]
  split
  next => simp
  next => rfl

@[simp] theorem watches_addEdge (b : Bindings) (l : Literal) (id : EdgeId) (d : Direction)
    (tp : Timepoint) : (b.addEdge l id).watches d tp = b.watches d tp := by
  cases d <;> rfl

theorem mem_watches_addBound {b : Bindings} {l : Literal} {f : BoundFact} {d : Direction}
    {tp : Timepoint} {w : Watch} : w ∈ (b.addBound l f).watches d tp ↔
      w ∈ b.watches d tp ∨ (d = f.view ∧ tp = f.timepoint) ∧ w = ⟨f.threshold, l⟩ := by
  have hindex : Handle.index f.timepoint = Handle.index tp ↔ tp = f.timepoint :=
    Handle.index_inj.trans eq_comm
  cases f with
  | leq x k =>
      cases d with
      | forward =>
          simp only [addBound, watches, BoundFact.view, HandleVector.get_update, hindex]
          split
          next htp => simp [htp]
          next htp => simp [htp]
      | backward => simp [addBound, watches, BoundFact.view]
  | geq x k =>
      cases d with
      | forward => simp [addBound, watches, BoundFact.view]
      | backward =>
          simp only [addBound, watches, BoundFact.view, HandleVector.get_update, hindex]
          split
          next htp => simp [htp]
          next htp => simp [htp]

end Bindings

end TemporalNetwork
