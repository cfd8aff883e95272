/-
Setting up the problem.

Timepoints, edges and bound literals are added at the root only. Every
operation first checks all that it would store, and the numbers derived
from its arguments with it; a refusal changes nothing. Once it is
accepted an addition is carried out whether or not the problem stays
consistent: a conflict is kept by the theory and reported by the next
propagation.
-/
import TemporalNetwork.Theory.Propagation

namespace TemporalNetwork

namespace Theory

/-- The state after a request, and what it led to. -/
abbrev Setup (α : Type) : Type := Checked (Theory × Except Refusal α)

/-- Carries out a request if it is valid; otherwise refuses it and keeps
the state. -/
def attempt {α : Type} (t : Theory) (validation : Except Refusal Unit)
    (commit : Checked (Theory × α)) : Setup α :=
  match validation with
  | .error refusal => .ok (t, .error refusal)
  | .ok () => commit.map fun (t, a) => (t, .ok a)

-- ============================================================== validation

def checkRoot (t : Theory) : Except Refusal Unit :=
  if t.level = .root then .ok () else .error (.notAtRoot t.level)

def checkLiteral (t : Theory) (l : Literal) : Except Refusal Unit :=
  if t.hasVariable l.var then .ok () else .error (.unknownVariable l.var)

/-- The timepoint of the fact is there, and both the fact and its
negation are in range. -/
def checkFact (t : Theory) (f : BoundFact) : Except Refusal Unit := do
  t.network.checkTimepoint f.timepoint
  Network.checkMagnitude f.value
  Network.checkMagnitude f.negation.value

-- =============================================================== variables

/-- Adds a variable without a value. It is taken that there are fewer
than `2 ^ 31` of them: a code of 32 bits has to hold the sign as well. -/
def newVariable (t : Theory) : Theory × BoolVar :=
  ({ t with values := t.values.push none }, t.values.nextKey)

/-- Adds a variable, given by its positive literal. As there are codes
left for it, the variable is that of the literal. -/
def newLiteral (t : Theory) : Theory × Literal :=
  let (t, v) := t.newVariable
  (t, ⟨v, true⟩)

-- ==================================================================== edges

/-- Adds an edge to the problem, not in force. -/
def recordEdge (t : Theory) (e : Edge) : Theory × EdgeId :=
  ({ t with network := t.network.addEdge e, graph := t.graph.addEdge },
    t.network.edges.nextKey)

/-- Adds an edge and has it put in force as soon as its guard is true,
which may be now. At the levels that use bounds, an edge that has no room
is ruled out. -/
def commitEdge (t : Theory) (e : Edge) : Checked (Theory × EdgeId) := do
  let (t, id) := t.recordEdge e
  let t ← match e.guard? with
    | none => pure { t with pending := t.pending ++ [.edge id] }
    | some guard => do
      let t := { t with bindings := t.bindings.addEdge guard id }
      match t.value guard with
      | some true => pure { t with pending := t.pending ++ [.edge id] }
      | some false => pure t
      | none => if t.config.propagation.usesBounds then t.checkRoom id else pure t
  let t ← t.propagate
  return (t, id)

/-- Adds the constraint `target - source ≤ weight`, always in force. -/
def addPermanentEdge (t : Theory) (source target : Timepoint) (weight : Int) : Setup EdgeId :=
  t.attempt
    (do
      t.checkRoot
      t.network.checkEdge source target weight)
    (t.commitEdge ⟨source, target, weight, .permanent⟩)

/-- Adds an edge of any kind. -/
def addEdge (t : Theory) (e : Edge) : Setup EdgeId :=
  match e.guard? with
  | none => t.addPermanentEdge e.source e.target e.weight
  | some guard =>
    t.attempt
      (do
        t.checkRoot
        t.checkLiteral guard
        t.network.checkEdge e.source e.target e.weight)
      (t.commitEdge e)

/-- Adds the constraint `target - source ≤ weight`, in force while the
guard is true. -/
def addConditionalEdge (t : Theory) (source target : Timepoint) (weight : Int)
    (guard : Literal) : Setup EdgeId :=
  t.addEdge ⟨source, target, weight, .conditional guard⟩

/-- As `addConditionalEdge`, in one view only. -/
def addDirectedEdge (t : Theory) (source target : Timepoint) (weight : Int)
    (guard : Literal) (view : Direction) : Setup EdgeId :=
  t.addEdge ⟨source, target, weight, .directed guard view⟩

/-- Adds the constraint `target - source ≤ weight`, under a guard if
there is one. -/
def addConstraint (t : Theory) (source target : Timepoint) (weight : Int)
    (guard : Option Literal) : Setup EdgeId :=
  match guard with
  | some guard => t.addConditionalEdge source target weight guard
  | none => t.addPermanentEdge source target weight

/-- Adds the constraint `target - source ≤ weight` between timepoints
that may be absent. It tightens the upper bound of the target while
`forwardGuard` is true and the lower bound of the source while
`backwardGuard` is: with the presence of target and source for guards, an
absent timepoint never restricts a present one. -/
def addOptionalEdge (t : Theory) (source target : Timepoint) (weight : Int)
    (forwardGuard backwardGuard : Literal) : Setup (EdgeId × EdgeId) :=
  t.attempt
    (do
      t.checkRoot
      t.checkLiteral forwardGuard
      t.checkLiteral backwardGuard
      t.network.checkEdge source target weight)
    (do
      let (t, forward) ←
        t.commitEdge ⟨source, target, weight, .directed forwardGuard .forward⟩
      let (t, backward) ←
        t.commitEdge ⟨source, target, weight, .directed backwardGuard .backward⟩
      return (t, (forward, backward)))

/-- Adds `later ≤ earlier + delay`. -/
def addMaxDelay (t : Theory) (earlier later : Timepoint) (delay : Int) : Setup EdgeId :=
  t.addPermanentEdge earlier later delay

/-- Adds `later ≥ earlier + delay`. The negated delay is formed before
it is checked, and must have 32 bits. -/
def addMinDelay (t : Theory) (earlier later : Timepoint) (delay : Int) :
    Checked (Theory × Except Refusal EdgeId) := do
  let weight ← int32 (-delay)
  t.addPermanentEdge later earlier weight

/-- Adds `a ≤ b`. -/
def addBeforeEq (t : Theory) (a b : Timepoint) : Setup EdgeId :=
  t.addPermanentEdge b a 0

/-- Adds `a < b`. -/
def addStrictlyBefore (t : Theory) (a b : Timepoint) : Setup EdgeId :=
  t.addPermanentEdge b a (-1)

-- ============================================================== timepoints

/-- Adds a timepoint. Its domain is enforced by two permanent edges,
from the origin for the upper bound and to it for the lower bound. -/
def newTimepoint (t : Theory) (dom : Domain) : Setup Timepoint :=
  t.attempt
    (do
      t.checkRoot
      Network.checkDomain dom)
    (do
      let tp : Timepoint := t.network.domains.nextKey
      let graph ← t.graph.addNode tp dom
      return ({ t with network := t.network.addBounded dom, graph }, tp))

-- ============================================================ equivalences

/-- Adds an edge guarded by a literal and one guarded by its negation. -/
def recordEquivalence (t : Theory) (l : Literal) (edge negated : Edge) : Theory × EdgeId :=
  let (t, id) := t.recordEdge edge
  let (t, negatedId) := t.recordEdge negated
  ({ t with bindings := (t.bindings.addEdge l id).addEdge l.negate negatedId }, id)

/-- Propagates what a literal was just given to stand for. If it has no
value yet, its edges and those of its negation may be out of reach: they
are looked at if `entailed` is set. -/
def commitEquivalence (t : Theory) (l : Literal) (entailed : Bool) : Checked Theory := do
  let t ← match t.value l with
    | some true => pure { t with pending := t.pending ++ [.literal l] }
    | some false => pure { t with pending := t.pending ++ [.literal l.negate] }
    | none =>
      if entailed then do
        let t ← t.checkRoomAll (t.bindings.edgesOf l)
        t.checkRoomAll (t.bindings.edgesOf l.negate)
      else pure t
  t.propagate

/-- Makes the literal equivalent to `target - source ≤ weight`: it
guards the edge of the constraint, and its negation guards the edge of
the negated constraint `source - target ≤ -weight - 1`. -/
def addReifiedEdge (t : Theory) (l : Literal) (source target : Timepoint) (weight : Int) :
    Setup EdgeId :=
  t.attempt
    (do
      t.checkRoot
      t.checkLiteral l
      t.network.checkEdge source target weight
      Network.checkMagnitude (-weight - 1))
    (do
      let (t, id) := t.recordEquivalence l
        ⟨source, target, weight, .conditional l⟩
        ⟨target, source, -weight - 1, .conditional l.negate⟩
      let t ← t.commitEquivalence l t.config.propagation.usesBounds
      return (t, id))

/-- Makes the literal equivalent to a fact that was checked. -/
def commitBound (t : Theory) (l : Literal) (f : BoundFact) : Checked Theory := do
  let (t, _) := t.recordEquivalence l (f.edge l) (f.negation.edge l.negate)
  let t := { t with
    bindings := (t.bindings.addBound l f).addBound l.negate f.negation }
  t.commitEquivalence l true

/-- Makes the literal equivalent to the fact. -/
def bindBound (t : Theory) (l : Literal) (f : BoundFact) : Setup Unit :=
  t.attempt
    (do
      t.checkRoot
      t.checkLiteral l
      t.checkFact f)
    (do
      let t ← t.commitBound l f
      return (t, ()))

/-- Adds a literal equivalent to the fact. -/
def newBoundLiteral (t : Theory) (f : BoundFact) : Setup Literal :=
  t.attempt
    (do
      t.checkRoot
      t.checkFact f)
    (do
      let (t, l) := t.newLiteral
      let t ← t.commitBound l f
      return (t, l))

end Theory

end TemporalNetwork
