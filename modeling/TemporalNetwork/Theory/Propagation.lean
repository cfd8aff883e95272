/-
Propagation: from literals that were set to a fixed point or a conflict.

Pending activations are worked off in the order in which they arose. An
edge put in force lowers potentials, and each node that was lowered is
looked at in turn: bound literals that are now entailed are set, and, at
the levels that use bounds, guarded edges that no longer fit between the
bounds of their ends are ruled out. At the levels that use edges, the
edges that would close a negative cycle with the new one are ruled out
after that. Whatever is set joins the pending activations.

A conflict drops all pending work and stays until its level is undone.
-/
import TemporalNetwork.ActiveGraph.Activation
import TemporalNetwork.ActiveGraph.ShortestPath
import TemporalNetwork.Theory

namespace TemporalNetwork

namespace Theory

-- =============================================================== conflicts

/-- The conflict is a negative cycle whose guards are true. -/
def checkConflict (t : Theory) (c : Conflict) : Checked Unit := do
  Checked.require (t.network.isCycle c.cycle) .conflictNotClosed
  Checked.require (t.network.weight c.cycle < 0) .conflictNotNegative
  Checked.require (∀ l ∈ c.explanation.literals, t.value l = some true) .conflictNotEntailed

/-- Records that the edges of a negative cycle should be in force. -/
def recordConflict (t : Theory) (cycle : List EdgeId) : Checked Theory := do
  Checked.require (t.network.isCycle cycle) .conflictNotClosed
  Checked.require (t.network.weight cycle < 0) .conflictNotNegative
  let c := Conflict.ofCycle t.network cycle
  if t.config.selfCheck then t.checkConflict c
  return { t with
    stats := { t.stats with conflicts := t.stats.conflicts + 1 }
    pending := []
    conflict := some c
    log := t.log.record .conflictRecorded }

-- ========================================================== bounds of nodes

/-- Sets the literals of the watches that the potential has reached. -/
def fireWatches (t : Theory) (d : Direction) (node : Timepoint) (value : Int) :
    List Watch → Checked Theory
  | [] => .ok t
  | w :: ws => do
    let t ←
      if value ≤ w.threshold ∧ t.value w.literal = none then do
        let x ← t.explainPotential d node .empty
        pure (t.imply w.literal x)
      else pure t
    fireWatches t d node value ws

/-- Rules out a guarded edge that has no room between the upper bound of
its source and the lower bound of its target, and so none in the other
view either. A loop has room if its weight is not negative. -/
def checkRoom (t : Theory) (id : EdgeId) : Checked Theory :=
  let e := t.network.edge id
  match e.guard? with
  | none => .ok t
  | some guard =>
    if (t.value guard).isSome then .ok t
    else if e.isLoop then
      .ok (if e.weight < 0 then t.ruleOut guard .empty else t)
    else do
      let reach ← int32 (t.graph.value .forward e.source + e.weight)
      let slack ← int32 (reach + t.graph.value .backward e.target)
      if slack < 0 then
        let x ← t.explainPotential .forward e.source .empty
        let x ← t.explainPotential .backward e.target x
        return t.ruleOut guard x
      else
        return t

/-- Looks at guarded edges in turn. -/
def checkRoomAll (t : Theory) : List EdgeId → Checked Theory
  | [] => .ok t
  | id :: ids => t.checkRoom id >>= fun t => t.checkRoomAll ids

/-- Draws the consequences of nodes that were lowered, in turn. -/
def onLowered (t : Theory) : List (Direction × Timepoint) → Checked Theory
  | [] => .ok t
  | (d, node) :: rest => do
    let t ← t.fireWatches d node (t.graph.value d node) (t.bindings.watches d node)
    let t ←
      if t.config.propagation.usesBounds then t.checkRoomAll (t.network.guardedAt d node)
      else pure t
    onLowered t rest

-- ================================================== cycles through an edge

/-- The edge is shared and its guard has no value. -/
def isCandidate (t : Theory) (e : Edge) : Bool :=
  e.isShared && !e.guard?.any fun guard => (t.value guard).isSome

/-- Among edges that leave `x`, those that would close a negative cycle
with `e`, given the distance from the target of `e` to `x`, and the
distances to the source of `e`. -/
def closingAt (t : Theory) (e : Edge) (before : PathSearch) (x : Timepoint) (toX : Int) :
    List EdgeId → Checked (List (Timepoint × EdgeId))
  | [] => .ok []
  | id :: ids => do
    let candidate := t.network.edge id
    let closes ←
      if t.isCandidate candidate then do
        match ← before.distance? t.graph candidate.target with
        | none => pure false
        | some fromY =>
          let there ← int32 (toX + candidate.weight)
          let back ← int32 (there + fromY)
          let total ← int32 (back + e.weight)
          pure (decide (total < 0))
      else pure false
    let others ← closingAt t e before x toX ids
    return if closes then (x, id) :: others else others

/-- As `closingAt`, for all nodes reached from the target of `e`. -/
def closing (t : Theory) (e : Edge) (before : PathSearch) :
    List (Timepoint × Int) → Checked (List (Timepoint × EdgeId))
  | [] => .ok []
  | (x, toX) :: rest => do
    let here ← t.closingAt e before x toX (t.network.guardedAt .forward x)
    let others ← closing t e before rest
    return here ++ others

/-- Rules out edges that close a negative cycle with the edge `id`, in
turn: an edge whose guard was given a value meanwhile is left alone. -/
def ruleOutClosing (t : Theory) (id : EdgeId) (after before : PathSearch) :
    List (Timepoint × EdgeId) → Checked Theory
  | [] => .ok t
  | (x, candidateId) :: rest => do
    let candidate := t.network.edge candidateId
    let t ←
      match candidate.guard? with
      | none => pure t
      | some guard =>
        if (t.value guard).isSome then pure t
        else do
          let there ← after.pathTo t.network t.graph x
          let back ← before.pathTo t.network t.graph candidate.target
          pure (t.ruleOut guard
            (Explanation.empty.addGuards t.network (id :: there ++ back)))
    ruleOutClosing t id after before rest

/-- After the edge `(s, t, w)` was put in force: rules out the guarded
edges `(x, y, w')` with `dist(t, x) + w' + dist(y, s) + w < 0`. Only
edges of both views are used, so that the cycle is negative in both. -/
def ruleOutAround (t : Theory) (id : EdgeId) : Checked Theory :=
  let e := t.network.edge id
  if e.isLoop then .ok t
  else do
    let after ← PathSearch.run t.network t.graph .forward e.target true none
    let before ← PathSearch.run t.network t.graph .backward e.source true none
    let reached ← after.distances t.graph
    let found ← t.closing e before reached
    t.ruleOutClosing id after before found

-- ============================================================= activation

/-- Puts an edge in force, unless it is already or its guard is not
true, and draws the consequences. -/
def activate (t : Theory) (id : EdgeId) : Checked Theory :=
  let e := t.network.edge id
  if t.graph.isActive id || e.guard?.any (t.value · != some true) then .ok t
  else do
    let a ← t.graph.activate t.network id
    let t := { t with
      graph := a.graph
      stats := { t.stats with
        activations := t.stats.activations + 1
        distanceUpdates := t.stats.distanceUpdates + a.steps } }
    match a.verdict with
    | .error cycle => t.recordConflict cycle
    | .ok lowered =>
      let t ← t.onLowered lowered
      if t.config.propagation.usesEdges && e.isShared then t.ruleOutAround id else return t

/-- Puts edges in force in turn, up to a conflict. -/
def activateAll (t : Theory) : List EdgeId → Checked Theory
  | [] => .ok t
  | id :: ids => do
    let t ← t.activate id
    if t.conflict.isSome then return t else activateAll t ids

/-- The edges to which a pending activation refers. -/
def edgesToActivate (t : Theory) : PendingActivation → List EdgeId
  | .literal l => t.bindings.edgesOf l
  | .edge id => [id]

/-- The potentials respect the domains and all edges in force. -/
def checkPotentials (t : Theory) : Checked Unit := do
  Checked.require (∀ tp ∈ t.network.timepoints, t.graph.lower tp ≤ t.graph.upper tp) .emptyDomain
  checkEdges (t.network.edgeIds.filter t.graph.isActive)
where
  checkEdgeIn (e : Edge) (d : Direction) : Checked Unit :=
    if e.isIn d then do
      let reach ← int32 (t.graph.value d (e.tail d) + e.weight)
      Checked.require (t.graph.value d (e.head d) ≤ reach) .violatedEdge
    else .ok ()
  checkEdges : List EdgeId → Checked Unit
    | [] => .ok ()
    | id :: ids => do
      checkEdgeIn (t.network.edge id) .forward
      checkEdgeIn (t.network.edge id) .backward
      checkEdges ids

/-- Works off at most `n` pending activations, until none is left or a
conflict arises. -/
def drain : Nat → Theory → Checked Theory
  | 0, _ => .error .stepLimit
  | n + 1, t =>
    match t.pending with
    | [] => do
      if t.config.selfCheck then t.checkPotentials
      return t
    | p :: rest => do
      let t ← activateAll { t with pending := rest } (t.edgesToActivate p)
      if t.conflict.isSome then return t else drain n t

/-- Works off the pending activations. Under a conflict nothing can be
put in force, and they are dropped.

Each activation beyond those pending at first stands for a variable that
was given a value on the way, which bounds their number. -/
def propagate (t : Theory) : Checked Theory :=
  if t.conflict.isSome then .ok { t with pending := [] }
  else drain (t.pending.length + t.numVariables + 1) t

-- ============================================================= assignment

/-- Why a literal was not accepted. -/
inductive AssignError where
  /-- A conflict arose, or was there before. -/
  | conflict (c : Conflict)
  /-- The literal is of no variable of the theory. -/
  | invalid (m : Misuse)
  deriving DecidableEq

/-- The conflict that holds after an operation, if there is one. -/
def verdict (t : Theory) : Except Conflict Unit :=
  match t.conflict with
  | some c => .error c
  | none => .ok ()

/-- Sets a literal and propagates. If its negation holds the literal
stays false, and its edges stay out of force. -/
def assign (t : Theory) (l : Literal) : Checked (Theory × Except AssignError Unit) :=
  if t.hasVariable l.var then
    match t.conflict with
    | some c => .ok (t, .error (.conflict c))
    | none => do
      let t ← (t.setLiteral l).propagate
      return (t, t.verdict.mapError .conflict)
  else .ok (t, .error (.invalid (.unknownVariable l.var)))

end Theory

end TemporalNetwork
