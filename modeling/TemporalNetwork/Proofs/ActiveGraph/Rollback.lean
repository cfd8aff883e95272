/-
A failed activation leaves no trace.

An edge that closes a negative cycle may be rejected at any point: before
anything was changed, after any number of nodes was lowered in one view,
when the second view is relaxed, or when both were and a domain turns out
to be empty. All that was changed by then is on the log, and undoing it
leads to the very graph there was: `Extends` says so of the changes, and
here it is said of the activation as a whole, with potentials,
predecessors, out-lists in their order, flags, log and marks. The queue
is empty whenever a view has been relaxed, whatever came of it, so that
nothing is left in it for the next activation.

# Graphs that arise

That the changes can be undone rests on what holds of graphs that are built
step by step. `operate` is one step: the network grows at the root, by what
passes its checks, an edge of any kind is put in force, or tried, and levels
are opened and closed. What a step keeps has to be known of the saved graphs
as well, as the next level that is closed leads back to one of them
(`Layers`).
-/
import TemporalNetwork.Proofs.ActiveGraph.Progress
import TemporalNetwork.Proofs.Theory.Setup

namespace TemporalNetwork

namespace ActiveGraph

variable {net net' : Network} {g g' : ActiveGraph} {gs : List ActiveGraph} {id : EdgeId}
  {es : List EdgeId} {a : Activation} {r : Relaxation}

-- ============================================================ one activation

/-- Carries a new edge through both views, and looks for empty domains. -/
def carry (net : Network) (g : ActiveGraph) (id : EdgeId) : Checked Relaxation := do
  let r ← Relaxation.relax net id .forward ⟨g.insertEdge net id, [], #[], none⟩
  let r ← r.relax net id .backward
  r.checkDomains net

/-- An edge that is not in force is carried through the views, and taken
back if there is a cycle. -/
theorem activate_eq (hnew : g.isActive id = false)
    (hloop : ¬ ((net.edge id).isLoop = true ∧ (net.edge id).weight < 0)) :
    g.activate net id = carry net g id >>= fun r => match r.cycle with
      | none => return ⟨r.graph, r.lowered.size, .ok r.lowered.toList⟩
      | some cycle => do
        let g ← r.graph.undoTo net g.log.size
        return ⟨g, r.lowered.size, .error cycle⟩ := by
  unfold activate carry
  rw [hnew, if_neg Bool.false_ne_true, if_neg hloop]
  exact ((bind_assoc _ _ _).trans (bind_congr fun r => bind_assoc _ _ _)).symm

/-- Nothing is left to be looked at. -/
theorem queue_carry (hg : g.Sound net) (hnet : net.WellFormed) (hid : net.hasEdge id = true)
    (hnew : g.isActive id = false)
    (hloop : ¬ ((net.edge id).isLoop = true ∧ (net.edge id).weight < 0))
    (hrun : carry net g id = .ok r) : r.queue = [] := by
  unfold carry at hrun
  simp only [Checked.bind_eq_ok] at hrun
  obtain ⟨r₁, hrelax₁, r₂, hrelax₂, hcheck⟩ := hrun
  obtain ⟨hcarries₁, hqueue₁, -⟩ := carries_forward hg hnet hid hnew hloop hrelax₁
  obtain ⟨hcarries₂, hqueue₂, -⟩ := Relaxation.carries_relax hnet hcarries₁.labelled
    hcarries₁.refuted hqueue₁ ((hcarries₁.isActive id).trans (isActive_insertEdge_self hg hid))
    hloop (respected_of_carries hg hid hcarries₁) hrelax₂
  rcases Relaxation.checkDomains_eq_ok hcarries₂.labelled hcheck with ⟨rfl, -⟩ | ⟨es, rfl, -⟩
  · exact hqueue₂
  · rfl

/-- The graph after a failed activation is the graph before, and the cycle
is a loop, for which nothing is done, or was found with nothing queued. -/
theorem Sound.activate_eq_error (hg : g.Sound net) (hnet : net.WellFormed)
    (hid : net.hasEdge id = true) (hrun : g.activate net id = .ok a)
    (hverdict : a.verdict = .error es) :
    a.graph = g ∧ (es = [id] ∧ a.steps = 0 ∨
      ∃ r, carry net g id = .ok r ∧ r.queue = [] ∧ r.cycle = some es ∧
        a.steps = r.lowered.size) := by
  constructor
  · rcases hg.activate hnet hid hrun with ⟨lowered, haccepts, -⟩ | ⟨es', -, hgraph, -⟩
    · cases haccepts.symm.trans hverdict
    · exact hgraph
  -- an edge in force is accepted
  by_cases hactive : g.isActive id = true
  · unfold ActiveGraph.activate at hrun
    rw [if_pos hactive] at hrun
    cases hrun
    cases hverdict
  have hnew : g.isActive id = false := Bool.not_eq_true _ ▸ hactive
  -- a negative loop is rejected at once
  by_cases hloop : (net.edge id).isLoop = true ∧ (net.edge id).weight < 0
  · unfold ActiveGraph.activate at hrun
    rw [if_neg hactive, if_pos hloop] at hrun
    cases hrun
    cases hverdict
    exact .inl ⟨rfl, rfl⟩
  rw [activate_eq hnew hloop, Checked.bind_eq_ok] at hrun
  obtain ⟨r, hcarry, hrun⟩ := hrun
  have hqueue := queue_carry hg hnet hid hnew hloop hcarry
  cases hcycle : r.cycle with
  | none =>
      rw [hcycle] at hrun
      cases hrun
      cases hverdict
  | some cycle =>
      rw [hcycle] at hrun
      obtain ⟨u, -, hreturn⟩ := Checked.bind_eq_ok.mp hrun
      cases hreturn
      cases hverdict
      exact .inr ⟨r, hcarry, hqueue, hcycle, rfl⟩

-- ==================================================================== layers

/-- A graph between two operations, and the graphs on which its levels were
opened, the last one first. -/
inductive Layers (net : Network) : List ActiveGraph → ActiveGraph → Prop where
  | root {g : ActiveGraph} (grounded : g.Grounded net) (bottom : g.log.marks = []) :
      Layers net [] g
  | level {g₀ g : ActiveGraph} {gs : List ActiveGraph} (below : Layers net gs g₀)
      (grounded : g.Grounded net) (extended : Extends net g₀.save g) : Layers net (g₀ :: gs) g

/-- The topmost layer is grounded, like all others. -/
theorem Layers.grounded (h : Layers net gs g) : g.Grounded net := by
  cases h with
  | root grounded bottom => exact grounded
  | level below grounded extended => exact grounded

/-- What is built on the graph belongs to the same level. -/
theorem Layers.extend (h : Layers net gs g) (hgrounded : g'.Grounded net)
    (hextends : Extends net g g') : Layers net gs g' := by
  cases h with
  | root grounded bottom => exact .root hgrounded (hextends.marks.trans bottom)
  | level below grounded extended => exact .level below hgrounded (extended.trans hextends)

theorem marks_eq_nil (hroot : g.log.level = .root) : g.log.marks = [] :=
  List.eq_nil_of_length_eq_zero (congrArg DecisionLevel.depth hroot)

/-- An activation adds to the graph, or leaves it alone. -/
theorem Layers.activate (h : Layers net gs g) (hnet : net.WellFormed) (hlimited : net.Limited)
    (hid : net.hasEdge id = true) (hrun : g.activate net id = .ok a) :
    Layers net gs a.graph := by
  obtain ⟨a', hrun', hgrounded, -⟩ := h.grounded.exists_activate hnet hlimited hid
  cases hrun'.symm.trans hrun
  rcases h.grounded.toSound.activate hnet hid hrun with ⟨lowered, -, haccepts⟩ | ⟨es, -, heq, -⟩
  · exact h.extend hgrounded haccepts.extended
  · rw [heq]
    exact h

/-- Closing a level leads to the graph on which it was opened. -/
theorem Layers.restoreLast (h : Layers net gs g) (hrun : g.restoreLast net = .ok g') :
    ∃ gs', Layers net gs' g' := by
  cases h with
  | root grounded bottom =>
      unfold ActiveGraph.restoreLast UndoLog.restoreLast at hrun
      rw [bottom] at hrun
      cases hrun
  | level below grounded extended =>
      obtain ⟨-, rfl⟩ := extended.restoreLast_eq_ok.mp hrun
      exact ⟨_, below⟩

-- ================================================================ operations

/-- What is done to a network and to the graph of its edges in force. -/
inductive Operation where
  /-- A timepoint with its domain. -/
  | bounded (dom : Domain)
  /-- An edge of any kind, not in force. -/
  | edge (e : Edge)
  | activate (id : EdgeId)
  | save
  | restoreLast
  deriving DecidableEq

/-- Carries out an operation. The network grows at the root only, where
nothing is saved that does not know of the addition. -/
def operate : Network × ActiveGraph → Operation → Checked (Network × ActiveGraph)
  | (net, g), .bounded dom => do
    Checked.require (Network.checkDomain dom = .ok ()) .misuse
    let g ← g.addNode net.domains.nextKey dom
    return (net.addBounded dom, g)
  | (net, g), .edge e => do
    Checked.require (g.log.level = .root) .misuse
    Checked.require (net.checkEdge e.source e.target e.weight = .ok ()) .misuse
    return (net.addEdge e, g.addEdge)
  | (net, g), .activate id => do
    Checked.require (net.hasEdge id = true) .outOfBounds
    let a ← g.activate net id
    return (net, a.graph)
  | (net, g), .save => .ok (net, g.save)
  | (net, g), .restoreLast => do
    let g ← g.restoreLast net
    return (net, g)

/-- What holds of a network and its graph between two operations. -/
structure Arisen (net : Network) (g : ActiveGraph) : Prop where
  network : net.WellFormed
  limited : net.Limited
  layers : ∃ gs, Layers net gs g

theorem arisen_initial : Arisen .initial .initial :=
  ⟨Network.wellFormed_initial, Network.limited_initial, [], .root grounded_initial rfl⟩

/-- Each operation leads from a graph that arises to another one: an addition
at the root, an activation that succeeds or is undone, a level opened or
closed. -/
theorem Arisen.operate {op : Operation} (h : Arisen net g)
    (hrun : operate (net, g) op = .ok (net', g')) : Arisen net' g' := by
  obtain ⟨hnet, hlimited, gs, hlayers⟩ := h
  cases op with
  -- additions are made at the root, where there is no level to go back to
  | bounded dom =>
      unfold ActiveGraph.operate at hrun
      simp only [Checked.bind_eq_ok, Checked.require_eq_ok, Checked.pure_eq_ok, Prod.mk.injEq]
        at hrun
      obtain ⟨-, hdomain, u, hadd, rfl, rfl⟩ := hrun
      obtain ⟨hlower, hupper, hle⟩ := Theory.checkDomain_eq_ok.mp hdomain
      obtain ⟨hadds, hroot⟩ := adds_of_addNode hlayers.grounded.toShaped hadd
      refine ⟨hnet.addBounded dom, hlimited.addBounded hlower hupper, [], .root ?_ ?_⟩
      · exact hlayers.grounded.addNode hnet hle hadd
      · rw [hadds.log]
        exact marks_eq_nil hroot
  | edge e =>
      unfold ActiveGraph.operate at hrun
      simp only [Checked.bind_eq_ok, Checked.require_eq_ok, Checked.pure_eq_ok, Prod.mk.injEq]
        at hrun
      obtain ⟨-, hroot, -, hcheck, rfl, rfl⟩ := hrun
      obtain ⟨hsource, htarget, hweight⟩ := Theory.checkEdge_eq_ok.mp hcheck
      exact ⟨hnet.addEdge hsource htarget, hlimited.addEdge hweight, [],
        .root (hlayers.grounded.addEdge e) (marks_eq_nil hroot)⟩
  -- an activation changes the top layer, or is undone
  | activate id =>
      unfold ActiveGraph.operate at hrun
      simp only [Checked.bind_eq_ok, Checked.require_eq_ok, Checked.pure_eq_ok, Prod.mk.injEq]
        at hrun
      obtain ⟨-, hid, a, hactivate, rfl, rfl⟩ := hrun
      exact ⟨hnet, hlimited, gs, hlayers.activate hnet hlimited hid hactivate⟩
  | save =>
      cases hrun
      exact ⟨hnet, hlimited, g :: gs, .level hlayers hlayers.grounded.save (.refl _)⟩
  | restoreLast =>
      unfold ActiveGraph.operate at hrun
      simp only [Checked.bind_eq_ok, Checked.pure_eq_ok, Prod.mk.injEq] at hrun
      obtain ⟨u, hrestore, rfl, rfl⟩ := hrun
      exact ⟨hnet, hlimited, hlayers.restoreLast hrestore⟩

/-- And so do operations in turn. -/
theorem Arisen.operateAll {ops : List Operation} (h : Arisen net g)
    (hrun : ops.foldlM ActiveGraph.operate (net, g) = .ok (net', g')) : Arisen net' g' := by
  induction ops generalizing net g with
  | nil =>
      cases hrun
      exact h
  | cons op ops ih =>
      rw [List.foldlM_cons, Checked.bind_eq_ok] at hrun
      obtain ⟨⟨net₁, g₁⟩, hfirst, hrest⟩ := hrun
      exact ih (h.operate hfirst) hrest

/-- On a graph that arose, by whatever operations, an edge of any kind can
be tried. If it closes a negative cycle the graph is what it was, and if it
was carried through the views for that, no node is left in the queue. -/
theorem graph_eq_of_activate_error {ops : List Operation}
    (h : ops.foldlM operate (.initial, .initial) = .ok (net, g)) (hid : net.hasEdge id = true) :
    ∃ a, g.activate net id = .ok a ∧ ∀ es, a.verdict = .error es →
      a.graph = g ∧ (es = [id] ∧ a.steps = 0 ∨
        ∃ r, carry net g id = .ok r ∧ r.queue = [] ∧ r.cycle = some es ∧
          a.steps = r.lowered.size) := by
  obtain ⟨hnet, hlimited, gs, hlayers⟩ := arisen_initial.operateAll h
  obtain ⟨a, hrun, -⟩ := hlayers.grounded.exists_activate hnet hlimited hid
  exact ⟨a, hrun, fun es hes =>
    hlayers.grounded.toSound.activate_eq_error hnet hid hrun hes⟩

/-- On a level of its own, an edge that is carried through the forward view
closes a cycle in the backward one, after three nodes were lowered. -/
theorem graph_eq_of_activate_error_backward :
    ∃ net g a, [.bounded ⟨0, 10⟩, .bounded ⟨0, 10⟩, .bounded ⟨0, 10⟩,
          .edge ⟨⟨1⟩, ⟨2⟩, -1, .directed ⟨⟨0⟩, true⟩ .backward⟩,
          .edge ⟨⟨2⟩, ⟨3⟩, -1, .directed ⟨⟨1⟩, true⟩ .backward⟩,
          .edge ⟨⟨3⟩, ⟨1⟩, -1, .conditional ⟨⟨2⟩, true⟩⟩, .activate ⟨6⟩, .save,
          .activate ⟨7⟩].foldlM operate (.initial, .initial) = .ok (net, g) ∧
      g.activate net ⟨8⟩ = .ok a ∧ a.verdict = .error [⟨6⟩, ⟨7⟩, ⟨8⟩] ∧ a.steps = 3 ∧
      a.graph = g ∧ ∃ r, carry net g ⟨8⟩ = .ok r ∧ r.queue = [] ∧
        r.cycle = some [⟨6⟩, ⟨7⟩, ⟨8⟩] := by
  have hrun : (([.bounded ⟨0, 10⟩, .bounded ⟨0, 10⟩, .bounded ⟨0, 10⟩,
      .edge ⟨⟨1⟩, ⟨2⟩, -1, .directed ⟨⟨0⟩, true⟩ .backward⟩,
      .edge ⟨⟨2⟩, ⟨3⟩, -1, .directed ⟨⟨1⟩, true⟩ .backward⟩,
      .edge ⟨⟨3⟩, ⟨1⟩, -1, .conditional ⟨⟨2⟩, true⟩⟩, .activate ⟨6⟩, .save,
      .activate ⟨7⟩] : List Operation).foldlM operate (.initial, .initial)).answers (fun p =>
        p.1.hasEdge ⟨8⟩ && (p.2.activate p.1 ⟨8⟩).answers fun a =>
          decide (a.verdict = .error [⟨6⟩, ⟨7⟩, ⟨8⟩] ∧ a.steps = 3)) = true := by decide +kernel
  obtain ⟨⟨net, g⟩, h, htest⟩ := Checked.exists_of_answers hrun
  obtain ⟨hid, hactivate⟩ := Bool.and_eq_true_iff.mp htest
  obtain ⟨a, ha, houtcome⟩ := Checked.exists_of_answers hactivate
  obtain ⟨hverdict, hsteps⟩ := of_decide_eq_true houtcome
  obtain ⟨a', ha', hall⟩ := graph_eq_of_activate_error h hid
  cases ha.symm.trans ha'
  obtain ⟨hgraph, ⟨hloop, -⟩ | ⟨r, hcarry, hqueue, hcycle, -⟩⟩ := hall _ hverdict
  · cases hloop
  · exact ⟨net, g, a, h, ha, hverdict, hsteps, hgraph, r, hcarry, hqueue, hcycle⟩

end ActiveGraph

end TemporalNetwork
