/-
Relaxing a view reaches a fixed point, or finds a cycle.

While the effect of a new edge is carried through a view, two things hold
of every state.

- `Carries`: nothing is lost of the graph with which it began. Potentials
  are still weights of walks, each change is recorded, the other view is
  as it was, and the nodes that changed are listed. A cycle that is
  reported consists of edges in force in the view.
- `Frontier`: an edge in force that is not respected leaves a node that
  is queued, or is among those that are just being looked at.

The first makes a result correct wherever the relaxation stops, and the
second says what it means that it stops: with the queue empty and no
cycle found every edge of the view is respected.

# The value that is carried

The edges that leave a node are all looked at with the value that its
potential had when it was taken from the queue. An edge may lower that
very potential, by a walk that comes back to the node; the node is then
queued again. `Anchored` says that the value is the potential, or that
this has happened.
-/
import TemporalNetwork.ActiveGraph.Activation
import TemporalNetwork.Proofs.ActiveGraph.Sound

namespace TemporalNetwork

namespace Relaxation

open ActiveGraph (Extends)

variable {net : Network} {g : ActiveGraph} {d : Direction} {id e : EdgeId} {es ids : List EdgeId}
  {node start violated x : Timepoint} {v w : Int} {n : Nat} {r₀ r r' : Relaxation}

-- ================================================================= cycles

/-- The edges are in force, and if they close a negative walk, as what is
reported is checked to do, they have no schedule. -/
def Refutes (net : Network) (g : ActiveGraph) (es : List EdgeId) : Prop :=
  (∀ id ∈ es, g.isActive id = true) ∧
    (net.isCycle es = true → net.weight es < 0 → net.Inconsistent {id | id ∈ es})

/-- What is met along predecessors, and the violating edge itself, is in
force in the view. -/
theorem mem_closingFrom (hg : g.Labelled net) (hactive : g.isActive e = true)
    (hin : (net.edge e).isIn d = true)
    (hid : id ∈ (closingFrom net g d start violated e n node).1) :
    g.isActive id = true ∧ (net.edge id).isIn d = true := by
  induction n generalizing node with
  | zero => exact absurd hid List.not_mem_nil
  | succ n ih =>
      unfold closingFrom at hid
      cases hpred : (if node = violated then some e else (g.potential d node).predecessor) with
      | none =>
          rw [hpred] at hid
          exact absurd hid List.not_mem_nil
      | some before =>
          have hbefore : g.isActive before = true ∧ (net.edge before).isIn d = true := by
            by_cases hnode : node = violated
            · rw [if_pos hnode] at hpred
              cases hpred
              exact ⟨hactive, hin⟩
            · rw [if_neg hnode] at hpred
              obtain ⟨hact, hisIn, -⟩ := hg.predecessor d node before hpred
              exact ⟨hact, hisIn⟩
          rw [hpred] at hid
          simp only at hid
          split at hid
          · rw [List.mem_singleton] at hid
            rw [hid]
            exact hbefore
          · rcases List.mem_cons.mp hid with rfl | hid
            · exact hbefore
            · exact ih hid

/-- The cycle that is extracted is one of edges in force in the view. -/
theorem refutes_of_extractCycle (hg : g.Labelled net) (hactive : g.isActive e = true)
    (hin : (net.edge e).isIn d = true)
    (hcycle : extractCycle net g d start violated e = .ok es) : Refutes net g es := by
  unfold extractCycle at hcycle
  simp only [Checked.bind_eq_ok, Checked.require_eq_ok, Checked.pure_eq_ok] at hcycle
  obtain ⟨-, -, hes⟩ := hcycle
  have hmet : ∀ id ∈ es,
      id ∈ (closingFrom net g d start violated e (g.numNodes + 1) start).1 := by
    intro id hid
    rw [← hes] at hid
    cases d with
    | forward => exact List.mem_reverse.mp hid
    | backward => exact hid
  have hmem := fun id hid => mem_closingFrom hg hactive hin (hmet id hid)
  refine ⟨fun id hid => (hmem id hid).1, fun hclosed hweight => ?_⟩
  exact Network.inconsistent_of_isCycle hclosed hweight (fun id hid => (hmem id hid).2)
    fun id hid => hid

-- ============================================================= invariants

/-- What is kept of the state in which the relaxation of a view began. -/
structure Carries (net : Network) (d : Direction) (r₀ r : Relaxation) : Prop where
  labelled : r.graph.Labelled net
  extended : Extends net r₀.graph r.graph
  active : r.graph.active = r₀.graph.active
  activated : r.graph.activated = r₀.graph.activated
  other (d' : Direction) (x : Timepoint) : d' ≠ d → r.graph.value d' x = r₀.graph.value d' x
  changed (x : Timepoint) : r.graph.value d x = r₀.graph.value d x ∨ (d, x) ∈ r.lowered
  kept (p : Direction × Timepoint) : p ∈ r₀.lowered → p ∈ r.lowered
  refuted (es : List EdgeId) : r.cycle = some es → Refutes net r.graph es
  closed : r.cycle ≠ none → r.queue = []
  queued (x : Timepoint) : x ∈ r.queue → net.hasTimepoint x = true

/-- The edge is respected by the potentials of the view. -/
def Respected (net : Network) (d : Direction) (g : ActiveGraph) (id : EdgeId) : Prop :=
  g.value d ((net.edge id).head d) ≤ g.value d ((net.edge id).tail d) + (net.edge id).weight

/-- What is not respected is still to be looked at. -/
def Frontier (net : Network) (d : Direction) (r : Relaxation) (ids : List EdgeId) : Prop :=
  ∀ id, r.graph.isActive id = true → (net.edge id).isIn d = true →
    Respected net d r.graph id ∨ (net.edge id).tail d ∈ r.queue ∨ id ∈ ids

/-- The value is the potential of the node, or the node was lowered since
and waits to be looked at again. -/
structure Anchored (d : Direction) (r : Relaxation) (node : Timepoint) (v : Int) : Prop where
  le : r.graph.value d node ≤ v
  current : r.graph.value d node = v ∨ node ∈ r.queue

theorem Carries.isActive (h : Carries net d r₀ r) (id : EdgeId) :
    r.graph.isActive id = r₀.graph.isActive id := by
  unfold ActiveGraph.isActive
  rw [h.active]

/-- Carrying an edge through a view puts no other one in force. -/
theorem Carries.inForce (h : Carries net d r₀ r) : r.graph.inForce = r₀.graph.inForce := by
  unfold ActiveGraph.inForce
  simp only [h.isActive]

/-- Where nothing is queued the change has been carried through. -/
theorem Carries.refl (hlabelled : r.graph.Labelled net)
    (hrefuted : ∀ es, r.cycle = some es → Refutes net r.graph es)
    (hqueue : r.queue = []) : Carries net d r r where
  labelled := hlabelled
  extended := .refl _
  active := rfl
  activated := rfl
  other _ _ _ := rfl
  changed _ := .inl rfl
  kept _ h := h
  refuted := hrefuted
  closed _ := hqueue
  queued x hx := by
    rw [hqueue] at hx
    exact absurd hx List.not_mem_nil

/-- A node is taken from the queue. -/
theorem Carries.dequeue (h : Carries net d r₀ r) {rest : List Timepoint}
    (hqueue : r.queue = node :: rest) : Carries net d r₀ { r with queue := rest } where
  labelled := h.labelled
  extended := h.extended
  active := h.active
  activated := h.activated
  other := h.other
  changed := h.changed
  kept := h.kept
  refuted := h.refuted
  closed hcycle := by
    rw [h.closed hcycle] at hqueue
    cases hqueue
  queued x hx := h.queued x (by rw [hqueue]; exact List.mem_cons_of_mem node hx)

/-- A refuted cycle ends it: nothing is queued any more. -/
theorem Carries.close (h : Carries net d r₀ r) (hes : Refutes net r.graph es) :
    Carries net d r₀ (r.close es) where
  labelled := h.labelled
  extended := h.extended
  active := h.active
  activated := h.activated
  other := h.other
  changed := h.changed
  kept := h.kept
  refuted es' hes' := by
    cases hes'
    exact hes
  closed _ := rfl
  queued _ hx := absurd hx List.not_mem_nil

-- =============================================================== lowering

/-- A node that is lowered is queued, if it was not. -/
theorem mem_queue_lower (r : Relaxation) (d : Direction) (node x : Timepoint) (v : Int)
    (e : EdgeId) : x ∈ (r.lower d node v e).queue ↔ x ∈ r.queue ∨ x = node := by
  simp only [lower]
  split
  next hnode =>
    constructor
    · exact .inl
    · rintro (hx | rfl)
      · exact hx
      · exact hnode
  next => rw [List.mem_append, List.mem_singleton]

/-- A node is lowered along an edge in force. What is known of the old edges
is kept: a node that was lowered is queued, so that those which leave it are
still to be looked at. -/
theorem Carries.lower (h : Carries net d r₀ r) (hnet : net.WellFormed)
    (hcycle : r.cycle = none) (hactive : r.graph.isActive id = true)
    (hin : (net.edge id).isIn d = true) (horigin : (net.edge id).head d ≠ .origin)
    (hlead : net.Leads r₀.graph.inForce d .origin ((net.edge id).tail d) v)
    (hle : r.graph.value d ((net.edge id).tail d) ≤ v)
    (hlt : v + (net.edge id).weight < r.graph.value d ((net.edge id).head d)) :
    Carries net d r₀ (r.lower d ((net.edge id).head d) (v + (net.edge id).weight) id) := by
  have hnode := hnet.head (h.labelled.hasEdge hactive) d
  have hvalue := fun d' x => ActiveGraph.value_lowerPotential (d := d) (x := x)
    h.labelled.toShaped hnode d' (v + (net.edge id).weight) id
  -- only the value of the node changes, and the lists of what was lowered and is
  -- queued
  refine ⟨?_, ?_, ?_, ?_, ?_, ?_, ?_, ?_, ?_, ?_⟩
  · rw [← h.inForce] at hlead
    exact h.labelled.lowerPotential hnet hactive hin horigin hlead hle hlt
  · exact h.extended.trans (ActiveGraph.extends_lowerPotential _ _ _ _ _)
  · exact (ActiveGraph.active_lowerPotential _ _ _ _ _).trans h.active
  · exact (ActiveGraph.activated_lowerPotential _ _ _ _ _).trans h.activated
  · intro d' x hd
    simp only [Relaxation.lower]
    rw [hvalue, if_neg fun heq => hd heq.1.symm]
    exact h.other d' x hd
  · intro x
    simp only [Relaxation.lower, Array.mem_push, Prod.mk.injEq, true_and]
    rw [hvalue]
    by_cases hx : (net.edge id).head d = x
    · exact .inr (.inr hx.symm)
    · rw [if_neg fun heq => hx heq.2]
      exact (h.changed x).imp_right .inl
  · intro p hp
    exact Array.mem_push.mpr (.inl (h.kept p hp))
  · intro es hes
    rw [show (r.lower d ((net.edge id).head d) (v + (net.edge id).weight) id).cycle = r.cycle
      from rfl, hcycle] at hes
    cases hes
  · intro hne
    exact absurd hcycle hne
  · -- and the node is one of the network
    intro x hx
    rcases (mem_queue_lower _ _ _ _ _ _).mp hx with hx | rfl
    · exact h.queued x hx
    · exact hnode

/-- The head of the edge is now queued, so that the edges which leave it
may be violated; those which enter it are respected all the more. -/
theorem Frontier.lower (h : Frontier net d r (id :: ids)) (hg : r.graph.Shaped net)
    (hnode : net.hasTimepoint ((net.edge id).head d) = true)
    (hanchor : Anchored d r ((net.edge id).tail d) v)
    (hlt : v + (net.edge id).weight < r.graph.value d ((net.edge id).head d)) :
    Frontier net d (r.lower d ((net.edge id).head d) (v + (net.edge id).weight) id) ids := by
  have hvalue := fun x => ActiveGraph.value_lowerPotential (d := d) (x := x) hg hnode d
    (v + (net.edge id).weight) id
  intro i hact hin
  rw [mem_queue_lower]
  by_cases htail : (net.edge i).tail d = (net.edge id).head d
  · exact .inr (.inl (.inr htail))
  · unfold Respected
    simp only [Relaxation.lower, ActiveGraph.isActive_lowerPotential] at hact ⊢
    have hsame : ¬ (d = d ∧ (net.edge id).head d = (net.edge i).tail d) := fun hc =>
      htail hc.2.symm
    rw [hvalue, hvalue, if_neg hsame]
    rcases h i hact hin with hresp | hqueue | hmem
    · left
      unfold Respected at hresp
      split
      next heq =>
        rw [← heq.2] at hresp
        omega
      next => exact hresp
    · exact .inr (.inl (.inl hqueue))
    · rcases List.mem_cons.mp hmem with rfl | hmem
      · rcases hanchor.current with hcurrent | hqueue
        · left
          rw [if_pos ⟨rfl, rfl⟩, hcurrent]
        · exact .inr (.inl (.inl hqueue))
      · exact .inr (.inr hmem)

/-- In the view only the potential that is lowered changes. -/
theorem value_lower (hg : r.graph.Shaped net) (hnode : net.hasTimepoint node = true)
    (v : Int) (e : EdgeId) (x : Timepoint) : (r.lower d node v e).graph.value d x
      = if node = x then v else r.graph.value d x := by
  have hvalue := ActiveGraph.value_lowerPotential (d := d) (x := x) hg hnode d v e
  simp only [true_and] at hvalue
  exact hvalue

/-- Lowering a node lowers no other, and raises none. -/
theorem value_lower_le (hg : r.graph.Shaped net) (hnode : net.hasTimepoint node = true)
    (hlt : v < r.graph.value d node) (e : EdgeId) (x : Timepoint) :
    (r.lower d node v e).graph.value d x ≤ r.graph.value d x := by
  rw [value_lower hg hnode]
  split
  next heq => exact heq ▸ Int.le_of_lt hlt
  next => exact Int.le_refl _

/-- A path that would be shortened still would be when some node is lowered.
-/
theorem Anchored.lower (h : Anchored d r node v) (hg : r.graph.Shaped net)
    (hx : net.hasTimepoint x = true) (hlt : w < r.graph.value d x) :
    Anchored d (r.lower d x w e) node v := by
  refine ⟨Int.le_trans (value_lower_le hg hx hlt e node) h.le, ?_⟩
  by_cases hnode : x = node
  · subst hnode
    exact .inr ((mem_queue_lower r d x x w e).mpr (.inr rfl))
  · rw [value_lower hg hx, if_neg hnode, mem_queue_lower]
    exact h.current.imp_right .inl

-- ================================================================== visits

/-- What looking at an edge can do: nothing, if the edge is respected by
the value that is carried; report a cycle; or lower the head. -/
theorem visitEdge_eq_ok (h : visitEdge net d start v r id = .ok r') :
    (r' = r ∧ r.graph.value d ((net.edge id).head d) ≤ v + (net.edge id).weight) ∨
      v + (net.edge id).weight < r.graph.value d ((net.edge id).head d) ∧
        ((∃ violated es, extractCycle net r.graph d start violated id = .ok es ∧
            r' = r.close es) ∨
          (net.edge id).head d ≠ .origin ∧
            r' = r.lower d ((net.edge id).head d) (v + (net.edge id).weight) id) := by
  unfold visitEdge at h
  simp only [Checked.bind_eq_ok, int32_eq_ok] at h
  obtain ⟨candidate, ⟨-, rfl⟩, h⟩ := h
  split at h
  next hlt =>
    refine .inr ⟨hlt, ?_⟩
    split at h
    next =>
      simp only [Checked.bind_eq_ok, Checked.pure_eq_ok] at h
      obtain ⟨es, hes, rfl⟩ := h
      exact .inl ⟨_, es, hes, rfl⟩
    next hne =>
      simp only [Checked.pure_eq_ok] at h
      exact .inr ⟨fun horigin => hne (.inr horigin), h.symm⟩
  next hnlt =>
    simp only [Checked.pure_eq_ok] at h
    exact .inl ⟨h.symm, Int.not_lt.mp hnlt⟩

/-- An edge of the view that leaves the node, looked at with a value to
which a walk leads. -/
theorem Carries.visitEdge (h : Carries net d r₀ r) (hnet : net.WellFormed)
    (hcycle : r.cycle = none) (hactive : r₀.graph.isActive id = true)
    (hin : (net.edge id).isIn d = true)
    (hlead : net.Leads r₀.graph.inForce d .origin ((net.edge id).tail d) v)
    (hle : r.graph.value d ((net.edge id).tail d) ≤ v)
    (hvisit : visitEdge net d start v r id = .ok r') : Carries net d r₀ r' := by
  rw [← h.isActive] at hactive
  rcases visitEdge_eq_ok hvisit with ⟨rfl, -⟩ | ⟨hlt, ⟨violated, es, hes, rfl⟩ | ⟨hne, rfl⟩⟩
  · exact h
  · exact h.close (refutes_of_extractCycle h.labelled hactive hin hes)
  · exact h.lower hnet hcycle hactive hin hne hlead hle hlt

/-- Unless it closes a cycle the edge no longer counts as to be looked
at: it is respected, or leaves a node that is queued. -/
theorem Frontier.visitEdge (h : Frontier net d r (id :: ids)) (hg : r.graph.Shaped net)
    (hnode : net.hasTimepoint ((net.edge id).head d) = true)
    (hanchor : Anchored d r ((net.edge id).tail d) v)
    (hvisit : visitEdge net d start v r id = .ok r') (hcycle : r'.cycle = none) :
    Frontier net d r' ids ∧ Anchored d r' ((net.edge id).tail d) v := by
  rcases visitEdge_eq_ok hvisit with ⟨rfl, hle⟩ | ⟨hlt, ⟨violated, es, -, rfl⟩ | ⟨-, rfl⟩⟩
  · refine ⟨fun i hact hin => ?_, hanchor⟩
    rcases h i hact hin with hresp | hqueue | hmem
    · exact .inl hresp
    · exact .inr (.inl hqueue)
    · rcases List.mem_cons.mp hmem with rfl | hmem
      · rcases hanchor.current with hcurrent | hqueue
        · left
          rw [Respected, hcurrent]
          exact hle
        · exact .inr (.inl hqueue)
      · exact .inr (.inr hmem)
  · cases hcycle
  · exact ⟨h.lower hg hnode hanchor hlt, hanchor.lower hg hnode hlt⟩

/-- All edges that leave a node, looked at in turn. -/
theorem Carries.visitEdges (h : Carries net d r₀ r) (hnet : net.WellFormed)
    (hcycle : r.cycle = none)
    (hids : ∀ id ∈ ids, r₀.graph.isActive id = true ∧ (net.edge id).isIn d = true ∧
      (net.edge id).tail d = node)
    (hlead : net.Leads r₀.graph.inForce d .origin node v)
    (hanchor : Anchored d r node v) (hfrontier : Frontier net d r ids)
    (hrun : visitEdges net d start v r ids = .ok r') :
    Carries net d r₀ r' ∧ (r'.cycle = none → Frontier net d r' []) := by
  induction ids generalizing r with
  | nil =>
      cases hrun
      exact ⟨h, fun _ => hfrontier⟩
  | cons id rest ih =>
      simp only [Relaxation.visitEdges, Checked.bind_eq_ok] at hrun
      obtain ⟨r₁, hvisit, hrun⟩ := hrun
      obtain ⟨hactive, hin, htail⟩ := hids id List.mem_cons_self
      rw [← htail] at hlead hanchor
      have hcarries := h.visitEdge hnet hcycle hactive hin hlead hanchor.le hvisit
      split at hrun
      -- a cycle was closed, and nothing is claimed of the edges that are left
      next hsome =>
        simp only [Checked.pure_eq_ok] at hrun
        subst hrun
        refine ⟨hcarries, fun hnone => ?_⟩
        rw [hnone] at hsome
        cases hsome
      next hnone =>
        have hcycle₁ : r₁.cycle = none := Option.not_isSome_iff_eq_none.mp hnone
        rw [← h.isActive] at hactive
        have hnode := hnet.head (h.labelled.hasEdge hactive) d
        obtain ⟨hfrontier₁, hanchor₁⟩ :=
          hfrontier.visitEdge h.labelled.toShaped hnode hanchor hvisit hcycle₁
        rw [htail] at hanchor₁
        exact ih hcarries hcycle₁ (fun i hi => hids i (List.mem_cons_of_mem id hi))
          hanchor₁ hfrontier₁ hrun

-- ================================================================ the queue

/-- What the queue no longer covers are the edges that leave the node. -/
theorem Frontier.dequeue (h : Frontier net d r []) (hg : r.graph.Labelled net)
    {rest : List Timepoint} (hqueue : r.queue = node :: rest) :
    Frontier net d { r with queue := rest } (r.graph.out d node) := by
  intro id hact hin
  rcases h id hact hin with hresp | hmem | hmem
  · exact .inl hresp
  · rw [hqueue] at hmem
    rcases List.mem_cons.mp hmem with htail | hmem
    · exact .inr (.inr ((hg.mem_out d node id).mpr ⟨hact, hin, htail⟩))
    · exact .inr (.inl hmem)
  · exact absurd hmem List.not_mem_nil

/-- The edges listed at a node are those in force that leave it. -/
theorem Carries.mem_out (h : Carries net d r₀ r) (node : Timepoint) :
    ∀ id ∈ r.graph.out d node, r₀.graph.isActive id = true ∧ (net.edge id).isIn d = true ∧
      (net.edge id).tail d = node := by
  intro id hid
  rw [← h.isActive]
  exact (h.labelled.mem_out d node id).mp hid

/-- The relaxation comes to a fixed point, or reports a cycle. -/
theorem Carries.drain (h : Carries net d r₀ r) (hnet : net.WellFormed)
    (hfrontier : r.cycle = none → Frontier net d r [])
    (hrun : drain net d start n r = .ok r') :
    Carries net d r₀ r' ∧ r'.queue = [] ∧ (r'.cycle = none → ∀ id,
      r'.graph.isActive id = true → (net.edge id).isIn d = true →
        Respected net d r'.graph id) := by
  induction n generalizing r with
  | zero => cases hrun
  | succ n ih =>
      unfold Relaxation.drain at hrun
      split at hrun
      next hempty =>
        cases hrun
        refine ⟨h, hempty, fun hcycle id hact hin => ?_⟩
        rcases hfrontier hcycle id hact hin with hresp | hmem | hmem
        · exact hresp
        · rw [hempty] at hmem
          exact absurd hmem List.not_mem_nil
        · exact absurd hmem List.not_mem_nil
      next node rest hcons =>
        have hcycle : r.cycle = none := by
          by_contra hsome
          rw [h.closed hsome] at hcons
          cases hcons
        simp only [Checked.bind_eq_ok] at hrun
        obtain ⟨r₁, hvisits, hrun⟩ := hrun
        have hnode := h.queued node (hcons ▸ List.mem_cons_self)
        have hlead := h.labelled.reached d node hnode
        rw [h.inForce] at hlead
        have hfrontier₁ := (hfrontier hcycle).dequeue h.labelled hcons
        obtain ⟨hcarries, hfrontier'⟩ := (h.dequeue hcons).visitEdges hnet hcycle
          (h.mem_out node) hlead ⟨Int.le_refl _, .inl rfl⟩ hfrontier₁ hvisits
        exact ih hcarries hfrontier' hrun

/-- Once a cycle is known there is nothing left to do. -/
theorem relax_of_cycle (h : r.cycle ≠ none) : relax net id d r = .ok r := by
  unfold relax
  rw [Option.isSome_iff_ne_none.mpr h]
  rfl

/-- The new edge is violated, and its head is lowered first. -/
theorem Carries.begin (h : Carries net d r r) (hnet : net.WellFormed) (hcycle : r.cycle = none)
    (hactive : r.graph.isActive id = true) (hin : (net.edge id).isIn d = true)
    (hothers : ∀ i, i ≠ id → r.graph.isActive i = true → (net.edge i).isIn d = true →
      Respected net d r.graph i)
    (hne : (net.edge id).head d ≠ .origin)
    (hlt : r.graph.value d ((net.edge id).tail d) + (net.edge id).weight
      < r.graph.value d ((net.edge id).head d)) :
    Carries net d r (r.lower d ((net.edge id).head d)
        (r.graph.value d ((net.edge id).tail d) + (net.edge id).weight) id) ∧
      Frontier net d (r.lower d ((net.edge id).head d)
        (r.graph.value d ((net.edge id).tail d) + (net.edge id).weight) id) [] := by
  have hid := h.labelled.hasEdge hactive
  have hlead := h.labelled.reached d _ (hnet.tail hid d)
  have hfrontier : Frontier net d r [id] := by
    intro i hact hini
    by_cases hi : i = id
    · exact .inr (.inr (List.mem_singleton.mpr hi))
    · exact .inl (hothers i hi hact hini)
  have hanchor : Anchored d r ((net.edge id).tail d)
      (r.graph.value d ((net.edge id).tail d)) := ⟨Int.le_refl _, .inl rfl⟩
  exact ⟨h.lower hnet hcycle hactive hin hne hlead (Int.le_refl _) hlt,
    hfrontier.lower h.labelled.toShaped (hnet.head hid d) hanchor hlt⟩

/-- Relaxing a view in which only the new edge may be violated. -/
theorem carries_relax (hnet : net.WellFormed) (hlabelled : r.graph.Labelled net)
    (hrefuted : ∀ es, r.cycle = some es → Refutes net r.graph es) (hqueue : r.queue = [])
    (hactive : r.graph.isActive id = true)
    (hloop : ¬ ((net.edge id).isLoop = true ∧ (net.edge id).weight < 0))
    (hothers : ∀ i, i ≠ id → r.graph.isActive i = true → (net.edge i).isIn d = true →
      Respected net d r.graph i)
    (hrun : relax net id d r = .ok r') :
    Carries net d r r' ∧ r'.queue = [] ∧ (r'.cycle = none → ∀ i, r'.graph.isActive i = true →
      (net.edge i).isIn d = true → Respected net d r'.graph i) := by
  have hrefl := Carries.refl (d := d) hlabelled hrefuted hqueue
  unfold relax at hrun
  simp only at hrun
  split at hrun
  -- nothing is done: the edge is of the other view, or there is a cycle
  next hskip =>
    cases hrun
    refine ⟨hrefl, hqueue, fun hcycle i hact hin => ?_⟩
    by_cases hi : i = id
    · subst hi
      simp [hcycle, hin] at hskip
    · exact hothers i hi hact hin
  next hgo =>
    simp only [Bool.or_eq_true, not_or, Bool.not_eq_true', Bool.not_eq_false] at hgo
    obtain ⟨hnone, hin⟩ := hgo
    have hcycle : r.cycle = none := Option.not_isSome_iff_eq_none.mp hnone
    simp only [Checked.bind_eq_ok, int32_eq_ok] at hrun
    obtain ⟨candidate, ⟨-, rfl⟩, hrun⟩ := hrun
    split at hrun
    -- the new edge is respected as it is
    next hle =>
      simp only [Checked.pure_eq_ok] at hrun
      subst hrun
      refine ⟨hrefl, hqueue, fun _ i hact hini => ?_⟩
      by_cases hi : i = id
      · rw [hi]
        exact hle
      · exact hothers i hi hact hini
    next hlt =>
      have hlt' := Int.not_le.mp hlt
      split at hrun
      -- the origin would be lowered, which closes a cycle
      next =>
        simp only [Checked.bind_eq_ok, Checked.pure_eq_ok] at hrun
        obtain ⟨es, hes, rfl⟩ := hrun
        refine ⟨hrefl.close (refutes_of_extractCycle hlabelled hactive hin hes), rfl, ?_⟩
        intro hclosed
        cases hclosed
      -- the head is lowered, and the queue is worked off from there
      next hne =>
        obtain ⟨hcarries, hfrontier⟩ := hrefl.begin hnet hcycle hactive hin hothers hne hlt'
        exact hcarries.drain hnet (fun _ => hfrontier) hrun

-- ============================================================ empty domains

/-- If none is found, no bounds have crossed. -/
theorem firstEmpty_eq_none {ps : List (Direction × Timepoint)}
    (h : firstEmpty g ps = .ok none) :
    ∀ p ∈ ps, 0 ≤ g.value .forward p.2 + g.value .backward p.2 := by
  induction ps with
  | nil => exact fun p hp => absurd hp List.not_mem_nil
  | cons p rest ih =>
      simp only [firstEmpty, Checked.bind_eq_ok, int32_eq_ok] at h
      obtain ⟨slack, ⟨-, rfl⟩, h⟩ := h
      split at h
      next => simp at h
      next hnlt =>
        intro q hq
        rcases List.mem_cons.mp hq with rfl | hq
        · exact Int.not_lt.mp hnlt
        · exact ih h q hq

/-- What is found is a node whose bounds have crossed. -/
theorem firstEmpty_eq_some {ps : List (Direction × Timepoint)}
    (h : firstEmpty g ps = .ok (some node)) :
    g.value .forward node + g.value .backward node < 0 := by
  induction ps with
  | nil => simp [firstEmpty] at h
  | cons p rest ih =>
      simp only [firstEmpty, Checked.bind_eq_ok, int32_eq_ok] at h
      obtain ⟨slack, ⟨-, rfl⟩, h⟩ := h
      split at h
      next hlt =>
        simp only [Checked.pure_eq_ok, Option.some.injEq] at h
        rw [← h]
        exact hlt
      next => exact ih h

/-- The chains of two bounds that cross have no schedule. -/
theorem refutes_of_crossing (hg : g.Labelled net) {there back : List EdgeId}
    (hthere : g.predecessorChain net .forward node = .ok there)
    (hback : g.predecessorChain net .backward node = .ok back)
    (hcross : g.value .forward node + g.value .backward node < 0) :
    Refutes net g (there.reverse ++ back) := by
  obtain ⟨hactThere, hleadThere, hleThere⟩ := hg.predecessorChain hthere
  obtain ⟨hactBack, hleadBack, hleBack⟩ := hg.predecessorChain hback
  refine ⟨fun id hid => ?_, fun _ _ => ?_⟩
  · rcases List.mem_append.mp hid with hid | hid
    · exact hactThere id (List.mem_reverse.mp hid)
    · exact hactBack id hid
  · refine Network.inconsistent_of_crossing (x := node)
      (hleadThere.mono fun id hid => ?_) (hleadBack.mono fun id hid => ?_) (by omega)
    · exact List.mem_append_left back (List.mem_reverse.mpr hid)
    · exact List.mem_append_right there.reverse hid

/-- No node that was lowered is without values, or there is a cycle. -/
theorem checkDomains_eq_ok (hlabelled : r.graph.Labelled net)
    (h : checkDomains net r = .ok r') :
    (r' = r ∧ (r.cycle = none → ∀ p ∈ r.lowered,
      0 ≤ r.graph.value .forward p.2 + r.graph.value .backward p.2)) ∨
    ∃ es, r' = r.close es ∧ Refutes net r.graph es := by
  unfold checkDomains at h
  split at h
  next hsome =>
    cases h
    refine .inl ⟨rfl, fun hnone => ?_⟩
    rw [hnone] at hsome
    cases hsome
  next =>
    simp only [Checked.bind_eq_ok] at h
    obtain ⟨found, hfound, h⟩ := h
    cases found with
    | none =>
        simp only [Checked.pure_eq_ok] at h
        refine .inl ⟨h.symm, fun _ p hp => ?_⟩
        exact firstEmpty_eq_none hfound p (Array.mem_toList_iff.mpr hp)
    | some node =>
        simp only [Checked.bind_eq_ok, Checked.pure_eq_ok] at h
        obtain ⟨there, hthere, back, hback, rfl⟩ := h
        exact .inr ⟨_, rfl,
          refutes_of_crossing hlabelled hthere hback (firstEmpty_eq_some hfound)⟩

end Relaxation

end TemporalNetwork
