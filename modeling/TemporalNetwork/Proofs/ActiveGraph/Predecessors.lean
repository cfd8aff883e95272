/-
Predecessors form tight trees.

Whatever was done to a graph, the predecessors of a view lead from every
node to the origin, along edges in force in the view whose weights add up
to the potential of the node. A link accounts for no more than the value of
its node while nodes are lowered; once every edge in force is respected it
accounts for all of it, so that the sum of a chain of links is squeezed
between two readings of the same potential.
-/
import TemporalNetwork.Proofs.ActiveGraph.Rollback

namespace TemporalNetwork

namespace ActiveGraph

variable {net : Network} {g : ActiveGraph} {d : Direction} {x : Timepoint} {es : List EdgeId}

-- =================================================================== trees

/-- Following predecessors leads from the node along these edges to the
origin. -/
structure Descends (net : Network) (g : ActiveGraph) (d : Direction) (x : Timepoint)
    (es : List EdgeId) : Prop where
  chain : net.Chain d (g.predecessor d) x es .origin
  /-- This is what following them finds. -/
  followed : g.predecessorChain net d x = .ok es
  /-- No node is met twice, the origin included. -/
  simple : (.origin :: es.map fun e => (net.edge e).head d).Nodup
  short : es.length < net.numTimepoints
  edge (e : EdgeId) : e ∈ es → g.isActive e = true ∧ (net.edge e).isIn d = true
  tight : net.weight es = g.value d x

/-- In both views all nodes descend to the origin. -/
def Treed (net : Network) (g : ActiveGraph) : Prop :=
  ∀ d x, net.hasTimepoint x = true → x ≠ .origin → ∃ es, Descends net g d x es

/-- The edges of a chain of predecessors are in force in the view. -/
theorem Labelled.edge_of_chain (h : g.Labelled net)
    (hchain : net.Chain d (g.predecessor d) x es .origin) :
    ∀ e ∈ es, g.isActive e = true ∧ (net.edge e).isIn d = true := by
  intro e he
  obtain ⟨hactive, hin, -⟩ := h.predecessor d _ e (hchain.next_head he)
  exact ⟨hactive, hin⟩

/-- Where all edges are respected a chain accounts for all of a potential. -/
theorem Sound.weight_eq (h : g.Sound net)
    (hchain : net.Chain d (g.predecessor d) x es .origin) : net.weight es = g.value d x := by
  have hle := h.weight_le hchain
  have hge := hchain.le_weight (f := g.value d) fun e he => by
    obtain ⟨hactive, hin⟩ := h.edge_of_chain hchain e he
    exact h.respected d e hactive hin
  rw [h.origin] at hle hge
  omega

/-- In a grounded graph all nodes descend to the origin. -/
theorem Grounded.treed (h : g.Grounded net) (hnet : net.WellFormed) : Treed net g := by
  intro d x hx _
  obtain ⟨es, hchain⟩ := h.rooted d x hx
  exact ⟨es, hchain, h.predecessorChain_eq hnet (h.loose d) hchain, hchain.nodup (h.loose d),
    hchain.length_lt (h.loose d) hnet (h.hasEdge_of_chain hchain) hnet.origin,
    h.edge_of_chain hchain, h.weight_eq hchain⟩

/-- Every graph that arises is grounded. -/
theorem Arisen.grounded (h : Arisen net g) : g.Grounded net := by
  obtain ⟨gs, hlayers⟩ := h.layers
  exact hlayers.grounded

theorem Arisen.treed (h : Arisen net g) : Treed net g := h.grounded.treed h.network

end ActiveGraph

end TemporalNetwork
