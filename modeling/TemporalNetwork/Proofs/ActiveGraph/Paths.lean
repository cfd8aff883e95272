/-
Paths attain the distances that are reported.

The edge by which a node was found is replaced whenever its label is
improved, and the node from which it was found may be relabelled later.
When all nodes are settled the edges are links of one tree, rooted at the
start: following them from a node leads back along a chain that meets no
node twice. It consists of edges that the search may use, it weighs no
more than the label of the node allows, and no walk from the start weighs
less: so it weighs what is reported, no matter by which of several edges,
or in which order, nodes as near as each other were found.
-/
import TemporalNetwork.Proofs.ActiveGraph.Distance

namespace TemporalNetwork

namespace PathSearch

variable {net : Network} {g : ActiveGraph} {sharedOnly : Bool} {s : PathSearch} {d : Direction}
  {start x : Timepoint} {v : Int} {es : List EdgeId}

/-- For the node the least weight of a walk from the start is reported, and
a simple path of that weight is given, from the node back. -/
structure Attains (net : Network) (g : ActiveGraph) (sharedOnly : Bool) (s : PathSearch)
    (x : Timepoint) (v : Int) (es : List EdgeId) : Prop where
  distance : s.distance? g x = .ok (some v)
  least : IsLeast {w | net.Leads (usable net g sharedOnly s.view) s.view s.start x w} v
  path : s.pathTo net g x = .ok es
  /-- The edges lead back to the start, where nothing is left to follow. -/
  chain : net.Chain s.view s.incoming x es s.start
  ends : s.incoming s.start = none
  /-- No node is met twice, the start included. -/
  simple : (s.start :: es.map fun e => (net.edge e).head s.view).Nodup
  edge (e : EdgeId) : e ∈ es → Usable net g sharedOnly s.view e
  weight : net.weight es = v

/-- A search from the start in the view that attains a distance for each
timepoint. -/
structure Justifies (net : Network) (g : ActiveGraph) (sharedOnly : Bool) (d : Direction)
    (start : Timepoint) (s : PathSearch) : Prop where
  view : s.view = d
  start : s.start = start
  attains (x : Timepoint) : net.hasTimepoint x = true →
    ∃ v es, Attains net g sharedOnly s x v es

/-- A path that attains what no walk falls short of weighs exactly that. -/
theorem Accounted.weight_eq (h : Accounted net g sharedOnly s)
    (hdistance : s.distance? g x = .ok (some v)) (hpath : s.pathTo net g x = .ok es)
    (hleast : IsLeast {w | net.Leads (usable net g sharedOnly s.view) s.view s.start x w} v) :
    net.weight es = v := by
  obtain ⟨husable, hlead, hweight⟩ := h.pathTo hdistance hpath
  exact Int.le_antisymm hweight (hleast.2 (hlead.mono husable))

/-- Where all nodes are labelled and no label can be improved each distance
is attained. -/
theorem Covers.exists_attains (h : Covers net g sharedOnly s) (hnet : net.WellFormed)
    (hlimited : net.Limited) (hg : g.Grounded net) (hx : net.hasTimepoint x = true) :
    ∃ v es, Attains net g sharedOnly s x v es := by
  obtain ⟨v, hdistance, hleast⟩ := h.isLeast_distance? hnet hg hlimited hx
  obtain ⟨label, hlabel⟩ := h.reached x hx
  obtain ⟨es, hchain⟩ := h.chain x label hlabel
  have hpath := h.toAccounted.pathTo_eq hnet hg h.node h.loose hchain
  obtain ⟨husable, -⟩ := h.toAccounted.pathTo hdistance hpath
  exact ⟨v, es, hdistance, hleast, hpath, hchain, h.loose, hchain.nodup h.loose, husable,
    h.toAccounted.weight_eq hdistance hpath hleast⟩

/-- A search that reaches all there is attains all distances. -/
theorem Covers.justifies (h : Covers net g sharedOnly s) (hnet : net.WellFormed)
    (hlimited : net.Limited) (hg : g.Grounded net) (hview : s.view = d)
    (hstart : s.start = start) : Justifies net g sharedOnly d start s :=
  ⟨hview, hstart, fun _ hx => h.exists_attains hnet hlimited hg hx⟩

end PathSearch

end TemporalNetwork
