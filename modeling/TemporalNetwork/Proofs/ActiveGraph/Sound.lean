/-
What the graph of the edges in force says.

The graph is sound if in each view the potential of a node is the weight
of a walk from the origin and no edge in force offers less. Together the
two make the potential a distance: `Sound.isLeast_value`. The potentials
of the two views never cross, so that the edges in force are consistent.

# In three layers

While a new edge is carried through a view some edges are not respected
yet, but all else holds. The definition is layered accordingly:

- `Shaped`: there is room for each node and each edge, and the out-lists
  hold the edges in force. Lowering a potential does not touch this.
- `Labelled`: each potential is the weight of a walk, and its predecessor
  accounts for it. This holds at every moment of a relaxation.
- `Sound`: moreover each edge in force is respected, and potentials do not
  cross. This holds between two activations.
-/
import TemporalNetwork.Proofs.ActiveGraph.Undo
import TemporalNetwork.Proofs.Network.Growth

namespace TemporalNetwork

namespace ActiveGraph

variable {net net' : Network} {g : ActiveGraph} {d : Direction} {id : EdgeId}
  {node x : Timepoint} {v w : Int}

/-- The edges in force. -/
def inForce (g : ActiveGraph) : Set EdgeId := {id | g.isActive id = true}

/-- The edges that were put in force by an activation, as the log tells.
Those of domains come into force with their node, and are not logged. -/
def activated (g : ActiveGraph) : Set EdgeId := {id | .activated id ∈ g.log.events}

instance : Decidable (id ∈ g.activated) :=
  inferInstanceAs (Decidable (.activated id ∈ g.log.events))

/-- One edge more has been put in force. -/
theorem activated_insertEdge (g : ActiveGraph) :
    (g.insertEdge net id).activated = insert id g.activated := by
  ext i
  unfold activated
  rw [log_insertEdge]
  simp [UndoLog.record]

/-- Potentials have no part in which edges those are. -/
theorem activated_lowerPotential (g : ActiveGraph) (d : Direction) (node : Timepoint)
    (value : Int) (e : EdgeId) : (g.lowerPotential d node value e).activated = g.activated := by
  ext i
  unfold activated lowerPotential setPotential
  rw [log_modifyView]
  simp [UndoLog.record]

-- ================================================================== layers

/-- The nodes and edges are those of the network, and an edge in force
is listed where it leaves in each of its views. -/
structure Shaped (net : Network) (g : ActiveGraph) : Prop where
  sizePotentials (d : Direction) : (g.view d).potentials.size = net.numTimepoints
  sizeOut (d : Direction) : (g.view d).out.size = net.numTimepoints
  sizeActive : g.active.size = net.numEdges
  mem_out (d : Direction) (x : Timepoint) (id : EdgeId) : id ∈ g.out d x ↔
    g.isActive id = true ∧ (net.edge id).isIn d = true ∧ (net.edge id).tail d = x

/-- Each potential is the weight of a walk from the origin, and the edge
that lowered it last accounts for it. The potential of its tail may have
been lowered since, so that it accounts for no more than the value. -/
structure Labelled (net : Network) (g : ActiveGraph) : Prop extends Shaped net g where
  origin (d : Direction) : g.value d .origin = 0
  reached (d : Direction) (x : Timepoint) : net.hasTimepoint x = true →
    net.Leads g.inForce d .origin x (g.value d x)
  predecessor (d : Direction) (x : Timepoint) (id : EdgeId) :
    (g.potential d x).predecessor = some id →
      g.isActive id = true ∧ (net.edge id).isIn d = true ∧ (net.edge id).head d = x ∧
        g.value d ((net.edge id).tail d) + (net.edge id).weight ≤ g.value d x

/-- Besides, the edges in force are respected and bounds do not cross. -/
structure Sound (net : Network) (g : ActiveGraph) : Prop extends Labelled net g where
  respected (d : Direction) (id : EdgeId) :
    g.isActive id = true → (net.edge id).isIn d = true →
      g.value d ((net.edge id).head d)
        ≤ g.value d ((net.edge id).tail d) + (net.edge id).weight
  uncrossed (x : Timepoint) : 0 ≤ g.value .forward x + g.value .backward x

-- =============================================================== distances

/-- A potential is a distance from the origin. -/
theorem Sound.isLeast_value (h : g.Sound net) (hx : net.hasTimepoint x = true) :
    IsLeast {w | net.Leads g.inForce d .origin x w} (g.value d x) := by
  refine ⟨h.reached d x hx, fun w hw => ?_⟩
  have := Network.Leads.le_of_respected (f := g.value d) (fun id hid => h.respected d id hid) hw
  rw [h.origin] at this
  omega

/-- With more edges in force no potential is greater. -/
theorem Sound.value_le (h : g.Sound net) {g' : ActiveGraph} (h' : g'.Sound net)
    (hsubset : g.inForce ⊆ g'.inForce) (hx : net.hasTimepoint x = true) :
    g'.value d x ≤ g.value d x :=
  (h'.isLeast_value hx).2 ((h.reached d x hx).mono hsubset)

/-- A loop in force is not negative. -/
theorem Sound.weight_nonneg_of_isLoop (h : g.Sound net) (hactive : g.isActive id = true)
    (hloop : (net.edge id).isLoop = true) : 0 ≤ (net.edge id).weight := by
  obtain ⟨d, hin⟩ := (net.edge id).exists_isIn
  have hends : (net.edge id).source = (net.edge id).target := by
    simpa [Edge.isLoop] using hloop
  have hrespected := h.respected d id hactive hin
  have hclosed : (net.edge id).head d = (net.edge id).tail d := by
    cases d with
    | forward => exact hends.symm
    | backward => exact hends
  rw [hclosed] at hrespected
  omega

/-- The edges in force have a schedule: the values of either view are one. -/
theorem Sound.consistent (h : g.Sound net) : ¬ net.Inconsistent g.inForce :=
  Network.not_inconsistent_of_respected (f := g.value)
    (fun d id hid => h.respected d id hid) h.origin h.uncrossed

-- ================================================================= the log

section
variable (g : ActiveGraph) (log : UndoLog GraphChange)

theorem view_withLog : view { g with log } = g.view := by
  funext d
  cases d <;> rfl

theorem potential_withLog : potential { g with log } = g.potential := by
  funext d x
  unfold potential
  rw [view_withLog]

theorem value_withLog : value { g with log } = g.value := by
  funext d x
  unfold value
  rw [potential_withLog]

theorem out_withLog : out { g with log } = g.out := by
  funext d x
  unfold out
  rw [view_withLog]

end

/-- What the graph says does not depend on its log. -/
theorem Sound.withLog (h : g.Sound net) (log : UndoLog GraphChange) :
    Sound net { g with log } := by
  have hview := view_withLog g log
  have hpotential := potential_withLog g log
  have hvalue := value_withLog g log
  have hout := out_withLog g log
  refine ⟨⟨⟨?_, ?_, h.sizeActive, ?_⟩, ?_, ?_, ?_⟩, ?_, ?_⟩
  · rw [hview]
    exact h.sizePotentials
  · rw [hview]
    exact h.sizeOut
  · rw [hout]
    exact h.mem_out
  · rw [hvalue]
    exact h.origin
  · rw [hvalue]
    exact h.reached
  · rw [hpotential, hvalue]
    exact h.predecessor
  · rw [hvalue]
    exact h.respected
  · rw [hvalue]
    exact h.uncrossed

-- ================================================================== chains

/-- The edges met along predecessors form a walk to the node where the
search began; they are in force and weigh no more than the potential. -/
theorem Labelled.chainFrom (h : g.Labelled net) {n : Nat} {es : List EdgeId}
    {last : Timepoint} (hchain : chainFrom net g d n node = (es, last)) :
    (∀ id ∈ es, g.isActive id = true) ∧
      net.Leads {id | id ∈ es} d last node (net.weight es) ∧
      g.value d last + net.weight es ≤ g.value d node := by
  induction n generalizing node es with
  | zero =>
      cases hchain
      exact ⟨fun id hid => absurd hid List.not_mem_nil, .refl _, by simp [Network.weight]⟩
  | succ n ih =>
      unfold ActiveGraph.chainFrom at hchain
      cases hpred : (g.potential d node).predecessor with
      | none =>
          rw [hpred] at hchain
          cases hchain
          exact ⟨fun id hid => absurd hid List.not_mem_nil, .refl _, by simp [Network.weight]⟩
      -- one edge more, which ends at the node and loosens no label
      | some e =>
          rw [hpred] at hchain
          obtain ⟨hactive, hin, hhead, hle⟩ := h.predecessor d node e hpred
          obtain ⟨rest, last', hrest⟩ : ∃ rest last',
            ActiveGraph.chainFrom net g d n ((net.edge e).tail d) = (rest, last') := ⟨_, _, rfl⟩
          simp only [hrest, Prod.mk.injEq] at hchain
          obtain ⟨rfl, rfl⟩ := hchain
          obtain ⟨hall, hlead, hweight⟩ := ih hrest
          have hsum : net.weight (e :: rest) = net.weight rest + (net.edge e).weight := by
            simp [Network.weight, Int.add_comm]
          refine ⟨?_, ?_, ?_⟩
          · intro id hid
            rcases List.mem_cons.mp hid with rfl | hid
            · exact hactive
            · exact hall id hid
          · rw [hsum, ← hhead]
            exact (hlead.mono fun id hid => List.mem_cons_of_mem e hid).snoc
              List.mem_cons_self hin
          · rw [hsum]
            omega

/-- A chain that is found accounts for the potential of its node. -/
theorem Labelled.predecessorChain (h : g.Labelled net) {es : List EdgeId}
    (hchain : predecessorChain net g d node = .ok es) :
    (∀ id ∈ es, g.isActive id = true) ∧
      net.Leads {id | id ∈ es} d .origin node (net.weight es) ∧
      net.weight es ≤ g.value d node := by
  unfold ActiveGraph.predecessorChain at hchain
  simp only [Checked.bind_eq_ok, Checked.require_eq_ok, Checked.pure_eq_ok] at hchain
  obtain ⟨-, hlast, rfl⟩ := hchain
  have hpair : ActiveGraph.chainFrom net g d g.numNodes node
      = ((ActiveGraph.chainFrom net g d g.numNodes node).1, .origin) := by rw [← hlast]
  obtain ⟨hall, hlead, hweight⟩ := h.chainFrom hpair
  rw [h.origin] at hweight
  exact ⟨hall, hlead, by omega⟩

-- ================================================================= lowering

@[simp] theorem active_lowerPotential (g : ActiveGraph) (d : Direction) (node : Timepoint)
    (value : Int) (e : EdgeId) : (g.lowerPotential d node value e).active = g.active := by
  simp [lowerPotential, setPotential]

@[simp] theorem isActive_lowerPotential (g : ActiveGraph) (d : Direction) (node : Timepoint)
    (value : Int) (e i : EdgeId) :
    (g.lowerPotential d node value e).isActive i = g.isActive i := by
  simp [isActive]

@[simp] theorem inForce_lowerPotential (g : ActiveGraph) (d : Direction) (node : Timepoint)
    (value : Int) (e : EdgeId) : (g.lowerPotential d node value e).inForce = g.inForce := by
  simp [inForce]

@[simp] theorem out_lowerPotential (g : ActiveGraph) (d d' : Direction) (node x : Timepoint)
    (value : Int) (e : EdgeId) : (g.lowerPotential d node value e).out d' x = g.out d' x :=
  out_setPotential _ d d' node x _

/-- One node in one view has a new value and predecessor. -/
theorem potential_lowerPotential (hg : g.Shaped net) (hnode : net.hasTimepoint node = true)
    (d' : Direction) (value : Int) (e : EdgeId) :
    (g.lowerPotential d node value e).potential d' x
      = if d = d' ∧ node = x then ⟨value, some e⟩ else g.potential d' x := by
  have hsize : node.index < (g.view d).potentials.size := by
    rw [hg.sizePotentials]
    exact Network.hasTimepoint_iff.mp hnode
  unfold lowerPotential
  rw [potential_setPotential]
  by_cases hd : d = d' ∧ node = x
  · rw [if_pos hd, if_pos ⟨hd.1, hd.2, by cases d <;> exact hsize⟩]
  · rw [if_neg hd, if_neg fun h => hd ⟨h.1, h.2.1⟩]
    cases d' <;> rfl

/-- And that is the one value that changes. -/
theorem value_lowerPotential (hg : g.Shaped net) (hnode : net.hasTimepoint node = true)
    (d' : Direction) (value : Int) (e : EdgeId) :
    (g.lowerPotential d node value e).value d' x
      = if d = d' ∧ node = x then value else g.value d' x := by
  unfold ActiveGraph.value
  rw [potential_lowerPotential hg hnode]
  split <;> rfl

/-- Lowering a node leaves the graph in shape. -/
theorem Shaped.lowerPotential (h : g.Shaped net) (d : Direction) (node : Timepoint)
    (value : Int) (e : EdgeId) : (g.lowerPotential d node value e).Shaped net where
  sizePotentials d' := by
    rw [ActiveGraph.lowerPotential, potentials_size_setPotential]
    exact (by cases d' <;> rfl : _ = (g.view d').potentials.size).trans (h.sizePotentials d')
  sizeOut d' := by
    rw [ActiveGraph.lowerPotential, out_view_setPotential]
    exact (by cases d' <;> rfl : _ = (g.view d').out.size).trans (h.sizeOut d')
  sizeActive := by
    rw [active_lowerPotential]
    exact h.sizeActive
  mem_out d' x id := by
    rw [out_lowerPotential, isActive_lowerPotential]
    exact h.mem_out d' x id

/-- Only edges that there are can be in force. -/
theorem Shaped.hasEdge (h : g.Shaped net) (hid : g.isActive id = true) :
    net.hasEdge id = true := by
  rw [Network.hasEdge_iff, ← h.sizeActive]
  unfold isActive at hid
  cases hget : g.active.get? id with
  | none => simp [hget] at hid
  | some b => exact HandleVector.size_of_get? hget

/-- A node is lowered along an edge in force, whose tail was reached
with a weight that is not below its present potential. -/
theorem Labelled.lowerPotential (h : g.Labelled net) (hnet : net.WellFormed)
    (hactive : g.isActive id = true) (hin : (net.edge id).isIn d = true)
    (horigin : (net.edge id).head d ≠ .origin)
    (hlead : net.Leads g.inForce d .origin ((net.edge id).tail d) v)
    (hle : g.value d ((net.edge id).tail d) ≤ v)
    (hlt : v + (net.edge id).weight < g.value d ((net.edge id).head d)) :
    (g.lowerPotential d ((net.edge id).head d) (v + (net.edge id).weight) id).Labelled net := by
  have hnode := hnet.head (h.hasEdge hactive) d
  have hvalue : ∀ d' x, (g.lowerPotential d ((net.edge id).head d)
      (v + (net.edge id).weight) id).value d' x
        = if d = d' ∧ (net.edge id).head d = x then v + (net.edge id).weight
          else g.value d' x :=
    fun d' x => value_lowerPotential h.toShaped hnode d' _ id
  -- no potential grows, so that predecessors account for their nodes as before
  have hmono : ∀ d' x, (g.lowerPotential d ((net.edge id).head d) (v + (net.edge id).weight)
      id).value d' x ≤ g.value d' x := by
    intro d' x
    rw [hvalue]
    split
    next heq =>
      obtain ⟨rfl, rfl⟩ := heq
      omega
    next => exact Int.le_refl _
  refine ⟨h.toShaped.lowerPotential _ _ _ _, ?_, ?_, ?_⟩
  · intro d'
    rw [hvalue, if_neg fun heq => horigin heq.2]
    exact h.origin d'
  · intro d' x hx
    rw [hvalue, inForce_lowerPotential]
    split
    next heq =>
      obtain ⟨rfl, rfl⟩ := heq
      exact hlead.snoc hactive hin
    next => exact h.reached d' x hx
  · intro d' x i hi
    rw [potential_lowerPotential h.toShaped hnode] at hi
    rw [isActive_lowerPotential]
    split at hi
    next heq =>
      obtain ⟨rfl, rfl⟩ := heq
      cases hi
      refine ⟨hactive, hin, rfl, ?_⟩
      have := hmono d ((net.edge id).tail d)
      rw [hvalue d ((net.edge id).head d), if_pos ⟨rfl, rfl⟩]
      omega
    next hne =>
      obtain ⟨hact, hini, hhead, hacc⟩ := h.predecessor d' x i hi
      refine ⟨hact, hini, hhead, ?_⟩
      have := hmono d' ((net.edge i).tail d')
      rw [hvalue d' x, if_neg hne]
      omega

-- ================================================================ insertion

/-- One edge is in force that was not. -/
theorem isActive_insertEdge (hid : id.index < g.active.size) (i : EdgeId) :
    (g.insertEdge net id).isActive i = true ↔ g.isActive i = true ∨ i = id := by
  have hindex : Handle.index id = Handle.index i ↔ i = id := Handle.index_inj.trans eq_comm
  have hroom : Handle.index id < g.active.size := hid
  unfold isActive
  rw [active_insertEdge, HandleVector.get?_set]
  by_cases hi : i = id
  · rw [if_pos (hindex.mpr hi), if_pos hroom]
    simp [hi]
  · rw [if_neg (fun h => hi (hindex.mp h))]
    simp [hi]

/-- Inserting an edge leaves the graph in shape: it is listed where it leaves
from, in each view that it is in, and in force. -/
theorem Shaped.insertEdge (h : g.Shaped net) (hnet : net.WellFormed)
    (hid : net.hasEdge id = true) (hnew : g.isActive id = false) :
    (g.insertEdge net id).Shaped net := by
  have hsize : id.index < g.active.size := by
    rw [h.sizeActive]
    exact Network.hasEdge_iff.mp hid
  refine ⟨?_, ?_, ?_, ?_⟩
  · intro d
    rw [view_insertEdge, potentials_appendOut]
    exact h.sizePotentials d
  · intro d
    rw [view_insertEdge, size_out_appendOut]
    exact h.sizeOut d
  · rw [active_insertEdge, HandleVector.size_set]
    exact h.sizeActive
  · intro d x i
    have htail : (net.edge id).tail d = x → x.index < (g.view d).out.size := by
      rintro rfl
      rw [h.sizeOut]
      exact Network.hasTimepoint_iff.mp (hnet.tail hid d)
    rw [out_insertEdge, isActive_insertEdge hsize]
    by_cases hat : (net.edge id).isIn d = true ∧ (net.edge id).tail d = x
    · -- the edge is appended where it leaves from
      rw [if_pos ⟨hat.1, hat.2, htail hat.2⟩, List.mem_append, List.mem_singleton, h.mem_out]
      constructor
      · rintro (⟨hact, hrest⟩ | rfl)
        · exact ⟨.inl hact, hrest⟩
        · exact ⟨.inr rfl, hat⟩
      · rintro ⟨hact | rfl, hrest⟩
        · exact .inl ⟨hact, hrest⟩
        · exact .inr rfl
    · -- all other lists stay as they are
      rw [if_neg fun hc => hat ⟨hc.1, hc.2.1⟩, h.mem_out]
      constructor
      · rintro ⟨hact, hrest⟩
        exact ⟨.inl hact, hrest⟩
      · rintro ⟨hact | rfl, hrest⟩
        · exact ⟨hact, hrest⟩
        · exact absurd hrest hat

/-- No edge is withdrawn. -/
theorem inForce_subset_insertEdge (h : g.Shaped net) (hid : net.hasEdge id = true) :
    g.inForce ⊆ (g.insertEdge net id).inForce := by
  have hsize : id.index < g.active.size := by
    rw [h.sizeActive]
    exact Network.hasEdge_iff.mp hid
  exact fun i hi => (isActive_insertEdge hsize i).mpr (.inl hi)

@[simp] theorem value_insertEdge (g : ActiveGraph) (d : Direction) (x : Timepoint) :
    (g.insertEdge net id).value d x = g.value d x := by
  simp [value]

/-- Predecessors are still edges in force that lead to their nodes. -/
theorem Labelled.insertEdge (h : g.Labelled net) (hnet : net.WellFormed)
    (hid : net.hasEdge id = true) (hnew : g.isActive id = false) :
    (g.insertEdge net id).Labelled net := by
  have hforce := inForce_subset_insertEdge h.toShaped hid
  refine ⟨h.toShaped.insertEdge hnet hid hnew, ?_, ?_, ?_⟩
  · intro d
    rw [value_insertEdge]
    exact h.origin d
  · intro d x hx
    rw [value_insertEdge]
    exact (h.reached d x hx).mono hforce
  · intro d x i hi
    rw [potential_insertEdge] at hi
    obtain ⟨hact, hrest⟩ := h.predecessor d x i hi
    simp only [value_insertEdge]
    exact ⟨hforce hact, hrest⟩

end ActiveGraph

end TemporalNetwork
