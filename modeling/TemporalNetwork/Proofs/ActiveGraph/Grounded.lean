/-
Every potential is grounded in the origin.

Between two activations more holds of a graph than that it is sound.
Following predecessors from any node ends at the origin, so that the chain
which accounts for a potential can always be given. Each node is tied to
the origin by the two edges of its domain, which keeps its potentials
within the limits that weights have; and as the edge back is the first
that leaves the node, a node that was lowered too far is noticed before
anything else is lowered through it.

These are the conditions under which no operation on the graph breaks
off. They do not depend on how the graph came about, and adding to the
network keeps them; that an activation does is shown separately.
-/
import TemporalNetwork.Proofs.ActiveGraph.Activation
import TemporalNetwork.Proofs.Network.Chain

namespace TemporalNetwork

/-- Sums of up to eight numbers within the limits fit. -/
theorem fitsInt32_of_limits {k : Int} (hlow : -8 * maxMagnitude ≤ k)
    (hhigh : k ≤ 8 * maxMagnitude) : FitsInt32 k := by
  unfold FitsInt32
  unfold maxMagnitude at hlow hhigh
  omega

namespace ActiveGraph

variable {net : Network} {g g' : ActiveGraph} {d : Direction} {x y : Timepoint} {id : EdgeId}
  {es : List EdgeId} {n : Nat} {dom : Domain}

/-- The edge that lowered the node last. -/
def predecessor (g : ActiveGraph) (d : Direction) (x : Timepoint) : Option EdgeId :=
  (g.potential d x).predecessor

/-- A sound graph in which all chains of predecessors end at the origin,
and each node is tied to it by shared edges. -/
structure Grounded (net : Network) (g : ActiveGraph) : Prop extends Sound net g where
  loose (d : Direction) : g.predecessor d .origin = none
  rooted (d : Direction) (x : Timepoint) : net.hasTimepoint x = true →
    ∃ es, net.Chain d (g.predecessor d) x es .origin
  /-- The first edge that leaves a node leads to the origin. -/
  toOrigin (d : Direction) (x : Timepoint) : net.hasTimepoint x = true → x ≠ .origin →
    ∃ id rest, g.out d x = id :: rest ∧ (net.edge id).isShared = true ∧
      (net.edge id).head d = .origin
  /-- An edge with the bound of its domain leads to it from there. -/
  fromOrigin (d : Direction) (x : Timepoint) : net.hasTimepoint x = true → x ≠ .origin →
    ∃ id, g.isActive id = true ∧ (net.edge id).isShared = true ∧
      (net.edge id).tail d = .origin ∧ (net.edge id).head d = x ∧
      (net.edge id).weight = domainBound (net.domain x) d
  /-- The log tells of edges that are in force. -/
  logged : g.activated ⊆ g.inForce
  marks : ∀ m ∈ g.log.marks.head?, m ≤ g.log.size

-- ================================================================== chains

/-- A chain of predecessors that ends is what is found by following them. -/
theorem chainFrom_eq (h : net.Chain d (g.predecessor d) x es y)
    (hy : g.predecessor d y = none) (hn : es.length ≤ n) : chainFrom net g d n x = (es, y) := by
  induction h generalizing n with
  | nil x =>
      cases n with
      | zero => rfl
      | succ n =>
          unfold predecessor at hy
          simp only [chainFrom, hy]
  | @cons x y e es step head rest ih =>
      cases n with
      | zero => cases hn
      | succ n =>
          unfold predecessor at step
          simp only [chainFrom, step, ih hy (Nat.le_of_succ_le_succ hn)]

/-- Predecessors are edges that there are. -/
theorem Labelled.hasEdge_of_chain (h : g.Labelled net)
    (hchain : net.Chain d (g.predecessor d) x es y) : ∀ id ∈ es, net.hasEdge id = true := by
  intro id hid
  exact h.hasEdge (h.predecessor d _ id (hchain.next_head hid)).1

/-- A chain of predecessors accounts for the difference of potentials. -/
theorem Labelled.weight_le (h : g.Labelled net)
    (hchain : net.Chain d (g.predecessor d) x es y) :
    g.value d y + net.weight es ≤ g.value d x :=
  hchain.weight_le fun x e hx => (h.predecessor d x e hx).2.2.2

/-- The chain that accounts for a potential can be given. -/
theorem Labelled.predecessorChain_eq (h : g.Labelled net) (hnet : net.WellFormed)
    (hloose : g.predecessor d .origin = none)
    (hchain : net.Chain d (g.predecessor d) x es .origin) :
    g.predecessorChain net d x = .ok es := by
  have hlength := hchain.length_lt hloose hnet (h.hasEdge_of_chain hchain) hnet.origin
  have hnodes : g.numNodes = net.numTimepoints := h.sizePotentials .forward
  unfold ActiveGraph.predecessorChain
  rw [chainFrom_eq hchain hloose (by omega)]
  rfl

-- ================================================================== limits

/-- Potentials stay within the limits of weights. -/
theorem Grounded.value_mem (h : g.Grounded net) (hlimited : net.Limited) (d : Direction)
    (hx : net.hasTimepoint x = true) :
    -maxMagnitude ≤ g.value d x ∧ g.value d x ≤ maxMagnitude := by
  by_cases horigin : x = .origin
  · rw [horigin, h.origin]
    decide
  · have hmem := h.mem_out d x
    obtain ⟨back, rest, hout, hshared, hhead⟩ := h.toOrigin d x hx horigin
    obtain ⟨hact, hin, htail⟩ := (hmem back).mp (by rw [hout]; exact List.mem_cons_self)
    have hback := h.respected d back hact hin
    rw [hhead, htail, h.origin] at hback
    obtain ⟨there, hact', hshared', htail', hhead', -⟩ := h.fromOrigin d x hx horigin
    have hthere := h.respected d there hact' (Edge.isIn_of_isShared hshared' d)
    rw [hhead', htail', h.origin] at hthere
    have hbackWeight := hlimited back (h.hasEdge hact)
    have hthereWeight := hlimited there (h.hasEdge hact')
    omega

-- ================================================================= the log

/-- Of the log only what a level goes back to matters. -/
theorem Grounded.withLog (h : g.Grounded net) {log : UndoLog GraphChange}
    (hevents : log.events = g.log.events) (hmarks : ∀ m ∈ log.marks.head?, m ≤ log.size) :
    Grounded net { g with log } := by
  have hpotential := potential_withLog g log
  have hout := out_withLog g log
  have hactivated : activated { g with log } = g.activated := by
    unfold activated
    rw [hevents]
  refine ⟨h.toSound.withLog log, ?_, ?_, ?_, h.fromOrigin, hactivated.symm ▸ h.logged, hmarks⟩
  · intro d
    unfold predecessor
    rw [hpotential]
    exact h.loose d
  · intro d x hx
    obtain ⟨es, hchain⟩ := h.rooted d x hx
    refine ⟨es, hchain.congr fun e _ => ?_⟩
    unfold predecessor
    rw [hpotential]
  · intro d x
    rw [hout]
    exact h.toOrigin d x

/-- A graph is grounded on the next level as well. -/
theorem Grounded.save (h : g.Grounded net) : g.save.Grounded net :=
  h.withLog rfl fun m hm => by
    cases hm
    exact Nat.le_refl _

-- =============================================================== additions

/-- The graph of the origin alone. -/
theorem grounded_initial : initial.Grounded .initial := by
  have hone : ∀ x, Network.initial.hasTimepoint x = true → x = .origin := by
    intro x hx
    have hlt : x.index < 1 := Network.hasTimepoint_iff.mp hx
    exact Handle.index_inj.mp (Nat.lt_one_iff.mp hlt)
  refine ⟨sound_initial, ?_, ?_, ?_, ?_, fun i hi => absurd hi List.not_mem_nil, ?_⟩
  · intro d
    cases d <;> rfl
  · intro d x hx
    rw [hone x hx]
    exact ⟨[], .nil _⟩
  · exact fun d x hx hne => absurd (hone x hx) hne
  · exact fun d x hx hne => absurd (hone x hx) hne
  · exact fun m hm => absurd hm (Option.not_mem_none m)

/-- The network and the graph have one edge more, not in force. -/
theorem Grounded.addEdge (h : g.Grounded net) (e : Edge) :
    g.addEdge.Grounded (net.addEdge e) := by
  have hedge : ∀ i, g.isActive i = true → (net.addEdge e).edge i = net.edge i :=
    fun i hi => Network.edge_addEdge_of_hasEdge (h.hasEdge hi)
  have htimepoint : ∀ x, (net.addEdge e).hasTimepoint x = true → net.hasTimepoint x = true := by
    intro x hx
    rw [Network.hasTimepoint_iff, Network.numTimepoints_addEdge] at hx
    exact Network.hasTimepoint_iff.mpr hx
  have hlogged : g.addEdge.activated ⊆ g.addEdge.inForce :=
    fun i hi => (isActive_addEdge g i).trans (h.logged hi)
  refine ⟨h.toSound.addEdge e, h.loose, ?_, ?_, ?_, hlogged, h.marks⟩
  · intro d x hx
    obtain ⟨es, hchain⟩ := h.rooted d x (htimepoint x hx)
    refine ⟨es, hchain.transfer fun i hi => ?_⟩
    exact Network.edge_addEdge_of_hasEdge (h.hasEdge_of_chain hchain i hi)
  · intro d x hx hne
    obtain ⟨id, rest, hout, hshared, hhead⟩ := h.toOrigin d x (htimepoint x hx) hne
    have hact := ((h.mem_out d x id).mp (by rw [hout]; exact List.mem_cons_self)).1
    refine ⟨id, rest, hout, ?_⟩
    rw [hedge id hact]
    exact ⟨hshared, hhead⟩
  · intro d x hx hne
    obtain ⟨id, hact, hrest⟩ := h.fromOrigin d x (htimepoint x hx) hne
    refine ⟨id, (isActive_addEdge g id).trans hact, ?_⟩
    rw [hedge id hact, ((Network.grows_addEdge net e).timepoint x (htimepoint x hx)).2]
    exact hrest

/-- Away from the origin only the new node has a new edge. -/
theorem Adds.out_of_ne (h : Adds net dom g g') (hg : g.Shaped net) (d : Direction)
    (hne : x ≠ .origin) : g'.out d x
      = if x.index = net.numTimepoints then [edgeFrom net d] else g.out d x := by
  have hindex : ¬ (Handle.index Timepoint.origin = Handle.index x ∧
      Handle.index Timepoint.origin < ((g.view d).out.push #[edgeFrom net d]).size) :=
    fun heq => hne (Handle.index_inj.mp heq.1).symm
  have hsize : Handle.index x = (g.view d).out.size ↔ x.index = net.numTimepoints := by
    rw [hg.sizeOut]
    rfl
  unfold ActiveGraph.out
  rw [h.out, HandleVector.get_modify, if_neg hindex, HandleVector.get_push]
  simp only [hsize]
  split <;> rfl

/-- The edges of a domain belong to both views. -/
theorem isShared_addBounded (net : Network) (dom : Domain) (d : Direction) :
    ((net.addBounded dom).edge (edgeTo net d)).isShared = true ∧
      ((net.addBounded dom).edge (edgeFrom net d)).isShared = true := by
  cases d with
  | forward =>
      simp only [edgeTo, edgeFrom, Network.edge_addBounded_upper, Network.edge_addBounded_lower]
      exact ⟨rfl, rfl⟩
  | backward =>
      simp only [edgeTo, edgeFrom, Network.edge_addBounded_upper, Network.edge_addBounded_lower]
      exact ⟨rfl, rfl⟩

/-- The network has one timepoint more, and the graph the node with the
edges that enforce the domain. -/
theorem Grounded.addNode (h : g.Grounded net) (hnet : net.WellFormed) {tp : Timepoint}
    (hdom : dom.lower ≤ dom.upper) (hrun : g.addNode tp dom = .ok g') :
    g'.Grounded (net.addBounded dom) := by
  have hshaped := h.toShaped
  obtain ⟨hadds, -⟩ := adds_of_addNode hshaped hrun
  have hpredecessor : ∀ d x, net.hasTimepoint x = true →
      g'.predecessor d x = g.predecessor d x := by
    intro d x hx
    unfold predecessor
    rw [hadds.potential hshaped, if_neg (Nat.ne_of_lt (Network.hasTimepoint_iff.mp hx))]
  have hold : ∀ x, net.hasTimepoint x = true → ¬ x.index = net.numTimepoints :=
    fun x hx => Nat.ne_of_lt (Network.hasTimepoint_iff.mp hx)
  have hlogged : g'.activated ⊆ g'.inForce := by
    rw [hadds.activated]
    exact fun i hi => (hadds.isActive hshaped i).mpr (.inl (h.logged hi))
  refine ⟨h.toSound.addNode hnet hdom hrun, ?_, ?_, ?_, ?_, hlogged, ?_⟩
  · intro d
    rw [hpredecessor d _ hnet.origin]
    exact h.loose d
  · intro d x hx
    rcases Network.hasTimepoint_addBounded.mp hx with hx | hx
    · -- the new node is one edge away from the origin
      obtain ⟨-, htail, hhead, -⟩ := edge_edgeTo net dom d
      have hstep : g'.predecessor d x = some (edgeTo net d) := by
        unfold predecessor
        rw [hadds.potential hshaped, if_pos hx]
      refine ⟨[edgeTo net d], .cons hstep (hhead.trans (Network.eq_nextKey_iff.mpr hx).symm) ?_⟩
      rw [htail]
      exact .nil _
    · -- a chain of old edges stays where it is
      obtain ⟨es, hchain⟩ := h.rooted d x hx
      have hedges := h.hasEdge_of_chain hchain
      have hchain' : net.Chain d (g'.predecessor d) x es .origin :=
        hchain.congr fun e he => hpredecessor d _ (hnet.head (hedges e he) d)
      exact ⟨es, hchain'.transfer fun e he =>
        ((Network.grows_addBounded net dom).edge e (hedges e he)).2⟩
  · -- the first edge out of a node leads to the origin
    intro d x hx hne
    rw [hadds.out_of_ne hshaped d hne]
    rcases Network.hasTimepoint_addBounded.mp hx with hx | hx
    · rw [if_pos hx]
      exact ⟨_, [], rfl, (isShared_addBounded net dom d).2, (edge_edgeFrom net dom d).2.2.1⟩
    · rw [if_neg (hold x hx)]
      obtain ⟨id, rest, hout, hrest⟩ := h.toOrigin d x hx hne
      have hact := ((h.mem_out d x id).mp (by rw [hout]; exact List.mem_cons_self)).1
      refine ⟨id, rest, hout, ?_⟩
      rw [hshaped.edge_addBounded hact]
      exact hrest
  · intro d x hx hne
    rcases Network.hasTimepoint_addBounded.mp hx with hx | hx
    · obtain ⟨-, htail, hhead, hweight⟩ := edge_edgeTo net dom d
      refine ⟨_, hadds.isActive_edgeTo hshaped d, (isShared_addBounded net dom d).1, htail,
        hhead.trans (Network.eq_nextKey_iff.mpr hx).symm, hweight.trans ?_⟩
      rw [Network.domain_addBounded, if_pos hx]
    · obtain ⟨id, hact, hrest⟩ := h.fromOrigin d x hx hne
      refine ⟨id, (hadds.isActive hshaped id).mpr (.inl hact), ?_⟩
      rw [hshaped.edge_addBounded hact, Network.domain_addBounded, if_neg (hold x hx)]
      exact hrest
  · rw [hadds.log]
    exact h.marks

/-- At the root a node can be added. -/
theorem Shaped.exists_addNode (h : g.Shaped net) (hroot : g.log.level = .root) (dom : Domain) :
    ∃ g', g.addNode net.domains.nextKey dom = .ok g' := by
  have hnext : g.forward.potentials.nextKey = (net.domains.nextKey : Timepoint) := by
    rw [HandleVector.nextKey, HandleVector.nextKey]
    exact congrArg Handle.ofIndex (h.sizePotentials .forward)
  unfold ActiveGraph.addNode
  rw [Checked.require_of hroot, Checked.require_of hnext]
  exact ⟨_, rfl⟩

end ActiveGraph

end TemporalNetwork
