/-
A graph stays sound.

An activation either carries the new edge through both views, and the
graph is sound with one edge more; or it reports a cycle through edges
that are in force and the new one, and the graph is what it was. Adding
an edge that is not in force, or a node with its two domain edges, keeps
the graph sound as well, so that every graph that arises is.
-/
import TemporalNetwork.Proofs.ActiveGraph.Relaxation

namespace TemporalNetwork

namespace ActiveGraph

open Relaxation (Refutes)

variable {net : Network} {g g' : ActiveGraph} {d : Direction} {id : EdgeId} {es : List EdgeId}
  {lowered : List (Direction × Timepoint)} {x : Timepoint} {a : Activation}

-- ============================================================== activation

/-- The graph with one edge more in force, and the nodes lowered for it. -/
structure Accepts (net : Network) (g : ActiveGraph) (id : EdgeId) (g' : ActiveGraph)
    (lowered : List (Direction × Timepoint)) : Prop where
  sound : g'.Sound net
  extended : Extends net g g'
  active (i : EdgeId) : g'.isActive i = true ↔ g.isActive i = true ∨ i = id
  activated : g'.activated ⊆ insert id g.activated
  changed (d : Direction) (x : Timepoint) :
    g'.value d x = g.value d x ∨ (d, x) ∈ lowered

/-- A reason why the edge cannot be in force with those that are. -/
structure Rejects (net : Network) (g : ActiveGraph) (id : EdgeId) (es : List EdgeId) :
    Prop where
  among (i : EdgeId) : i ∈ es → g.isActive i = true ∨ i = id
  inconsistent : net.isCycle es = true → net.weight es < 0 → net.Inconsistent {i | i ∈ es}

/-- A cycle that is refuted with the edge in force rejects the edge. -/
theorem rejects_of_refutes (hid : id.index < g.active.size)
    (hactive : g'.active = (g.insertEdge net id).active) (h : Refutes net g' es) :
    Rejects net g id es := by
  refine ⟨fun i hi => ?_, h.2⟩
  have hact := h.1 i hi
  unfold isActive at hact
  rw [hactive] at hact
  exact (isActive_insertEdge hid i).mp hact

/-- An edge by itself is in some view. -/
theorem rejects_self : Rejects net g id [id] := by
  refine ⟨fun i hi => .inr (List.mem_singleton.mp hi), fun hcycle hweight => ?_⟩
  obtain ⟨d, hin⟩ := (net.edge id).exists_isIn
  refine Network.inconsistent_of_isCycle (d := d) hcycle hweight (fun i hi => ?_) fun i hi => hi
  rw [List.mem_singleton.mp hi]
  exact hin

/-- All that was changed for the new edge can be undone. -/
theorem extends_of_carries {r₁ r₂ : Relaxation} (hg : g.Sound net)
    (hnet : net.WellFormed) (hid : net.hasEdge id = true) (hnew : g.isActive id = false)
    (h₁ : Relaxation.Carries net .forward ⟨g.insertEdge net id, [], #[], none⟩ r₁)
    (h₂ : Relaxation.Carries net .backward r₁ r₂) : Extends net g r₂.graph := by
  have hnodes : ∀ d, ((net.edge id).tail d).index < (g.view d).out.size := by
    intro d
    rw [hg.sizeOut]
    exact Network.hasTimepoint_iff.mp (hnet.tail hid d)
  exact ((extends_insertEdge hnew hnodes).trans h₁.extended).trans h₂.extended

/-- Both views were relaxed without a cycle, and no domain is empty. -/
theorem accepts_of_carries {r₁ r₂ : Relaxation} (hg : g.Sound net)
    (hnet : net.WellFormed) (hid : net.hasEdge id = true) (hnew : g.isActive id = false)
    (h₁ : Relaxation.Carries net .forward ⟨g.insertEdge net id, [], #[], none⟩ r₁)
    (h₂ : Relaxation.Carries net .backward r₁ r₂)
    (hforward : ∀ i, r₁.graph.isActive i = true → (net.edge i).isIn .forward = true →
      Relaxation.Respected net .forward r₁.graph i)
    (hbackward : ∀ i, r₂.graph.isActive i = true → (net.edge i).isIn .backward = true →
      Relaxation.Respected net .backward r₂.graph i)
    (hdomains : ∀ p ∈ r₂.lowered,
      0 ≤ r₂.graph.value .forward p.2 + r₂.graph.value .backward p.2) :
    Accepts net g id r₂.graph r₂.lowered.toList := by
  have hsize : id.index < g.active.size := by
    rw [hg.sizeActive]
    exact Network.hasEdge_iff.mp hid
  have hsame : ∀ x, r₂.graph.value .forward x = r₁.graph.value .forward x :=
    fun x => h₂.other .forward x (by decide)
  have hchanged : ∀ d x, r₂.graph.value d x = g.value d x ∨ (d, x) ∈ r₂.lowered := by
    intro d x
    cases d with
    | forward =>
        rw [hsame]
        rcases h₁.changed x with heq | hmem
        · exact .inl (heq.trans (value_insertEdge g .forward x))
        · exact .inr (h₂.kept _ hmem)
    | backward =>
        rcases h₂.changed x with heq | hmem
        · rw [heq, h₁.other .backward x (by decide)]
          exact .inl (value_insertEdge g .backward x)
        · exact .inr hmem
  refine ⟨⟨h₂.labelled, ?_, ?_⟩, ?_, ?_, ?_, ?_⟩
  · intro d i hact hin
    cases d with
    | forward =>
        rw [hsame, hsame]
        exact hforward i (h₂.isActive i ▸ hact) hin
    | backward => exact hbackward i hact hin
  · intro x
    -- where neither bound changed they are those of the sound graph
    rcases hchanged .forward x with hf | hf
    · rcases hchanged .backward x with hb | hb
      · rw [hf, hb]
        exact hg.uncrossed x
      · exact hdomains (.backward, x) hb
    · exact hdomains (.forward, x) hf
  · exact extends_of_carries hg hnet hid hnew h₁ h₂
  · intro i
    rw [h₂.isActive, h₁.isActive]
    exact isActive_insertEdge hsize i
  · rw [h₂.activated, h₁.activated, activated_insertEdge]
  · intro d x
    exact (hchanged d x).imp_right Array.mem_toList_iff.mpr

section
variable (hg : g.Sound net) (hnet : net.WellFormed) (hid : net.hasEdge id = true)
  (hnew : g.isActive id = false)
include hg hid

/-- The edge that is inserted is in force. -/
theorem isActive_insertEdge_self : (g.insertEdge net id).isActive id = true :=
  (isActive_insertEdge (hg.sizeActive ▸ Network.hasEdge_iff.mp hid) id).mpr (.inr rfl)

/-- Only the new edge may be violated. -/
theorem Sound.respected_insertEdge (d : Direction) (i : EdgeId) (hi : i ≠ id)
    (hact : (g.insertEdge net id).isActive i = true) (hin : (net.edge i).isIn d = true) :
    Relaxation.Respected net d (g.insertEdge net id) i := by
  have hsize : id.index < g.active.size := hg.sizeActive ▸ Network.hasEdge_iff.mp hid
  unfold Relaxation.Respected
  rw [value_insertEdge, value_insertEdge]
  exact hg.respected d i (((isActive_insertEdge hsize i).mp hact).resolve_right hi) hin

variable {r₁ r₂ : Relaxation}

/-- The backward values are still those of the graph without the edge. -/
theorem respected_of_carries
    (hcarries : Relaxation.Carries net .forward ⟨g.insertEdge net id, [], #[], none⟩ r₁)
    (i : EdgeId) (hi : i ≠ id) (hact : r₁.graph.isActive i = true)
    (hin : (net.edge i).isIn .backward = true) :
    Relaxation.Respected net .backward r₁.graph i := by
  rw [hcarries.isActive] at hact
  have hbefore := hg.respected_insertEdge hid .backward i hi hact hin
  unfold Relaxation.Respected at hbefore ⊢
  rwa [hcarries.other .backward _ (by decide), hcarries.other .backward _ (by decide)]

include hnet hnew

/-- The new edge is carried through the forward view first. -/
theorem carries_forward
    (hloop : ¬ ((net.edge id).isLoop = true ∧ (net.edge id).weight < 0))
    (hrelax : Relaxation.relax net id .forward ⟨g.insertEdge net id, [], #[], none⟩ = .ok r₁) :
    Relaxation.Carries net .forward ⟨g.insertEdge net id, [], #[], none⟩ r₁ ∧ r₁.queue = [] ∧
      (r₁.cycle = none → ∀ i, r₁.graph.isActive i = true →
        (net.edge i).isIn .forward = true → Relaxation.Respected net .forward r₁.graph i) :=
  Relaxation.carries_relax hnet (r := ⟨g.insertEdge net id, [], #[], none⟩)
    (hg.toLabelled.insertEdge hnet hid hnew) (fun es hes => by cases hes) rfl
    (isActive_insertEdge_self hg hid) hloop (hg.respected_insertEdge hid .forward) hrelax

/-- Then it is carried through the backward one, which the first has left
as it was. -/
theorem carries_activate
    (hloop : ¬ ((net.edge id).isLoop = true ∧ (net.edge id).weight < 0))
    (hrelax₁ : Relaxation.relax net id .forward ⟨g.insertEdge net id, [], #[], none⟩ = .ok r₁)
    (hrelax₂ : Relaxation.relax net id .backward r₁ = .ok r₂) :
    Relaxation.Carries net .forward ⟨g.insertEdge net id, [], #[], none⟩ r₁ ∧
      Relaxation.Carries net .backward r₁ r₂ ∧
      (r₁.cycle = none → ∀ i, r₁.graph.isActive i = true →
        (net.edge i).isIn .forward = true → Relaxation.Respected net .forward r₁.graph i) ∧
      (r₂.cycle = none → ∀ i, r₂.graph.isActive i = true →
        (net.edge i).isIn .backward = true → Relaxation.Respected net .backward r₂.graph i) := by
  obtain ⟨hcarries₁, hqueue₁, hforward⟩ := carries_forward hg hnet hid hnew hloop hrelax₁
  obtain ⟨hcarries₂, -, hbackward⟩ := Relaxation.carries_relax hnet hcarries₁.labelled
    hcarries₁.refuted hqueue₁ ((hcarries₁.isActive id).trans (isActive_insertEdge_self hg hid))
    hloop (respected_of_carries hg hid hcarries₁) hrelax₂
  exact ⟨hcarries₁, hcarries₂, hforward, hbackward⟩

end

/-- An activation on a sound graph leads to a sound graph with one edge
more, or leaves the graph alone and gives the reason. -/
theorem Sound.activate (hg : g.Sound net) (hnet : net.WellFormed)
    (hid : net.hasEdge id = true) (h : g.activate net id = .ok a) :
    (∃ lowered, a.verdict = .ok lowered ∧ Accepts net g id a.graph lowered) ∨
      ∃ es, a.verdict = .error es ∧ a.graph = g ∧ Rejects net g id es := by
  unfold ActiveGraph.activate at h
  simp only at h
  split at h
  next hactive =>
    cases h
    refine .inl ⟨[], rfl, hg, .refl g, fun i => ?_, Set.subset_insert _ _, fun d x => .inl rfl⟩
    constructor
    · exact .inl
    · rintro (hi | rfl)
      · exact hi
      · exact hactive
  next hnot =>
    have hnew : g.isActive id = false := Bool.not_eq_true _ ▸ hnot
    split at h
    next =>
      cases h
      exact .inr ⟨[id], rfl, rfl, rejects_self⟩
    next hloop =>
      simp only [Checked.bind_eq_ok] at h
      obtain ⟨r₁, hrelax₁, r₂, hrelax₂, r₃, hcheck, h⟩ := h
      obtain ⟨hcarries₁, hcarries₂, hforward, hbackward⟩ :=
        carries_activate hg hnet hid hnew hloop hrelax₁ hrelax₂
      -- whatever cycle was found, what was changed for the edge is undone
      have hreject : ∀ es, Refutes net r₂.graph es →
          (r₂.graph.undoTo net g.log.size >>= fun u =>
            pure ⟨u, r₂.lowered.size, .error es⟩) = .ok a →
          ∃ es, a.verdict = .error es ∧ a.graph = g ∧ Rejects net g id es := by
        intro es hes hundo
        have hsize : id.index < g.active.size := by
          rw [hg.sizeActive]
          exact Network.hasEdge_iff.mp hid
        have hextends := extends_of_carries hg hnet hid hnew hcarries₁ hcarries₂
        simp only [Checked.bind_eq_ok, Checked.pure_eq_ok] at hundo
        obtain ⟨u, hu, rfl⟩ := hundo
        exact ⟨es, rfl, (hextends.undoTo_eq_ok.mp hu).2,
          rejects_of_refutes hsize (hcarries₂.active.trans hcarries₁.active) hes⟩
      rcases Relaxation.checkDomains_eq_ok hcarries₂.labelled hcheck with
        ⟨rfl, hdomains⟩ | ⟨es, rfl, hes⟩
      · cases hcycle : r₃.cycle with
        | none =>
            rw [hcycle] at h
            simp only [Checked.pure_eq_ok] at h
            subst h
            have hcycle₁ : r₁.cycle = none := by
              by_contra hsome
              rw [Relaxation.relax_of_cycle hsome] at hrelax₂
              cases hrelax₂
              exact hsome hcycle
            exact .inl ⟨_, rfl, accepts_of_carries hg hnet hid hnew hcarries₁ hcarries₂
              (hforward hcycle₁) (hbackward hcycle) (hdomains hcycle)⟩
        | some es =>
            rw [hcycle] at h
            exact .inr (hreject es (hcarries₂.refuted es hcycle) h)
      · exact .inr (hreject es hes h)

-- =========================================================== a new edge

/-- A new edge is not in force, and makes no difference to the others. -/
theorem isActive_addEdge (g : ActiveGraph) (i : EdgeId) : g.addEdge.isActive i = g.isActive i := by
  unfold isActive addEdge
  rw [HandleVector.get?_push]
  split
  next hi =>
    rw [(HandleVector.get?_eq_none_iff _ _).mpr (Nat.le_of_eq hi.symm)]
    rfl
  next => rfl

/-- The network and the graph have one edge more, not in force. -/
theorem Sound.addEdge (hg : g.Sound net) (e : Edge) : g.addEdge.Sound (net.addEdge e) := by
  have hedge : ∀ i, g.isActive i = true → (net.addEdge e).edge i = net.edge i :=
    fun i hi => Network.edge_addEdge_of_hasEdge (hg.hasEdge hi)
  -- the edges in force are those that were, and nothing else is looked at
  refine ⟨⟨⟨?_, ?_, ?_, ?_⟩, ?_, ?_, ?_⟩, ?_, ?_⟩
  · intro d
    rw [Network.numTimepoints_addEdge]
    exact hg.sizePotentials d
  · intro d
    rw [Network.numTimepoints_addEdge]
    exact hg.sizeOut d
  · rw [Network.numEdges_addEdge, ← hg.sizeActive]
    exact HandleVector.size_push _ _
  · intro d x i
    rw [isActive_addEdge]
    apply (hg.mem_out d x i).trans
    constructor
    · rintro ⟨hact, hrest⟩
      exact ⟨hact, by rw [hedge i hact]; exact hrest⟩
    · rintro ⟨hact, hrest⟩
      exact ⟨hact, by rw [hedge i hact] at hrest; exact hrest⟩
  · exact hg.origin
  · intro d x hx
    rw [Network.hasTimepoint_iff, Network.numTimepoints_addEdge] at hx
    apply (hg.reached d x (Network.hasTimepoint_iff.mpr hx)).transfer
    intro i hi
    exact ⟨(isActive_addEdge g i).trans hi, hedge i hi⟩
  · intro d x i hi
    obtain ⟨hact, hrest⟩ := hg.predecessor d x i hi
    rw [isActive_addEdge, hedge i hact]
    exact ⟨hact, hrest⟩
  · intro d i hact hin
    rw [isActive_addEdge] at hact
    rw [hedge i hact] at hin ⊢
    exact hg.respected d i hact hin
  · exact hg.uncrossed

-- =========================================================== a new node

/-- The potential that a domain gives its timepoint. -/
def domainBound (dom : Domain) : Direction → Int
  | .forward => dom.upper
  | .backward => -dom.lower

/-- Of the two edges that enforce the domain of a new node, the one that
leads to the node in the view. -/
def edgeTo (net : Network) : Direction → EdgeId
  | .forward => ⟨net.numEdges⟩
  | .backward => ⟨net.numEdges + 1⟩

/-- Of the two edges, the one that leads from the node. -/
def edgeFrom (net : Network) : Direction → EdgeId
  | .forward => ⟨net.numEdges + 1⟩
  | .backward => ⟨net.numEdges⟩

/-- In either view, the two edges of a domain are those with the next two
handles. -/
theorem eq_edgeTo_or_edgeFrom (d : Direction) (i : EdgeId) :
    i.index = net.numEdges ∨ i.index = net.numEdges + 1 ↔
      i = edgeTo net d ∨ i = edgeFrom net d := by
  obtain ⟨n⟩ := i
  cases d with
  | forward => simp [edgeTo, edgeFrom]
  | backward =>
      simp only [edgeTo, edgeFrom, EdgeId.mk.injEq]
      exact or_comm

/-- What adding a node does to a graph, the same in both views. -/
structure Adds (net : Network) (dom : Domain) (g g' : ActiveGraph) : Prop where
  potentials (d : Direction) : (g'.view d).potentials
    = (g.view d).potentials.push ⟨domainBound dom d, some (edgeTo net d)⟩
  out (d : Direction) : (g'.view d).out
    = ((g.view d).out.push #[edgeFrom net d]).modify .origin (·.push (edgeTo net d))
  active : g'.active = (g.active.push true).push true
  log : g'.log = g.log

/-- A node is added at the root, as `Adds` describes. -/
theorem adds_of_addNode (hg : g.Shaped net) {dom : Domain} {tp : Timepoint}
    (h : g.addNode tp dom = .ok g') : Adds net dom g g' ∧ g.log.level = .root := by
  unfold addNode at h
  simp only [Checked.bind_eq_ok, Checked.require_eq_ok, Checked.pure_eq_ok] at h
  obtain ⟨-, hroot, -, -, rfl⟩ := h
  have hfirst : (g.active.nextKey : EdgeId) = ⟨net.numEdges⟩ := by
    rw [HandleVector.nextKey, hg.sizeActive]
    rfl
  have hsecond : ((g.active.push true).nextKey : EdgeId) = ⟨net.numEdges + 1⟩ := by
    rw [HandleVector.nextKey, HandleVector.size_push, hg.sizeActive]
    rfl
  refine ⟨⟨?_, ?_, rfl, rfl⟩, hroot⟩
  · intro d
    cases d with
    | forward => simp only [view, hfirst, domainBound, edgeTo]
    | backward => simp only [view, hsecond, domainBound, edgeTo]
  · intro d
    cases d with
    | forward => simp only [view, hfirst, hsecond, edgeFrom, edgeTo]
    | backward => simp only [view, hfirst, hsecond, edgeFrom, edgeTo]

section
variable {dom : Domain}

theorem Adds.activated (h : Adds net dom g g') : g'.activated = g.activated := by
  unfold ActiveGraph.activated
  rw [h.log]

/-- The new node starts at its bound, by the edge that leads to it. -/
theorem Adds.potential (h : Adds net dom g g') (hg : g.Shaped net) (d : Direction)
    (x : Timepoint) : g'.potential d x
      = if x.index = net.numTimepoints then ⟨domainBound dom d, some (edgeTo net d)⟩
        else g.potential d x := by
  unfold ActiveGraph.potential
  rw [h.potentials, HandleVector.get_push, hg.sizePotentials]
  rfl

/-- The other nodes stay at their values. -/
theorem Adds.value (h : Adds net dom g g') (hg : g.Shaped net) (d : Direction)
    (x : Timepoint) : g'.value d x
      = if x.index = net.numTimepoints then domainBound dom d else g.value d x := by
  unfold ActiveGraph.value
  rw [h.potential hg]
  split <;> rfl

/-- The two new edges are in force, beside those that were. -/
theorem Adds.isActive (h : Adds net dom g g') (hg : g.Shaped net) (i : EdgeId) :
    g'.isActive i = true ↔
      g.isActive i = true ∨ i.index = net.numEdges ∨ i.index = net.numEdges + 1 := by
  have hsize := hg.sizeActive
  unfold ActiveGraph.isActive
  rw [h.active, HandleVector.get?_push, HandleVector.get?_push, HandleVector.size_push, hsize]
  have hindex : Handle.index i = i.index := rfl
  rw [hindex]
  by_cases h₁ : i.index = net.numEdges + 1
  · simp [h₁]
  · by_cases h₂ : i.index = net.numEdges
    · simp [h₂]
    · simp [h₁, h₂]

/-- Each view has one new edge that leaves the origin and one that leaves the
new node. -/
theorem Adds.mem_out (h : Adds net dom g g') (hg : g.Shaped net) (d : Direction)
    (x : Timepoint) (i : EdgeId) : i ∈ g'.out d x ↔
      i ∈ g.out d x ∨ x.index = net.numTimepoints ∧ i = edgeFrom net d ∨
        x = .origin ∧ i = edgeTo net d := by
  have hsize := hg.sizeOut d
  -- the new node has no list yet, and gets one of one edge
  have hnew : x.index = net.numTimepoints → g.out d x = [] := by
    intro hx
    unfold ActiveGraph.out
    rw [HandleVector.get, (HandleVector.get?_eq_none_iff _ _).mpr (Nat.le_of_eq (by
      rw [hsize]
      exact hx.symm))]
    rfl
  have hpushed : ((g.view d).out.push #[edgeFrom net d]).get x
      = if x.index = net.numTimepoints then #[edgeFrom net d] else (g.view d).out.get x := by
    rw [HandleVector.get_push, hsize]
    rfl
  -- the list of the origin gets the other edge
  have horigin : Handle.index Timepoint.origin = Handle.index x ∧
      Handle.index Timepoint.origin < ((g.view d).out.push #[edgeFrom net d]).size ↔
        x = .origin := by
    rw [HandleVector.size_push, Handle.index_inj]
    exact ⟨fun hx => hx.1.symm, fun hx => ⟨hx.symm, Nat.succ_pos _⟩⟩
  have hout : i ∈ g.out d x ↔ i ∈ (g.view d).out.get x := Array.mem_toList_iff
  rw [ActiveGraph.out, h.out, Array.mem_toList_iff, HandleVector.get_modify, hpushed]
  by_cases hx : x.index = net.numTimepoints
  · rw [hnew hx]
    by_cases ho : x = .origin
    · rw [if_pos (horigin.mpr ho), if_pos hx]
      simp [eq_true hx, eq_true ho]
    · rw [if_neg (fun hc => ho (horigin.mp hc)), if_pos hx]
      simp [hx, ho]
  · rw [hout]
    by_cases ho : x = .origin
    · rw [if_pos (horigin.mpr ho), if_neg hx]
      simp [eq_false hx, eq_true ho]
    · rw [if_neg (fun hc => ho (horigin.mp hc)), if_neg hx]
      simp [hx, ho]

end

/-- The edge to the node, seen from a view, leads from the origin and weighs
the bound. -/
theorem edge_edgeTo (net : Network) (dom : Domain) (d : Direction) :
    let e := (net.addBounded dom).edge (edgeTo net d)
    e.isIn d = true ∧ e.tail d = .origin ∧ e.head d = net.domains.nextKey ∧
      e.weight = domainBound dom d := by
  cases d with
  | forward =>
      simp only [edgeTo, Network.edge_addBounded_upper]
      exact ⟨rfl, rfl, rfl, rfl⟩
  | backward =>
      simp only [edgeTo, Network.edge_addBounded_lower]
      exact ⟨rfl, rfl, rfl, rfl⟩

/-- The edge from the node leads back to the origin and weighs the opposite
bound. -/
theorem edge_edgeFrom (net : Network) (dom : Domain) (d : Direction) :
    let e := (net.addBounded dom).edge (edgeFrom net d)
    e.isIn d = true ∧ e.tail d = net.domains.nextKey ∧ e.head d = .origin ∧
      domainBound dom d + e.weight = dom.upper - dom.lower := by
  cases d with
  | forward =>
      simp only [edgeFrom, Network.edge_addBounded_lower]
      exact ⟨rfl, rfl, rfl, rfl⟩
  | backward =>
      simp only [edgeFrom, Network.edge_addBounded_upper]
      refine ⟨rfl, rfl, rfl, ?_⟩
      simp only [domainBound]
      omega

section
variable {dom : Domain} {i : EdgeId}

/-- The edges that were in force are what they were. -/
theorem Shaped.edge_addBounded (hg : g.Shaped net) (hi : g.isActive i = true) (dom : Domain) :
    (net.addBounded dom).edge i = net.edge i :=
  ((Network.grows_addBounded net dom).edge i (hg.hasEdge hi)).2

theorem Adds.isActive_edgeTo (h : Adds net dom g g') (hg : g.Shaped net) (d : Direction) :
    g'.isActive (edgeTo net d) = true :=
  (h.isActive hg _).mpr (.inr ((eq_edgeTo_or_edgeFrom d _).mpr (.inl rfl)))

theorem Adds.isActive_edgeFrom (h : Adds net dom g g') (hg : g.Shaped net) (d : Direction) :
    g'.isActive (edgeFrom net d) = true :=
  (h.isActive hg _).mpr (.inr ((eq_edgeTo_or_edgeFrom d _).mpr (.inr rfl)))

/-- An edge in force was so before, or is one of the two. -/
theorem Adds.eq_of_isActive (h : Adds net dom g g') (hg : g.Shaped net) (d : Direction)
    (hi : g'.isActive i = true) :
    g.isActive i = true ∨ i = edgeTo net d ∨ i = edgeFrom net d :=
  ((h.isActive hg i).mp hi).imp_right (eq_edgeTo_or_edgeFrom d i).mp

/-- The timepoints that were there keep their potentials. -/
theorem Adds.value_of_hasTimepoint (h : Adds net dom g g') (hg : g.Shaped net) (d : Direction)
    (hx : net.hasTimepoint x = true) : g'.value d x = g.value d x := by
  rw [h.value hg, if_neg (Nat.ne_of_lt (Network.hasTimepoint_iff.mp hx))]

theorem Adds.value_nextKey (h : Adds net dom g g') (hg : g.Shaped net) (d : Direction) :
    g'.value d net.domains.nextKey = domainBound dom d := by
  rw [h.value hg, if_pos (Network.eq_nextKey_iff.mp rfl)]

/-- The node and the edges of its domain have their places. -/
theorem Adds.shaped (h : Adds net dom g g') (hg : g.Shaped net) :
    g'.Shaped (net.addBounded dom) := by
  refine ⟨?_, ?_, ?_, ?_⟩
  · intro d
    rw [h.potentials, HandleVector.size_push, hg.sizePotentials]
    simp [Network.addBounded]
  · intro d
    rw [h.out, HandleVector.size_modify, HandleVector.size_push, hg.sizeOut]
    simp [Network.addBounded]
  · rw [h.active, HandleVector.size_push, HandleVector.size_push, hg.sizeActive]
    simp [Network.addBounded, Network.numEdges]
  · intro d x i
    obtain ⟨hinTo, htailTo, -, -⟩ := edge_edgeTo net dom d
    obtain ⟨hinFrom, htailFrom, -, -⟩ := edge_edgeFrom net dom d
    rw [h.mem_out hg, hg.mem_out]
    constructor
    · rintro (⟨hact, hrest⟩ | ⟨hx, rfl⟩ | ⟨rfl, rfl⟩)
      · rw [hg.edge_addBounded hact]
        exact ⟨(h.isActive hg i).mpr (.inl hact), hrest⟩
      · exact ⟨h.isActive_edgeFrom hg d, hinFrom,
          htailFrom.trans (Network.eq_nextKey_iff.mpr hx).symm⟩
      · exact ⟨h.isActive_edgeTo hg d, hinTo, htailTo⟩
    · rintro ⟨hact, hin, htail⟩
      rcases h.eq_of_isActive hg d hact with hact | rfl | rfl
      · rw [hg.edge_addBounded hact] at hin htail
        exact .inl ⟨hact, hin, htail⟩
      · exact .inr (.inr ⟨htail.symm.trans htailTo, rfl⟩)
      · exact .inr (.inl ⟨Network.eq_nextKey_iff.mp (htail.symm.trans htailFrom), rfl⟩)

/-- The edge that leads to the node accounts for its potential. -/
theorem Adds.labelled (h : Adds net dom g g') (hg : g.Labelled net) (hnet : net.WellFormed) :
    g'.Labelled (net.addBounded dom) := by
  have hshaped := hg.toShaped
  have hstart : ∀ d, g'.value d .origin = 0 := fun d =>
    (h.value_of_hasTimepoint hshaped d hnet.origin).trans (hg.origin d)
  refine ⟨h.shaped hshaped, hstart, ?_, ?_⟩
  · intro d x hx
    rcases Network.hasTimepoint_addBounded.mp hx with hx | hx
    · obtain ⟨hin, htail, hhead, hweight⟩ := edge_edgeTo net dom d
      have hlead := Network.Leads.edge (S := g'.inForce) (h.isActive_edgeTo hshaped d) hin
      rw [htail, hhead, hweight, ← h.value_nextKey hshaped,
        ← Network.eq_nextKey_iff.mpr hx] at hlead
      exact hlead
    · rw [h.value_of_hasTimepoint hshaped d hx]
      apply (hg.reached d x hx).transfer
      intro i hi
      exact ⟨(h.isActive hshaped i).mpr (.inl hi), hshaped.edge_addBounded hi dom⟩
  · intro d x i hi
    rw [h.potential hshaped] at hi
    split at hi
    next hx =>
      cases hi
      obtain ⟨hin, htail, hhead, hweight⟩ := edge_edgeTo net dom d
      rw [← Network.eq_nextKey_iff] at hx
      refine ⟨h.isActive_edgeTo hshaped d, hin, hhead.trans hx.symm, ?_⟩
      rw [htail, hstart, hx, h.value_nextKey hshaped, hweight]
      omega
    next hx =>
      obtain ⟨hact, hin, hhead, hle⟩ := hg.predecessor d x i hi
      rw [hshaped.edge_addBounded hact]
      refine ⟨(h.isActive hshaped i).mpr (.inl hact), hin, hhead, ?_⟩
      rw [h.value_of_hasTimepoint hshaped d (hnet.tail (hshaped.hasEdge hact) d),
        h.value hshaped, if_neg hx]
      exact hle

end

/-- The network has one timepoint more, with a domain that is not empty,
and the graph the node with the edges that enforce the domain. -/
theorem Sound.addNode (hg : g.Sound net) (hnet : net.WellFormed) {dom : Domain}
    {tp : Timepoint} (hdom : dom.lower ≤ dom.upper) (h : g.addNode tp dom = .ok g') :
    g'.Sound (net.addBounded dom) := by
  have hshaped := hg.toShaped
  obtain ⟨hadds, -⟩ := adds_of_addNode hshaped h
  have hlabelled := hadds.labelled hg.toLabelled hnet
  refine ⟨hlabelled, ?_, ?_⟩
  · intro d i hact hin
    rcases hadds.eq_of_isActive hshaped d hact with hact | rfl | rfl
    · rw [hshaped.edge_addBounded hact] at hin ⊢
      rw [hadds.value_of_hasTimepoint hshaped d (hnet.tail (hg.hasEdge hact) d),
        hadds.value_of_hasTimepoint hshaped d (hnet.head (hg.hasEdge hact) d)]
      exact hg.respected d i hact hin
    · obtain ⟨-, htail, hhead, hweight⟩ := edge_edgeTo net dom d
      rw [htail, hhead, hweight, hlabelled.origin, hadds.value_nextKey hshaped]
      omega
    · obtain ⟨-, htail, hhead, hsum⟩ := edge_edgeFrom net dom d
      rw [htail, hhead, hlabelled.origin, hadds.value_nextKey hshaped, hsum]
      omega
  · intro x
    rw [hadds.value hshaped, hadds.value hshaped]
    split
    · simp only [domainBound]
      omega
    · exact hg.uncrossed x

/-- The graph of the origin alone. -/
theorem sound_initial : initial.Sound .initial := by
  have hnone : ∀ i, initial.isActive i = false := fun i => rfl
  have hview : ∀ d, initial.view d = ⟨.ofList [⟨0, none⟩], .ofList [#[]]⟩ := by
    intro d
    cases d <;> rfl
  have hpotential : ∀ d x, initial.potential d x = ⟨0, none⟩ := by
    rintro d ⟨n⟩
    unfold potential
    rw [hview]
    cases n <;> rfl
  have hout : ∀ d x, initial.out d x = [] := by
    rintro d ⟨n⟩
    unfold out
    rw [hview]
    cases n <;> rfl
  have hvalue : ∀ d x, initial.value d x = 0 := fun d x => by rw [value, hpotential]
  -- the only node is the origin, at 0, and no edge is in force
  refine ⟨⟨⟨?_, ?_, rfl, ?_⟩, ?_, ?_, ?_⟩, ?_, ?_⟩
  · intro d
    rw [hview]
    rfl
  · intro d
    rw [hview]
    rfl
  · intro d x i
    rw [hout, hnone]
    simp
  · exact fun d => hvalue d _
  · intro d x hx
    have hlt : x.index < 1 := Network.hasTimepoint_iff.mp hx
    have horigin : x = .origin := Handle.index_inj.mp (Nat.lt_one_iff.mp hlt)
    rw [hvalue, horigin]
    exact .refl _
  · intro d x i hi
    rw [hpotential] at hi
    cases hi
  · intro d i hact
    rw [hnone] at hact
    cases hact
  · intro x
    rw [hvalue, hvalue]
    omega

end ActiveGraph

end TemporalNetwork
