/-
An activation comes to an end.

On a graph that is grounded, in a network within the limits, putting an
edge in force never breaks off. Sums stay within 32 bits, the queue runs
empty within its bound, the predecessors of a violated node close a cycle,
and what was done for an edge that is rejected can be undone. The cycle
that is reported is closed and negative, and a graph with one edge more is
grounded again.

# Limits

A node that is lowered is no further down than twice the magnitude of
weights. For if it is below the magnitude itself, the first edge looked at
when its turn comes leads to the origin and closes a cycle; all other
nodes are lowered from one that is not.

# The bound of the queue

Each potential is counted with its distance from the least number of 32
bits. Taking a node from the queue makes the count smaller by one, and a
node that is queued was lowered.
-/
import Mathlib.Algebra.Order.BigOperators.Group.List
import Mathlib.Algebra.Order.Group.Nat
import TemporalNetwork.Proofs.ActiveGraph.Traces

namespace TemporalNetwork

namespace Relaxation

open Network ActiveGraph

variable {net : Network} {d : Direction} {start node x y : Timepoint} {id e : EdgeId}
  {es ids : List EdgeId} {g g' : ActiveGraph} {r₀ r r' : Relaxation} {v : Int} {n : Nat}

-- ========================================================== one view of it

/-- In the view all chains of predecessors end at the origin, the first
edge of each node leads back to it, and potentials are within limits. -/
structure Tied (net : Network) (d : Direction) (g : ActiveGraph) : Prop where
  loose : g.predecessor d .origin = none
  rooted (x : Timepoint) : net.hasTimepoint x = true →
    ∃ es, net.Chain d (g.predecessor d) x es .origin
  toOrigin (x : Timepoint) : net.hasTimepoint x = true → x ≠ .origin →
    ∃ id rest, g.out d x = id :: rest ∧ (net.edge id).head d = .origin
  within (x : Timepoint) : net.hasTimepoint x = true →
    -maxMagnitude ≤ g.value d x ∧ g.value d x ≤ maxMagnitude

/-- Edges may have been put in force besides. -/
theorem Tied.congr (h : Tied net d g) (hpotential : ∀ x, g'.potential d x = g.potential d x)
    (hout : ∀ x, ∃ more, g'.out d x = g.out d x ++ more) : Tied net d g' := by
  have hpredecessor : g'.predecessor d = g.predecessor d := by
    funext x
    unfold predecessor
    rw [hpotential]
  refine ⟨?_, ?_, ?_, ?_⟩
  · rw [hpredecessor]
    exact h.loose
  · rw [hpredecessor]
    exact h.rooted
  · intro x hx hne
    obtain ⟨id, rest, hfirst, hhead⟩ := h.toOrigin x hx hne
    obtain ⟨more, hmore⟩ := hout x
    exact ⟨id, rest ++ more, by rw [hmore, hfirst, List.cons_append], hhead⟩
  · intro x hx
    unfold value
    rw [hpotential]
    exact h.within x hx

/-- What is known of a relaxation besides that it carries its graph. -/
structure Tracks (net : Network) (d : Direction) (start : Timepoint) (r₀ r : Relaxation) :
    Prop where
  traces : Traces net d start r₀.graph r.graph
  queued (x : Timepoint) : x ∈ r.queue → r.graph.value d x < r₀.graph.value d x
  nodes (p : Direction × Timepoint) : p ∈ r.lowered → net.hasTimepoint p.2 = true
  lowered (p : Direction × Timepoint) : p ∈ r.lowered → p ∈ r₀.lowered ∨
    p.1 = d ∧ r.graph.value d p.2 < r₀.graph.value d p.2
  closed (es : List EdgeId) : r.cycle = some es →
    net.isCycle es = true ∧ net.weight es < 0

/-- Before the first turn there is nothing to be kept track of. -/
theorem Tracks.refl (htied : Tied net d r.graph) (hqueue : r.queue = [])
    (hnodes : ∀ p ∈ r.lowered, net.hasTimepoint p.2 = true)
    (hclosed : ∀ es, r.cycle = some es → net.isCycle es = true ∧ net.weight es < 0) :
    Tracks net d start r r := by
  refine ⟨.refl fun x hx => ?_, fun x hx => ?_, hnodes, fun p hp => .inl hp, hclosed⟩
  · have := (htied.within x hx).1
    unfold maxMagnitude at *
    omega
  · rw [hqueue] at hx
    exact absurd hx List.not_mem_nil

/-- A cycle that is closed empties the queue and is kept. -/
theorem Tracks.close (h : Tracks net d start r₀ r) (hcycle : net.isCycle es = true)
    (hweight : net.weight es < 0) : Tracks net d start r₀ (r.close es) := by
  refine ⟨h.traces, fun x hx => absurd hx List.not_mem_nil, h.nodes, h.lowered,
    fun es' hes' => ?_⟩
  cases hes'
  exact ⟨hcycle, hweight⟩

/-- A node that is lowered is queued and noted, and the predecessors still
trace back to the start. -/
theorem Tracks.lower (h : Tracks net d start r₀ r) (hg : r.graph.Shaped net)
    (hnode : net.hasTimepoint node = true) (hlt : v < r.graph.value d node)
    (htraces : Traces net d start r₀.graph (r.graph.lowerPotential d node v e)) :
    Tracks net d start r₀ (r.lower d node v e) := by
  have hbelow : ∀ x, r.graph.value d x < r₀.graph.value d x ∨ x = node →
      (r.lower d node v e).graph.value d x < r₀.graph.value d x := by
    intro x hx
    rcases hx with hx | rfl
    · exact Int.lt_of_le_of_lt (value_lower_le hg hnode hlt e x) hx
    · rw [value_lower hg hnode, if_pos rfl]
      exact Int.lt_of_lt_of_le hlt (h.traces.value_le x)
  refine ⟨htraces, ?_, ?_, ?_, h.closed⟩
  · intro x hx
    exact hbelow x (((mem_queue_lower _ _ _ _ _ _).mp hx).imp_left (h.queued x))
  · intro p hp
    rcases Array.mem_push.mp hp with hp | rfl
    · exact h.nodes p hp
    · exact hnode
  · intro p hp
    rcases Array.mem_push.mp hp with hp | rfl
    · rcases h.lowered p hp with hbefore | ⟨hd, hlt⟩
      · exact .inl hbefore
      · exact .inr ⟨hd, hbelow p.2 (.inl hlt)⟩
    · exact .inr ⟨rfl, hbelow node (.inr rfl)⟩

-- =============================================================== the bound

/-- The nodes of a graph are the timepoints of its network. -/
theorem nodes_eq (hg : g.Shaped net) : g.nodes = net.timepoints := by
  unfold ActiveGraph.nodes Network.timepoints HandleVector.keys
  rw [show g.forward.potentials.size = net.domains.size from hg.sizePotentials .forward]

/-- A node that is queued was lowered, so that the bound does not grow. -/
theorem bound_lower_le (hg : r.graph.Shaped net) (hnode : net.hasTimepoint node = true)
    (hlt : v < r.graph.value d node) (hfits : -2147483648 ≤ v) :
    (r.lower d node v e).bound d ≤ r.bound d := by
  have hsum : ((r.lower d node v e).graph.nodes.map fun x =>
        ((r.lower d node v e).graph.value d x + 2147483648).toNat).sum
      < (r.graph.nodes.map fun x => (r.graph.value d x + 2147483648).toNat).sum := by
    rw [show (r.lower d node v e).graph.nodes = net.timepoints from
      nodes_eq (hg.lowerPotential d node v e), nodes_eq hg]
    apply List.sum_lt_sum
    · intro x _
      have hle := value_lower_le hg hnode hlt e x
      omega
    · refine ⟨node, mem_timepoints.mpr hnode, ?_⟩
      rw [value_lower hg hnode, if_pos rfl]
      omega
  have hqueue : (r.lower d node v e).queue.length ≤ r.queue.length + 1 := by
    simp only [Relaxation.lower]
    split
    next => exact Nat.le_succ _
    next => rw [List.length_append, List.length_singleton]
  show _ + _ + 1 ≤ _ + _ + 1
  unfold List.sum at hsum
  omega

/-- Closing a cycle leaves no more turns to be taken. -/
theorem bound_close_le (r : Relaxation) (d : Direction) (es : List EdgeId) :
    (r.close es).bound d ≤ r.bound d := by
  show _ + 0 + 1 ≤ _ + _ + 1
  exact Nat.succ_le_succ (Nat.add_le_add_left (Nat.zero_le _) _)

-- ================================================================== visits

section
variable (hnet : net.WellFormed) (hlimited : net.Limited) (hstart : (net.edge id).tail d = start)
  (hg₀ : r₀.graph.Labelled net) (htied : Tied net d r₀.graph)
  (hold : ∀ i, i ≠ id → r₀.graph.isActive i = true → (net.edge i).isIn d = true →
    Respected net d r₀.graph i)
  (hid : net.hasEdge id = true)
include hnet hlimited hstart hg₀ htied hold hid

/-- Looking at an edge, with a value that is within limits or else leads
straight to the origin. -/
theorem Tracks.exists_visitEdge (h : Tracks net d start r₀ r) (hcarries : Carries net d r₀ r)
    (hactive : r₀.graph.isActive e = true) (hin : (net.edge e).isIn d = true)
    (htail : Traced net d start r₀.graph r.graph ((net.edge e).tail d) es)
    (hle : r.graph.value d ((net.edge e).tail d) ≤ v)
    (hlow : -2 * maxMagnitude ≤ v) (hhigh : v ≤ maxMagnitude)
    (hdeep : -maxMagnitude ≤ v ∨ (net.edge e).head d = .origin) :
    ∃ r', visitEdge net d start v r e = .ok r' ∧ Tracks net d start r₀ r' ∧
      r'.bound d ≤ r.bound d ∧ (∀ x, r'.graph.value d x ≤ r.graph.value d x) ∧
      (v < -maxMagnitude → r'.cycle.isSome = true) := by
  have hactive' : r.graph.isActive e = true := (hcarries.isActive e).trans hactive
  have hlabelled := hcarries.labelled
  have hnode := hnet.head (hlabelled.hasEdge hactive') d
  obtain ⟨hweightLow, hweightHigh⟩ := hlimited e (hlabelled.hasEdge hactive')
  have hfits : FitsInt32 (v + (net.edge e).weight) := by
    apply fitsInt32_of_limits
    · omega
    · omega
  have hold' : ∀ i, i ≠ id → r.graph.isActive i = true → (net.edge i).isIn d = true →
      Respected net d r₀.graph i :=
    fun i hi hact => hold i hi ((hcarries.isActive i).symm.trans hact)
  have hfirst : visitEdge net d start v r e =
      if v + (net.edge e).weight < r.graph.value d ((net.edge e).head d) then
        if (net.edge e).head d = start ∨ (net.edge e).head d = .origin then do
          let cycle ← extractCycle net r.graph d start ((net.edge e).head d) e
          return r.close cycle
        else return r.lower d ((net.edge e).head d) (v + (net.edge e).weight) e
      else return r := by
    unfold visitEdge
    simp only [int32_of hfits]
    rfl
  rw [hfirst]
  by_cases hlt : v + (net.edge e).weight < r.graph.value d ((net.edge e).head d)
  · rw [if_pos hlt]
    by_cases hhead : (net.edge e).head d = start ∨ (net.edge e).head d = .origin
    · have hstartNode : net.hasTimepoint start = true := hstart ▸ hnet.tail hid d
      obtain ⟨cycle, hcycle, hclosed, hnegative⟩ := exists_extractCycle hlabelled hg₀ hnet
        h.traces htied.loose (htied.rooted start hstartNode) hstartNode hactive' hhead htail
        (by omega)
      rw [if_pos hhead, hcycle]
      exact ⟨r.close cycle, rfl, h.close hclosed hnegative, bound_close_le _ _ _,
        fun x => Int.le_refl _, fun _ => rfl⟩
    · have hmoved : (net.edge e).head d ≠ start := fun heq => hhead (.inl heq)
      have horigin : (net.edge e).head d ≠ .origin := fun heq => hhead (.inr heq)
      have hshallow := hdeep.resolve_right horigin
      have hfloor : -2 * maxMagnitude ≤ v + (net.edge e).weight := by omega
      have htraces := h.traces.lower hlabelled hstart hold' hactive' hin htail hnet hmoved
        horigin hle hlt hfloor
      rw [if_neg hhead]
      refine ⟨_, rfl, h.lower hlabelled.toShaped hnode hlt htraces, ?_,
        value_lower_le hlabelled.toShaped hnode hlt e, fun hlow => by omega⟩
      refine bound_lower_le hlabelled.toShaped hnode hlt ?_
      unfold maxMagnitude at *
      omega
  · rw [if_neg hlt]
    refine ⟨r, rfl, h, Nat.le_refl _, fun x => Int.le_refl _, fun hbelow => ?_⟩
    -- below the limits the edge leads to the origin, whose potential is 0
    have hnot : ¬ -maxMagnitude ≤ v := by omega
    rw [hdeep.resolve_left hnot, hlabelled.origin] at hlt
    omega

/-- Looking at all edges that leave a node which was lowered. -/
theorem Tracks.exists_visitEdges (h : Tracks net d start r₀ r) (hcarries : Carries net d r₀ r)
    (hcycle : r.cycle = none)
    (hids : ∀ e ∈ ids, r₀.graph.isActive e = true ∧ (net.edge e).isIn d = true ∧
      (net.edge e).tail d = node)
    (hlead : net.Leads r₀.graph.inForce d .origin node v)
    (hnode : r.graph.value d node < r₀.graph.value d node) (hle : r.graph.value d node ≤ v)
    (hlow : -2 * maxMagnitude ≤ v) (hhigh : v ≤ maxMagnitude)
    (hdeep : -maxMagnitude ≤ v ∨
      ∃ first rest, ids = first :: rest ∧ (net.edge first).head d = .origin) :
    ∃ r', visitEdges net d start v r ids = .ok r' ∧ Tracks net d start r₀ r' ∧
      r'.bound d ≤ r.bound d := by
  induction ids generalizing r with
  | nil => exact ⟨r, rfl, h, Nat.le_refl _⟩
  | cons e rest ih =>
      obtain ⟨hactive, hin, htail⟩ := hids e List.mem_cons_self
      -- the node was lowered, so that it is traced back to the start
      have htrace : ∃ es, Traced net d start r₀.graph r.graph ((net.edge e).tail d) es := by
        rw [htail]
        rcases h.traces.traced node with heq | ⟨-, htraced⟩
        · have hvalue : r.graph.value d node = r₀.graph.value d node :=
            congrArg Potential.value heq
          omega
        · exact htraced
      obtain ⟨es, hes⟩ := htrace
      have hshallow : -maxMagnitude ≤ v ∨ (net.edge e).head d = .origin := by
        refine hdeep.imp_right ?_
        rintro ⟨first, others, heq, hhead⟩
        cases heq
        exact hhead
      obtain ⟨r₁, hvisit, htracks, hbound, hmono, hfound⟩ := h.exists_visitEdge hnet hlimited
        hstart hg₀ htied hold hid hcarries hactive hin hes (htail ▸ hle) hlow hhigh hshallow
      have hrun : visitEdges net d start v r (e :: rest) =
          if r₁.cycle.isSome then .ok r₁ else visitEdges net d start v r₁ rest := by
        show visitEdge net d start v r e >>= _ = _
        rw [hvisit]
        rfl
      rw [hrun]
      by_cases hsome : r₁.cycle.isSome = true
      · rw [if_pos hsome]
        exact ⟨r₁, rfl, htracks, hbound⟩
      · rw [if_neg hsome]
        have hcarries₁ := hcarries.visitEdge hnet hcycle hactive hin (htail ▸ hlead)
          (htail ▸ hle) hvisit
        have hvalue := hmono node
        -- a node below all domains would have closed a cycle with its first edge
        have hwithin : -maxMagnitude ≤ v := by
          by_contra hnot
          exact hsome (hfound (by omega))
        obtain ⟨r', hrest, htracks', hbound'⟩ := ih htracks hcarries₁
          (Option.not_isSome_iff_eq_none.mp hsome)
          (fun i hi => hids i (List.mem_cons_of_mem e hi)) (by omega) (by omega) (.inl hwithin)
        exact ⟨r', hrest, htracks', Nat.le_trans hbound' hbound⟩

/-- The queue runs empty, or a cycle is found, before the bound is. -/
theorem Tracks.exists_drain (h : Tracks net d start r₀ r) (hcarries : Carries net d r₀ r)
    (hfrontier : r.cycle = none → Frontier net d r []) (hn : r.bound d ≤ n) :
    ∃ r', drain net d start n r = .ok r' ∧ Tracks net d start r₀ r' := by
  induction n generalizing r with
  | zero => exact absurd hn (Nat.not_succ_le_zero _)
  | succ n ih =>
      cases hqueue : r.queue with
      | nil =>
          refine ⟨r, ?_, h⟩
          unfold Relaxation.drain
          rw [hqueue]
      | cons node rest =>
          -- a queue that is not empty has closed no cycle
          have hcycle : r.cycle = none := by
            by_contra hsome
            rw [hcarries.closed hsome] at hqueue
            cases hqueue
          have hmem : node ∈ r.queue := hqueue ▸ List.mem_cons_self
          have hnode := hcarries.queued node hmem
          have hlt := h.queued node hmem
          have hne : node ≠ .origin := by
            rintro rfl
            rw [hcarries.labelled.origin, hg₀.origin] at hlt
            exact Int.lt_irrefl _ hlt
          have hlow := h.traces.floor node hnode
          have hhigh := (htied.within node hnode).2
          have hlead := hcarries.labelled.reached d node hnode
          rw [hcarries.inForce] at hlead
          have hids := hcarries.mem_out node
          obtain ⟨first, others, hout, hhead⟩ := htied.toOrigin node hnode hne
          have hdequeue : Tracks net d start r₀ { r with queue := rest } :=
            ⟨h.traces, fun x hx => h.queued x (hqueue ▸ List.mem_cons_of_mem node hx), h.nodes,
              h.lowered, h.closed⟩
          have hcarries₁ := hcarries.dequeue hqueue
          obtain ⟨r₁, hvisits, htracks, hbound⟩ := hdequeue.exists_visitEdges hnet hlimited hstart
            hg₀ htied hold hid hcarries₁ hcycle hids hlead hlt (Int.le_refl _) hlow (by omega)
            (.inr ⟨first, others, (h.traces.out d node).trans hout, hhead⟩)
          -- the node is taken out and can be queued again at a lower value only
          have hsmaller : ({ r with queue := rest } : Relaxation).bound d + 1 = r.bound d := by
            unfold Relaxation.bound
            rw [hqueue, List.length_cons]
            rfl
          have hfrontier₁ := (hfrontier hcycle).dequeue hcarries.labelled hqueue
          obtain ⟨hcarries', hfrontier'⟩ := hcarries₁.visitEdges hnet hcycle hids hlead
            ⟨Int.le_refl _, .inl rfl⟩ hfrontier₁ hvisits
          obtain ⟨r', hdrain, htracks'⟩ := ih htracks hcarries' hfrontier' (by omega)
          refine ⟨r', ?_, htracks'⟩
          unfold Relaxation.drain
          rw [hqueue]
          simp only [hvisits, Checked.bind_eq_ok, Except.ok.injEq, exists_eq_left']
          exact hdrain

end

/-- Carrying the new edge through a view comes to an end. -/
theorem exists_relax (hnet : net.WellFormed) (hlimited : net.Limited)
    (hlabelled : r.graph.Labelled net) (htied : Tied net d r.graph) (hqueue : r.queue = [])
    (hnodes : ∀ p ∈ r.lowered, net.hasTimepoint p.2 = true)
    (hclosed : ∀ es, r.cycle = some es → net.isCycle es = true ∧ net.weight es < 0)
    (hrefuted : ∀ es, r.cycle = some es → Refutes net r.graph es)
    (hactive : r.graph.isActive id = true)
    (hloop : ¬ ((net.edge id).isLoop = true ∧ (net.edge id).weight < 0))
    (hothers : ∀ i, i ≠ id → r.graph.isActive i = true → (net.edge i).isIn d = true →
      Respected net d r.graph i) :
    ∃ r', relax net id d r = .ok r' ∧ Tracks net d ((net.edge id).tail d) r r' := by
  have hid := hlabelled.hasEdge hactive
  have hstart := hnet.tail hid d
  have hrefl : Tracks net d ((net.edge id).tail d) r r :=
    .refl htied hqueue hnodes hclosed
  by_cases hskip : (r.cycle.isSome || !(net.edge id).isIn d) = true
  · -- nothing is done once there is a cycle, or for an edge of the other view
    refine ⟨r, ?_, hrefl⟩
    unfold relax
    simp only [hskip, if_true]
  · obtain ⟨hnone, hin⟩ := not_or.mp fun hor => hskip ((Bool.or_eq_true _ _).mpr hor)
    have hcycle : r.cycle = none := Option.not_isSome_iff_eq_none.mp hnone
    rw [Bool.not_eq_true', Bool.not_eq_false] at hin
    obtain ⟨hlow, hhigh⟩ := htied.within _ hstart
    have hweight := hlimited id hid
    have hfits : FitsInt32
        (r.graph.value d ((net.edge id).tail d) + (net.edge id).weight) := by
      apply fitsInt32_of_limits
      · omega
      · omega
    have hrun : relax net id d r =
        if r.graph.value d ((net.edge id).head d)
            ≤ r.graph.value d ((net.edge id).tail d) + (net.edge id).weight then .ok r
        else if (net.edge id).head d = .origin then do
          let cycle ← extractCycle net r.graph d ((net.edge id).tail d) .origin id
          return r.close cycle
        else
          let r := r.lower d ((net.edge id).head d)
            (r.graph.value d ((net.edge id).tail d) + (net.edge id).weight) id
          drain net d ((net.edge id).tail d) (r.bound d) r := by
      unfold relax
      simp only [hskip, int32_of hfits, if_false, Bool.false_eq_true]
      rfl
    rw [hrun]
    by_cases hle : r.graph.value d ((net.edge id).head d)
        ≤ r.graph.value d ((net.edge id).tail d) + (net.edge id).weight
    · -- the edge is respected as it is
      rw [if_pos hle]
      exact ⟨r, rfl, hrefl⟩
    · rw [if_neg hle]
      have hlt := Int.not_le.mp hle
      by_cases horigin : (net.edge id).head d = .origin
      · -- the origin would be lowered: the tree path to the start closes a cycle
        obtain ⟨cycle, hextract, hisCycle, hnegative⟩ := exists_extractCycle (e := id) hlabelled
          hlabelled hnet hrefl.traces htied.loose (htied.rooted _ hstart) hstart hactive
          (.inr horigin) traced_start hlt
        rw [horigin] at hextract
        rw [if_pos horigin, hextract]
        exact ⟨r.close cycle, rfl, hrefl.close hisCycle hnegative⟩
      · -- the head is lowered, and as the edge is no negative loop it is not the start
        have hmoved : (net.edge id).head d ≠ (net.edge id).tail d := by
          intro heq
          refine hloop ⟨?_, ?_⟩
          · unfold Edge.isLoop
            rw [beq_iff_eq]
            cases d
            · exact heq.symm
            · exact heq
          · rw [heq] at hlt
            omega
        have hnode := hnet.head hid d
        have htraces := hrefl.traces.lower hlabelled rfl hothers hactive hin traced_start hnet
          hmoved horigin (Int.le_refl _) hlt (by omega)
        obtain ⟨hcarries, hfrontier⟩ := (Carries.refl (d := d) hlabelled hrefuted hqueue).begin
          hnet hcycle hactive hin hothers horigin hlt
        rw [if_neg horigin]
        exact (hrefl.lower hlabelled.toShaped hnode hlt htraces).exists_drain hnet hlimited rfl
          hlabelled htied hothers hid hcarries (fun _ => hfrontier) (Nat.le_refl _)

-- ============================================================ empty domains

/-- The search for crossed bounds forms sums that fit, and finds a node that
was lowered. -/
theorem exists_firstEmpty {ps : List (Direction × Timepoint)}
    (h : ∀ d, ∀ p ∈ ps, -2 * maxMagnitude ≤ g.value d p.2 ∧ g.value d p.2 ≤ maxMagnitude) :
    ∃ found, firstEmpty g ps = .ok found ∧ ∀ x ∈ found, ∃ p ∈ ps, p.2 = x := by
  induction ps with
  | nil => exact ⟨none, rfl, fun x hx => absurd hx (Option.not_mem_none x)⟩
  | cons p rest ih =>
      obtain ⟨found, hfound, hmem⟩ := ih fun d p hp => h d p (List.mem_cons_of_mem _ hp)
      have hforward := h .forward p List.mem_cons_self
      have hbackward := h .backward p List.mem_cons_self
      have hfits : FitsInt32 (g.value .forward p.2 + g.value .backward p.2) := by
        apply fitsInt32_of_limits
        · omega
        · omega
      have hrun : firstEmpty g (p :: rest) =
          if g.value .forward p.2 + g.value .backward p.2 < 0 then .ok (some p.2)
          else firstEmpty g rest := by
        rw [firstEmpty, int32_of hfits]
        rfl
      rw [hrun]
      split
      next =>
        refine ⟨some p.2, rfl, fun x hx => ?_⟩
        cases hx
        exact ⟨p, List.mem_cons_self, rfl⟩
      next =>
        refine ⟨found, hfound, fun x hx => ?_⟩
        obtain ⟨q, hq, hqx⟩ := hmem x hx
        exact ⟨q, List.mem_cons_of_mem _ hq, hqx⟩

/-- Where both views are at a fixed point, the two chains of a node without
values can be given, and close a negative cycle. -/
theorem exists_checkDomains (hnet : net.WellFormed) (hg : r.graph.Labelled net)
    (hclosed : ∀ es, r.cycle = some es → net.isCycle es = true ∧ net.weight es < 0)
    (hnodes : ∀ p ∈ r.lowered, net.hasTimepoint p.2 = true)
    (hloose : ∀ d, r.graph.predecessor d .origin = none)
    (hrooted : r.cycle = none → ∀ d x, net.hasTimepoint x = true →
      ∃ es, net.Chain d (r.graph.predecessor d) x es .origin)
    (hwithin : ∀ d x, net.hasTimepoint x = true →
      -2 * maxMagnitude ≤ r.graph.value d x ∧ r.graph.value d x ≤ maxMagnitude) :
    ∃ r', checkDomains net r = .ok r' ∧ r'.graph = r.graph ∧
      ∀ es, r'.cycle = some es → net.isCycle es = true ∧ net.weight es < 0 := by
  unfold checkDomains
  split
  next => exact ⟨r, rfl, rfl, hclosed⟩
  next hnone =>
    have hcycle : r.cycle = none := Option.not_isSome_iff_eq_none.mp hnone
    have hlisted : ∀ d, ∀ p ∈ r.lowered.toList, -2 * maxMagnitude ≤ r.graph.value d p.2 ∧
        r.graph.value d p.2 ≤ maxMagnitude :=
      fun d p hp => hwithin d p.2 (hnodes p (Array.mem_toList_iff.mp hp))
    obtain ⟨found, hfound, hmem⟩ := exists_firstEmpty hlisted
    rw [hfound]
    cases found with
    | none => exact ⟨r, rfl, rfl, hclosed⟩
    | some node =>
        obtain ⟨p, hp, rfl⟩ := hmem node rfl
        have hnode := hnodes p (Array.mem_toList_iff.mp hp)
        have hcross := firstEmpty_eq_some hfound
        -- the node has crossed bounds: its two chains lead to the origin and back
        obtain ⟨there, hthereChain⟩ := hrooted hcycle .forward p.2 hnode
        obtain ⟨back, hbackChain⟩ := hrooted hcycle .backward p.2 hnode
        have hthere := hg.predecessorChain_eq hnet (hloose _) hthereChain
        have hback := hg.predecessorChain_eq hnet (hloose _) hbackChain
        have hthereWeight := hg.weight_le hthereChain
        have hbackWeight := hg.weight_le hbackChain
        rw [hg.origin] at hthereWeight hbackWeight
        refine ⟨r.close (there.reverse ++ back), ?_, rfl, ?_⟩
        · show (do
            let there ← r.graph.predecessorChain net .forward p.2
            let back ← r.graph.predecessorChain net .backward p.2
            return r.close (there.reverse ++ back)) = _
          rw [hthere, hback]
          rfl
        · intro es hes
          cases hes
          have hweight : net.weight (there.reverse ++ back) < 0 := by
            rw [weight_append, weight_reverse]
            omega
          refine ⟨(hthereChain.path_forward.append hbackChain.path_backward).isCycle ?_, hweight⟩
          intro hnil
          rw [hnil] at hweight
          exact Int.lt_irrefl _ hweight

end Relaxation

-- =============================================================== activation

namespace ActiveGraph

open Relaxation (Tied Tracks)

variable {net : Network} {g g' : ActiveGraph} {d : Direction} {id : EdgeId} {x : Timepoint}
  {r₁ r₂ : Relaxation}

/-- Between two activations each view is tied to the origin. -/
theorem Grounded.tied (h : g.Grounded net) (hlimited : net.Limited) (d : Direction) :
    Tied net d g where
  loose := h.loose d
  rooted := h.rooted d
  toOrigin x hx hne := by
    obtain ⟨id, rest, hout, -, hhead⟩ := h.toOrigin d x hx hne
    exact ⟨id, rest, hout, hhead⟩
  within x hx := h.value_mem hlimited d hx

/-- No edge is lost at any node. -/
theorem exists_out_insertEdge (g : ActiveGraph) (net : Network) (id : EdgeId) (d : Direction)
    (x : Timepoint) : ∃ more, (g.insertEdge net id).out d x = g.out d x ++ more := by
  rw [out_insertEdge]
  split
  next => exact ⟨[id], rfl⟩
  next => exact ⟨[], (List.append_nil _).symm⟩

theorem Grounded.tied_insertEdge (h : g.Grounded net) (hlimited : net.Limited) (id : EdgeId)
    (d : Direction) : Tied net d (g.insertEdge net id) :=
  (h.tied hlimited d).congr (potential_insertEdge g d) (exists_out_insertEdge g net id d)

/-- The new edge was carried through both views. -/
structure Relaxed (net : Network) (g : ActiveGraph) (id : EdgeId) (r₁ r₂ : Relaxation) :
    Prop where
  forward : Relaxation.relax net id .forward ⟨g.insertEdge net id, [], #[], none⟩ = .ok r₁
  backward : Relaxation.relax net id .backward r₁ = .ok r₂
  tracksForward : Tracks net .forward ((net.edge id).tail .forward)
    ⟨g.insertEdge net id, [], #[], none⟩ r₁
  tracksBackward : Tracks net .backward ((net.edge id).tail .backward) r₁ r₂

theorem Relaxed.exists_out (h : Relaxed net g id r₁ r₂) (d : Direction) (x : Timepoint) :
    ∃ more, r₂.graph.out d x = g.out d x ++ more := by
  rw [h.tracksBackward.traces.out, h.tracksForward.traces.out]
  exact exists_out_insertEdge g net id d x

/-- The origin has no predecessor in either view. -/
theorem Relaxed.loose (h : Relaxed net g id r₁ r₂) (hg : g.Grounded net) (d : Direction) :
    r₂.graph.predecessor d .origin = none := by
  have hbefore : (r₂.graph.potential d .origin) = g.potential d .origin := by
    have hinserted : (g.insertEdge net id).potential d .origin = g.potential d .origin :=
      potential_insertEdge g d .origin
    rw [← hinserted]
    cases d with
    | forward =>
        rw [h.tracksBackward.traces.other .forward _ (by decide)]
        exact h.tracksForward.traces.unmoved _ (.inr rfl)
    | backward =>
        rw [h.tracksBackward.traces.unmoved _ (.inr rfl)]
        exact h.tracksForward.traces.other .backward _ (by decide)
  unfold predecessor
  rw [hbefore]
  exact hg.loose d

/-- Potentials are not far below the limits in either view. -/
theorem Relaxed.within (h : Relaxed net g id r₁ r₂) (hg : g.Grounded net)
    (hlimited : net.Limited) (d : Direction) (x : Timepoint) (hx : net.hasTimepoint x = true) :
    -2 * maxMagnitude ≤ r₂.graph.value d x ∧ r₂.graph.value d x ≤ maxMagnitude := by
  have hvalue := (hg.value_mem hlimited d hx).2
  have hinserted : (g.insertEdge net id).value d x = g.value d x := value_insertEdge g d x
  rw [← hinserted] at hvalue
  cases d with
  | forward =>
      have hsame : r₂.graph.value .forward x = r₁.graph.value .forward x :=
        congrArg Potential.value (h.tracksBackward.traces.other .forward x (by decide))
      rw [hsame]
      exact ⟨h.tracksForward.traces.floor x hx,
        Int.le_trans (h.tracksForward.traces.value_le x) hvalue⟩
  | backward =>
      have hsame : r₁.graph.value .backward x = (g.insertEdge net id).value .backward x :=
        congrArg Potential.value (h.tracksForward.traces.other .backward x (by decide))
      have hle := h.tracksBackward.traces.value_le x
      rw [hsame] at hle
      exact ⟨h.tracksBackward.traces.floor x hx, Int.le_trans hle hvalue⟩

/-- Nodes that are listed as lowered are lower than they were. -/
theorem Relaxed.lt_of_mem_lowered (h : Relaxed net g id r₁ r₂) {p : Direction × Timepoint}
    (hp : p ∈ r₂.lowered) : r₂.graph.value p.1 p.2 < g.value p.1 p.2 := by
  have hinserted : (g.insertEdge net id).value p.1 p.2 = g.value p.1 p.2 :=
    value_insertEdge g p.1 p.2
  rw [← hinserted]
  rcases h.tracksBackward.lowered p hp with hp | ⟨hd, hlt⟩
  · obtain ⟨hd, hlt⟩ := (h.tracksForward.lowered p hp).resolve_left (Array.not_mem_empty p)
    have hsame := h.tracksBackward.traces.other .forward p.2 (by decide)
    rw [hd]
    unfold value at hlt ⊢
    rwa [hsame]
  · have hsame := h.tracksForward.traces.other .backward p.2 (by decide)
    rw [hd]
    unfold value at hlt ⊢
    rwa [hsame] at hlt

section
variable (hg : g.Grounded net) (hnet : net.WellFormed) (hlimited : net.Limited)
  (hid : net.hasEdge id = true) (hnew : g.isActive id = false)
  (hloop : ¬ ((net.edge id).isLoop = true ∧ (net.edge id).weight < 0))
include hg hnet hlimited hid hnew hloop

/-- Both views are relaxed, the second as the first has left it. -/
theorem exists_relaxed : ∃ r₁ r₂, Relaxed net g id r₁ r₂ := by
  have hself := isActive_insertEdge_self hg.toSound hid
  obtain ⟨r₁, hrelax₁, htracks₁⟩ := Relaxation.exists_relax (d := .forward)
    (r := ⟨g.insertEdge net id, [], #[], none⟩) hnet hlimited
    (hg.toLabelled.insertEdge hnet hid hnew) (hg.tied_insertEdge hlimited id .forward) rfl
    (fun p hp => absurd hp (Array.not_mem_empty p)) (fun es hes => by cases hes)
    (fun es hes => by cases hes) hself hloop (hg.respected_insertEdge hid .forward)
  obtain ⟨hcarries, hqueue, -⟩ := carries_forward hg.toSound hnet hid hnew hloop hrelax₁
  have htied : Tied net .backward r₁.graph := by
    apply (hg.tied_insertEdge hlimited id .backward).congr
    · exact fun x => htracks₁.traces.other .backward x (by decide)
    · exact fun x => ⟨[], (htracks₁.traces.out .backward x).trans (List.append_nil _).symm⟩
  obtain ⟨r₂, hrelax₂, htracks₂⟩ := Relaxation.exists_relax (d := .backward) hnet hlimited
    hcarries.labelled htied hqueue htracks₁.nodes htracks₁.closed hcarries.refuted
    ((hcarries.isActive id).trans hself) hloop (respected_of_carries hg.toSound hid hcarries)
  exact ⟨r₁, r₂, hrelax₁, hrelax₂, htracks₁, htracks₂⟩

/-- Without a cycle both views are at a fixed point, and their chains of
predecessors end at the origin. -/
theorem Relaxed.rooted (h : Relaxed net g id r₁ r₂) (hcycle : r₂.cycle = none) (d : Direction)
    (x : Timepoint) (hx : net.hasTimepoint x = true) :
    ∃ es, net.Chain d (r₂.graph.predecessor d) x es .origin := by
  obtain ⟨hcarries₁, hcarries₂, hforward, hbackward⟩ :=
    carries_activate hg.toSound hnet hid hnew hloop h.forward h.backward
  cases d with
  | forward =>
      have hcycle₁ : r₁.cycle = none := by
        by_contra hsome
        have hsame := h.backward
        rw [Relaxation.relax_of_cycle hsome] at hsame
        cases hsame
        exact hsome hcycle
      obtain ⟨es, hes⟩ := h.tracksForward.traces.rooted (hg.toLabelled.insertEdge hnet hid hnew)
        (fun i hi => (hcarries₁.isActive i).trans hi) (hforward hcycle₁)
        (hg.tied_insertEdge hlimited id .forward).rooted (hnet.tail hid .forward) hx
      refine ⟨es, hes.congr fun e _ => ?_⟩
      unfold predecessor
      rw [h.tracksBackward.traces.other .forward _ (by decide)]
  | backward =>
      refine h.tracksBackward.traces.rooted hcarries₁.labelled
        (fun i hi => (hcarries₂.isActive i).trans hi) (hbackward hcycle) (fun x hx => ?_)
        (hnet.tail hid .backward) hx
      obtain ⟨es, hes⟩ := (hg.tied_insertEdge hlimited id .backward).rooted x hx
      refine ⟨es, hes.congr fun e _ => ?_⟩
      unfold predecessor
      rw [h.tracksForward.traces.other .backward _ (by decide)]

end

/-- A graph with one edge more is grounded again, if its chains of
predecessors end at the origin. -/
theorem Accepts.grounded {lowered : List (Direction × Timepoint)}
    (h : Accepts net g id g' lowered) (hg : g.Grounded net)
    (hloose : ∀ d, g'.predecessor d .origin = none)
    (hrooted : ∀ d x, net.hasTimepoint x = true →
      ∃ es, net.Chain d (g'.predecessor d) x es .origin)
    (hout : ∀ d x, ∃ more, g'.out d x = g.out d x ++ more) : g'.Grounded net where
  toSound := h.sound
  loose := hloose
  rooted := hrooted
  toOrigin d x hx hne := by
    obtain ⟨i, rest, hfirst, hrest⟩ := hg.toOrigin d x hx hne
    obtain ⟨more, hmore⟩ := hout d x
    exact ⟨i, rest ++ more, by rw [hmore, hfirst, List.cons_append], hrest⟩
  fromOrigin d x hx hne := by
    obtain ⟨i, hi, hrest⟩ := hg.fromOrigin d x hx hne
    exact ⟨i, (h.active i).mpr (.inl hi), hrest⟩
  logged i hi := (h.active i).mpr ((h.activated hi).symm.imp_left fun hold => hg.logged hold)
  marks := by
    obtain ⟨cs, hlog, -⟩ := h.extended
    rw [hlog]
    intro m hm
    have hle := hg.marks m hm
    simp only [UndoLog.size, List.length_append] at hle ⊢
    omega

/-- A loop is a cycle of one edge. -/
theorem isCycle_of_isLoop (hloop : (net.edge id).isLoop = true) : net.isCycle [id] = true := by
  have hclosed : (net.edge id).source = (net.edge id).target := eq_of_beq hloop
  simp only [Network.isCycle, Network.isPath, List.head?_cons, List.getLast?_singleton,
    hclosed, beq_self_eq_true, Bool.and_true]

/-- An activation on a grounded graph has an outcome; the graph is grounded
afterwards, nodes that are listed were lowered, and a cycle that is
reported is closed and negative. -/
theorem Grounded.exists_activate (h : g.Grounded net) (hnet : net.WellFormed)
    (hlimited : net.Limited) (hid : net.hasEdge id = true) :
    ∃ a, g.activate net id = .ok a ∧ a.graph.Grounded net ∧
      (∀ lowered, a.verdict = .ok lowered →
        ∀ p ∈ lowered, a.graph.value p.1 p.2 < g.value p.1 p.2) ∧
      ∀ es, a.verdict = .error es → net.isCycle es = true ∧ net.weight es < 0 := by
  -- an edge in force, or a negative loop, is answered without a relaxation
  by_cases hactive : g.isActive id = true
  · refine ⟨⟨g, 0, .ok []⟩, ?_, h, fun lowered hlowered p hp => ?_, fun es hes => by cases hes⟩
    · unfold activate
      rw [if_pos hactive]
    · cases hlowered
      exact absurd hp List.not_mem_nil
  by_cases hloop : (net.edge id).isLoop = true ∧ (net.edge id).weight < 0
  · refine ⟨⟨g, 0, .error [id]⟩, ?_, h, (fun lowered hlowered => by cases hlowered),
      fun es hes => ?_⟩
    · unfold activate
      rw [if_neg hactive, if_pos hloop]
    · cases hes
      refine ⟨isCycle_of_isLoop hloop.1, ?_⟩
      rw [Network.weight_cons]
      exact (Int.add_zero _).symm ▸ hloop.2
  have hnew : g.isActive id = false := Bool.not_eq_true _ ▸ hactive
  obtain ⟨r₁, r₂, hrelaxed⟩ := exists_relaxed h hnet hlimited hid hnew hloop
  obtain ⟨hcarries₁, hcarries₂, -, -⟩ :=
    carries_activate h.toSound hnet hid hnew hloop hrelaxed.forward hrelaxed.backward
  obtain ⟨r₃, hcheck, hgraph, hclosed⟩ := Relaxation.exists_checkDomains hnet hcarries₂.labelled
    hrelaxed.tracksBackward.closed hrelaxed.tracksBackward.nodes (hrelaxed.loose h)
    (hrelaxed.rooted h hnet hlimited hid hnew hloop) (hrelaxed.within h hlimited)
  cases hcycle : r₃.cycle with
  | some es =>
      -- both relaxations logged all they did, and are undone
      have hundo : r₃.graph.undoTo net g.log.size = .ok g := by
        have hextends := extends_of_carries h.toSound hnet hid hnew hcarries₁ hcarries₂
        rw [hgraph]
        exact hextends.undoTo_eq_ok.mpr ⟨h.marks, rfl⟩
      refine ⟨⟨g, r₃.lowered.size, .error es⟩, ?_, h, (fun lowered hlowered => by cases hlowered),
        fun es' hes' => ?_⟩
      · unfold activate
        rw [if_neg hactive, if_neg hloop]
        simp only [Checked.bind_eq_ok]
        refine ⟨r₁, hrelaxed.forward, r₂, hrelaxed.backward, r₃, hcheck, ?_⟩
        simp only [hcycle, hundo, Checked.bind_eq_ok, Except.ok.injEq, exists_eq_left']
        rfl
      · cases hes'
        exact hclosed es hcycle
  | none =>
      have hactivate : g.activate net id =
          .ok ⟨r₃.graph, r₃.lowered.size, .ok r₃.lowered.toList⟩ := by
        unfold activate
        rw [if_neg hactive, if_neg hloop]
        simp only [Checked.bind_eq_ok]
        refine ⟨r₁, hrelaxed.forward, r₂, hrelaxed.backward, r₃, hcheck, ?_⟩
        rw [hcycle]
        rfl
      -- no bounds cross, so that the check changed nothing
      obtain rfl : r₃ = r₂ := by
        rcases Relaxation.checkDomains_eq_ok hcarries₂.labelled hcheck with ⟨rfl, -⟩ | ⟨es, rfl, -⟩
        · rfl
        · cases hcycle
      have haccepts : ∃ lowered, Accepts net g id r₃.graph lowered := by
        rcases h.toSound.activate hnet hid hactivate with ⟨lowered, -, haccepts⟩ | ⟨es, hes, -⟩
        · exact ⟨lowered, haccepts⟩
        · cases hes
      obtain ⟨lowered, haccepts⟩ := haccepts
      refine ⟨_, hactivate, haccepts.grounded h (hrelaxed.loose h) ?_ hrelaxed.exists_out,
        fun listed hlisted p hp => ?_, fun es hes => by cases hes⟩
      · exact hrelaxed.rooted h hnet hlimited hid hnew hloop hcycle
      · cases hlisted
        exact hrelaxed.lt_of_mem_lowered (Array.mem_toList_iff.mp hp)

end ActiveGraph

end TemporalNetwork
