/-
Where lowered potentials come from.

While a new edge is carried through a view, every node that was lowered
has a chain of predecessors through lowered nodes back to the start, the
node where the new edge begins. The start itself is not lowered, and
neither is the origin: the relaxation ends where one of them would be.
`Traces` is this invariant. Predecessors change all the time, and the full
map of predecessors may well have loops in it; what has none is the map
that is cut at the start.

# Why no loop arises

Suppose a node is lowered through an edge whose tail has the node on its
chain. The edges from the node to the tail, and the edge back, then lower
the node along a closed walk, which is negative. But none of them is the
new edge, because the chain is cut where that begins, and the edges that
were in force before close no negative cycle.

# What the cycle is

When the start or the origin would be lowered, following predecessors from
the start comes back to it. The start is reached along its old chain from
the origin; if that chain has been left alone, the edge to the origin
closes the cycle, and otherwise the first lowered node on it does.
-/
import TemporalNetwork.Proofs.ActiveGraph.Grounded

namespace TemporalNetwork

namespace Relaxation

open Network ActiveGraph

variable {net : Network} {d : Direction} {start x y : Timepoint} {id e via : EdgeId}
  {es fs : List EdgeId} {g₀ g : ActiveGraph} {v : Int} {n : Nat}

-- =========================================================== the invariant

/-- The predecessors, but none for the start. -/
def cut (g : ActiveGraph) (d : Direction) (start x : Timepoint) : Option EdgeId :=
  if x = start then none else g.predecessor d x

theorem cut_start : cut g d start start = none := if_pos rfl

theorem cut_of_ne (h : x ≠ start) : cut g d start x = g.predecessor d x := if_neg h

/-- The chain leads from the node to the start, through nodes that were
lowered. -/
structure Traced (net : Network) (d : Direction) (start : Timepoint) (g₀ g : ActiveGraph)
    (x : Timepoint) (es : List EdgeId) : Prop where
  chain : net.Chain d (cut g d start) x es start
  lowered (e : EdgeId) : e ∈ es →
    g.value d ((net.edge e).head d) < g₀.value d ((net.edge e).head d)

/-- Nodes that were lowered trace back to the start, and all else is as it
was. -/
structure Traces (net : Network) (d : Direction) (start : Timepoint) (g₀ g : ActiveGraph) :
    Prop where
  unmoved (x : Timepoint) : x = start ∨ x = .origin → g.potential d x = g₀.potential d x
  traced (x : Timepoint) : g.potential d x = g₀.potential d x ∨
    g.value d x < g₀.value d x ∧ ∃ es, Traced net d start g₀ g x es
  floor (x : Timepoint) : net.hasTimepoint x = true → -2 * maxMagnitude ≤ g.value d x
  other (d' : Direction) (x : Timepoint) : d' ≠ d → g.potential d' x = g₀.potential d' x
  out (d' : Direction) (x : Timepoint) : g.out d' x = g₀.out d' x

/-- Before anything was lowered there is nothing to be traced. -/
theorem Traces.refl (hfloor : ∀ x, net.hasTimepoint x = true →
    -2 * maxMagnitude ≤ g.value d x) : Traces net d start g g :=
  ⟨fun _ _ => rfl, fun _ => .inl rfl, hfloor, fun _ _ _ => rfl, fun _ _ => rfl⟩

/-- Values only fall. -/
theorem Traces.value_le (h : Traces net d start g₀ g) (x : Timepoint) :
    g.value d x ≤ g₀.value d x := by
  rcases h.traced x with heq | ⟨hlt, -⟩
  · exact Int.le_of_eq (congrArg Potential.value heq)
  · exact Int.le_of_lt hlt

theorem Traces.value_unmoved (h : Traces net d start g₀ g) (hx : x = start ∨ x = .origin) :
    g.value d x = g₀.value d x := congrArg Potential.value (h.unmoved x hx)

/-- The start is neither lowered nor passed on the way back to it. -/
theorem traced_start : Traced net d start g₀ g start [] :=
  ⟨.nil _, fun _ he => absurd he List.not_mem_nil⟩

/-- Up to the start nothing is cut. -/
theorem Traced.predecessors (h : Traced net d start g₀ g x es) :
    net.Chain d (g.predecessor d) x es start := by
  refine h.chain.congr fun e he => ?_
  have hnext := h.chain.next_head he
  unfold cut at hnext ⊢
  split at hnext
  next => cases hnext
  next hne => rw [if_neg hne]

/-- What leads from the start to a node weighs no more than their values
differ. -/
theorem Traced.weight_le (h : Traced net d start g₀ g x es) (hg : g.Labelled net) :
    g.value d start + net.weight es ≤ g.value d x := hg.weight_le h.predecessors

/-- What matters of the potentials are those of the nodes that are left. -/
theorem Traced.congr {g' : ActiveGraph} (h : Traced net d start g₀ g x es)
    (hsame : ∀ e ∈ es,
      g'.potential d ((net.edge e).head d) = g.potential d ((net.edge e).head d)) :
    Traced net d start g₀ g' x es := by
  refine ⟨h.chain.congr fun e he => ?_, fun e he => ?_⟩
  · unfold cut predecessor
    rw [hsame e he]
  · unfold value
    rw [hsame e he]
    exact h.lowered e he

/-- A chain that passes a node may go on from it along another one. -/
theorem Traced.exists_through {g' : ActiveGraph} (h : Traced net d start g₀ g x es)
    (he : e ∈ es) (hhead : (net.edge e).head d = y)
    (hsame : ∀ z, z ≠ y → g'.potential d z = g.potential d z)
    (hrest : Traced net d start g₀ g' y fs) : ∃ gs, Traced net d start g₀ g' x gs := by
  subst hhead
  obtain ⟨as, hsubset, hchain, hne⟩ := h.chain.exists_upTo cut_start he
  have hchain' : net.Chain d (cut g' d start) x as ((net.edge e).head d) := by
    refine hchain.congr fun i hi => ?_
    unfold cut predecessor
    rw [hsame _ (hne i hi)]
  refine ⟨as ++ fs, hchain'.append hrest.chain, fun i hi => ?_⟩
  rcases List.mem_append.mp hi with hi | hi
  · unfold value
    rw [hsame _ (hne i hi)]
    exact h.lowered i (hsubset hi)
  · exact hrest.lowered i hi

/-- An edge that begins at the start is the last of a chain. -/
theorem Traced.eq_nil_of_tail (h : Traced net d start g₀ g x (es ++ e :: fs))
    (htail : (net.edge e).tail d = start) : fs = [] := by
  obtain ⟨z, -, hlast⟩ := h.chain.split
  cases hlast with
  | cons step head rest =>
      rw [htail] at rest
      exact rest.eq_nil cut_start

-- ================================================================ lowering

section
variable (hg : g.Labelled net) (htraces : Traces net d start g₀ g)
  (hstart : (net.edge id).tail d = start)
  (hold : ∀ i, i ≠ id → g.isActive i = true → (net.edge i).isIn d = true →
    g₀.value d ((net.edge i).head d) ≤ g₀.value d ((net.edge i).tail d) + (net.edge i).weight)
  (hactive : g.isActive e = true) (hin : (net.edge e).isIn d = true)
  (htail : Traced net d start g₀ g ((net.edge e).tail d) es)
include hg hstart hold hactive hin htail

/-- A node is not on the chain of the edge through which it is lowered. -/
theorem head_ne_of_traced
    (hlt : g.value d ((net.edge e).tail d) + (net.edge e).weight
      < g.value d ((net.edge e).head d)) :
    ∀ i ∈ es, (net.edge i).head d ≠ (net.edge e).head d := by
  intro i hi heq
  obtain ⟨fs, gs, rfl⟩ := List.append_of_mem hi
  obtain ⟨z, hfirst, hlast⟩ := htail.chain.split
  obtain rfl : (net.edge e).head d = z := heq.symm.trans hlast.head_eq
  -- the new edge begins at the start, where a chain ends
  have hne : e ≠ id := by
    rintro rfl
    have hnil := htail.chain
    rw [hstart] at hnil
    exact absurd (hnil.eq_nil cut_start) (by simp)
  have hother : ∀ j ∈ fs, j ≠ id := by
    rintro j hj rfl
    obtain ⟨as, bs, rfl⟩ := List.append_of_mem hj
    have hwhole := htail
    rw [List.append_assoc, List.cons_append] at hwhole
    exact absurd (hwhole.eq_nil_of_tail hstart) (by simp)
  have hedges : ∀ j ∈ fs, g₀.value d ((net.edge j).head d)
      ≤ g₀.value d ((net.edge j).tail d) + (net.edge j).weight := by
    intro j hj
    have hpred := htail.predecessors.next_head (List.mem_append_left _ hj)
    obtain ⟨hact, hisIn, -⟩ := hg.predecessor d _ j hpred
    exact hold j (hother j hj) hact hisIn
  have hup := hfirst.le_weight hedges
  have hback := hold e hne hactive hin
  have hpred : net.Chain d (g.predecessor d) ((net.edge e).tail d) fs ((net.edge e).head d) := by
    obtain ⟨z', hfirst', hlast'⟩ := htail.predecessors.split
    obtain rfl : (net.edge e).head d = z' := heq.symm.trans hlast'.head_eq
    exact hfirst'
  have hdown := hg.weight_le hpred
  omega

include htraces in
/-- Lowering a node keeps the traces of all others. -/
theorem Traces.lower (hnet : net.WellFormed)
    (hmoved : (net.edge e).head d ≠ start) (hne : (net.edge e).head d ≠ .origin)
    (hle : g.value d ((net.edge e).tail d) ≤ v)
    (hlt : v + (net.edge e).weight < g.value d ((net.edge e).head d))
    (hfloor : -2 * maxMagnitude ≤ v + (net.edge e).weight) :
    Traces net d start g₀
      (g.lowerPotential d ((net.edge e).head d) (v + (net.edge e).weight) e) := by
  have hnode := hnet.head (hg.hasEdge hactive) d
  have hfar : ∀ i ∈ es, (net.edge i).head d ≠ (net.edge e).head d :=
    head_ne_of_traced hg hstart hold hactive hin htail (by omega)
  have hpotential := fun d' x => potential_lowerPotential (d := d) (x := x) hg.toShaped hnode d'
    (v + (net.edge e).weight) e
  have hvalue := fun x => value_lowerPotential (d := d) (x := x) hg.toShaped hnode d
    (v + (net.edge e).weight) e
  have hsame : ∀ x, x ≠ (net.edge e).head d → (g.lowerPotential d ((net.edge e).head d)
      (v + (net.edge e).weight) e).potential d x = g.potential d x := by
    intro x hx
    rw [hpotential, if_neg fun heq => hx heq.2.symm]
  have hheadLt : (g.lowerPotential d ((net.edge e).head d) (v + (net.edge e).weight) e).value d
      ((net.edge e).head d) < g₀.value d ((net.edge e).head d) := by
    have := htraces.value_le ((net.edge e).head d)
    rw [hvalue, if_pos ⟨rfl, rfl⟩]
    omega
  -- the node that is lowered goes on through the tail of the edge
  have hhead : Traced net d start g₀ (g.lowerPotential d ((net.edge e).head d)
      (v + (net.edge e).weight) e) ((net.edge e).head d) (e :: es) := by
    have hrest := htail.congr fun i hi => hsame _ (hfar i hi)
    refine ⟨.cons ?_ rfl hrest.chain, fun i hi => ?_⟩
    · rw [cut_of_ne hmoved, predecessor, hpotential, if_pos ⟨rfl, rfl⟩]
    · rcases List.mem_cons.mp hi with rfl | hi
      · exact hheadLt
      · exact hrest.lowered i hi
  refine ⟨?_, ?_, ?_, ?_, ?_⟩
  · intro x hx
    rw [hsame]
    · exact htraces.unmoved x hx
    · rintro rfl
      rcases hx with hx | hx
      · exact hmoved hx
      · exact hne hx
  · intro x
    by_cases hx : x = (net.edge e).head d
    · rw [hx]
      exact .inr ⟨hheadLt, _, hhead⟩
    · rw [hsame x hx]
      rcases htraces.traced x with heq | ⟨hltx, fs, hfs⟩
      · exact .inl heq
      · refine .inr ⟨?_, ?_⟩
        · unfold value
          rw [hsame x hx]
          exact hltx
        · -- a chain that passes the node now goes on from there as the node does
          by_cases hpass : ∃ i ∈ fs, (net.edge i).head d = (net.edge e).head d
          · obtain ⟨i, hi, hihead⟩ := hpass
            exact hfs.exists_through hi hihead hsame hhead
          · exact ⟨fs, hfs.congr fun i hi => hsame _ fun heq => hpass ⟨i, hi, heq⟩⟩
  · intro x hx
    rw [hvalue]
    split
    next => exact hfloor
    next => exact htraces.floor x hx
  · intro d' x hd
    rw [hpotential, if_neg fun heq => hd heq.1.symm]
    exact htraces.other d' x hd
  · intro d' x
    rw [out_lowerPotential]
    exact htraces.out d' x

end

-- ================================================================== cycles

/-- The predecessors, with a pretended one for the node that would be
lowered, and none for the start. -/
def closing (g : ActiveGraph) (d : Direction) (start violated : Timepoint) (via : EdgeId)
    (x : Timepoint) : Option EdgeId :=
  if x = start then none
  else if x = violated then some via
  else g.predecessor d x

theorem closing_start {violated : Timepoint} : closing g d start violated via start = none :=
  if_pos rfl

/-- The walk back along the predecessors comes to the start, if there are
steps enough: one for the first edge, and one for each edge of the chain from
there. -/
theorem closingFrom_eq {violated : Timepoint} {first : EdgeId}
    (hfirst : (if x = violated then some via else (g.potential d x).predecessor) = some first)
    (hchain : net.Chain d (closing g d start violated via) ((net.edge first).tail d) es start)
    (hn : es.length ≤ n) :
    closingFrom net g d start violated via (n + 1) x = (first :: es, start) := by
  induction es generalizing x first n with
  | nil =>
      have htail : (net.edge first).tail d = start := by
        cases hchain
        rfl
      unfold closingFrom
      simp only [hfirst, htail, if_true]
  | cons next rest ih =>
      have hne : (net.edge first).tail d ≠ start := by
        intro htail
        rw [htail] at hchain
        exact absurd (hchain.eq_nil closing_start) (by simp)
      cases n with
      | zero => cases hn
      | succ n =>
          cases hchain with
          | cons step head hrest =>
              unfold closing at step
              rw [if_neg hne] at step
              have hfound := ih step hrest (Nat.le_of_succ_le_succ hn)
              unfold closingFrom
              simp only [hfirst, if_neg hne, hfound]

/-- If following predecessors from the start comes back to it, what is
met is the cycle that is extracted. -/
theorem extractCycle_eq {violated : Timepoint} {first : EdgeId} (hg : g.Labelled net)
    (hnet : net.WellFormed) (hactive : g.isActive via = true)
    (hfirst : (if start = violated then some via else (g.potential d start).predecessor)
      = some first)
    (hhead : (net.edge first).head d = start)
    (hchain : net.Chain d (closing g d start violated via) ((net.edge first).tail d) es start)
    (hstart : net.hasTimepoint start = true) :
    extractCycle net g d start violated via = .ok (pathOf d (first :: es)) ∧
      net.isCycle (pathOf d (first :: es)) = true := by
  have hedges : ∀ i ∈ es, net.hasEdge i = true := by
    intro i hi
    have hnext := hchain.next_head hi
    unfold closing at hnext
    split at hnext
    next => cases hnext
    next =>
      split at hnext
      next =>
        cases hnext
        exact hg.hasEdge hactive
      next => exact hg.hasEdge (hg.predecessor d _ i hnext).1
  -- no node is met twice, so that the fuel of one turn for each node is enough
  have hlength := hchain.length_lt closing_start hnet hedges hstart
  have hnodes : g.numNodes = net.numTimepoints := hg.sizePotentials .forward
  have hfound := closingFrom_eq hfirst hchain (n := g.numNodes) (by omega)
  constructor
  · unfold extractCycle
    simp only [hfound, Checked.require_of]
    cases d <;> rfl
  · -- with the first step added the chain is one of the pretended map
    have hclosed : net.Chain d (fun x => if x = violated then some via
        else (g.potential d x).predecessor) start (first :: es) start := by
      refine .cons hfirst hhead (hchain.congr fun i hi => ?_)
      have hnext := hchain.next_head hi
      unfold closing at hnext ⊢
      split at hnext
      next => cases hnext
      next hne =>
        rw [if_neg hne]
        rfl
    exact hclosed.isCycle (List.cons_ne_nil _ _)

/-- A trace is a chain of the pretended map, unless it passes the node
that would be lowered. -/
theorem Traced.closing {violated : Timepoint} (h : Traced net d start g₀ g x es)
    (hviolated : violated ≠ start → ∀ e ∈ es, (net.edge e).head d ≠ violated) :
    net.Chain d (closing g d start violated via) x es start := by
  refine h.chain.congr fun e he => ?_
  have hnext := h.chain.next_head he
  unfold Relaxation.closing cut at *
  split at hnext
  next => cases hnext
  next hne =>
    have hnot : (net.edge e).head d ≠ violated := by
      by_cases hv : violated = start
      · rw [hv]
        exact hne
      · exact hviolated hv e he
    rw [if_neg hne, if_neg hnot, if_neg hne]

/-- No trace passes the origin, which is not lowered. -/
theorem Traced.ne_origin (h : Traced net d start g₀ g x es) (htraces : Traces net d start g₀ g) :
    ∀ e ∈ es, (net.edge e).head d ≠ .origin := by
  intro e he horigin
  have hlt := h.lowered e he
  rw [horigin, htraces.value_unmoved (.inr rfl)] at hlt
  exact Int.lt_irrefl _ hlt

/-- From a node on the old chain of the start, the pretended map leads
back to the start, with less weight than the old potential allows. -/
theorem exists_closing (hg : g.Labelled net) (hg₀ : g₀.Labelled net)
    (htraces : Traces net d start g₀ g) (hloose : g₀.predecessor d .origin = none)
    (hne : Timepoint.origin ≠ start) (hhead : (net.edge e).head d = .origin)
    (hes : Traced net d start g₀ g ((net.edge e).tail d) es)
    (hlt : g.value d ((net.edge e).tail d) + (net.edge e).weight < g.value d .origin)
    (hx : net.Chain d (g₀.predecessor d) x fs y) (hy : y = .origin)
    (hfar : ∀ i ∈ fs, (net.edge i).head d ≠ start) :
    ∃ gs, net.Chain d (closing g d start .origin e) x gs start ∧
      g.value d start + net.weight gs < g₀.value d x := by
  induction hx with
  | nil =>
      subst hy
      have hstep : closing g d start .origin e .origin = some e := by
        unfold closing
        rw [if_neg hne, if_pos rfl]
      refine ⟨e :: es, .cons hstep hhead (hes.closing fun _ => hes.ne_origin htraces), ?_⟩
      have hweight := hes.weight_le hg
      rw [htraces.value_unmoved (.inr rfl)] at hlt
      rw [weight_cons]
      omega
  | @cons x y i fs step head rest ih =>
      rcases htraces.traced x with heq | ⟨hltx, gs, hgs⟩
      · -- a node that was not lowered is passed on the old chain
        obtain ⟨gs, hchain, hweight⟩ := ih hy fun j hj => hfar j (List.mem_cons_of_mem _ hj)
        have hxs : x ≠ start := head ▸ hfar i List.mem_cons_self
        have hxo : x ≠ .origin := by
          rintro rfl
          rw [hloose] at step
          cases step
        have hstep : closing g d start .origin e x = some i := by
          unfold closing predecessor
          rw [if_neg hxs, if_neg hxo, heq]
          exact step
        refine ⟨i :: gs, .cons hstep head hchain, ?_⟩
        have hacc := (hg₀.predecessor d x i step).2.2.2
        rw [weight_cons]
        omega
      · -- at one that was lowered the trace goes back to the start
        exact ⟨gs, hgs.closing fun _ => hgs.ne_origin htraces,
          Int.lt_of_le_of_lt (hgs.weight_le hg) hltx⟩

/-- When the start or the origin would be lowered, the cycle that is
extracted is closed and negative. -/
theorem exists_extractCycle (hg : g.Labelled net) (hg₀ : g₀.Labelled net)
    (hnet : net.WellFormed) (htraces : Traces net d start g₀ g)
    (hloose : g₀.predecessor d .origin = none)
    (hroot : ∃ fs, net.Chain d (g₀.predecessor d) start fs .origin)
    (hstart : net.hasTimepoint start = true) (hactive : g.isActive e = true)
    (hhead : (net.edge e).head d = start ∨ (net.edge e).head d = .origin)
    (hes : Traced net d start g₀ g ((net.edge e).tail d) es)
    (hlt : g.value d ((net.edge e).tail d) + (net.edge e).weight
      < g.value d ((net.edge e).head d)) :
    ∃ cycle, extractCycle net g d start ((net.edge e).head d) e = .ok cycle ∧
      net.isCycle cycle = true ∧ net.weight cycle < 0 := by
  by_cases hs : (net.edge e).head d = start
  · -- the edge leads back to the start at once
    have hfirst : (if start = (net.edge e).head d then some e
        else (g.potential d start).predecessor) = some e := if_pos hs.symm
    have hfound := extractCycle_eq hg hnet hactive hfirst hs
      (hes.closing fun hne => absurd hs hne) hstart
    refine ⟨_, hfound.1, hfound.2, ?_⟩
    have hweight := hes.weight_le hg
    rw [hs] at hlt
    rw [weight_pathOf, weight_cons]
    omega
  · -- the edge leads to the origin, from which the tree path goes on to the start
    have horigin := hhead.resolve_left hs
    rw [horigin] at hs hlt ⊢
    obtain ⟨fs, hchain⟩ := hroot
    have hnodup := hchain.nodup hloose
    cases hchain with
    | nil => exact absurd rfl hs
    | @cons _ _ first fs step head rest =>
        -- the start is met once on its own path
        have hfar : ∀ i ∈ fs, (net.edge i).head d ≠ start := by
          intro i hi heq
          have hnot := (List.nodup_cons.mp (List.nodup_cons.mp hnodup).2).1
          exact hnot (List.mem_map.mpr ⟨i, hi, heq.trans head.symm⟩)
        obtain ⟨gs, hgs, hweight⟩ :=
          exists_closing hg hg₀ htraces hloose hs horigin hes hlt rest rfl hfar
        have hfirst : (if start = .origin then some e else (g.potential d start).predecessor)
            = some first := by
          rw [if_neg (Ne.symm hs), htraces.unmoved start (.inl rfl)]
          exact step
        have hfound := extractCycle_eq hg hnet hactive hfirst head hgs hstart
        refine ⟨_, hfound.1, hfound.2, ?_⟩
        have hacc := (hg₀.predecessor d start first step).2.2.2
        rw [htraces.value_unmoved (.inl rfl)] at hweight
        rw [weight_pathOf, weight_cons]
        omega

-- ============================================================ a fixed point

/-- Where all edges are respected, what was not lowered hangs on its old
chain: if a node on it had been lowered the next would have been too. -/
theorem Traces.chain_of_unmoved (htraces : Traces net d start g₀ g) (hg₀ : g₀.Labelled net)
    (hactive : ∀ i, g₀.isActive i = true → g.isActive i = true)
    (hrespected : ∀ i, g.isActive i = true → (net.edge i).isIn d = true →
      g.value d ((net.edge i).head d) ≤ g.value d ((net.edge i).tail d) + (net.edge i).weight)
    (hx : net.Chain d (g₀.predecessor d) x es y) (hsame : g.potential d x = g₀.potential d x) :
    net.Chain d (g.predecessor d) x es y := by
  induction hx with
  | nil => exact .nil _
  | @cons x y e es step head rest ih =>
      obtain ⟨hact, hin, hhead, hle⟩ := hg₀.predecessor d x e step
      have hstep : g.predecessor d x = some e := by
        unfold predecessor
        rw [hsame]
        exact step
      refine .cons hstep head (ih ?_)
      rcases htraces.traced ((net.edge e).tail d) with heq | ⟨hlt, -⟩
      · exact heq
      · have hresp := hrespected e (hactive e hact) hin
        have hvalue : g.value d x = g₀.value d x := congrArg Potential.value hsame
        rw [hhead, hvalue] at hresp
        omega

/-- At a fixed point all chains of predecessors end at the origin again. -/
theorem Traces.rooted (htraces : Traces net d start g₀ g) (hg₀ : g₀.Labelled net)
    (hactive : ∀ i, g₀.isActive i = true → g.isActive i = true)
    (hrespected : ∀ i, g.isActive i = true → (net.edge i).isIn d = true →
      g.value d ((net.edge i).head d) ≤ g.value d ((net.edge i).tail d) + (net.edge i).weight)
    (hrooted : ∀ x, net.hasTimepoint x = true →
      ∃ es, net.Chain d (g₀.predecessor d) x es .origin)
    (hstart : net.hasTimepoint start = true) (hx : net.hasTimepoint x = true) :
    ∃ es, net.Chain d (g.predecessor d) x es .origin := by
  have hunmoved : ∀ x, net.hasTimepoint x = true → g.potential d x = g₀.potential d x →
      ∃ es, net.Chain d (g.predecessor d) x es .origin := by
    intro x hx hsame
    obtain ⟨es, hchain⟩ := hrooted x hx
    exact ⟨es, htraces.chain_of_unmoved hg₀ hactive hrespected hchain hsame⟩
  rcases htraces.traced x with hsame | ⟨-, es, hes⟩
  · exact hunmoved x hx hsame
  · obtain ⟨fs, hfs⟩ := hunmoved start hstart (htraces.unmoved start (.inl rfl))
    exact ⟨es ++ fs, hes.predecessors.append hfs⟩

end Relaxation

end TemporalNetwork
