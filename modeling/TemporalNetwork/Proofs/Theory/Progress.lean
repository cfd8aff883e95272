/-
Propagation comes to an end.

On a coherent theory no part of propagation breaks off. The graph is
grounded, which gives every activation an outcome, every bound an
explanation and every search its distances; all sums are of a few terms
within the limits. A conflict passes the checks under which it is
recorded, and at rest the potentials pass theirs.

# The bound of the queue

The load of a theory is the number of its pending activations and of its
variables without a value. No step of propagation adds to it: a literal
that is set is pending in place of its variable. Each activation that is
taken from the list makes it smaller by one.
-/
import TemporalNetwork.Proofs.ActiveGraph.Reach
import TemporalNetwork.Proofs.Theory.Propagation

namespace TemporalNetwork

namespace Theory

open PathSearch (Covers)

variable {t t' : Theory} {l : Literal} {x : Explanation} {id : EdgeId} {ids es : List EdgeId}
  {d : Direction} {node : Timepoint} {value : Int} {n : Nat}

-- ================================================================= the load

/-- The variables that have no value. -/
def unset (t : Theory) : List BoolVar := t.boolVars.filter fun v => (t.known v).isNone

/-- What is pending and what could still become so. -/
def load (t : Theory) : Nat := t.pending.length + t.unset.length

/-- The variables are listed completely. -/
theorem length_boolVars (t : Theory) : t.boolVars.length = t.numVariables := by
  unfold boolVars HandleVector.keys
  rw [List.length_map, List.length_range]
  rfl

/-- The load is bounded by what is pending and the number of variables. -/
theorem load_le (t : Theory) : t.load ≤ t.pending.length + t.numVariables := by
  have hunset : t.unset.length ≤ t.boolVars.length := List.length_filter_le _ _
  rw [length_boolVars] at hunset
  exact Nat.add_le_add_left hunset _

/-- A variable is set once, so that there are no more assignments than
variables. -/
theorem Coherent.size_assignments_le (ht : t.Coherent) :
    t.assignments.size ≤ t.numVariables := by
  have hinj : ∀ l ∈ t.assignments.toList, ∀ m ∈ t.assignments.toList, l.var = m.var → l = m := by
    intro l hl m hm hvar
    have hl' := value_eq_true_iff.mp ((ht.assigned l).mp hl)
    have hm' := value_eq_true_iff.mp ((ht.assigned m).mp hm)
    obtain ⟨v, p⟩ := l
    obtain ⟨w, q⟩ := m
    obtain rfl : v = w := hvar
    rw [hl'] at hm'
    cases hm'
    rfl
  have hnodup : (t.assignments.toList.map Literal.var).Nodup :=
    List.Nodup.map_on hinj ht.once
  have hsubset : t.assignments.toList.map Literal.var ⊆ t.boolVars := by
    intro v hv
    obtain ⟨l, hl, rfl⟩ := List.mem_map.mp hv
    have hvar := hasVariable_of_value ((ht.assigned l).mp hl)
    exact (HandleVector.mem_keys _ _).mpr ((HandleVector.contains_iff _ _).mp hvar)
  have hle := (List.subperm_of_subset hnodup hsubset).length_le
  rw [List.length_map, length_boolVars] at hle
  exact hle

/-- The variable of a literal that is set is no longer without a value. -/
theorem length_unset_setLiteral (hnone : t.value l = none) (hvar : t.hasVariable l.var = true) :
    (t.setLiteral l).unset.length < t.unset.length := by
  have hkeys : (t.setLiteral l).boolVars = t.boolVars := by
    unfold boolVars HandleVector.keys
    rw [(sameProblem_setLiteral t l).size]
  have hfilter : (t.setLiteral l).unset = t.unset.filter fun v => v ≠ l.var := by
    unfold unset
    rw [hkeys, List.filter_filter]
    refine List.filter_congr fun v _ => ?_
    rw [known_setLiteral hnone hvar]
    by_cases hv : v = l.var
    · simp [hv]
    · simp [hv]
  rw [hfilter, List.length_filter_lt_length_iff_exists]
  refine ⟨l.var, List.mem_filter.mpr ⟨?_, ?_⟩, ?_⟩
  · exact (HandleVector.mem_keys _ _).mpr ((HandleVector.contains_iff _ _).mp hvar)
  · rw [value_eq_none_iff.mp hnone]
    rfl
  · simp

/-- A step of propagation does not add to the load. -/
theorem Step.load_le (h : Step t t') : t'.load ≤ t.load := by
  cases h with
  | counted stats => exact Nat.le_refl _
  | dropped sub => exact Nat.add_le_add_right sub.length_le _
  | implied hnone hvar htrue hvalid =>
      rename_i l x
      have hunset := length_unset_setLiteral hnone hvar
      have hpending : (t.setLiteral l).pending.length = t.pending.length + 1 := by
        rw [setLiteral_of_none hnone]
        simp
      have hsame : (t.imply l x).load = (t.setLiteral l).load := by
        rw [imply_of_none hnone]
        rfl
      rw [hsame]
      unfold load
      omega
  | activated henabled haccepts hgrounded => exact Nat.le_refl _
  | refuted hnone henabled hvalid => exact Nat.add_le_add_right (Nat.zero_le _) _

theorem Steps.load_le (h : Steps t t') : t'.load ≤ t.load := by
  induction h with
  | refl => exact Nat.le_refl _
  | tail _ hstep ih => exact Nat.le_trans hstep.load_le ih

-- ============================================================= inference

/-- The chain of a node is found, and weighs no more than its potential. -/
theorem Coherent.exists_predecessorChain (ht : t.Coherent) (d : Direction)
    (hnode : t.network.hasTimepoint node = true) :
    ∃ es, t.graph.predecessorChain t.network d node = .ok es ∧
      t.network.weight es ≤ t.graph.value d node := by
  obtain ⟨es, hchain⟩ := ht.graph.rooted d node hnode
  have hweight := ht.graph.weight_le hchain
  rw [ht.graph.origin, Int.zero_add] at hweight
  exact ⟨es, ht.graph.predecessorChain_eq ht.network (ht.graph.loose d) hchain, hweight⟩

/-- The bound of a node can be explained. -/
theorem Coherent.exists_explainPotential (ht : t.Coherent) (d : Direction)
    (hnode : t.network.hasTimepoint node = true) (x : Explanation) :
    ∃ y, t.explainPotential d node x = .ok y := by
  obtain ⟨chain, hfound, hweight⟩ := ht.exists_predecessorChain d hnode
  refine Checked.exists_bind ⟨chain, hfound⟩ fun chain' hchain' => ?_
  rw [hfound] at hchain'
  cases hchain'
  split
  next => exact Checked.exists_bind ⟨(), Checked.require_of hweight⟩ fun _ _ => ⟨_, rfl⟩
  next => exact ⟨_, rfl⟩

/-- Watches can be fired. -/
theorem Coherent.exists_fireWatches (ht : t.Coherent) {ws : List Watch}
    (hws : ∀ w ∈ ws, w ∈ t.bindings.watches d node) (hvalue : t.graph.value d node = value) :
    ∃ t', t.fireWatches d node value ws = .ok t' := by
  induction ws generalizing t with
  | nil => exact ⟨t, rfl⟩
  | cons w ws ih =>
      have hw := hws w List.mem_cons_self
      have hnode : t.network.hasTimepoint node = true := by
        obtain ⟨-, id, hid, -, -, htail, -⟩ := ht.watched d node w hw
        exact htail ▸ ht.network.tail hid d
      have hrest : ∀ t₁, Infers t t₁ → ∃ t', t₁.fireWatches d node value ws = .ok t' := by
        intro t₁ hinfers
        refine ih (hinfers.coherent ht) (fun w' hw' => ?_) ?_
        · rw [hinfers.same.bindings]
          exact hws w' (List.mem_cons_of_mem w hw')
        · rw [hinfers.graph]
          exact hvalue
      unfold fireWatches
      split
      next hfire =>
        refine Checked.exists_bind (ht.exists_explainPotential d hnode .empty) fun x hx => ?_
        exact hrest _ (infers_fire ht hw (hvalue ▸ hfire.1) hfire.2 hx)
      next => exact hrest t (.refl t)

/-- The room of an edge can be checked: the sums that are formed fit. -/
theorem Coherent.exists_checkRoom (ht : t.Coherent) (hid : t.network.hasEdge id = true) :
    ∃ t', t.checkRoom id = .ok t' := by
  unfold checkRoom
  simp only
  split
  next => exact ⟨t, rfl⟩
  next guard =>
    split
    next => exact ⟨t, rfl⟩
    next =>
      split
      next => exact ⟨_, rfl⟩
      next =>
        have hsource := ht.network.tail hid .forward
        have htarget := ht.network.tail hid .backward
        have hlimit := ht.limited id hid
        have hthere := ht.graph.value_mem ht.limited .forward hsource
        have hback := ht.graph.value_mem ht.limited .backward htarget
        simp only [Edge.tail] at hsource htarget hthere hback
        -- bounds and weights are limited, so that neither sum overflows
        have hfits₁ : FitsInt32 (t.graph.value .forward (t.network.edge id).source
            + (t.network.edge id).weight) := by
          apply fitsInt32_of_limits
          · omega
          · omega
        have hfits₂ : FitsInt32 (t.graph.value .forward (t.network.edge id).source
            + (t.network.edge id).weight
            + t.graph.value .backward (t.network.edge id).target) := by
          apply fitsInt32_of_limits
          · omega
          · omega
        refine Checked.exists_bind ⟨_, int32_of hfits₁⟩ fun reach hreach => ?_
        obtain rfl := (int32_eq_ok.mp hreach).2
        refine Checked.exists_bind ⟨_, int32_of hfits₂⟩ fun slack _ => ?_
        split
        next =>
          refine Checked.exists_bind (ht.exists_explainPotential .forward hsource _) fun _ _ => ?_
          exact Checked.exists_bind (ht.exists_explainPotential .backward htarget _)
            fun _ _ => ⟨_, rfl⟩
        next => exact ⟨t, rfl⟩

/-- The room of several edges can be checked. -/
theorem Coherent.exists_checkRoomAll (ht : t.Coherent)
    (hids : ∀ i ∈ ids, t.network.hasEdge i = true) : ∃ t', t.checkRoomAll ids = .ok t' := by
  induction ids generalizing t with
  | nil => exact ⟨t, rfl⟩
  | cons id rest ih =>
      have hid := hids id List.mem_cons_self
      refine Checked.exists_bind (ht.exists_checkRoom hid) fun t₁ h₁ => ?_
      have hinfers := draws_checkRoom ht hid h₁
      refine ih (hinfers.coherent ht) fun i hi => ?_
      rw [hinfers.same.network]
      exact hids i (List.mem_cons_of_mem id hi)

/-- The consequences of lowered nodes can be drawn. -/
theorem Coherent.exists_onLowered (ht : t.Coherent) (lowered : List (Direction × Timepoint)) :
    ∃ t', t.onLowered lowered = .ok t' := by
  induction lowered generalizing t with
  | nil => exact ⟨t, rfl⟩
  | cons p rest ih =>
      obtain ⟨d, node⟩ := p
      refine Checked.exists_bind (ht.exists_fireWatches (fun w hw => hw) rfl) fun t₁ h₁ => ?_
      have ht₁ := (draws_fireWatches ht (fun w hw => hw) rfl h₁).coherent ht
      have hguarded : ∀ i ∈ t₁.network.guardedAt d node, t₁.network.hasEdge i = true :=
        fun i hi => ((ht₁.network.guarded d node i).mp hi).1
      simp only
      split
      next =>
        refine Checked.exists_bind (ht₁.exists_checkRoomAll hguarded) fun t₂ h₂ => ?_
        exact ih ((draws_checkRoomAll ht₁ hguarded h₂).coherent ht₁)
      next => exact ih ht₁

-- ================================================== cycles through an edge

section
variable {e : Edge} {after before : PathSearch}

/-- The candidates of a node can be looked at. -/
theorem Coherent.exists_closingAt (ht : t.Coherent)
    (hbefore : Covers t.network t.graph true before)
    (he : -maxMagnitude ≤ e.weight ∧ e.weight ≤ maxMagnitude) {toNode : Int}
    (hto : -2 * maxMagnitude ≤ toNode ∧ toNode ≤ 2 * maxMagnitude)
    (hids : ∀ i ∈ ids, t.network.hasEdge i = true) :
    ∃ found, t.closingAt e before node toNode ids = .ok found := by
  induction ids with
  | nil => exact ⟨[], rfl⟩
  | cons id rest ih =>
      have hlimit := ht.limited id (hids id List.mem_cons_self)
      have hrest : ∀ closes : Bool, ∃ found, (do
          let others ← t.closingAt e before node toNode rest
          return if closes then (node, id) :: others else others : Checked _) = .ok found :=
        fun closes => Checked.exists_bind
          (ih fun i hi => hids i (List.mem_cons_of_mem id hi)) fun _ _ => ⟨_, rfl⟩
      unfold closingAt
      simp only
      split
      next =>
        obtain ⟨distance, hdistance, hwithin⟩ := hbefore.exists_distance? ht.limited ht.graph
          (t.network.edge id).target
        refine Checked.exists_bind ⟨distance, hdistance⟩ fun distance' heq => ?_
        rw [hdistance] at heq
        cases heq
        cases distance with
        | none => exact hrest false
        | some fromTarget =>
            have hfrom := hwithin fromTarget rfl
            -- the distances are within the limits, and so are their sums
            have hfits : FitsInt32 (toNode + (t.network.edge id).weight) ∧
                FitsInt32 (toNode + (t.network.edge id).weight + fromTarget) ∧
                FitsInt32 (toNode + (t.network.edge id).weight + fromTarget + e.weight) :=
              ⟨fitsInt32_of_limits (by omega) (by omega), fitsInt32_of_limits (by omega) (by omega),
                fitsInt32_of_limits (by omega) (by omega)⟩
            obtain ⟨hfits₁, hfits₂, hfits₃⟩ := hfits
            refine Checked.exists_bind ⟨_, int32_of hfits₁⟩ fun there hthere => ?_
            obtain rfl := (int32_eq_ok.mp hthere).2
            refine Checked.exists_bind ⟨_, int32_of hfits₂⟩ fun back hback => ?_
            obtain rfl := (int32_eq_ok.mp hback).2
            exact Checked.exists_bind ⟨_, int32_of hfits₃⟩ fun _ _ => hrest _
      next => exact hrest false

/-- The edges that would close a cycle can be looked for. -/
theorem Coherent.exists_closing (ht : t.Coherent)
    (hbefore : Covers t.network t.graph true before)
    (he : -maxMagnitude ≤ e.weight ∧ e.weight ≤ maxMagnitude) {reached : List (Timepoint × Int)}
    (hreached : ∀ p ∈ reached, -2 * maxMagnitude ≤ p.2 ∧ p.2 ≤ 2 * maxMagnitude) :
    ∃ found, t.closing e before reached = .ok found := by
  induction reached with
  | nil => exact ⟨[], rfl⟩
  | cons first rest ih =>
      have hguarded : ∀ i ∈ t.network.guardedAt .forward first.1, t.network.hasEdge i = true :=
        fun i hi => ((ht.network.guarded .forward first.1 i).mp hi).1
      exact Checked.exists_bind (ht.exists_closingAt hbefore he
        (hreached first List.mem_cons_self) hguarded) fun _ _ => Checked.exists_bind
          (ih fun p hp => hreached p (List.mem_cons_of_mem first hp)) fun _ _ => ⟨_, rfl⟩

theorem graph_imply (t : Theory) (l : Literal) (x : Explanation) :
    (t.imply l x).graph = t.graph := by
  cases h : t.value l with
  | none =>
      rw [imply_of_none h, setLiteral_of_none h]
  | some b =>
      unfold imply
      rw [h]
      rfl

theorem network_imply (t : Theory) (l : Literal) (x : Explanation) :
    (t.imply l x).network = t.network := by
  cases h : t.value l with
  | none =>
      rw [imply_of_none h, setLiteral_of_none h]
  | some b =>
      unfold imply
      rw [h]
      rfl

/-- The paths that rule an edge out can be given. -/
theorem exists_ruleOutClosing (hnet : t.network.WellFormed) (hg : t.graph.Grounded t.network)
    (hafter : Covers t.network t.graph true after)
    (hbefore : Covers t.network t.graph true before) (found : List (Timepoint × EdgeId)) :
    ∃ t', t.ruleOutClosing id after before found = .ok t' := by
  induction found generalizing t with
  | nil => exact ⟨t, rfl⟩
  | cons first rest ih =>
      have hrest : ∀ t₁ : Theory, t₁.graph = t.graph → t₁.network = t.network →
          ∃ t', t₁.ruleOutClosing id after before rest = .ok t' := by
        intro t₁ hgraph hnetwork
        apply ih
        all_goals simpa only [hgraph, hnetwork]
      unfold ruleOutClosing
      simp only
      split
      next => exact hrest t rfl rfl
      next =>
        split
        next => exact hrest t rfl rfl
        next =>
          refine Checked.exists_bind (hafter.exists_pathTo hg hnet _) fun _ _ => ?_
          refine Checked.exists_bind (hbefore.exists_pathTo hg hnet _) fun _ _ => ?_
          exact hrest _ (graph_imply _ _ _) (network_imply _ _ _)

/-- The searches around an edge, and what follows from them. -/
theorem Coherent.exists_ruleOutAround (ht : t.Coherent) (hid : t.network.hasEdge id = true) :
    ∃ t', t.ruleOutAround id = .ok t' := by
  unfold ruleOutAround
  simp only
  split
  next => exact ⟨t, rfl⟩
  next =>
    obtain ⟨after, hafter, hafterCovers, -, -⟩ := PathSearch.exists_run ht.network ht.limited
      ht.graph .forward (ht.network.head hid .forward) true
    obtain ⟨before, hbefore, hbeforeCovers, -, -⟩ := PathSearch.exists_run ht.network ht.limited
      ht.graph .backward (ht.network.head hid .backward) true
    obtain ⟨reached, hreached, hwithin⟩ := hafterCovers.exists_distances ht.limited ht.graph
    obtain ⟨found, hfound⟩ := ht.exists_closing hbeforeCovers (ht.limited id hid) hwithin
    obtain ⟨t', ht'⟩ := exists_ruleOutClosing ht.network ht.graph hafterCovers hbeforeCovers found
    refine ⟨t', ?_⟩
    simp only [Checked.bind_eq_ok]
    exact ⟨after, hafter, before, hbefore, reached, hreached, found, hfound, ht'⟩

end

-- ============================================================== activation

/-- What is checked of a conflict. -/
theorem checkConflict_eq_ok {k : Conflict} : t.checkConflict k = .ok () ↔
    t.network.isCycle k.cycle = true ∧ t.network.weight k.cycle < 0 ∧
      ∀ l ∈ k.explanation.literals, t.value l = some true := by
  unfold checkConflict
  simp only [Checked.bind_eq_ok, Checked.require_eq_ok, exists_const]

/-- A negative cycle of edges whose guards are true passes the checks under
which it is recorded. -/
theorem exists_recordConflict (hcycle : t.network.isCycle es = true)
    (hweight : t.network.weight es < 0)
    (henabled : ∀ i ∈ es, i ∈ t.network.enabledBy t.trueLiterals) :
    ∃ t', t.recordConflict es = .ok t' := by
  have hcheck : t.checkConflict (Conflict.ofCycle t.network es) = .ok () := by
    refine checkConflict_eq_ok.mpr ⟨hcycle, hweight, fun l hl => ?_⟩
    obtain ⟨i, hi, hguard⟩ := Conflict.mem_ofCycle.mp hl
    exact (henabled i hi).2 l hguard
  refine Checked.exists_bind ⟨(), Checked.require_of hcycle⟩ fun _ _ =>
    Checked.exists_bind ⟨(), Checked.require_of hweight⟩ fun _ _ => ?_
  split
  next => exact Checked.exists_bind ⟨(), hcheck⟩ fun _ _ => ⟨_, rfl⟩
  next => exact ⟨_, rfl⟩

/-- An edge is put in force, or there is a conflict. -/
theorem Coherent.exists_activate (ht : t.Coherent) (hid : t.network.hasEdge id = true) :
    ∃ t', t.activate id = .ok t' := by
  unfold Theory.activate
  simp only
  split
  next => exact ⟨t, rfl⟩
  next hgo =>
    have henabled : id ∈ t.network.enabledBy t.trueLiterals := enabled_of_go hid hgo
    obtain ⟨a, ha, hgrounded, -, hclosed⟩ := ht.graph.exists_activate ht.network ht.limited hid
    refine Checked.exists_bind ⟨a, ha⟩ fun a' ha' => ?_
    rw [ha] at ha'
    cases ha'
    rcases ht.graph.activate ht.network hid ha with
      ⟨lowered, hverdict, haccepts⟩ | ⟨es, hverdict, hgraph, hrejects⟩
    · have hcoherent : Coherent { t with
          graph := a.graph
          stats := { t.stats with
            activations := t.stats.activations + 1
            distanceUpdates := t.stats.distanceUpdates + a.steps } } :=
        (Step.counted _).coherent ((Step.activated henabled haccepts hgrounded).coherent ht)
      rw [hverdict]
      refine Checked.exists_bind (hcoherent.exists_onLowered lowered) fun t₁ h₁ => ?_
      have hinfers := draws_onLowered hcoherent h₁
      split
      next =>
        refine (hinfers.coherent hcoherent).exists_ruleOutAround ?_
        rw [hinfers.same.network]
        exact hid
      next => exact ⟨_, rfl⟩
    · obtain ⟨hcycle, hweight⟩ := hclosed es hverdict
      rw [hverdict]
      refine exists_recordConflict hcycle hweight fun i hi => ?_
      rcases hrejects.among i hi with hact | rfl
      · exact ht.active i hact
      · exact henabled

/-- Edges can be activated one after the other. -/
theorem Coherent.exists_activateAll (ht : t.Coherent) (hnone : t.conflict = none)
    (hids : ∀ i ∈ ids, t.network.hasEdge i = true) : ∃ t', t.activateAll ids = .ok t' := by
  induction ids generalizing t with
  | nil => exact ⟨t, rfl⟩
  | cons id rest ih =>
      have hid := hids id List.mem_cons_self
      refine Checked.exists_bind (ht.exists_activate hid) fun t₁ h₁ => ?_
      have hwork : Works t (id :: rest) t₁ rest := works_activate ht hnone hid h₁
      split
      next => exact ⟨t₁, rfl⟩
      next hnone₁ =>
        refine ih (hwork.steps.coherent ht) (Option.not_isSome_iff_eq_none.mp hnone₁)
          fun i hi => ?_
        rw [hwork.steps.sameProblem.network]
        exact hids i (List.mem_cons_of_mem id hi)

-- ================================================================ the queue

/-- The potentials pass their check. -/
theorem Coherent.checkPotentials_eq_ok (ht : t.Coherent) : t.checkPotentials = .ok () := by
  -- an edge in force is respected, and the sum that says so fits
  have hedge : ∀ id, t.graph.isActive id = true → ∀ d,
      checkPotentials.checkEdgeIn t (t.network.edge id) d = .ok () := by
    intro id hactive d
    have hid := ht.graph.hasEdge hactive
    have hlimit := ht.limited id hid
    have htail := ht.graph.value_mem ht.limited d (ht.network.tail hid d)
    have hfits : FitsInt32 (t.graph.value d ((t.network.edge id).tail d)
        + (t.network.edge id).weight) := by
      apply fitsInt32_of_limits
      · omega
      · omega
    unfold checkPotentials.checkEdgeIn
    split
    next hin =>
      simp only [Checked.bind_eq_ok, int32_of hfits, Except.ok.injEq, exists_eq_left',
        Checked.require_eq_ok]
      exact ht.graph.respected d id hactive hin
    next => rfl
  have hall : ∀ ids : List EdgeId, (∀ i ∈ ids, t.graph.isActive i = true) →
      checkPotentials.checkEdges t ids = .ok () := by
    intro ids hids
    induction ids with
    | nil => rfl
    | cons id rest ih =>
        have hactive := hids id List.mem_cons_self
        unfold checkPotentials.checkEdges
        simp only [hedge id hactive, ih fun i hi => hids i (List.mem_cons_of_mem id hi),
          Checked.bind_eq_ok, exists_const, and_self]
  have hdomains : ∀ tp ∈ t.network.timepoints, t.graph.lower tp ≤ t.graph.upper tp := by
    intro tp _
    have := ht.graph.uncrossed tp
    unfold ActiveGraph.lower ActiveGraph.upper
    omega
  unfold checkPotentials
  rw [Checked.require_of hdomains]
  exact hall _ fun i hi => (List.mem_filter.mp hi).2

/-- The queue can be worked off when there are more turns than the load. -/
theorem Coherent.exists_drain (ht : t.Coherent) (hnone : t.conflict = none) (hn : t.load < n) :
    ∃ t', drain n t = .ok t' := by
  induction n generalizing t with
  | zero => exact absurd hn (Nat.not_lt_zero _)
  | succ n ih =>
      unfold Theory.drain
      split
      next =>
        split
        next => exact Checked.exists_bind ⟨(), ht.checkPotentials_eq_ok⟩ fun _ _ => ⟨_, rfl⟩
        next => exact ⟨_, rfl⟩
      next p rest hcons =>
        have hp : p ∈ t.pending := hcons ▸ List.mem_cons_self
        have hdropped : Step t { t with pending := rest } :=
          .dropped (hcons ▸ List.sublist_cons_self p rest)
        have ht' := hdropped.coherent ht
        have hedges := ht.hasEdge_of_pending hp
        refine Checked.exists_bind (ht'.exists_activateAll hnone hedges) fun t₁ h₁ => ?_
        have hwork := works_activateAll ht' hnone hedges h₁
        split
        next => exact ⟨t₁, rfl⟩
        next hnone₁ =>
          refine ih (hwork.steps.coherent ht') (Option.not_isSome_iff_eq_none.mp hnone₁) ?_
          have hload := hwork.steps.load_le
          have hless : t.load = ({ t with pending := rest } : Theory).load + 1 := by
            unfold load
            rw [hcons, List.length_cons]
            exact Nat.succ_add _ _
          omega

/-- Propagation comes to an end. -/
theorem Coherent.exists_propagate (ht : t.Coherent) : ∃ t', t.propagate = .ok t' := by
  unfold Theory.propagate
  split
  next => exact ⟨_, rfl⟩
  next hnone =>
    exact ht.exists_drain (Option.not_isSome_iff_eq_none.mp hnone)
      (Nat.lt_succ_of_le t.load_le)

end Theory

end TemporalNetwork
