/-
What is drawn from the bounds, and that nothing is missed.

Each function that draws consequences implies literals and does nothing
else: their edges are left pending, and neither the graph nor a conflict
is touched. What makes an implication valid is found where it is made, as
a negative cycle or two bounds that cross: the chains of the potentials
that were compared, together with the edge that the implied literal
denies.

# All of them

A function draws a set of literals if it implies no others and each of
them has a value afterwards, be it because its negation was true before.
`Draws` says so. The set depends on the problem and on the graph alone,
which inference leaves as they are, so that what functions draw in turn
is the union of what each of them draws.
-/
import TemporalNetwork.Proofs.ActiveGraph.Distance
import TemporalNetwork.Proofs.ActiveGraph.Progress
import TemporalNetwork.Proofs.Theory.Coherent
import TemporalNetwork.Theory.Propagation

namespace TemporalNetwork

namespace Theory

variable {t t' t'' : Theory} {l : Literal} {x y : Explanation} {id : EdgeId} {ids es : List EdgeId}
  {d : Direction} {node : Timepoint} {value : Int} {C D : Set Literal}

-- =============================================================== inference

/-- Literals were set, and their edges are pending. -/
structure Sets (t t' : Theory) : Prop where
  same : SameProblem t t'
  graph : t'.graph = t.graph
  conflict : t'.conflict = t.conflict
  pending : t.pending ⊆ t'.pending
  fresh (l : Literal) : l ∈ t'.trueLiterals → l ∈ t.trueLiterals ∨ .literal l ∈ t'.pending

theorem Sets.refl (t : Theory) : Sets t t :=
  ⟨.refl t, rfl, rfl, fun _ hp => hp, fun _ hl => .inl hl⟩

/-- Literals set in turn: each has its edges pending, as nothing is taken off
the list. -/
theorem Sets.trans (h : Sets t t') (h' : Sets t' t'') : Sets t t'' where
  same := h.same.trans h'.same
  graph := h'.graph.trans h.graph
  conflict := h'.conflict.trans h.conflict
  pending := fun p hp => h'.pending (h.pending hp)
  fresh l hl := by
    rcases h'.fresh l hl with hl | hl
    · exact (h.fresh l hl).imp_right fun hp => h'.pending hp
    · exact .inr hl

/-- Setting one literal. -/
theorem sets_setLiteral (hvar : t.hasVariable l.var = true) : Sets t (t.setLiteral l) := by
  cases hvalue : t.value l with
  | some b =>
      rw [setLiteral_of_some hvalue]
      exact .refl t
  | none =>
      have hset := setLiteral_of_none hvalue
      refine ⟨sameProblem_setLiteral t l, graph_setLiteral t l, ?_, ?_, ?_⟩
      · rw [hset]
      · intro p hp
        rw [hset]
        exact List.mem_append_left _ hp
      · intro m hm
        rcases (value_setLiteral hvalue hvar m).mp hm with hm | rfl
        · exact .inl hm
        · right
          rw [hset]
          exact List.mem_append_right _ (List.mem_singleton.mpr rfl)

/-- Literals were implied. -/
structure Infers (t t' : Theory) : Prop extends Sets t t' where
  steps : Steps t t'

theorem Infers.refl (t : Theory) : Infers t t := ⟨.refl t, .refl⟩

theorem Infers.trans (h : Infers t t') (h' : Infers t' t'') : Infers t t'' :=
  ⟨h.toSets.trans h'.toSets, h.steps.trans h'.steps⟩

theorem Infers.coherent (h : Infers t t') (ht : t.Coherent) : t'.Coherent := h.steps.coherent ht

/-- Counting is no inference. -/
theorem infers_counted (t : Theory) (stats : TheoryStats) : Infers t { t with stats } :=
  ⟨⟨(Step.counted stats).sameProblem, rfl, rfl, fun _ hp => hp, fun _ hl => .inl hl⟩,
    (Step.counted stats).run⟩

/-- Implying a literal that follows from what is true. -/
theorem infers_imply (hnone : t.value l = none) (hvar : t.hasVariable l.var = true)
    (htrue : ∀ m ∈ x.literals, m ∈ t.trueLiterals)
    (hvalid : (⟨l, x⟩ : Implication).Valid t.network) : Infers t (t.imply l x) := by
  have hstep := Step.implied hnone hvar htrue hvalid
  have hsets := sets_setLiteral (l := l) hvar
  refine ⟨⟨hstep.sameProblem, ?_, ?_, ?_, ?_⟩, hstep.run⟩
  · rw [imply_of_none hnone]
    exact hsets.graph
  · rw [imply_of_none hnone]
    exact hsets.conflict
  · rw [imply_of_none hnone]
    exact hsets.pending
  · rw [imply_of_none hnone]
    exact hsets.fresh

/-- The literals were implied, and no others. Those that were not had a
value already. -/
structure Draws (C : Set Literal) (t t' : Theory) : Prop extends Infers t t' where
  drawn (l : Literal) : l ∈ t'.trueLiterals → l ∈ t.trueLiterals ∨ l ∈ C
  decided (l : Literal) : l ∈ C → t'.value l ≠ none

/-- Values are kept. -/
theorem Steps.value_ne_none (h : Steps t t') (hl : t.value l ≠ none) : t'.value l ≠ none :=
  value_ne_none_of_subset h.trueLiterals_subset hl

/-- What is drawn in turn is drawn together. -/
theorem Draws.trans (h : Draws C t t') (h' : Draws D t' t'') : Draws (C ∪ D) t t'' where
  toInfers := h.toInfers.trans h'.toInfers
  drawn l hl := by
    rcases h'.drawn l hl with hl | hl
    · exact (h.drawn l hl).imp_right .inl
    · exact .inr (.inr hl)
  decided l hl := by
    rcases hl with hl | hl
    · exact h'.steps.value_ne_none (h.decided l hl)
    · exact h'.decided l hl

/-- Literals that have a value need not be drawn. -/
theorem Draws.congr (h : Draws C t t') (hsubset : C ⊆ D)
    (hrest : ∀ l ∈ D, l ∈ C ∨ t.value l ≠ none) : Draws D t t' where
  toInfers := h.toInfers
  drawn l hl := (h.drawn l hl).imp_right fun hC => hsubset hC
  decided l hl := by
    rcases hrest l hl with hC | hvalue
    · exact h.decided l hC
    · exact h.steps.value_ne_none hvalue

/-- There is nothing to be drawn where all has been decided. -/
theorem draws_of_decided (h : ∀ l ∈ C, t.value l ≠ none) : Draws C t t :=
  ⟨.refl t, fun _ hl => .inl hl, h⟩

/-- One literal was implied. -/
theorem draws_of_infers (h : Infers t t')
    (hvalue : ∀ m, t'.value m = some true ↔ t.value m = some true ∨ m = l) :
    Draws {l} t t' where
  toInfers := h
  drawn m hm := (hvalue m).mp hm
  decided m hm := by
    rw [(hvalue m).mpr (.inr hm)]
    exact Option.some_ne_none true

-- ============================================================ explanations

/-- A potential is explained by the guards of the chain that accounts for it.
-/
theorem explainPotential_eq_ok (h : t.explainPotential d node x = .ok y) :
    ∃ chain, t.graph.predecessorChain t.network d node = .ok chain ∧
      y = x.addGuards t.network chain := by
  unfold explainPotential at h
  simp only [Checked.bind_eq_ok] at h
  obtain ⟨chain, hchain, h⟩ := h
  refine ⟨chain, hchain, ?_⟩
  split at h
  · simp only [Checked.bind_eq_ok, Checked.pure_eq_ok] at h
    obtain ⟨-, -, h⟩ := h
    exact h.symm
  · simp only [Checked.pure_eq_ok] at h
    exact h.symm

/-- The guards of edges in force are true. -/
theorem Coherent.guard_true (ht : t.Coherent) (hes : ∀ i ∈ es, t.graph.isActive i = true)
    (hl : ∃ i ∈ es, (t.network.edge i).guard? = some l) : l ∈ t.trueLiterals := by
  obtain ⟨i, hi, hguard⟩ := hl
  exact (ht.active i (hes i hi)).2 l hguard

/-- An edge without a value is ruled out by edges in force, if together
they have no schedule. -/
theorem valid_of_inconsistent (ht : t.Coherent) {guard : Literal}
    (hes : ∀ i ∈ es, t.graph.isActive i = true) (hid : t.network.hasEdge id = true)
    (hguard : (t.network.edge id).guard? = some guard)
    (hx : ∀ l, l ∈ x.literals ↔ ∃ i ∈ es, (t.network.edge i).guard? = some l)
    (h : t.network.Inconsistent {i | i ∈ id :: es}) :
    (⟨guard.negate, x⟩ : Implication).Valid t.network := by
  refine Network.excludes_of_inconsistent h ?_ ?_
  · intro i hi
    rcases List.mem_cons.mp hi with rfl | hi
    · exact hid
    · exact (ht.active i (hes i hi)).1
  · intro i hi l hl
    rcases List.mem_cons.mp hi with rfl | hi
    · right
      rw [hguard] at hl
      cases hl
      exact (Literal.negate_negate _).symm
    · exact .inl ((hx l).mpr ⟨i, hi, hl⟩)

-- ================================================================== watches

/-- A watch whose threshold is reached: the chain of the potential and
the edge that denies the fact close a negative cycle at the origin. -/
theorem infers_fire (ht : t.Coherent) {w : Watch} (hw : w ∈ t.bindings.watches d node)
    (hreached : t.graph.value d node ≤ w.threshold) (hnone : t.value w.literal = none)
    (hx : t.explainPotential d node .empty = .ok x) : Infers t (t.imply w.literal x) := by
  obtain ⟨chain, hchain, rfl⟩ := explainPotential_eq_ok hx
  obtain ⟨hactive, hlead, hweight⟩ := ht.graph.predecessorChain hchain
  obtain ⟨hvar, id, hid, hguard, hin, htail, hhead, hdeny⟩ := ht.watched d node w hw
  have hmem : ∀ l, l ∈ (Explanation.empty.addGuards t.network chain).literals ↔
      ∃ i ∈ chain, (t.network.edge i).guard? = some l := by
    intro l
    rw [Explanation.mem_addGuards]
    simp [Explanation.empty]
  have hcycle : t.network.Inconsistent {i | i ∈ id :: chain} := by
    have hlead' := hlead.mono (T := {i | i ∈ id :: chain}) fun i hi => List.mem_cons_of_mem id hi
    rw [← htail] at hlead'
    have hclosed := hlead'.snoc List.mem_cons_self hin
    rw [hhead] at hclosed
    exact Network.inconsistent_of_cycle hclosed (by omega)
  have hvalid := valid_of_inconsistent ht hactive hid hguard hmem hcycle
  rw [Literal.negate_negate] at hvalid
  exact infers_imply hnone hvar (fun l hl => ht.guard_true hactive ((hmem l).mp hl)) hvalid

/-- The literals of watches whose thresholds the value has reached. -/
def firing (value : Int) (ws : List Watch) : Set Literal :=
  {l | ∃ w ∈ ws, value ≤ w.threshold ∧ w.literal = l}

/-- The watches of a node are fired in turn. Those whose thresholds are
reached and whose literals have no value imply them, and all others are passed
over. -/
theorem draws_fireWatches (ht : t.Coherent) {ws : List Watch}
    (hws : ∀ w ∈ ws, w ∈ t.bindings.watches d node) (hvalue : t.graph.value d node = value)
    (h : t.fireWatches d node value ws = .ok t') : Draws (firing value ws) t t' := by
  induction ws generalizing t with
  | nil =>
      cases h
      exact draws_of_decided fun l ⟨w, hw, _⟩ => absurd hw List.not_mem_nil
  | cons w ws ih =>
      have hunion : firing value (w :: ws) = firing value [w] ∪ firing value ws := by
        ext l
        simp [firing]
      -- what comes after the first watch is drawn by induction: graph and watches have
      -- stayed the same
      have hrest : ∀ t₁, Draws (firing value [w]) t t₁ →
          t₁.fireWatches d node value ws = .ok t' → Draws (firing value (w :: ws)) t t' := by
        intro t₁ hdraws hrun
        rw [hunion]
        refine hdraws.trans (ih (hdraws.coherent ht) (fun w' hw' => ?_) ?_ hrun)
        · rw [hdraws.steps.sameProblem.bindings]
          exact hws w' (List.mem_cons_of_mem w hw')
        · rw [hdraws.graph]
          exact hvalue
      unfold fireWatches at h
      split at h
      -- the threshold is reached and the literal has no value: it is implied
      next hfire =>
        simp only [Checked.bind_eq_ok, Checked.pure_eq_ok] at h
        obtain ⟨x, hx, _, rfl, hrun⟩ := h
        have hreached : t.graph.value d node ≤ w.threshold := hvalue ▸ hfire.1
        have hvar := (ht.watched d node w (hws w List.mem_cons_self)).1
        have hsingle : firing value [w] = {w.literal} := by
          ext l
          simp [firing, hfire.1, eq_comm]
        refine hrest _ ?_ hrun
        rw [hsingle]
        exact draws_of_infers (infers_fire ht (hws w List.mem_cons_self) hreached hfire.2 hx)
          (value_imply hfire.2 hvar x)
      next hquiet =>
        simp only [Checked.bind_eq_ok, Checked.pure_eq_ok] at h
        obtain ⟨_, rfl, hrun⟩ := h
        refine hrest _ (draws_of_decided fun l hl hnone => ?_) hrun
        obtain ⟨w', hw', hle, rfl⟩ := hl
        obtain rfl := List.mem_singleton.mp hw'
        exact hquiet ⟨hle, hnone⟩

-- ========================================================== edges without room

/-- An edge that has no schedule together with edges in force is ruled out by
their guards. -/
theorem infers_ruleOut (ht : t.Coherent) (es : List EdgeId) {guard : Literal}
    (hes : ∀ i ∈ es, t.graph.isActive i = true) (hid : t.network.hasEdge id = true)
    (hguard : (t.network.edge id).guard? = some guard) (hnone : t.value guard = none)
    (hx : ∀ l, l ∈ x.literals ↔ ∃ i ∈ es, (t.network.edge i).guard? = some l)
    (h : t.network.Inconsistent {i | i ∈ id :: es}) : Infers t (t.ruleOut guard x) := by
  have hvar := ht.guard id guard hid hguard
  have hvalid := valid_of_inconsistent ht hes hid hguard hx h
  have hnone' : t.value guard.negate = none := value_negate_eq_none.mpr hnone
  have hcounted := infers_counted t
    { t.stats with edgePropagations := t.stats.edgePropagations + 1 }
  exact hcounted.trans (infers_imply hnone' hvar (fun l hl => ht.guard_true hes ((hx l).mp hl))
    hvalid)

/-- A loop of negative weight is a cycle by itself. -/
theorem inconsistent_of_loop {net : Network} (hloop : (net.edge id).isLoop = true)
    (hweight : (net.edge id).weight < 0) : net.Inconsistent {i | i ∈ [id]} := by
  obtain ⟨d, hin⟩ := (net.edge id).exists_isIn
  have hends : (net.edge id).source = (net.edge id).target := by
    simpa [Edge.isLoop] using hloop
  have hlead := Network.Leads.edge (S := {i | i ∈ [id]}) List.mem_cons_self hin
  have hclosed : (net.edge id).head d = (net.edge id).tail d := by
    cases d with
    | forward => exact hends.symm
    | backward => exact hends
  rw [hclosed] at hlead
  exact Network.inconsistent_of_cycle hlead hweight

/-- An edge that does not fit between the upper bound of its source and
the lower bound of its target has no room in any view that it is in. -/
theorem inconsistent_of_noRoom (ht : t.Coherent) {there back : List EdgeId}
    (hthere : t.graph.predecessorChain t.network .forward (t.network.edge id).source = .ok there)
    (hback : t.graph.predecessorChain t.network .backward (t.network.edge id).target = .ok back)
    (hslack : t.graph.value .forward (t.network.edge id).source + (t.network.edge id).weight
      + t.graph.value .backward (t.network.edge id).target < 0) :
    t.network.Inconsistent {i | i ∈ id :: (there ++ back)} := by
  obtain ⟨-, hleadThere, hweightThere⟩ := ht.graph.predecessorChain hthere
  obtain ⟨-, hleadBack, hweightBack⟩ := ht.graph.predecessorChain hback
  have hleadThere' := hleadThere.mono (T := {i | i ∈ id :: (there ++ back)}) fun i hi =>
    List.mem_cons_of_mem id (List.mem_append_left back hi)
  have hleadBack' := hleadBack.mono (T := {i | i ∈ id :: (there ++ back)}) fun i hi =>
    List.mem_cons_of_mem id (List.mem_append_right there hi)
  obtain ⟨d, hin⟩ := (t.network.edge id).exists_isIn
  cases d with
  | forward =>
      have hlong := hleadThere'.snoc List.mem_cons_self hin
      exact Network.inconsistent_of_crossing hlong hleadBack' (by omega)
  | backward =>
      have hlong := hleadBack'.snoc List.mem_cons_self hin
      exact Network.inconsistent_of_crossing hleadThere' hlong (by omega)

/-- Such an edge is ruled out by the chains of both bounds. -/
theorem infers_noRoom (ht : t.Coherent) {guard : Literal} (hid : t.network.hasEdge id = true)
    (hguard : (t.network.edge id).guard? = some guard) (hnone : t.value guard = none)
    (hx : t.explainPotential .forward (t.network.edge id).source .empty = .ok x)
    (hy : t.explainPotential .backward (t.network.edge id).target x = .ok y)
    (hslack : t.graph.value .forward (t.network.edge id).source + (t.network.edge id).weight
      + t.graph.value .backward (t.network.edge id).target < 0) : Infers t (t.ruleOut guard y) := by
  obtain ⟨there, hthere, rfl⟩ := explainPotential_eq_ok hx
  obtain ⟨back, hback, rfl⟩ := explainPotential_eq_ok hy
  refine infers_ruleOut ht (there ++ back) (fun i hi => ?_) hid hguard hnone (fun l => ?_)
    (inconsistent_of_noRoom ht hthere hback hslack)
  · rcases List.mem_append.mp hi with hi | hi
    · exact (ht.graph.predecessorChain hthere).1 i hi
    · exact (ht.graph.predecessorChain hback).1 i hi
  · rw [Explanation.mem_addGuards, Explanation.mem_addGuards]
    simp only [Explanation.empty, List.not_mem_nil, false_or, List.mem_append, or_and_right,
      exists_or]

/-- How much room there is for the edge between the bounds of its ends. A
loop has the room that its weight leaves. -/
def slack (t : Theory) (id : EdgeId) : Int :=
  if (t.network.edge id).isLoop then (t.network.edge id).weight
  else t.graph.value .forward (t.network.edge id).source + (t.network.edge id).weight
    + t.graph.value .backward (t.network.edge id).target

/-- The literals that deny edges of the list for which there is no room. -/
def ruledOut (t : Theory) (ids : List EdgeId) : Set Literal :=
  {l | ∃ id ∈ ids, (t.network.edge id).guard? = some l.negate ∧ t.slack id < 0}

/-- The bounds decide which edges are out of reach, and inference leaves them
alone. -/
theorem Infers.ruledOut (h : Infers t t') (ids : List EdgeId) :
    t'.ruledOut ids = t.ruledOut ids := by
  unfold Theory.ruledOut slack
  rw [h.graph, h.same.network]

/-- A single edge is out of reach if it has no room. -/
theorem mem_ruledOut_singleton :
    l ∈ t.ruledOut [id] ↔ (t.network.edge id).guard? = some l.negate ∧ t.slack id < 0 := by
  simp [ruledOut]

theorem ruledOut_cons (t : Theory) (id : EdgeId) (ids : List EdgeId) :
    t.ruledOut (id :: ids) = t.ruledOut [id] ∪ t.ruledOut ids := by
  ext l
  simp [ruledOut]

/-- Ruling out one edge. -/
theorem draws_ruleOut {guard : Literal} (hinfers : Infers t (t.ruleOut guard x))
    (hvar : t.hasVariable guard.var = true) (hnone : t.value guard = none) :
    Draws {guard.negate} t (t.ruleOut guard x) := by
  have hnone' : t.value guard.negate = none := value_negate_eq_none.mpr hnone
  exact draws_of_infers hinfers fun m => value_imply (t := { t with
    stats := { t.stats with edgePropagations := t.stats.edgePropagations + 1 } }) hnone' hvar x m

/-- The one literal that denies an edge is the negation of its guard. -/
theorem ruledOut_eq {guard : Literal} (hguard : (t.network.edge id).guard? = some guard)
    (hslack : t.slack id < 0) : t.ruledOut [id] = {guard.negate} := by
  ext l
  rw [mem_ruledOut_singleton, hguard, Option.some.injEq, Set.mem_singleton_iff]
  constructor
  · rintro ⟨rfl, -⟩
    exact (Literal.negate_negate l).symm
  · rintro rfl
    exact ⟨(Literal.negate_negate guard).symm, hslack⟩

/-- An edge for which there is room, or without a guard, or whose guard
has a value, rules out nothing new. -/
theorem draws_checkRoom_self (h : t.slack id < 0 → ∀ guard,
    (t.network.edge id).guard? = some guard → t.value guard ≠ none) :
    Draws (t.ruledOut [id]) t t := by
  refine draws_of_decided fun l hl => ?_
  obtain ⟨hguard, hslack⟩ := mem_ruledOut_singleton.mp hl
  exact value_negate_eq_none.not.mp (h hslack _ hguard)

/-- The edge is ruled out if it has no room between the bounds of its ends,
and its guard no value. -/
theorem draws_checkRoom (ht : t.Coherent) (hid : t.network.hasEdge id = true)
    (h : t.checkRoom id = .ok t') : Draws (t.ruledOut [id]) t t' := by
  unfold checkRoom at h
  simp only at h
  cases hguard : (t.network.edge id).guard? with
  | none =>
      rw [hguard] at h
      cases h
      exact draws_checkRoom_self fun _ guard hg => by simp [hguard] at hg
  | some guard =>
      rw [hguard] at h
      simp only at h
      split at h
      next hset =>
        cases h
        refine draws_checkRoom_self fun _ g hg => ?_
        rw [hguard, Option.some.injEq] at hg
        exact hg ▸ Option.isSome_iff_ne_none.mp hset
      next hunset =>
        have hnone : t.value guard = none := Option.not_isSome_iff_eq_none.mp hunset
        -- both ways of ruling the edge out set the same literal
        have hdraws : ∀ x, t.slack id < 0 → Infers t (t.ruleOut guard x) →
            Draws (t.ruledOut [id]) t (t.ruleOut guard x) := by
          intro x hslack hinfers
          rw [ruledOut_eq hguard hslack]
          exact draws_ruleOut hinfers (ht.guard id guard hid hguard) hnone
        split at h
        -- the slack of a loop is its weight
        next hloop =>
          have hslack : t.slack id = (t.network.edge id).weight := if_pos hloop
          split at h
          next hweight =>
            cases h
            refine hdraws _ (hslack ▸ hweight) (infers_ruleOut ht [] (fun i hi => absurd hi
              List.not_mem_nil) hid hguard hnone (fun l => ?_) (inconsistent_of_loop hloop hweight))
            simp [Explanation.empty]
          next hweight =>
            cases h
            exact draws_checkRoom_self fun hneg => absurd (hslack ▸ hneg) hweight
        -- that of any other edge is left by the bounds of its ends
        next hloop =>
          have hdef : t.slack id = _ := if_neg hloop
          simp only [Checked.bind_eq_ok, int32_eq_ok] at h
          obtain ⟨reach, ⟨-, rfl⟩, slack, ⟨-, rfl⟩, h⟩ := h
          split at h
          next hslack =>
            simp only [Checked.bind_eq_ok, Checked.pure_eq_ok] at h
            obtain ⟨x, hx, y, hy, rfl⟩ := h
            exact hdraws y (hdef ▸ hslack) (infers_noRoom ht hid hguard hnone hx hy hslack)
          next hslack =>
            cases h
            exact draws_checkRoom_self fun hneg => absurd (hdef ▸ hneg) hslack

/-- Edges are looked at in turn. -/
theorem draws_checkRoomAll (ht : t.Coherent) (hids : ∀ i ∈ ids, t.network.hasEdge i = true)
    (h : t.checkRoomAll ids = .ok t') : Draws (t.ruledOut ids) t t' := by
  induction ids generalizing t with
  | nil =>
      cases h
      exact draws_of_decided fun l ⟨i, hi, _⟩ => absurd hi List.not_mem_nil
  | cons id rest ih =>
      simp only [checkRoomAll, Checked.bind_eq_ok] at h
      obtain ⟨t₁, hfirst, hrest⟩ := h
      have hdraws := draws_checkRoom ht (hids id List.mem_cons_self) hfirst
      rw [ruledOut_cons, ← hdraws.ruledOut rest]
      refine hdraws.trans (ih (hdraws.coherent ht) (fun i hi => ?_) hrest)
      rw [hdraws.steps.sameProblem.network]
      exact hids i (List.mem_cons_of_mem id hi)

-- ============================================================ lowered nodes

/-- What is to be noticed at nodes that were lowered: watches that fire,
and at the levels that use bounds edges without room. -/
def noticed (t : Theory) (lowered : List (Direction × Timepoint)) : Set Literal :=
  {l | ∃ p ∈ lowered, l ∈ firing (t.graph.value p.1 p.2) (t.bindings.watches p.1 p.2) ∨
    t.config.propagation.usesBounds = true ∧ l ∈ t.ruledOut (t.network.guardedAt p.1 p.2)}

/-- What is noticed at the nodes that were lowered depends on the bounds
alone. -/
theorem Infers.noticed (h : Infers t t') (lowered : List (Direction × Timepoint)) :
    t'.noticed lowered = t.noticed lowered := by
  unfold Theory.noticed
  simp only [h.ruledOut, h.graph, h.same.bindings, h.same.config, h.same.network]

theorem noticed_cons (t : Theory) (p : Direction × Timepoint)
    (lowered : List (Direction × Timepoint)) :
    t.noticed (p :: lowered) = t.noticed [p] ∪ t.noticed lowered := by
  ext l
  simp [noticed]

/-- At each node that was lowered the watches are fired, and at the levels
that use bounds its guarded edges are looked at. What is drawn is the union
over the nodes, as the bounds stay what they are meanwhile. -/
theorem draws_onLowered (ht : t.Coherent) {lowered : List (Direction × Timepoint)}
    (h : t.onLowered lowered = .ok t') : Draws (t.noticed lowered) t t' := by
  induction lowered generalizing t with
  | nil =>
      cases h
      exact draws_of_decided fun l ⟨p, hp, _⟩ => absurd hp List.not_mem_nil
  | cons p rest ih =>
      obtain ⟨d, node⟩ := p
      -- what comes after the first node is drawn by induction: the bounds have stayed
      -- the same
      have hrest : ∀ t₁, Draws (t.noticed [(d, node)]) t t₁ → t₁.onLowered rest = .ok t' →
          Draws (t.noticed ((d, node) :: rest)) t t' := by
        intro t₁ hdraws hrun
        rw [noticed_cons, ← hdraws.noticed rest]
        exact hdraws.trans (ih (hdraws.coherent ht) hrun)
      simp only [onLowered, Checked.bind_eq_ok] at h
      obtain ⟨t₁, hwatches, h⟩ := h
      have hfired := draws_fireWatches ht (fun w hw => hw) rfl hwatches
      have ht₁ := hfired.coherent ht
      split at h
      -- both kinds of consequences, one after the other
      next hbounds =>
        simp only [Checked.bind_eq_ok] at h
        obtain ⟨t₂, hroom, hrun⟩ := h
        have hchecked := draws_checkRoomAll ht₁
          (fun i hi => ((ht₁.network.guarded d node i).mp hi).1) hroom
        have hnoticed : t.noticed [(d, node)] =
            firing (t.graph.value d node) (t.bindings.watches d node) ∪
              t₁.ruledOut (t₁.network.guardedAt d node) := by
          rw [hfired.ruledOut, hfired.same.network]
          rw [hfired.same.config] at hbounds
          ext l
          simp [noticed, hbounds]
        refine hrest t₂ ?_ hrun
        rw [hnoticed]
        exact hfired.trans hchecked
      next hbounds =>
        simp only [Checked.bind_eq_ok, Checked.pure_eq_ok] at h
        obtain ⟨_, rfl, hrun⟩ := h
        have hnoticed : t.noticed [(d, node)] =
            firing (t.graph.value d node) (t.bindings.watches d node) := by
          rw [hfired.same.config] at hbounds
          ext l
          simp [noticed, hbounds]
        refine hrest _ ?_ hrun
        rw [hnoticed]
        exact hfired

-- ======================================================= cycles through an edge

/-- The edge, which leaves the node, closes a negative cycle with `e` and
the paths that two searches found. -/
structure Closes (t : Theory) (e : Edge) (after before : PathSearch) (node : Timepoint)
    (id : EdgeId) : Prop where
  edge : t.network.hasEdge id = true
  source : (t.network.edge id).source = node
  shared : (t.network.edge id).isShared = true
  negative : ∃ toNode fromTarget, after.distance? t.graph node = .ok (some toNode) ∧
    before.distance? t.graph (t.network.edge id).target = .ok (some fromTarget) ∧
      toNode + (t.network.edge id).weight + fromTarget + e.weight < 0

/-- The edge is a candidate and closes a negative cycle with `e`, where its
source is reached at the distance. -/
def ClosesFrom (t : Theory) (e : Edge) (before : PathSearch) (toNode : Int) (id : EdgeId) : Prop :=
  t.isCandidate (t.network.edge id) = true ∧ ∃ fromTarget,
    before.distance? t.graph (t.network.edge id).target = .ok (some fromTarget) ∧
      toNode + (t.network.edge id).weight + fromTarget + e.weight < 0

section
variable {e : Edge} {before : PathSearch} {toNode : Int} {reached : List (Timepoint × Int)}
  {found : List (Timepoint × EdgeId)}

/-- The first edge is reported if it closes a cycle. -/
theorem closingAt_cons (h : t.closingAt e before node toNode (id :: ids) = .ok found) :
    ∃ closes others, t.closingAt e before node toNode ids = .ok others ∧
      (closes = true ↔ t.ClosesFrom e before toNode id) ∧
      found = if closes then (node, id) :: others else others := by
  unfold closingAt at h
  simp only at h
  split at h
  next hcandidate =>
    simp only [Checked.bind_eq_ok] at h
    obtain ⟨distance, hdistance, h⟩ := h
    cases distance with
    | none =>
        simp only [Checked.bind_eq_ok, Checked.pure_eq_ok] at h
        obtain ⟨_, rfl, others, hothers, rfl⟩ := h
        exact ⟨false, others, hothers, by simp [ClosesFrom, hdistance], rfl⟩
    | some fromTarget =>
        simp only [Checked.bind_eq_ok, Checked.pure_eq_ok, int32_eq_ok] at h
        obtain ⟨_, ⟨-, rfl⟩, _, ⟨-, rfl⟩, _, ⟨-, rfl⟩, closes, rfl, others, hothers, rfl⟩ := h
        exact ⟨_, others, hothers, by simp [ClosesFrom, hcandidate, hdistance], rfl⟩
  next hcandidate =>
    simp only [Checked.bind_eq_ok, Checked.pure_eq_ok] at h
    obtain ⟨_, rfl, others, hothers, rfl⟩ := h
    exact ⟨false, others, hothers, by simp [ClosesFrom, hcandidate], rfl⟩

/-- What is found at a node: the candidates that close a negative cycle. -/
theorem mem_closingAt (h : t.closingAt e before node toNode ids = .ok found)
    (p : Timepoint × EdgeId) :
    p ∈ found ↔ p.1 = node ∧ p.2 ∈ ids ∧ t.ClosesFrom e before toNode p.2 := by
  induction ids generalizing found with
  | nil =>
      cases h
      simp
  | cons id rest ih =>
      obtain ⟨closes, others, hothers, hcloses, rfl⟩ := closingAt_cons h
      have hsplit : p ∈ (if closes then (node, id) :: others else others) ↔
          (closes = true ∧ p = (node, id)) ∨ p ∈ others := by
        cases closes <;> simp
      rw [hsplit, hcloses, ih hothers, List.mem_cons]
      constructor
      · rintro (⟨hfirst, rfl⟩ | ⟨hnode, hmem, hrest⟩)
        · exact ⟨rfl, .inl rfl, hfirst⟩
        · exact ⟨hnode, .inr hmem, hrest⟩
      · rintro ⟨hnode, heq | hmem, hrest⟩
        · exact .inl ⟨heq ▸ hrest, Prod.ext hnode heq⟩
        · exact .inr ⟨hnode, hmem, hrest⟩

/-- What is found at the nodes that were reached. -/
theorem mem_closing (h : t.closing e before reached = .ok found) (p : Timepoint × EdgeId) :
    p ∈ found ↔ ∃ toNode, (p.1, toNode) ∈ reached ∧ p.2 ∈ t.network.guardedAt .forward p.1 ∧
      t.ClosesFrom e before toNode p.2 := by
  induction reached generalizing found with
  | nil =>
      cases h
      simp
  | cons first rest ih =>
      obtain ⟨node, toNode⟩ := first
      simp only [closing, Checked.bind_eq_ok, Checked.pure_eq_ok] at h
      obtain ⟨here, hhere, others, hothers, rfl⟩ := h
      rw [List.mem_append, mem_closingAt hhere, ih hothers]
      constructor
      · rintro (⟨rfl, hrest⟩ | ⟨toNode', hmem, hrest⟩)
        · exact ⟨toNode, List.mem_cons_self, hrest⟩
        · exact ⟨toNode', List.mem_cons_of_mem _ hmem, hrest⟩
      · rintro ⟨toNode', hmem, hrest⟩
        rcases List.mem_cons.mp hmem with heq | hmem
        · cases heq
          exact .inl ⟨rfl, hrest⟩
        · exact .inr ⟨toNode', hmem, hrest⟩

end

/-- Candidates are edges of both views. -/
theorem isShared_of_isCandidate {e : Edge} (h : t.isCandidate e = true) : e.isShared = true := by
  unfold isCandidate at h
  exact (Bool.and_eq_true_iff.mp h).1

/-- Whatever is listed closes a negative cycle, by the distances that the
searches report. -/
theorem closes_of_closing (ht : t.Coherent) {e : Edge} {after before : PathSearch}
    {reached : List (Timepoint × Int)} {found : List (Timepoint × EdgeId)}
    (hreached : ∀ p ∈ reached, after.distance? t.graph p.1 = .ok (some p.2))
    (h : t.closing e before reached = .ok found) :
    ∀ p ∈ found, Closes t e after before p.1 p.2 := by
  intro p hp
  obtain ⟨toNode, hmem, hguarded, hcandidate, fromTarget, hfrom, hneg⟩ := (mem_closing h p).mp hp
  obtain ⟨hedge, -, hsource⟩ := (ht.network.guarded .forward p.1 p.2).mp hguarded
  exact ⟨hedge, hsource, isShared_of_isCandidate hcandidate, toNode, fromTarget,
    hreached _ hmem, hfrom, hneg⟩

/-- The two searches around an edge in force, along shared edges. -/
structure Around (t : Theory) (id : EdgeId) (after before : PathSearch) : Prop where
  active : t.graph.isActive id = true
  shared : (t.network.edge id).isShared = true
  accountedAfter : after.Accounted t.network t.graph true
  afterView : after.view = .forward
  afterStart : after.start = (t.network.edge id).target
  accountedBefore : before.Accounted t.network t.graph true
  beforeView : before.view = .backward
  beforeStart : before.start = (t.network.edge id).source

/-- The new edge, a path from its target, the candidate and a path back
to its source form a closed walk of negative weight. -/
theorem inconsistent_of_closes {e : EdgeId} {after before : PathSearch}
    {there back : List EdgeId} (haround : Around t e after before)
    (h : Closes t (t.network.edge e) after before node id)
    (hthere : after.pathTo t.network t.graph node = .ok there)
    (hback : before.pathTo t.network t.graph (t.network.edge id).target = .ok back) :
    t.network.Inconsistent {i | i ∈ id :: e :: (there ++ back)} := by
  obtain ⟨toNode, fromTarget, htoNode, hfromTarget, hneg⟩ := h.negative
  obtain ⟨-, hleadThere, hweightThere⟩ := haround.accountedAfter.pathTo htoNode hthere
  obtain ⟨hallBack, hleadBack, hweightBack⟩ := haround.accountedBefore.pathTo hfromTarget hback
  rw [haround.afterView, haround.afterStart] at hleadThere
  rw [haround.beforeView, haround.beforeStart] at hleadBack
  have hshared : ∀ i ∈ {i | i ∈ back}, (t.network.edge i).isShared = true :=
    fun i hi => (hallBack i hi).2.2 rfl
  have hback' := (Network.leads_forward_iff hshared).mpr
    ((Network.leads_backward_iff hshared).mp hleadBack)
  have hto := hleadThere.mono (T := {i | i ∈ id :: e :: (there ++ back)}) fun i hi =>
    List.mem_cons_of_mem id (List.mem_cons_of_mem e (List.mem_append_left back hi))
  have hfrom := hback'.mono (T := {i | i ∈ id :: e :: (there ++ back)}) fun i hi =>
    List.mem_cons_of_mem id (List.mem_cons_of_mem e (List.mem_append_right there hi))
  have hnew : t.network.Leads {i | i ∈ id :: e :: (there ++ back)} .forward
      (t.network.edge e).source (t.network.edge e).target (t.network.edge e).weight :=
    Network.Leads.edge (List.mem_cons_of_mem id List.mem_cons_self)
      (Edge.isIn_of_isShared haround.shared .forward)
  rw [← h.source] at hto
  have hcandidate := hto.snoc List.mem_cons_self (Edge.isIn_of_isShared h.shared .forward)
  exact Network.inconsistent_of_cycle ((hnew.trans hcandidate).trans hfrom) (by omega)

/-- The literals that deny edges which were found. -/
def denied (net : Network) (found : List (Timepoint × EdgeId)) : Set Literal :=
  {l | ∃ p ∈ found, (net.edge p.2).guard? = some l.negate}

theorem denied_cons (net : Network) (p : Timepoint × EdgeId) (found : List (Timepoint × EdgeId)) :
    denied net (p :: found) = denied net [p] ∪ denied net found := by
  ext l
  simp [denied]

/-- A guarded edge is denied by the negation of its guard. -/
theorem denied_singleton {net : Network} {guard : Literal} {p : Timepoint × EdgeId}
    (hguard : (net.edge p.2).guard? = some guard) : denied net [p] = {guard.negate} := by
  ext l
  simp only [denied, List.mem_singleton, exists_eq_left, hguard, Option.some.injEq,
    Set.mem_ofPred_eq, Set.mem_singleton_iff]
  exact ⟨fun heq => heq ▸ (Literal.negate_negate l).symm,
    fun heq => heq ▸ (Literal.negate_negate guard).symm⟩

/-- The edge that closes a cycle is ruled out by the edge in force and the
two paths. -/
theorem infers_closes (ht : t.Coherent) {e : EdgeId} {after before : PathSearch} {guard : Literal}
    {there back : List EdgeId} (haround : Around t e after before)
    (h : Closes t (t.network.edge e) after before node id)
    (hguard : (t.network.edge id).guard? = some guard) (hnone : t.value guard = none)
    (hthere : after.pathTo t.network t.graph node = .ok there)
    (hback : before.pathTo t.network t.graph (t.network.edge id).target = .ok back) :
    Infers t (t.ruleOut guard (Explanation.empty.addGuards t.network (e :: (there ++ back)))) := by
  obtain ⟨_, _, htoNode, hfromTarget, -⟩ := h.negative
  refine infers_ruleOut ht (e :: (there ++ back)) (fun i hi => ?_) h.edge hguard hnone
    (fun l => ?_) (inconsistent_of_closes haround h hthere hback)
  · rcases List.mem_cons.mp hi with rfl | hi
    · exact haround.active
    · rcases List.mem_append.mp hi with hi | hi
      · exact ((haround.accountedAfter.pathTo htoNode hthere).1 i hi).1
      · exact ((haround.accountedBefore.pathTo hfromTarget hback).1 i hi).1
  · rw [Explanation.mem_addGuards]
    simp [Explanation.empty]

/-- The searches speak of a graph and a network that inference leaves
alone. -/
theorem Infers.around {e : EdgeId} {after before : PathSearch} (h : Infers t t')
    (haround : Around t e after before) : Around t' e after before := by
  have hnetwork := h.same.network
  have hgraph := h.graph
  obtain ⟨h₁, h₂, h₃, h₄, h₅, h₆, h₇, h₈⟩ := haround
  refine ⟨?_, ?_, ?_, h₄, ?_, ?_, h₇, ?_⟩
  all_goals simpa only [hnetwork, hgraph]

/-- What closes a negative cycle does so whatever is inferred meanwhile. -/
theorem Infers.closes {e : Edge} {after before : PathSearch} (h : Infers t t')
    (hcloses : Closes t e after before node id) : Closes t' e after before node id := by
  have hnetwork := h.same.network
  have hgraph := h.graph
  obtain ⟨h₁, h₂, h₃, h₄⟩ := hcloses
  refine ⟨?_, ?_, ?_, ?_⟩
  all_goals simpa only [hnetwork, hgraph]

/-- The edges that were found are ruled out in turn, by induction on the list.
An edge without a guard cannot be, and one whose guard has a value need not
be; of both nothing is left to be drawn. An edge that is ruled out sets one
literal, and the searches and what they found are still right for the rest. -/
theorem draws_ruleOutClosing (ht : t.Coherent) {e : EdgeId} {after before : PathSearch}
    {found : List (Timepoint × EdgeId)} (haround : Around t e after before)
    (hfound : ∀ p ∈ found, Closes t (t.network.edge e) after before p.1 p.2)
    (h : t.ruleOutClosing e after before found = .ok t') :
    Draws (denied t.network found) t t' := by
  induction found generalizing t with
  | nil =>
      cases h
      exact draws_of_decided fun l ⟨p, hp, _⟩ => absurd hp List.not_mem_nil
  | cons first rest ih =>
      obtain ⟨node, id⟩ := first
      -- what comes after the first edge is drawn by induction: in the new state the same
      -- is found
      have hrest : ∀ t₁, Draws (denied t.network [(node, id)]) t t₁ →
          t₁.ruleOutClosing e after before rest = .ok t' →
          Draws (denied t.network ((node, id) :: rest)) t t' := by
        intro t₁ hdraws hrun
        have hothers : Draws (denied t₁.network rest) t₁ t' := by
          refine ih (hdraws.coherent ht) (hdraws.around haround) (fun p hp => ?_) hrun
          rw [hdraws.same.network]
          exact hdraws.closes (hfound p (List.mem_cons_of_mem _ hp))
        rw [hdraws.same.network] at hothers
        rw [denied_cons]
        exact hdraws.trans hothers
      have hcloses := hfound _ List.mem_cons_self
      unfold ruleOutClosing at h
      simp only at h
      cases hguard : (t.network.edge id).guard? with
      -- an edge without guard denies nothing
      | none =>
          rw [hguard] at h
          simp only [Checked.bind_eq_ok, Checked.pure_eq_ok] at h
          obtain ⟨_, rfl, hrun⟩ := h
          refine hrest _ (draws_of_decided fun l hl => ?_) hrun
          simp [denied, hguard] at hl
      | some guard =>
          rw [hguard] at h
          rw [denied_singleton hguard] at hrest
          simp only at h
          split at h
          -- a guard with a value is passed over
          next hset =>
            simp only [Checked.bind_eq_ok, Checked.pure_eq_ok] at h
            obtain ⟨_, rfl, hrun⟩ := h
            refine hrest _ (draws_of_decided fun l hl => ?_) hrun
            rw [Set.mem_singleton_iff.mp hl, Ne, value_negate_eq_none]
            exact Option.isSome_iff_ne_none.mp hset
          -- and one without is denied, by the cycle through both edges
          next hunset =>
            simp only [Checked.bind_eq_ok, Checked.pure_eq_ok] at h
            obtain ⟨there, hthere, back, hback, _, rfl, hrun⟩ := h
            have hnone := Option.not_isSome_iff_eq_none.mp hunset
            have hvar := ht.guard id guard hcloses.edge hguard
            exact hrest _ (draws_ruleOut
              (infers_closes ht haround hcloses hguard hnone hthere hback) hvar hnone) hrun

/-- The edges in force that belong to both views. -/
def sharedInForce (t : Theory) : Set EdgeId :=
  {i | t.graph.isActive i = true ∧ (t.network.edge i).isShared = true}

/-- The edge `c` closes a negative cycle with `id`, along shared edges in
force. -/
def ClosesWith (t : Theory) (id c : EdgeId) : Prop :=
  ∃ v w, t.network.Walk t.sharedInForce (t.network.edge id).target (t.network.edge c).source v ∧
    t.network.Walk t.sharedInForce (t.network.edge c).target (t.network.edge id).source w ∧
    v + (t.network.edge c).weight + w + (t.network.edge id).weight < 0

/-- The literals that deny shared edges which close a negative cycle with
`id`. A loop is no part of a longer cycle. -/
def closedBy (t : Theory) (id : EdgeId) : Set Literal :=
  {l | (t.network.edge id).isLoop = false ∧ ∃ c, t.network.hasEdge c = true ∧
    (t.network.edge c).guard? = some l.negate ∧ (t.network.edge c).isShared = true ∧
      t.ClosesWith id c}

/-- Which edges close a negative cycle depends on the edges in force alone. -/
theorem Infers.closesWith (h : Infers t t') : t'.ClosesWith = t.ClosesWith := by
  unfold ClosesWith sharedInForce
  rw [h.graph, h.same.network]

theorem Infers.closedBy (h : Infers t t') (id : EdgeId) : t'.closedBy id = t.closedBy id := by
  unfold Theory.closedBy
  rw [h.closesWith, h.same.network]

/-- Along shared edges both views can be travelled alike. -/
theorem usable_shared (t : Theory) (d : Direction) :
    PathSearch.usable t.network t.graph true d = t.sharedInForce := by
  ext i
  constructor
  · exact fun h => ⟨h.1, h.2.2 rfl⟩
  · exact fun h => ⟨h.1, Edge.isIn_of_isShared h.2 d, fun _ => h.2⟩

/-- The searches around an edge find each edge that closes a negative
cycle with it: what they report are least weights of walks. -/
theorem closesWith_iff (ht : t.Coherent) {e c : EdgeId} {after before : PathSearch}
    (hafter : PathSearch.Covers t.network t.graph true after) (hafterView : after.view = .forward)
    (hafterStart : after.start = (t.network.edge e).target)
    (hbefore : PathSearch.Covers t.network t.graph true before)
    (hbeforeView : before.view = .backward)
    (hbeforeStart : before.start = (t.network.edge e).source)
    (hc : t.network.hasEdge c = true) :
    t.ClosesWith e c ↔ ∃ toNode fromTarget,
      after.distance? t.graph (t.network.edge c).source = .ok (some toNode) ∧
      before.distance? t.graph (t.network.edge c).target = .ok (some fromTarget) ∧
        toNode + (t.network.edge c).weight + fromTarget + (t.network.edge e).weight < 0 := by
  obtain ⟨v, hv, hleastV⟩ := hafter.isLeast_distance? ht.network ht.graph ht.limited
    (ht.network.tail hc .forward)
  obtain ⟨w, hw, hleastW⟩ := hbefore.isLeast_distance? ht.network ht.graph ht.limited
    (ht.network.tail hc .backward)
  have hshared : ∀ i ∈ t.sharedInForce, (t.network.edge i).isShared = true := fun i hi => hi.2
  rw [hafterView, hafterStart, usable_shared] at hleastV
  rw [hbeforeView, hbeforeStart, usable_shared] at hleastW
  simp only [Network.leads_forward_iff hshared] at hleastV
  simp only [Network.leads_backward_iff hshared] at hleastW
  constructor
  · rintro ⟨v', w', hv', hw', hneg⟩
    have hle := hleastV.2 hv'
    have hle' := hleastW.2 hw'
    exact ⟨v, w, hv, hw, by omega⟩
  · rintro ⟨v', w', hv', hw', hneg⟩
    cases hv.symm.trans hv'
    cases hw.symm.trans hw'
    exact ⟨v, w, hleastV.1, hleastW.1, hneg⟩

/-- Two searches along shared edges around an edge in force, to its end and
back from its start, that reach all there is. -/
structure Surveys (t : Theory) (id : EdgeId) (after before : PathSearch) : Prop where
  active : t.graph.isActive id = true
  shared : (t.network.edge id).isShared = true
  coversAfter : after.Covers t.network t.graph true
  afterView : after.view = .forward
  afterStart : after.start = (t.network.edge id).target
  coversBefore : before.Covers t.network t.graph true
  beforeView : before.view = .backward
  beforeStart : before.start = (t.network.edge id).source

theorem Surveys.around {after before : PathSearch} (h : Surveys t id after before) :
    Around t id after before :=
  ⟨h.active, h.shared, h.coversAfter.toAccounted, h.afterView, h.afterStart,
    h.coversBefore.toAccounted, h.beforeView, h.beforeStart⟩

/-- All edges that close a negative cycle with an edge are ruled out, by
whichever searches reached all there is. -/
theorem Surveys.draws (ht : t.Coherent) {after before : PathSearch}
    {reached : List (Timepoint × Int)} {found : List (Timepoint × EdgeId)}
    (h : Surveys t id after before) (hloop : (t.network.edge id).isLoop = false)
    (hreached : after.distances t.graph = .ok reached)
    (hfound : t.closing (t.network.edge id) before reached = .ok found)
    (hrun : t.ruleOutClosing id after before found = .ok t') : Draws (t.closedBy id) t t' := by
  have hcloses := closes_of_closing ht (PathSearch.mem_distances hreached) hfound
  have hiff := fun c => closesWith_iff (c := c) ht h.coversAfter h.afterView h.afterStart
    h.coversBefore h.beforeView h.beforeStart
  refine (draws_ruleOutClosing ht h.around hcloses hrun).congr ?_ ?_
  · rintro l ⟨p, hp, hguard⟩
    obtain ⟨hedge, hsource, hcShared, hnegative⟩ := hcloses p hp
    rw [← hsource] at hnegative
    exact ⟨hloop, p.2, hedge, hguard, hcShared, (hiff p.2 hedge).mpr hnegative⟩
  · rintro l ⟨-, c, hedge, hguard, hcShared, hwith⟩
    by_cases hvalue : t.value l = none
    · -- the candidate is among those that were found, from its source
      obtain ⟨toNode, fromTarget, hto, hfrom, hneg⟩ := (hiff c hedge).mp hwith
      refine .inl ⟨((t.network.edge c).source, c), (mem_closing hfound _).mpr ⟨toNode,
        PathSearch.exists_mem_distances hreached hto, ?_, ?_, fromTarget, hfrom, hneg⟩, hguard⟩
      · refine (ht.network.guarded .forward _ c).mpr ⟨hedge, ?_, rfl⟩
        rw [hguard]
        rfl
      · unfold isCandidate
        simp [hcShared, hguard, hvalue]
    · exact .inr hvalue

/-- The two searches that are run reach all there is, so that all edges that
close a negative cycle with the edge are ruled out. Of a loop nothing is
drawn. -/
theorem draws_ruleOutAround (ht : t.Coherent) (hactive : t.graph.isActive id = true)
    (hshared : (t.network.edge id).isShared = true) (h : t.ruleOutAround id = .ok t') :
    Draws (t.closedBy id) t t' := by
  unfold ruleOutAround at h
  simp only at h
  split at h
  next hloop =>
    cases h
    exact draws_of_decided fun l hl => absurd hloop (by simp [hl.1])
  next hloop =>
    simp only [Checked.bind_eq_ok] at h
    obtain ⟨after, hafter, before, hbefore, reached, hreached, found, hfound, hrun⟩ := h
    have hid := ht.graph.hasEdge hactive
    obtain ⟨hafterCovers, hafterView, hafterStart⟩ := PathSearch.covers_run ht.network ht.limited
      ht.graph (ht.network.head hid .forward) hafter
    obtain ⟨hbeforeCovers, hbeforeView, hbeforeStart⟩ := PathSearch.covers_run ht.network ht.limited
      ht.graph (ht.network.head hid .backward) hbefore
    have hsurveys : Surveys t id after before := ⟨hactive, hshared, hafterCovers, hafterView,
      hafterStart, hbeforeCovers, hbeforeView, hbeforeStart⟩
    exact hsurveys.draws ht (Bool.not_eq_true _ ▸ hloop) hreached hfound hrun

end Theory

end TemporalNetwork
