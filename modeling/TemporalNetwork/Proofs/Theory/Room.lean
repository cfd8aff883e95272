/-
No edge without room waits for its guard.

At the levels that use bounds, a guarded edge that does not fit between
the upper bound of its source and the lower bound of its target is ruled
out at once. `Roomy` says of a state that this was done for every edge,
whichever constructor it came from and whatever was asked since; edges
that were recorded and are yet to be looked at are excepted by a set of
literals.

Room is only lost when a bound is, and bounds are only lowered together
with an edge that is put in force: then all edges at the nodes that were
lowered are looked at, from either end. An edge that is added is looked
at before it is propagated. A level is closed onto the bounds and the
values that there were when it was opened, and these went together.

None of this asks for consistency. A conflict undoes the activation that
it arose in, and so it leaves bounds for which everything was drawn.
-/
import TemporalNetwork.Proofs.Theory.Acts
import TemporalNetwork.Proofs.Theory.Saturation

namespace TemporalNetwork

namespace Theory

variable {t t' u : Theory} {ts : List Theory} {l : Literal} {e : Edge} {f : BoundFact}
  {id : EdgeId} {ids : List EdgeId} {C : Set Literal}

-- ==================================================================== room

/-- The literals that deny edges without room have values, but for those
of the set. -/
def Roomy (t : Theory) (C : Set Literal) : Prop :=
  ∀ id, t.network.hasEdge id = true → ∀ l ∈ t.ruledOut [id], t.value l ≠ none ∨ l ∈ C

theorem roomy_initial (c : Config) : (initial c).Roomy ∅ := by
  intro id hid
  exact absurd (Network.hasEdge_iff.mp hid) (Nat.not_lt_zero _)

/-- What an edge rules out rests on the edge and on the bounds of its
ends. -/
theorem ruledOut_congr (hedge : t'.network.edge id = t.network.edge id)
    (hvalue : ∀ d, t'.graph.value d ((t.network.edge id).tail d)
      = t.graph.value d ((t.network.edge id).tail d)) :
    t'.ruledOut [id] = t.ruledOut [id] := by
  have hforward := hvalue .forward
  have hbackward := hvalue .backward
  simp only [Edge.tail] at hforward hbackward
  have hslack : t'.slack id = t.slack id := by
    unfold slack
    rw [hedge, hforward, hbackward]
  ext l
  rw [mem_ruledOut_singleton, mem_ruledOut_singleton, hedge, hslack]

/-- Edges that were there before lack room no more than they did. -/
theorem Roomy.grow (h : t.Roomy ∅)
    (hruledOut : ∀ id, t'.network.hasEdge id = true → ∀ l ∈ t'.ruledOut [id],
      (t.network.hasEdge id = true ∧ l ∈ t.ruledOut [id]) ∨ l ∈ C)
    (hkept : ∀ l, t.value l ≠ none → t'.value l ≠ none) : t'.Roomy C := by
  intro id hid l hl
  rcases hruledOut id hid l hl with ⟨hold, hlack⟩ | hC
  · rcases h id hold l hlack with hvalue | hempty
    · exact .inl (hkept l hvalue)
    · exact absurd hempty (Set.notMem_empty l)
  · exact .inr hC

/-- Edges without room stay denied. -/
theorem Roomy.keep (h : t.Roomy ∅) (hlasts : Lasts t t') : t'.Roomy ∅ := by
  refine h.grow (fun id hid l hl => .inl ?_) hlasts.kept
  have hsame : t'.ruledOut [id] = t.ruledOut [id] :=
    ruledOut_congr (by rw [hlasts.network]) fun d => by rw [hlasts.value]
  rw [hlasts.network] at hid
  rw [hsame] at hl
  exact ⟨hid, hl⟩

-- ============================================================= propagation

/-- An edge that loses its room is noticed when that happens. -/
theorem Advance.roomy (h : Advance t t') (ht : t.Coherent)
    (huses : t.config.propagation.usesBounds = true) (hroom : t.Roomy ∅) : t'.Roomy ∅ := by
  cases h with
  | idle steps graph known =>
      exact hroom.keep (lasts_of_graph steps.sameProblem.network graph
        fun l hl => steps.value_ne_none hl)
  | activated enabled fresh accepts grounded lowers draws =>
      have hput : Coherent _ := (Step.activated enabled accepts grounded).coherent ht
      intro id hid l hl
      rw [draws.same.network] at hid
      left
      intro hnone
      obtain ⟨hold, -⟩ := room_of_draws accepts hput draws huses hid hl hnone
      rcases hroom id hid l hold with hvalue | hempty
      · exact draws.steps.value_ne_none hvalue hnone
      · exact absurd hempty (Set.notMem_empty l)

theorem Advances.roomy (h : Advances t t') (ht : t.Coherent)
    (huses : t.config.propagation.usesBounds = true) (hroom : t.Roomy ∅) : t'.Roomy ∅ :=
  h.keeps (fun config => config.propagation.usesBounds = true) (fun u => u.Roomy ∅)
    (fun _ _ hadvance hu huses hroom => hadvance.roomy hu huses hroom) ht huses hroom

/-- What was excepted has a value once it was looked at. -/
theorem Prepares.roomy (h : Prepares t C ids t') (hroom : t.Roomy C) : t'.Roomy ∅ := by
  have hnetwork := h.sameProblem.network
  intro id hid l hl
  have hsame : t'.ruledOut [id] = t.ruledOut [id] :=
    ruledOut_congr (by rw [hnetwork]) fun d => by rw [h.graph]
  rw [hnetwork] at hid
  rw [hsame] at hl
  left
  rcases hroom id hid l hl with hvalue | hC
  · exact value_ne_none_of_subset h.changes.trueLiterals_subset hvalue
  · exact h.decided l hC

/-- Once the literals of a commit are drawn, all edges without room are
denied. -/
theorem Commits.roomy (h : Commits t u C t')
    (huses : u.config.propagation.usesBounds = true) (hroom : u.Roomy C) : t'.Roomy ∅ := by
  obtain ⟨ids, t₁, hrecorded, hprepares, hrun⟩ := h
  obtain ⟨-, hadvances⟩ := hrecorded.advances hprepares hrun
  apply hadvances.roomy (hprepares.coherent hrecorded.coherent)
  · rw [hprepares.sameProblem.config]
    exact huses
  · exact hprepares.roomy hroom

-- ================================================================ recording

/-- The edge that is recorded is the only one that may lack room. -/
theorem Roomy.record (h : t.Roomy ∅) (huses : t.config.propagation.usesBounds = true) :
    (t.record e).Roomy (t.ruledOutBy e) := by
  refine h.grow (fun id hid l hl => ?_) fun l hl => hl
  rcases (Network.hasEdge_addEdge e id).mp hid with hnew | hold
  · have hid : id = t.network.edges.nextKey := by
      rw [← Handle.index_inj, HandleVector.index_nextKey]
      exact hnew
    rw [hid] at hl
    exact .inr ⟨huses, hl⟩
  · have hsame : (t.record e).ruledOut [id] = t.ruledOut [id] :=
      ruledOut_congr (Network.edge_addEdge_of_hasEdge hold) fun d => rfl
    rw [hsame] at hl
    exact .inl ⟨hold, hl⟩

/-- Of two edges that are recorded for a literal and its negation, either
may lack room. -/
theorem Roomy.recordFor (h : t.Roomy ∅) {edge negated : Edge}
    (hnetwork : u.network = (t.network.addEdge edge).addEdge negated)
    (hgraph : u.graph.value = t.graph.value) (hvalue : u.value = t.value) (hu : u.Coherent)
    (hedge : edge.guard? = some l) (hnegated : negated.guard? = some l.negate) :
    u.Roomy (u.ruledOutFor l true) := by
  refine h.grow (fun id hid m hm => ?_) fun m hm => by rwa [hvalue]
  -- a new edge is bound to the literal or to its negation, which are both looked at
  have hfor : ∀ g, (u.network.edge id).guard? = some g → g = l ∨ g = l.negate →
      m ∈ u.ruledOutFor l true := by
    intro g hg hgl
    have hbound := (hu.bound g id).mpr ⟨hid, hg⟩
    refine ⟨rfl, id, List.mem_append.mpr ?_, mem_ruledOut_singleton.mp hm⟩
    rcases hgl with rfl | rfl
    · exact .inl hbound
    · exact .inr hbound
  have hid' := hid
  rw [hnetwork] at hid'
  rcases Network.hasEdge_or_eq_of_addEdge hid' with hfirst | hsecond
  · have hsame := Network.edge_addEdge_of_hasEdge (e := negated) hfirst
    rcases Network.hasEdge_or_eq_of_addEdge hfirst with hold | hnew
    · have hold' := Network.edge_addEdge_of_hasEdge (e := edge) hold
      rw [ruledOut_congr (t := t) (by rw [hnetwork, hsame, hold']) fun d => by rw [hgraph]] at hm
      exact .inl ⟨hold, hm⟩
    · refine .inr (hfor l ?_ (.inl rfl))
      rw [hnetwork, hsame, hnew]
      exact hedge
  · refine .inr (hfor l.negate ?_ (.inr rfl))
    rw [hnetwork, hsecond]
    exact hnegated

/-- The edges of a domain have no guards, and no other bound changes. -/
theorem Roomy.addBounded (h : t.Roomy ∅) (ht : t.Coherent) {dom : Domain} {g : ActiveGraph}
    {tp : Timepoint} (hadd : t.graph.addNode tp dom = .ok g) :
    Roomy { t with network := t.network.addBounded dom, graph := g } ∅ := by
  obtain ⟨hadds, -⟩ := ActiveGraph.adds_of_addNode ht.graph.toShaped hadd
  refine h.grow (fun id hid l hl => .inl ?_) fun l hl => hl
  have hguard := (mem_ruledOut_singleton.mp hl).1
  obtain ⟨hold, -⟩ := guarded_addBounded.mp ⟨hid, hguard⟩
  refine ⟨hold, ?_⟩
  rwa [ruledOut_congr (t := t) ((Network.grows_addBounded t.network dom).edge id hold).2
    fun d => hadds.value_of_hasTimepoint ht.graph.toShaped d (ht.network.tail hold d)] at hl

/-- A request of the setup leaves all edges without room denied. -/
theorem Builds.roomy (h : Builds t t') (ht : t.Settled)
    (huses : t.config.propagation.usesBounds = true) (hroom : t.Roomy ∅) : t'.Roomy ∅ := by
  cases h with
  | bounded domain added result =>
      rw [result]
      exact hroom.addBounded ht.coherent added
  | edge commits => exact commits.roomy huses (hroom.record huses)
  | equivalence hedge hnegated commits =>
      obtain ⟨ids, t₁, hrecorded, -⟩ := id commits
      apply commits.roomy huses
      rw [huses]
      exact hroom.recordFor rfl rfl rfl hrecorded.coherent hedge hnegated
  | bound commits =>
      obtain ⟨ids, t₁, hrecorded, -⟩ := id commits
      apply commits.roomy huses
      exact hroom.recordFor rfl rfl rfl hrecorded.coherent (guard?_boundEdge _ _)
        (guard?_boundEdge _ _)

-- ================================================================= requests

/-- Every act leaves room, also in the states that are saved. -/
theorem upheld_roomy :
    Upheld (fun c => c.propagation.usesBounds = true) fun u => u.Roomy ∅ :=
  upheld_of_lasts (fun _ _ hlasts _ hroom => hroom.keep hlasts)
    (fun _ _ hbuilds ht huses hroom => hbuilds.roomy ht huses hroom)
    fun _ _ hadvances ht huses hroom => hadvances.roomy ht huses hroom

variable {c : Config} {rs : List Request}

/-- Requests at levels that use bounds leave room. -/
theorem roomy_of_performAll (hc : c.propagation.usesBounds = true)
    (hrs : ∀ c', .configure c' ∈ rs → c'.propagation.usesBounds = true)
    (h : (initial c).performAll rs = .ok t) : t.Roomy ∅ := by
  obtain ⟨ts, hupholds⟩ := upholds_of_performAll upheld_roomy (fun _ _ hu => hu) hc
    (roomy_initial c) hrs h
  exact hupholds.all t List.mem_cons_self

-- ==================================================================== bounds

theorem PropagationLevel.usesBounds_iff {level : PropagationLevel} :
    level.usesBounds = true ↔ level = .bounds ∨ level = .full := by
  cases level <;> simp [PropagationLevel.usesBounds]

/-- There is room for an edge whose guard has no value: a loop has no
negative weight, and any edge fits between the bounds of its ends. -/
theorem Roomy.le_of_unassigned (h : t.Roomy ∅) (ht : t.Coherent)
    (hid : t.network.hasEdge id = true) {guard : Literal}
    (hguard : (t.network.edge id).guard? = some guard) (hnone : t.value guard = none) :
    t.graph.lower (t.network.edge id).target
        ≤ t.graph.upper (t.network.edge id).source + (t.network.edge id).weight ∧
      ((t.network.edge id).isLoop = true → 0 ≤ (t.network.edge id).weight) := by
  have hslack : 0 ≤ t.slack id := by
    by_contra hneg
    have hmem : guard.negate ∈ t.ruledOut [id] := by
      rw [mem_ruledOut_singleton, Literal.negate_negate]
      exact ⟨hguard, by omega⟩
    rcases h id hid _ hmem with hvalue | hempty
    · exact hvalue (value_negate_eq_none.mpr hnone)
    · exact absurd hempty (Set.notMem_empty _)
  unfold slack at hslack
  show -t.graph.value .backward (t.network.edge id).target
    ≤ t.graph.value .forward (t.network.edge id).source + (t.network.edge id).weight ∧ _
  split at hslack
  next hloop =>
    have hends : (t.network.edge id).source = (t.network.edge id).target := by
      simpa [Edge.isLoop] using hloop
    have huncrossed := ht.graph.uncrossed (t.network.edge id).target
    rw [hends]
    exact ⟨by omega, fun _ => hslack⟩
  next hloop => exact ⟨by omega, fun hc => absurd hc hloop⟩

/-- The lower bound of a timepoint can be read off. -/
theorem lower_eq_ok {x : Timepoint} (hx : t.network.hasTimepoint x = true) :
    t.lower x = .ok (t.graph.lower x) := by
  unfold Theory.lower requireTimepoint
  rw [Checked.require_of hx]
  rfl

/-- The upper bound of a timepoint can be read off. -/
theorem upper_eq_ok {x : Timepoint} (hx : t.network.hasTimepoint x = true) :
    t.upper x = .ok (t.graph.upper x) := by
  unfold Theory.upper requireTimepoint
  rw [Checked.require_of hx]
  rfl

/-- After any history at levels that use bounds, consistent or not, an
edge whose guard has no value fits between the upper bound of its source
and the lower bound of its target, and a loop among them has no negative
weight. -/
theorem unassigned_edge_fits (hc : c.propagation = .bounds ∨ c.propagation = .full)
    (hrs : ∀ c', .configure c' ∈ rs → c'.propagation = .bounds ∨ c'.propagation = .full)
    (h : (initial c).performAll rs = .ok t) (hid : t.network.hasEdge id = true)
    {guard : Literal} (hguard : (t.network.edge id).guard? = some guard)
    (hnone : t.value guard = none) :
    (∃ upper lower, t.upper (t.network.edge id).source = .ok upper ∧
      t.lower (t.network.edge id).target = .ok lower ∧
        ¬ upper + (t.network.edge id).weight < lower) ∧
      ((t.network.edge id).source = (t.network.edge id).target →
        ¬ (t.network.edge id).weight < 0) := by
  have ht := (settled_of_performAll h).coherent
  have hroom := roomy_of_performAll (PropagationLevel.usesBounds_iff.mpr hc)
    (fun c' hc' => PropagationLevel.usesBounds_iff.mpr (hrs c' hc')) h
  obtain ⟨hfits, hloop⟩ := hroom.le_of_unassigned ht hid hguard hnone
  have hsource := ht.network.tail hid .forward
  have htarget := ht.network.tail hid .backward
  refine ⟨⟨_, _, upper_eq_ok hsource, lower_eq_ok htarget, Int.not_lt.mpr hfits⟩, fun hends => ?_⟩
  apply Int.not_lt.mpr
  apply hloop
  unfold Edge.isLoop
  rw [hends]
  exact beq_self_eq_true _

/-- The edge of a reified constraint has just enough room, after a level
was closed and another one opened at another setting. -/
theorem unassigned_edge_fits_reified :
    ∃ t, (initial .standard).performAll
        [.newTimepoint ⟨0, 10⟩, .newTimepoint ⟨5, 9⟩, .newVariable, .newVariable,
          .addConditionalEdge .origin ⟨1⟩ 3 ⟨⟨0⟩, true⟩, .addReifiedEdge ⟨⟨1⟩, true⟩ ⟨1⟩ ⟨2⟩ 2,
          .pushCheckpoint, .assign ⟨⟨0⟩, true⟩, .configure ⟨.full, true⟩, .backtrack .root,
          .pushCheckpoint, .assign ⟨⟨0⟩, true⟩] = .ok t ∧
      t.network.hasEdge ⟨5⟩ = true ∧ (t.network.edge ⟨5⟩).guard? = some ⟨⟨1⟩, true⟩ ∧
      t.value ⟨⟨1⟩, true⟩ = none ∧
      (∃ upper lower, t.upper (t.network.edge ⟨5⟩).source = .ok upper ∧
        t.lower (t.network.edge ⟨5⟩).target = .ok lower ∧
          ¬ upper + (t.network.edge ⟨5⟩).weight < lower) ∧
        ((t.network.edge ⟨5⟩).source = (t.network.edge ⟨5⟩).target →
          ¬ (t.network.edge ⟨5⟩).weight < 0) := by
  have hrun : ((initial .standard).performAll
      [.newTimepoint ⟨0, 10⟩, .newTimepoint ⟨5, 9⟩, .newVariable, .newVariable,
        .addConditionalEdge .origin ⟨1⟩ 3 ⟨⟨0⟩, true⟩, .addReifiedEdge ⟨⟨1⟩, true⟩ ⟨1⟩ ⟨2⟩ 2,
        .pushCheckpoint, .assign ⟨⟨0⟩, true⟩, .configure ⟨.full, true⟩, .backtrack .root,
        .pushCheckpoint, .assign ⟨⟨0⟩, true⟩]).answers (fun t =>
          decide (t.network.hasEdge ⟨5⟩ = true ∧
            (t.network.edge ⟨5⟩).guard? = some ⟨⟨1⟩, true⟩ ∧ t.value ⟨⟨1⟩, true⟩ = none))
      = true := by decide +kernel
  obtain ⟨t, ht, hstate⟩ := Checked.exists_of_answers hrun
  obtain ⟨hid, hguard, hnone⟩ := of_decide_eq_true hstate
  refine ⟨t, ht, hid, hguard, hnone, unassigned_edge_fits (.inl rfl) ?_ ht hid hguard hnone⟩
  intro c' hc'
  simp only [List.mem_cons, List.not_mem_nil, or_false, reduceCtorEq, false_or,
    Request.configure.injEq] at hc'
  exact .inr (hc' ▸ rfl)

end Theory

end TemporalNetwork
