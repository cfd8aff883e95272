/-
A theory at rest, and how its problem grows.

A theory is settled if it is coherent, has no work pending, and leaves no
edge and no watch behind: that is what every request finds and what it
leaves. A request that is accepted extends the problem, which tells the
theory nothing about its literals, and then propagates. `Change` is one
move of either kind; what survives both survives every request at the
root.

An edge is recorded together with the binding of its guard, so that the
theory is coherent again after each edge, also when two of them are
recorded for one literal.

# Between recording and propagating

What was recorded may call for an edge to be put in force, and then that
is left pending, or else for literals to be set, which is done at once.
`Prepares` is what both come to. `Recorded` is what holds of the theory
in which the addition is recorded, and `Commits` the whole of a request:
what was recorded is prepared and propagated, which settles the theory.
-/
import TemporalNetwork.Proofs.Theory.Propagation
import TemporalNetwork.Theory.Setup

namespace TemporalNetwork

namespace Theory

variable {t t' t'' : Theory} {l : Literal} {id : EdgeId} {ids : List EdgeId} {e : Edge}
  {f : BoundFact} {dom : Domain} {C : Set Literal}

-- ================================================================= at rest

/-- The state between two requests. -/
structure Settled (t : Theory) : Prop where
  coherent : t.Coherent
  rest : t.pending = []
  covered : t.Covered []
  fired : t.Fired ∅

/-- Without a conflict each enabled edge is in force. -/
theorem Settled.enabledBy_active (h : t.Settled) (hnone : t.conflict = none)
    (hid : id ∈ t.network.enabledBy t.trueLiterals) : t.graph.isActive id = true := by
  rcases h.covered hnone id hid with hact | hmem | ⟨p, hp, -⟩
  · exact hact
  · exact absurd hmem List.not_mem_nil
  · rw [h.rest] at hp
    exact absurd hp List.not_mem_nil

/-- Without a conflict the edges in force are those whose guards are
true. -/
theorem Settled.isActive_iff (h : t.Settled) (hnone : t.conflict = none) (id : EdgeId) :
    t.graph.isActive id = true ↔ id ∈ t.network.enabledBy t.trueLiterals :=
  ⟨h.coherent.active id, h.enabledBy_active hnone⟩

/-- The theory that there is at first is settled. -/
theorem settled_initial (c : Config) : (initial c).Settled := by
  refine ⟨coherent_initial c, rfl, fun _ id hid => ?_, fun d x w hw => ?_⟩
  · exact absurd (Network.hasEdge_iff.mp hid.1) (Nat.not_lt_zero _)
  · cases d with
    | forward => exact absurd hw List.not_mem_nil
    | backward => exact absurd hw List.not_mem_nil

/-- Propagation settles a theory whose edges are all accounted for. -/
theorem settled_propagate (ht : t.Coherent) (hc : t.Covered []) (hfired : t.Fired ∅)
    (h : t.propagate = .ok t') : t'.Settled ∧ Advances t t' := by
  obtain ⟨hworks, hrest⟩ := works_propagate ht h
  exact ⟨⟨hworks.steps.coherent ht, hrest, hworks.covered hc, hworks.advances.fired hfired⟩,
    hworks.advances⟩

-- =============================================================== extension

/-- The problem grows, and nothing is decided. -/
structure Extended (t t' : Theory) : Prop where
  network : t.network.Grows t'.network
  watches (d : Direction) (x : Timepoint) :
    t.bindings.watches d x ⊆ t'.bindings.watches d x
  size : t.values.size ≤ t'.values.size
  known (v : BoolVar) : t'.known v = t.known v
  assignments : t'.assignments = t.assignments
  implications : t'.implications = t.implications
  log : t'.log = t.log
  graphLog : t'.graph.log = t.graph.log
  conflict : t'.conflict = t.conflict

/-- A larger problem makes no literal true. -/
theorem Extended.trueLiterals (h : Extended t t') : t'.trueLiterals = t.trueLiterals := by
  unfold Theory.trueLiterals
  rw [value_congr h.known]

/-- No variable is given up. -/
theorem Extended.hasVariable (h : Extended t t') {v : BoolVar} (hv : t.hasVariable v = true) :
    t'.hasVariable v = true := by
  have hlt : Handle.index v < t.values.size := (HandleVector.contains_iff _ _).mp hv
  exact (HandleVector.contains_iff _ _).mpr (Nat.lt_of_lt_of_le hlt h.size)

/-- One move at the root: the problem grows, or propagation takes a
step. -/
inductive Change (t t' : Theory) : Prop where
  | extended (h : Extended t t')
  | step (h : Step t t')

/-- Moves at the root, in turn. -/
abbrev Changes : Theory → Theory → Prop := Relation.ReflTransGen Change

theorem Extended.run (h : Extended t t') : Changes t t' := .single (.extended h)

theorem Steps.changes (h : Steps t t') : Changes t t' :=
  Relation.ReflTransGen.mono (fun _ _ hs => Change.step hs) _ _ h

/-- The marks of all saved states are as they were. -/
structure SameLevels (t t' : Theory) : Prop where
  log : t'.log.marks = t.log.marks
  graph : t'.graph.log.marks = t.graph.log.marks
  assignments : t'.assignments.marks = t.assignments.marks
  implications : t'.implications.marks = t.implications.marks

/-- Neither kind of move opens or closes a level. -/
theorem Change.sameLevels (h : Change t t') : SameLevels t t' := by
  cases h with
  | extended h =>
      exact ⟨congrArg _ h.log, congrArg _ h.graphLog, congrArg _ h.assignments,
        congrArg _ h.implications⟩
  | step h =>
      exact ⟨h.sameProblem.logMarks, h.sameProblem.graphMarks, h.sameProblem.assignmentMarks,
        h.sameProblem.implicationMarks⟩

theorem Changes.sameLevels (h : Changes t t') : SameLevels t t' := by
  induction h with
  | refl => exact ⟨rfl, rfl, rfl, rfl⟩
  | tail _ hchange ih =>
      have hlast := hchange.sameLevels
      exact ⟨hlast.log.trans ih.log, hlast.graph.trans ih.graph,
        hlast.assignments.trans ih.assignments, hlast.implications.trans ih.implications⟩

/-- The problem grows, or stays as it is. -/
theorem Change.grows (h : Change t t') : t.network.Grows t'.network := by
  cases h with
  | extended h => exact h.network
  | step h =>
      rw [h.sameProblem.network]
      exact .refl _

theorem Changes.grows (h : Changes t t') : t.network.Grows t'.network := by
  induction h with
  | refl => exact .refl _
  | tail _ hchange ih => exact ih.trans hchange.grows

/-- A fact that is watched stays watched. -/
theorem Change.watches (h : Change t t') (d : Direction) (x : Timepoint) :
    t.bindings.watches d x ⊆ t'.bindings.watches d x := by
  cases h with
  | extended h => exact h.watches d x
  | step h =>
      rw [h.sameProblem.bindings]
      exact List.Subset.refl _

theorem Changes.watches (h : Changes t t') (d : Direction) (x : Timepoint) :
    t.bindings.watches d x ⊆ t'.bindings.watches d x := by
  induction h with
  | refl => exact List.Subset.refl _
  | tail _ hchange ih => exact List.Subset.trans ih (hchange.watches d x)

/-- What is true stays true, also while the problem grows. -/
theorem Change.trueLiterals_subset (h : Change t t') : t.trueLiterals ⊆ t'.trueLiterals := by
  cases h with
  | extended h => rw [h.trueLiterals]
  | step h => exact h.trueLiterals_subset

theorem Changes.trueLiterals_subset (h : Changes t t') : t.trueLiterals ⊆ t'.trueLiterals := by
  induction h with
  | refl => exact Set.Subset.refl _
  | tail _ hchange ih => exact ih.trans hchange.trueLiterals_subset

/-- A conflict stays. -/
theorem Change.conflict_eq_none (h : Change t t') (hnone : t'.conflict = none) :
    t.conflict = none := by
  cases h with
  | extended h => exact h.conflict.symm.trans hnone
  | step h =>
      cases h with
      | implied hfree hvar htrue hvalid =>
          rw [imply_of_none hfree, setLiteral_of_none hfree] at hnone
          exact hnone
      | refuted hfree henabled hvalid => exact hfree
      | counted stats => exact hnone
      | dropped sub => exact hnone
      | activated henabled haccepts hgrounded => exact hnone

theorem Changes.conflict_eq_none (h : Changes t t') (hnone : t'.conflict = none) :
    t.conflict = none := by
  induction h with
  | refl => exact hnone
  | tail _ hchange ih => exact ih (hchange.conflict_eq_none hnone)

/-- Variables are kept, whichever the move. -/
theorem Change.hasVariable (h : Change t t') {v : BoolVar} (hv : t.hasVariable v = true) :
    t'.hasVariable v = true := by
  cases h with
  | extended h => exact h.hasVariable hv
  | step h =>
      rw [h.sameProblem.hasVariable]
      exact hv

theorem Changes.hasVariable (h : Changes t t') {v : BoolVar} (hv : t.hasVariable v = true) :
    t'.hasVariable v = true := by
  induction h with
  | refl => exact hv
  | tail _ hchange ih => exact hchange.hasVariable ih

-- ========================================================= recording edges

/-- The theory with one edge more, bound to its guard. -/
def record (t : Theory) (e : Edge) : Theory :=
  { (t.recordEdge e).1 with
    bindings := match e.guard? with
      | none => t.bindings
      | some g => t.bindings.addEdge g t.network.edges.nextKey }

theorem network_record (t : Theory) (e : Edge) : (t.record e).network = t.network.addEdge e := rfl

theorem record_of_permanent (h : e.guard? = none) : t.record e = (t.recordEdge e).1 := by
  unfold record
  rw [h]
  rfl

/-- An edge that has a guard is listed under it. -/
theorem record_of_guarded {g : Literal} (h : e.guard? = some g) :
    t.record e = { (t.recordEdge e).1 with
      bindings := t.bindings.addEdge g t.network.edges.nextKey } := by
  unfold record
  rw [h]

/-- Under its guard, and nowhere else, there is one edge more. -/
theorem mem_edgesOf_record : id ∈ (t.record e).bindings.edgesOf l ↔
    id ∈ t.bindings.edgesOf l ∨ e.guard? = some l ∧ id = t.network.edges.nextKey := by
  unfold record
  cases hg : e.guard? with
  | none => simp
  | some g =>
      simp only [Bindings.mem_edgesOf_addEdge, Option.some.injEq]
      rw [eq_comm]

/-- Edges are no watches. -/
theorem watches_record (d : Direction) (tp : Timepoint) :
    (t.record e).bindings.watches d tp = t.bindings.watches d tp := by
  unfold record
  cases e.guard? with
  | none => rfl
  | some g => exact Bindings.watches_addEdge _ _ _ _ _

/-- To record an edge extends the problem. -/
theorem extended_record (t : Theory) (e : Edge) : Extended t (t.record e) where
  network := Network.grows_addEdge _ _
  watches d x := by
    rw [watches_record]
    exact List.Subset.refl _
  size := Nat.le_refl _
  known _ := rfl
  assignments := rfl
  implications := rfl
  log := rfl
  graphLog := rfl
  conflict := rfl

/-- The theory has the ends of the edge and its guard, and the weight is
within the limits. -/
structure Recordable (t : Theory) (e : Edge) : Prop where
  source : t.network.hasTimepoint e.source = true
  target : t.network.hasTimepoint e.target = true
  guard (g : Literal) : e.guard? = some g → t.hasVariable g.var = true
  weight : -maxMagnitude ≤ e.weight ∧ e.weight ≤ maxMagnitude

/-- What can be recorded still can be when the problem has changed. -/
theorem Recordable.changes (h : Recordable t e) (hchanges : Changes t t') : Recordable t' e where
  source := (hchanges.grows.timepoint _ h.source).1
  target := (hchanges.grows.timepoint _ h.target).1
  guard g hg := hchanges.hasVariable (h.guard g hg)
  weight := h.weight

/-- An edge that is recorded leaves a theory coherent. It is not in force, so
that what is known of the graph, of the values and of a conflict is known of a
larger problem, and no more. -/
theorem Coherent.record (ht : t.Coherent) (he : Recordable t e) : (t.record e).Coherent := by
  have hgrows : t.network.Grows (t.network.addEdge e) := Network.grows_addEdge _ _
  have hnew : ∀ i : EdgeId, i = t.network.edges.nextKey ↔ i.index = t.network.numEdges := by
    intro i
    rw [← Handle.index_inj, HandleVector.index_nextKey]
    rfl
  refine ⟨ht.network.addEdge he.source he.target, ht.enforced.addEdge e,
    ht.limited.addEdge he.weight, ht.graph.addEdge e, ?_, ?_, ?_, ht.assigned,
    ht.once, ?_, ?_, ?_, ?_⟩
  · -- the new edge has the handle that was free
    intro i g hi hg
    have hg' : ((t.network.addEdge e).edge i).guard? = some g := hg
    rw [Network.edge_addEdge] at hg'
    split at hg'
    · exact he.guard g hg'
    next hne => exact ht.guard i g (((Network.hasEdge_addEdge e i).mp hi).resolve_left hne) hg'
  · intro l i
    rw [mem_edgesOf_record, ht.bound, hnew]
    show _ ↔ (t.network.addEdge e).hasEdge i = true ∧
      ((t.network.addEdge e).edge i).guard? = some l
    rw [Network.hasEdge_addEdge, Network.edge_addEdge]
    by_cases hi : i.index = t.network.numEdges
    · have hold : ¬ t.network.hasEdge i = true := by
        rw [Network.hasEdge_iff]
        omega
      simp [hi, hold]
    · simp [hi]
  · intro d tp w hw
    rw [watches_record] at hw
    obtain ⟨hvar, i, hi, hrest⟩ := ht.watched d tp w hw
    refine ⟨hvar, i, (hgrows.edge i hi).1, ?_⟩
    have hedge : (t.record e).network.edge i = t.network.edge i := (hgrows.edge i hi).2
    rw [hedge]
    exact hrest
  · intro i hi
    have hi' : t.graph.addEdge.isActive i = true := hi
    rw [ActiveGraph.isActive_addEdge] at hi'
    exact (hgrows.enabledBy i (ht.active i hi')).1
  · -- and it is not in force yet
    intro i hi
    exact (hgrows.edge i (ht.pending i hi)).1
  · intro c hc
    obtain ⟨hvalid, htrue⟩ := ht.conflict c hc
    exact ⟨hvalid.grows hgrows, htrue⟩
  · intro i hi
    exact (ht.implied i hi).grows hgrows

/-- The new edge is the only one that may be left behind. -/
theorem covered_record (hc : t.Covered ids) :
    (t.record e).Covered (t.network.edges.nextKey :: ids) := by
  intro hnone i hi
  have hi' : i ∈ (t.network.addEdge e).enabledBy t.trueLiterals := hi
  rcases (Network.hasEdge_addEdge e i).mp hi'.1 with hnew | hold
  · refine .inr (.inl (List.mem_cons.mpr (.inl ?_)))
    rw [← Handle.index_inj, HandleVector.index_nextKey]
    exact hnew
  · have henabled : i ∈ t.network.enabledBy t.trueLiterals := by
      refine ⟨hold, fun g hg => hi'.2 g ?_⟩
      rw [Network.edge_addEdge_of_hasEdge hold]
      exact hg
    rcases hc hnone i henabled with hact | hmem | ⟨p, hp, hmem⟩
    · exact .inl ((ActiveGraph.isActive_addEdge _ _).trans hact)
    · exact .inr (.inl (List.mem_cons_of_mem _ hmem))
    · refine .inr (.inr ⟨p, hp, ?_⟩)
      cases p with
      | literal l => exact mem_edgesOf_record.mpr (.inl hmem)
      | edge j => exact hmem

-- ============================================================ pending edges

/-- The theory with one activation more to work off. -/
def pend (t : Theory) (p : PendingActivation) : Theory := { t with pending := t.pending ++ [p] }

/-- An edge that is pended changes nothing but what is pending. -/
theorem extended_pend (t : Theory) (p : PendingActivation) : Extended t (t.pend p) where
  network := .refl _
  watches _ _ := List.Subset.refl _
  size := Nat.le_refl _
  known _ := rfl
  assignments := rfl
  implications := rfl
  log := rfl
  graphLog := rfl
  conflict := rfl

/-- An edge that there is can be pended. -/
theorem Coherent.pend (ht : t.Coherent) {p : PendingActivation}
    (hp : ∀ i, p = .edge i → t.network.hasEdge i = true) : (t.pend p).Coherent := by
  refine ⟨ht.network, ht.enforced, ht.limited, ht.graph, ht.guard, ht.bound, ht.watched,
    ht.assigned, ht.once, ht.active, fun i hi => ?_, ht.conflict, ht.implied⟩
  rcases List.mem_append.mp hi with hi | hi
  · exact ht.pending i hi
  · exact hp i (List.mem_singleton.mp hi).symm

/-- What is pending need not be listed. -/
theorem covered_pend {p : PendingActivation} (hc : t.Covered ids)
    (hids : ∀ i ∈ ids, i ∈ t.network.enabledBy t.trueLiterals → i ∈ t.edgesToActivate p) :
    (t.pend p).Covered [] := by
  intro hnone i hi
  rcases hc hnone i hi with hact | hmem | ⟨q, hq, hmem⟩
  · exact .inl hact
  · refine .inr (.inr ⟨p, List.mem_append_right _ (List.mem_singleton.mpr rfl), ?_⟩)
    exact hids i hmem hi
  · exact .inr (.inr ⟨q, List.mem_append_left _ hq, hmem⟩)

/-- Edges whose guards are not true need not be listed. -/
theorem covered_of_disabled (hc : t.Covered ids)
    (hids : ∀ i ∈ ids, i ∉ t.network.enabledBy t.trueLiterals) : t.Covered [] := by
  intro hnone i hi
  rcases hc hnone i hi with hact | hmem | hpending
  · exact .inl hact
  · exact absurd hi (hids i hmem)
  · exact .inr (.inr hpending)

/-- What is done before what was recorded is propagated. -/
inductive Prepares (t : Theory) (C : Set Literal) (ids : List EdgeId) : Theory → Prop where
  /-- No new edge is to be put in force: the literals are drawn. -/
  | drawn {t' : Theory} (draws : Draws C t t')
      (disabled : ∀ i ∈ ids, i ∉ t.network.enabledBy t.trueLiterals) : Prepares t C ids t'
  /-- There is nothing to draw: new edges are left pending. -/
  | pended {p : PendingActivation} (decided : ∀ l ∈ C, t.value l ≠ none)
      (edge : ∀ i, p = .edge i → t.network.hasEdge i = true)
      (enabled : ∀ i ∈ ids, i ∈ t.network.enabledBy t.trueLiterals → i ∈ t.edgesToActivate p) :
      Prepares t C ids (t.pend p)

/-- Whichever way an edge is prepared, the problem is the one that was
recorded. -/
theorem Prepares.sameProblem (h : Prepares t C ids t') : SameProblem t t' := by
  cases h with
  | drawn draws disabled => exact draws.steps.sameProblem
  | pended decided edge enabled => exact ⟨rfl, rfl, rfl, rfl, rfl, rfl, rfl, rfl, rfl⟩

theorem Prepares.graph (h : Prepares t C ids t') : t'.graph = t.graph := by
  cases h with
  | drawn draws disabled => exact draws.graph
  | pended decided edge enabled => rfl

theorem Prepares.changes (h : Prepares t C ids t') : Changes t t' := by
  cases h with
  | drawn draws disabled => exact draws.steps.changes
  | pended decided edge enabled => exact (extended_pend t _).run

theorem Prepares.coherent (h : Prepares t C ids t') (ht : t.Coherent) : t'.Coherent := by
  cases h with
  | drawn draws disabled => exact draws.coherent ht
  | pended decided edge enabled => exact ht.pend edge

/-- Once prepared, all edges are accounted for: the new ones are pending, or
not enabled. -/
theorem Prepares.covered (h : Prepares t C ids t') (ht : t.Coherent) (hc : t.Covered ids) :
    t'.Covered [] := by
  cases h with
  | drawn draws disabled => exact draws.covered ht (covered_of_disabled hc disabled)
  | pended decided edge enabled => exact covered_pend hc enabled

/-- What the edges would have ruled out has been decided. -/
theorem Prepares.fired (h : Prepares t C ids t') (hfired : t.Fired C) : t'.Fired ∅ := by
  cases h with
  | drawn draws disabled => exact draws.fired hfired
  | pended decided edge enabled => exact (draws_of_decided decided).fired hfired

/-- What was called for has a value. -/
theorem Prepares.decided (h : Prepares t C ids t') : ∀ l ∈ C, t'.value l ≠ none := by
  cases h with
  | drawn draws disabled => exact draws.decided
  | pended decided edge enabled => exact decided

/-- What a request led to: the theory is settled again, by moves that
each extend the problem or propagate. -/
structure Settles (t t' : Theory) : Prop where
  settled : t'.Settled
  changes : Changes t t'

theorem Settles.trans (h : Settles t t') (h' : Settles t' t'') : Settles t t'' :=
  ⟨h'.settled, h.changes.trans h'.changes⟩

/-- The problem was extended. New edges are listed, and the literals of
watches whose thresholds are reached already are among those given. -/
structure Recorded (t u : Theory) (C : Set Literal) (ids : List EdgeId) : Prop where
  changes : Changes t u
  coherent : u.Coherent
  covered : u.Covered ids
  fired : u.Fired C

/-- Propagation of what was recorded and prepared. -/
theorem Recorded.advances {u t₁ : Theory} (h : Recorded t u C ids) (hprepares : Prepares u C ids t₁)
    (hrun : t₁.propagate = .ok t') : t'.Settled ∧ Advances t₁ t' :=
  settled_propagate (hprepares.coherent h.coherent) (hprepares.covered h.coherent h.covered)
    (hprepares.fired h.fired) hrun

/-- What was recorded was prepared and propagated. -/
def Commits (t u : Theory) (C : Set Literal) (t' : Theory) : Prop :=
  ∃ ids t₁, Recorded t u C ids ∧ Prepares u C ids t₁ ∧ t₁.propagate = .ok t'

/-- A request that commits what it recorded settles the theory, and what it
recorded is the problem. -/
theorem Commits.settles {u : Theory} (h : Commits t u C t') : Settles t t' ∧ SameProblem u t' := by
  obtain ⟨ids, t₁, hrecorded, hprepares, hrun⟩ := h
  obtain ⟨hsettled, hadvances⟩ := hrecorded.advances hprepares hrun
  exact ⟨⟨hsettled, hrecorded.changes.trans (hprepares.changes.trans hadvances.steps.changes)⟩,
    hprepares.sameProblem.trans hadvances.steps.sameProblem⟩

-- =========================================================== adding an edge

/-- What the edge that is recorded rules out at once: at the levels that
use bounds, itself if there is no room for it. -/
def ruledOutBy (t : Theory) (e : Edge) : Set Literal :=
  {l | t.config.propagation.usesBounds = true ∧
    l ∈ (t.record e).ruledOut [t.network.edges.nextKey]}

/-- The edge has the next handle. -/
theorem hasEdge_record (t : Theory) (e : Edge) :
    (t.record e).network.hasEdge t.network.edges.nextKey = true :=
  Network.hasEdge_addEdge_nextKey e

theorem edge_record (t : Theory) (e : Edge) :
    (t.record e).network.edge t.network.edges.nextKey = e :=
  Network.edge_addEdge_nextKey e

/-- What an edge rules out is its own guard. -/
theorem guard?_of_mem_ruledOutBy (hl : l ∈ t.ruledOutBy e) : e.guard? = some l.negate := by
  have hguard := (mem_ruledOut_singleton.mp hl.2).1
  rwa [edge_record] at hguard

/-- What the edge rules out has a value if its guard has one. -/
theorem decided_of_guard {g : Literal} (hg : e.guard? = some g) (hvalue : t.value g ≠ none) :
    ∀ l ∈ t.ruledOutBy e, (t.record e).value l ≠ none := by
  intro l hl hnone
  have hnegate := guard?_of_mem_ruledOutBy hl
  rw [hg, Option.some.injEq] at hnegate
  rw [hnegate, Ne, value_negate_eq_none] at hvalue
  exact hvalue hnone

/-- The edge is left pending. -/
theorem prepares_pend (hdecided : ∀ l ∈ t.ruledOutBy e, (t.record e).value l ≠ none) :
    Prepares (t.record e) (t.ruledOutBy e) [t.network.edges.nextKey]
      ((t.record e).pend (.edge t.network.edges.nextKey)) := by
  refine .pended hdecided (fun i hi => ?_) fun i hi _ => hi
  cases hi
  exact hasEdge_record t e

/-- The edge is not to be put in force. -/
theorem prepares_draws {g : Literal} (hg : e.guard? = some g) (hvalue : t.value g ≠ some true)
    (hdraws : Draws (t.ruledOutBy e) (t.record e) t') :
    Prepares (t.record e) (t.ruledOutBy e) [t.network.edges.nextKey] t' := by
  refine .drawn hdraws fun i hi henabled => hvalue (henabled.2 g ?_)
  rw [List.mem_singleton.mp hi, edge_record]
  exact hg

/-- Before it propagates, a request for one edge has recorded it and prepared
it in one of the ways there are: it is pending, or drawn from, or its guard is
false. -/
theorem prepares_commitEdge (ht : t.Coherent) (he : Recordable t e)
    (h : t.commitEdge e = .ok (t', id)) :
    ∃ t₁, Prepares (t.record e) (t.ruledOutBy e) [t.network.edges.nextKey] t₁ ∧
      t₁.propagate = .ok t' := by
  unfold commitEdge at h
  simp only at h
  cases hg : e.guard? with
  -- a permanent edge is pending at once
  | none =>
      rw [hg] at h
      simp only [Checked.bind_eq_ok, Checked.pure_eq_ok, Prod.mk.injEq] at h
      obtain ⟨_, rfl, t₁, hrun, rfl, rfl⟩ := h
      refine ⟨_, prepares_pend fun l hl => ?_, ?_⟩
      · rw [guard?_of_mem_ruledOutBy hl] at hg
        cases hg
      · rw [record_of_permanent hg]
        exact hrun
  | some g =>
      have hrecorded : t.record e = { (t.recordEdge e).1 with
          bindings := t.bindings.addEdge g t.network.edges.nextKey } := record_of_guarded hg
      have hplain : (t.record e).value = t.value := rfl
      rw [hg] at h
      unfold recordEdge at h hrecorded
      simp only at h
      rw [← hrecorded, hplain] at h
      cases hv : t.value g with
      | none =>
          have hfalse : t.value g ≠ some true := by simp [hv]
          rw [hv] at h
          simp only at h
          split at h
          -- nobody has decided on the edge, and at the levels that use bounds its room is
          -- looked at
          next hbounds =>
            simp only [Checked.bind_eq_ok, Checked.pure_eq_ok, Prod.mk.injEq] at h
            obtain ⟨t₁, hroom, t₂, hrun, rfl, rfl⟩ := h
            refine ⟨t₁, prepares_draws hg hfalse ?_, hrun⟩
            exact (draws_checkRoom (ht.record he) (hasEdge_record t e) hroom).congr
              (fun l hl => ⟨hbounds, hl⟩) fun l hl => .inl hl.2
          next hbounds =>
            simp only [Checked.bind_eq_ok, Checked.pure_eq_ok, Prod.mk.injEq] at h
            obtain ⟨t₁, rfl, t₂, hrun, rfl, rfl⟩ := h
            refine ⟨_, prepares_draws hg hfalse ?_, hrun⟩
            exact draws_of_decided fun l hl => absurd hl.1 hbounds
      | some b =>
          have hdecided := decided_of_guard (t := t) hg (by simp [hv])
          cases b with
          -- an edge that is denied is only recorded
          | false =>
              have hfalse : t.value g ≠ some true := by simp [hv]
              rw [hv] at h
              simp only [Checked.bind_eq_ok, Checked.pure_eq_ok, Prod.mk.injEq] at h
              obtain ⟨t₁, rfl, t₂, hrun, rfl, rfl⟩ := h
              exact ⟨_, prepares_draws hg hfalse (draws_of_decided hdecided), hrun⟩
          -- and one that is already called for is pending
          | true =>
              rw [hv] at h
              simp only [Checked.bind_eq_ok, Checked.pure_eq_ok, Prod.mk.injEq] at h
              obtain ⟨_, rfl, t₁, hrun, rfl, rfl⟩ := h
              refine ⟨_, prepares_pend hdecided, ?_⟩
              rw [hrecorded]
              exact hrun

/-- No watch is fired by an edge that is not in force. -/
theorem Fired.record (h : t.Fired ∅) (e : Edge) : (t.record e).Fired ∅ := by
  intro d x w hw hle
  rw [watches_record] at hw
  exact h d x w hw hle

theorem Fired.mono {D : Set Literal} (h : t.Fired C) (hCD : C ⊆ D) : t.Fired D :=
  fun d x w hw hle => (h d x w hw hle).imp_right fun hC => hCD hC

/-- So a request for one edge commits it. -/
theorem commits_commitEdge (ht : t.Settled) (he : Recordable t e)
    (h : t.commitEdge e = .ok (t', id)) : Commits t (t.record e) (t.ruledOutBy e) t' := by
  obtain ⟨t₁, hprepares, hrun⟩ := prepares_commitEdge ht.coherent he h
  exact ⟨_, t₁, ⟨(extended_record t e).run, ht.coherent.record he, covered_record ht.covered,
    (ht.fired.record e).mono (Set.empty_subset _)⟩, hprepares, hrun⟩

/-- The edge is there afterwards, in force if its guard allows. -/
theorem settles_commitEdge (ht : t.Settled) (he : Recordable t e)
    (h : t.commitEdge e = .ok (t', id)) : Settles t t' ∧ SameProblem (t.record e) t' :=
  (commits_commitEdge ht he h).settles

end Theory

end TemporalNetwork
