/-
What a theory knows fits together.

A theory is coherent if each part of its state agrees with the others:
the graph is sound for the network, the edges in force are among those
whose guards are true, bindings list the guarded edges, and what was
published follows from what was true. That is the invariant of every
operation; it holds with work pending as well as without, and under a
conflict.

# Steps

Propagation changes the state in few ways: a literal is implied, an edge
is put in force, a conflict is recorded, pending work is dropped, and
things are counted. `Step` lists them, each with what must be true for
it to be taken. What every step keeps every run of steps keeps, so that
a property of propagation is proved once for each kind of step and not
for each function that takes it.
-/
import Mathlib.Data.List.Basic
import Mathlib.Logic.Relation
import TemporalNetwork.Proofs.ActiveGraph.Grounded
import TemporalNetwork.Theory

namespace TemporalNetwork

-- ============================================================ explanations

namespace Explanation

@[simp] theorem mem_sorted {x : Explanation} {l : Literal} :
    l ∈ x.sorted.literals ↔ l ∈ x.literals := Literals.mem_canonical

/-- The guards of the edges are added, and those that were there stay. -/
theorem mem_addGuards {x : Explanation} {net : Network} {es : List EdgeId} {l : Literal} :
    l ∈ (x.addGuards net es).literals ↔
      l ∈ x.literals ∨ ∃ id ∈ es, (net.edge id).guard? = some l := by
  unfold addGuards
  rw [Literals.mem_addAll, List.mem_filterMap]

end Explanation

/-- A conflict is explained by the guards of its cycle. -/
theorem Conflict.mem_ofCycle {net : Network} {es : List EdgeId} {l : Literal} :
    l ∈ (Conflict.ofCycle net es).explanation.literals ↔
      ∃ id ∈ es, (net.edge id).guard? = some l := by
  unfold Conflict.ofCycle
  rw [Explanation.mem_sorted, Explanation.mem_addGuards]
  simp [Explanation.empty]

/-- Edges without a schedule, whose guards are among the literals. -/
theorem Network.excludes_of_inconsistent {net : Network} {es : List EdgeId} {M : Set Literal}
    (h : net.Inconsistent {id | id ∈ es}) (hedge : ∀ id ∈ es, net.hasEdge id = true)
    (hguard : ∀ id ∈ es, ∀ l, (net.edge id).guard? = some l → l ∈ M) : net.Excludes M :=
  h.mono fun id hid => ⟨hedge id hid, hguard id hid⟩

namespace Theory

variable {t t' t'' : Theory} {l m : Literal} {v : BoolVar} {x : Explanation} {id : EdgeId}

-- ================================================================== values

/-- What is known of a variable. -/
def known (t : Theory) (v : BoolVar) : Option Bool := (t.values.get? v).getD none

/-- The literals that are true. -/
def trueLiterals (t : Theory) : Set Literal := {l | t.value l = some true}

theorem value_eq (t : Theory) (l : Literal) :
    t.value l = (t.known l.var).map (· == l.positive) := rfl

/-- Values are what is known of the variables. -/
theorem value_congr {t t' : Theory} (h : ∀ v, t'.known v = t.known v) : t'.value = t.value := by
  funext l
  rw [value_eq, value_eq, h]

theorem value_eq_none_iff : t.value l = none ↔ t.known l.var = none := by
  rw [value_eq, Option.map_eq_none_iff]

/-- A literal is true if its variable has its sign. -/
theorem value_eq_true_iff : t.value l = some true ↔ t.known l.var = some l.positive := by
  rw [value_eq]
  cases t.known l.var <;> simp

/-- A literal and its negation have opposite values, or none. -/
@[simp] theorem value_negate (t : Theory) (l : Literal) :
    t.value l.negate = (t.value l).map (!·) := by
  rw [value_eq, value_eq]
  obtain ⟨v, p⟩ := l
  cases h : t.known v with
  | none => simp [Literal.negate, h]
  | some b => cases b <;> cases p <;> simp [Literal.negate, h]

theorem value_negate_eq_true : t.value l.negate = some true ↔ t.value l = some false := by
  rw [value_negate]
  cases t.value l <;> simp

theorem value_negate_eq_none : t.value l.negate = none ↔ t.value l = none := by
  rw [value_negate, Option.map_eq_none_iff]

/-- What has a value keeps it while true literals stay true. -/
theorem value_ne_none_of_subset (h : t.trueLiterals ⊆ t'.trueLiterals) (hl : t.value l ≠ none) :
    t'.value l ≠ none := by
  cases hv : t.value l with
  | none => exact absurd hv hl
  | some b =>
      cases b with
      | true =>
          have htrue : t'.value l = some true := h hv
          simp [htrue]
      | false =>
          have hfalse := value_negate_eq_true.mp (h (value_negate_eq_true.mpr hv))
          simp [hfalse]

/-- Only of a variable that is there anything is known. -/
theorem hasVariable_of_known {b : Bool} (h : t.known v = some b) : t.hasVariable v = true := by
  unfold known at h
  cases hget : t.values.get? v with
  | none =>
      rw [hget] at h
      cases h
  | some o => exact (HandleVector.contains_iff _ _).mpr (HandleVector.size_of_get? hget)

/-- A literal that has a value is one of a variable that is there. -/
theorem hasVariable_of_value {b : Bool} (h : t.value l = some b) :
    t.hasVariable l.var = true := by
  rw [value_eq] at h
  obtain ⟨c, hc, -⟩ := Option.map_eq_some_iff.mp h
  exact hasVariable_of_known hc

/-- Setting a literal, where that does something. -/
theorem setLiteral_of_none (h : t.value l = none) :
    t.setLiteral l = { t with
      values := t.values.set l.var (some l.positive)
      assignments := t.assignments.push l
      log := t.log.record (.literalSet l.var)
      pending := t.pending ++ [.literal l] } := by
  unfold setLiteral
  rw [h]
  rfl

/-- A literal that has a value is not set again. -/
theorem setLiteral_of_some {b : Bool} (h : t.value l = some b) : t.setLiteral l = t := by
  unfold setLiteral
  rw [h]
  rfl

theorem graph_setLiteral (t : Theory) (l : Literal) : (t.setLiteral l).graph = t.graph := by
  unfold setLiteral
  split <;> rfl

/-- One variable more is known. -/
theorem known_setLiteral (h : t.value l = none) (hvar : t.hasVariable l.var = true)
    (v : BoolVar) :
    (t.setLiteral l).known v = if v = l.var then some l.positive else t.known v := by
  have hindex : Handle.index l.var = Handle.index v ↔ v = l.var :=
    Handle.index_inj.trans eq_comm
  have hlt : Handle.index l.var < t.values.size := (HandleVector.contains_iff _ _).mp hvar
  rw [setLiteral_of_none h]
  unfold known
  simp only [HandleVector.get?_set, hindex, if_pos hlt]
  split <;> rfl

/-- One literal more is true. -/
theorem value_setLiteral (h : t.value l = none) (hvar : t.hasVariable l.var = true)
    (m : Literal) : (t.setLiteral l).value m = some true ↔ t.value m = some true ∨ m = l := by
  rw [value_eq_true_iff, value_eq_true_iff, known_setLiteral h hvar]
  rw [value_eq_none_iff] at h
  obtain ⟨v, p⟩ := m
  obtain ⟨u, q⟩ := l
  simp only at h ⊢
  split
  next heq =>
    subst heq
    rw [h]
    simp [eq_comm]
  next hne => simp [hne]

/-- Implying a literal, where that does something. -/
theorem imply_of_none (h : t.value l = none) (x : Explanation) :
    t.imply l x = { t.setLiteral l with
      implications := (t.setLiteral l).implications.push ⟨l, x.sorted⟩
      stats := { (t.setLiteral l).stats with
        implications := (t.setLiteral l).stats.implications + 1 } } := by
  unfold imply
  rw [h]
  rfl

-- =============================================================== coherence

end Theory

/-- The cycle of a conflict is closed and negative, its edges have no
schedule, and the explanation lists their guards. -/
structure Conflict.Valid (net : Network) (c : Conflict) : Prop where
  closed : net.isCycle c.cycle = true
  negative : net.weight c.cycle < 0
  edge (id : EdgeId) : id ∈ c.cycle → net.hasEdge id = true
  explanation : c.explanation = (Conflict.ofCycle net c.cycle).explanation
  inconsistent : net.Inconsistent {id | id ∈ c.cycle}

/-- A valid conflict is explained by the guards of its cycle, and by nothing
else. -/
theorem Conflict.Valid.mem_explanation {net : Network} {c : Conflict} (h : c.Valid net)
    {l : Literal} : l ∈ c.explanation.literals ↔
      ∃ id ∈ c.cycle, (net.edge id).guard? = some l := by
  rw [h.explanation]
  exact Conflict.mem_ofCycle

/-- The explanation of a conflict cannot be true as a whole. -/
theorem Conflict.Valid.excludes {net : Network} {c : Conflict} (h : c.Valid net) :
    net.Excludes {l | l ∈ c.explanation.literals} :=
  Network.excludes_of_inconsistent h.inconsistent h.edge
    fun id hid _ hl => h.mem_explanation.mpr ⟨id, hid, hl⟩

/-- A conflict stays one while the problem grows. -/
theorem Conflict.Valid.grows {net net' : Network} {c : Conflict} (hc : c.Valid net)
    (h : net.Grows net') : c.Valid net' := by
  have hedge : ∀ id ∈ c.cycle, net'.edge id = net.edge id :=
    fun id hid => (h.edge id (hc.edge id hid)).2
  refine ⟨?_, ?_, fun id hid => (h.edge id (hc.edge id hid)).1, ?_, ?_⟩
  · rw [Network.isCycle_congr hedge]
    exact hc.closed
  · rw [Network.weight_congr hedge]
    exact hc.negative
  · have hguards : c.cycle.filterMap (fun e => (net'.edge e).guard?)
        = c.cycle.filterMap fun e => (net.edge e).guard? :=
      List.filterMap_congr fun id hid => by rw [hedge id hid]
    rw [hc.explanation]
    unfold Conflict.ofCycle Explanation.addGuards
    rw [hguards]
  · exact hc.inconsistent.transfer fun id hid => ⟨hid, hedge id hid⟩

/-- The literal cannot be false while the explanation is true. -/
def Implication.Valid (net : Network) (i : Implication) : Prop :=
  net.Excludes {l | l ∈ i.explanation.literals ∨ l = i.literal.negate}

theorem Implication.Valid.grows {net net' : Network} {i : Implication} (hi : i.Valid net)
    (h : net.Grows net') : i.Valid net' := h.excludes hi

namespace Theory

variable {t t' t'' : Theory} {l m : Literal} {v : BoolVar} {x : Explanation} {id : EdgeId}

/-- The parts of a theory agree with each other. -/
structure Coherent (t : Theory) : Prop where
  network : t.network.WellFormed
  enforced : t.network.Enforced
  limited : t.network.Limited
  graph : t.graph.Grounded t.network
  /-- Guards are literals of the theory. -/
  guard (id : EdgeId) (l : Literal) : t.network.hasEdge id = true →
    (t.network.edge id).guard? = some l → t.hasVariable l.var = true
  /-- Each literal is bound to the edges that it guards. -/
  bound (l : Literal) (id : EdgeId) : id ∈ t.bindings.edgesOf l ↔
    t.network.hasEdge id = true ∧ (t.network.edge id).guard? = some l
  /-- A watched fact and the edge that denies it, which its negation guards,
  exclude each other. -/
  watched (d : Direction) (tp : Timepoint) (w : Watch) : w ∈ t.bindings.watches d tp →
    t.hasVariable w.literal.var = true ∧ ∃ id, t.network.hasEdge id = true ∧
      (t.network.edge id).guard? = some w.literal.negate ∧
      (t.network.edge id).isIn d = true ∧ (t.network.edge id).tail d = tp ∧
      (t.network.edge id).head d = .origin ∧ (t.network.edge id).weight = -w.threshold - 1
  assigned (l : Literal) : l ∈ t.assignments.toList ↔ l ∈ t.trueLiterals
  /-- A literal is set once. -/
  once : t.assignments.toList.Nodup
  active (id : EdgeId) : t.graph.isActive id = true →
    id ∈ t.network.enabledBy t.trueLiterals
  pending (id : EdgeId) : .edge id ∈ t.pending → t.network.hasEdge id = true
  conflict (c : Conflict) : t.conflict = some c →
    c.Valid t.network ∧ ∀ l ∈ c.explanation.literals, l ∈ t.trueLiterals
  implied (i : Implication) : i ∈ t.implications.toList → i.Valid t.network

/-- The theory of the origin alone is coherent. -/
theorem coherent_initial (c : Config) : (initial c).Coherent := by
  have hnoEdge : ∀ id, ¬ (initial c).network.hasEdge id = true := by
    intro id hid
    exact absurd (Network.hasEdge_iff.mp hid) (Nat.not_lt_zero _)
  have hnoTrue : ∀ l, l ∉ (initial c).trueLiterals := by
    intro l hl
    exact absurd (value_eq_true_iff.mp hl) (by simp [known, initial, HandleVector.empty,
      HandleVector.get?])
  have hnoBinding : ∀ l, (initial c).bindings.edgesOf l = [] := fun l => rfl
  have hnoWatch : ∀ d tp, (initial c).bindings.watches d tp = [] := by
    intro d tp
    cases d <;> rfl
  refine ⟨Network.wellFormed_initial, Network.enforced_initial, Network.limited_initial,
    ActiveGraph.grounded_initial, ?_, ?_, ?_, ?_, List.nodup_nil, ?_, ?_, ?_, ?_⟩
  · exact fun id l hid => absurd hid (hnoEdge id)
  · intro l id
    rw [hnoBinding]
    exact ⟨fun hid => absurd hid List.not_mem_nil, fun hid => absurd hid.1 (hnoEdge id)⟩
  · intro d tp w hw
    rw [hnoWatch] at hw
    exact absurd hw List.not_mem_nil
  · exact fun l => ⟨fun hl => absurd hl List.not_mem_nil, fun hl => absurd hl (hnoTrue l)⟩
  · intro id hid
    cases hid
  · exact fun id hid => absurd hid List.not_mem_nil
  · intro conflict hconflict
    cases hconflict
  · exact fun i hi => absurd hi List.not_mem_nil

-- =================================================================== steps

/-- What propagation can do at a time. -/
inductive Step : Theory → Theory → Prop where
  | counted {t : Theory} (stats : TheoryStats) : Step t { t with stats }
  | dropped {t : Theory} {rest : List PendingActivation} (sub : rest.Sublist t.pending) :
      Step t { t with pending := rest }
  /-- The literal follows from literals that are true. -/
  | implied {t : Theory} {l : Literal} {x : Explanation} (hnone : t.value l = none)
      (hvar : t.hasVariable l.var = true) (htrue : ∀ m ∈ x.literals, m ∈ t.trueLiterals)
      (hvalid : (⟨l, x⟩ : Implication).Valid t.network) : Step t (t.imply l x)
  /-- The edge, whose guard is true, is put in force. -/
  | activated {t : Theory} {id : EdgeId} {g : ActiveGraph} {lowered : List (Direction × Timepoint)}
      (henabled : id ∈ t.network.enabledBy t.trueLiterals)
      (haccepts : t.graph.Accepts t.network id g lowered) (hgrounded : g.Grounded t.network) :
      Step t { t with graph := g }
  /-- Edges whose guards are true have no schedule. -/
  | refuted {t : Theory} {es : List EdgeId} (hnone : t.conflict = none)
      (henabled : ∀ id ∈ es, id ∈ t.network.enabledBy t.trueLiterals)
      (hvalid : (Conflict.ofCycle t.network es).Valid t.network) :
      Step t { t with
        pending := []
        conflict := some (Conflict.ofCycle t.network es)
        log := t.log.record .conflictRecorded }

/-- A run of propagation. -/
abbrev Steps : Theory → Theory → Prop := Relation.ReflTransGen Step

/-- One step, as a run. -/
theorem Step.run (h : Step t t') : Steps t t' := .single h

/-- What propagation never touches. -/
structure SameProblem (t t' : Theory) : Prop where
  network : t'.network = t.network
  bindings : t'.bindings = t.bindings
  config : t'.config = t.config
  size : t'.values.size = t.values.size
  assignmentMarks : t'.assignments.marks = t.assignments.marks
  assignmentBacktracks : t'.assignments.backtracks = t.assignments.backtracks
  implicationMarks : t'.implications.marks = t.implications.marks
  logMarks : t'.log.marks = t.log.marks
  graphMarks : t'.graph.log.marks = t.graph.log.marks

theorem SameProblem.refl (t : Theory) : SameProblem t t :=
  ⟨rfl, rfl, rfl, rfl, rfl, rfl, rfl, rfl, rfl⟩

theorem SameProblem.trans (h : SameProblem t t') (h' : SameProblem t' t'') :
    SameProblem t t'' where
  network := h'.network.trans h.network
  bindings := h'.bindings.trans h.bindings
  config := h'.config.trans h.config
  size := h'.size.trans h.size
  assignmentMarks := h'.assignmentMarks.trans h.assignmentMarks
  assignmentBacktracks := h'.assignmentBacktracks.trans h.assignmentBacktracks
  implicationMarks := h'.implicationMarks.trans h.implicationMarks
  logMarks := h'.logMarks.trans h.logMarks
  graphMarks := h'.graphMarks.trans h.graphMarks

theorem SameProblem.hasVariable (h : SameProblem t t') (v : BoolVar) :
    t'.hasVariable v = t.hasVariable v := by
  unfold Theory.hasVariable HandleVector.contains
  rw [h.size]

/-- Setting a literal is no matter of the problem. -/
theorem sameProblem_setLiteral (t : Theory) (l : Literal) : SameProblem t (t.setLiteral l) := by
  cases h : t.value l with
  | some b =>
      rw [setLiteral_of_some h]
      exact .refl t
  | none =>
      rw [setLiteral_of_none h]
      exact ⟨rfl, rfl, rfl, HandleVector.size_set _ _ _, rfl, rfl, rfl, rfl, rfl⟩

/-- No step of propagation adds to the problem or moves a level. -/
theorem Step.sameProblem (h : Step t t') : SameProblem t t' := by
  cases h with
  | counted stats => exact ⟨rfl, rfl, rfl, rfl, rfl, rfl, rfl, rfl, rfl⟩
  | dropped sub => exact ⟨rfl, rfl, rfl, rfl, rfl, rfl, rfl, rfl, rfl⟩
  | implied hnone hvar htrue hvalid =>
      rename_i l x
      have hset := sameProblem_setLiteral t l
      rw [imply_of_none hnone]
      exact ⟨hset.network, hset.bindings, hset.config, hset.size, hset.assignmentMarks,
        hset.assignmentBacktracks, hset.implicationMarks, hset.logMarks, hset.graphMarks⟩
  | activated henabled haccepts hgrounded =>
      exact ⟨rfl, rfl, rfl, rfl, rfl, rfl, rfl, rfl, haccepts.extended.marks⟩
  | refuted hnone henabled hvalid => exact ⟨rfl, rfl, rfl, rfl, rfl, rfl, rfl, rfl, rfl⟩

theorem Steps.sameProblem (h : Steps t t') : SameProblem t t' := by
  induction h with
  | refl => exact .refl t
  | tail _ hstep ih => exact ih.trans hstep.sameProblem

/-- One literal more is true, whatever its explanation. -/
theorem value_imply (hnone : t.value l = none) (hvar : t.hasVariable l.var = true)
    (x : Explanation) (m : Literal) :
    (t.imply l x).value m = some true ↔ t.value m = some true ∨ m = l := by
  rw [imply_of_none hnone]
  exact value_setLiteral hnone hvar m

theorem trueLiterals_subset_setLiteral (hvar : t.hasVariable l.var = true) :
    t.trueLiterals ⊆ (t.setLiteral l).trueLiterals := by
  cases h : t.value l with
  | some b => rw [setLiteral_of_some h]
  | none => exact fun m hm => (value_setLiteral h hvar m).mpr (.inl hm)

/-- What is true stays true. -/
theorem Step.trueLiterals_subset (h : Step t t') : t.trueLiterals ⊆ t'.trueLiterals := by
  cases h with
  | counted stats => exact fun m hm => hm
  | dropped sub => exact fun m hm => hm
  | implied hnone hvar htrue hvalid =>
      exact fun m hm => (value_imply hnone hvar _ m).mpr (.inl hm)
  | activated henabled haccepts hgrounded => exact fun m hm => hm
  | refuted hnone henabled hvalid => exact fun m hm => hm

theorem Steps.trueLiterals_subset (h : Steps t t') : t.trueLiterals ⊆ t'.trueLiterals := by
  induction h with
  | refl => exact fun m hm => hm
  | tail _ hstep ih => exact ih.trans hstep.trueLiterals_subset

/-- One literal more is true, and its edges are pending. -/
theorem Coherent.setLiteral_fresh (h : t.Coherent) (hnone : t.value l = none)
    (hvar : t.hasVariable l.var = true) : (t.setLiteral l).Coherent := by
  have hmono := trueLiterals_subset_setLiteral hvar
  have hsame := sameProblem_setLiteral t l
  have hassigned : ∀ m, m ∈ (t.setLiteral l).assignments.toList ↔
      m ∈ t.assignments.toList ∨ m = l := by
    intro m
    rw [setLiteral_of_none hnone]
    simp [EventQueue.push, EventQueue.toList]
  have hpending : (t.setLiteral l).pending = t.pending ++ [.literal l] := by
    rw [setLiteral_of_none hnone]
  have hgraph := graph_setLiteral t l
  have hconflict : (t.setLiteral l).conflict = t.conflict := by rw [setLiteral_of_none hnone]
  have himplications : (t.setLiteral l).implications = t.implications := by
    rw [setLiteral_of_none hnone]
  -- problem and graph stay: what is to be shown is about the literals that are
  -- true and the activations that are pending
  refine ⟨?_, ?_, ?_, ?_, ?_, ?_, ?_, ?_, ?_, ?_, ?_, ?_, ?_⟩
  · rw [hsame.network]
    exact h.network
  · rw [hsame.network]
    exact h.enforced
  · rw [hsame.network]
    exact h.limited
  · rw [hsame.network, hgraph]
    exact h.graph
  · intro id g hid hg
    rw [hsame.network] at hid hg
    rw [hsame.hasVariable]
    exact h.guard id g hid hg
  · intro m id
    rw [hsame.network, hsame.bindings]
    exact h.bound m id
  · intro d tp w hw
    rw [hsame.bindings] at hw
    rw [hsame.network, hsame.hasVariable]
    exact h.watched d tp w hw
  · intro m
    rw [hassigned, h.assigned]
    exact (value_setLiteral hnone hvar m).symm
  · have hnew : l ∉ t.assignments.toList := by
      rw [h.assigned]
      intro htrue
      rw [show t.value l = some true from htrue] at hnone
      cases hnone
    rw [setLiteral_of_none hnone]
    show (t.assignments.events.push l).toList.Nodup
    rw [Array.toList_push, ← List.concat_eq_append]
    exact List.Nodup.concat hnew h.once
  · intro id hid
    rw [hgraph] at hid
    rw [hsame.network]
    exact Network.enabledBy_mono hmono (h.active id hid)
  · intro id hid
    rw [hpending, List.mem_append, List.mem_singleton] at hid
    rw [hsame.network]
    rcases hid with hid | hid
    · exact h.pending id hid
    · cases hid
  · intro c hc
    rw [hconflict] at hc
    rw [hsame.network]
    obtain ⟨hvalid, htrue⟩ := h.conflict c hc
    exact ⟨hvalid, fun m hm => hmono (htrue m hm)⟩
  · intro i hi
    rw [himplications] at hi
    rw [hsame.network]
    exact h.implied i hi

/-- A coherent theory in which a literal is set is coherent. Values do not
undo what is in force. -/
theorem Coherent.setLiteral (h : t.Coherent) (hvar : t.hasVariable l.var = true) :
    (t.setLiteral l).Coherent := by
  cases hvalue : t.value l with
  | some b =>
      rw [setLiteral_of_some hvalue]
      exact h
  | none => exact h.setLiteral_fresh hvalue hvar

/-- Each step of propagation leaves a theory coherent. What a step puts
forward comes with its reasons: the constructors carry that an implication is
valid, that an edge is enabled and accepted by the graph, and that a conflict
is one. -/
theorem Step.coherent (h : Step t t') (ht : t.Coherent) : t'.Coherent := by
  cases h with
  | counted stats =>
      exact ⟨ht.network, ht.enforced, ht.limited, ht.graph, ht.guard, ht.bound, ht.watched,
        ht.assigned, ht.once, ht.active, ht.pending, ht.conflict, ht.implied⟩
  | dropped sub =>
      exact ⟨ht.network, ht.enforced, ht.limited, ht.graph, ht.guard, ht.bound, ht.watched,
        ht.assigned, ht.once, ht.active, fun id hid => ht.pending id (sub.subset hid), ht.conflict,
        ht.implied⟩
  -- the queue of implications grows by a valid one
  | implied hnone hvar htrue hvalid =>
      rename_i l x
      have hset := ht.setLiteral hvar
      have hsame := sameProblem_setLiteral t l
      rw [imply_of_none hnone]
      refine ⟨hset.network, hset.enforced, hset.limited, hset.graph, hset.guard, hset.bound,
        hset.watched, hset.assigned, hset.once, hset.active, hset.pending, hset.conflict, ?_⟩
      intro i hi
      simp only [EventQueue.push, EventQueue.toList, Array.toList_push, List.mem_append,
        List.mem_singleton] at hi
      rcases hi with hi | rfl
      · exact hset.implied i hi
      · rw [hsame.network]
        apply hvalid.mono
        intro m hm
        rcases hm with hm | hm
        · exact .inl (Explanation.mem_sorted.mpr hm)
        · exact .inr hm
  -- the edge in force is enabled
  | activated henabled haccepts hgrounded =>
      refine ⟨ht.network, ht.enforced, ht.limited, hgrounded, ht.guard, ht.bound, ht.watched,
        ht.assigned, ht.once, ?_, ht.pending, ht.conflict, ht.implied⟩
      intro i hi
      rcases (haccepts.active i).mp hi with hi | rfl
      · exact ht.active i hi
      · exact henabled
  -- the explanation is true, as the edges of the cycle are enabled
  | refuted hnone henabled hvalid =>
      refine ⟨ht.network, ht.enforced, ht.limited, ht.graph, ht.guard, ht.bound, ht.watched,
        ht.assigned, ht.once, ht.active, fun id hid => absurd hid List.not_mem_nil, ?_, ht.implied⟩
      intro c hc
      cases hc
      refine ⟨hvalid, fun l hl => ?_⟩
      obtain ⟨id, hid, hguard⟩ := Conflict.mem_ofCycle.mp hl
      exact (henabled id hid).2 l hguard

theorem Steps.coherent (h : Steps t t') (ht : t.Coherent) : t'.Coherent := by
  induction h with
  | refl => exact ht
  | tail _ hstep ih => exact hstep.coherent ih

end Theory

end TemporalNetwork
