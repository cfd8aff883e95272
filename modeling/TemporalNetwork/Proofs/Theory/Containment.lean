/-
What one run derives another does too.

A theory is `Below` another one of the same problem if it knows no more:
the literals that are true are so in the other as well. If the other one
is at rest without a conflict, then so are the edges in force, and the
potentials are no lower, so that whatever triggers a consequence triggers
the same one there. An advance leads from below a saturated theory to
below it, and a run that sets literals which are true there comes to
nothing else.

Only that literals have a value is carried over in this way, not which.
Drawn literals follow from what is true, though, and a consistent theory
cannot deny what follows from what is true in it.
-/
import TemporalNetwork.Proofs.Theory.Answers
import TemporalNetwork.Proofs.Theory.Saturation

namespace TemporalNetwork

namespace Theory

variable {t t' T : Theory} {l : Literal} {id : EdgeId} {g₀ : ActiveGraph} {p : PropagationLevel}
  {C : Set Literal} {ids : List EdgeId}

-- ============================================================== consistency

/-- The state between two requests, without a conflict. -/
structure Stable (t : Theory) : Prop extends Settled t where
  consistent : t.conflict = none

/-- The literals that are true exclude each other only under a conflict. -/
theorem Stable.not_excludes (ht : t.Stable) : ¬ t.network.Excludes t.trueLiterals :=
  fun hexcludes => ht.coherent.graph.consistent
    (Network.Inconsistent.mono (fun _ hi => ht.enabledBy_active ht.consistent hi) hexcludes)

/-- What follows from true literals is not false. -/
theorem Stable.mem_trueLiterals_of_valid (ht : t.Stable) {x : Explanation}
    (hvalid : (⟨l, x⟩ : Implication).Valid t.network)
    (htrue : ∀ m ∈ x.literals, m ∈ t.trueLiterals) (hl : t.value l ≠ none) :
    l ∈ t.trueLiterals := by
  cases hvalue : t.value l with
  | none => exact absurd hvalue hl
  | some b =>
      cases b with
      | true => exact hvalue
      | false =>
          have hnegate : l.negate ∈ t.trueLiterals := value_negate_eq_true.mpr hvalue
          refine absurd (hvalid.mono fun m hm => ?_) ht.not_excludes
          rcases hm with hm | rfl
          · exact htrue m hm
          · exact hnegate

-- ============================================================== containment

/-- One theory knows no more than another one of the same problem. -/
structure Below (t T : Theory) : Prop where
  network : T.network = t.network
  bindings : T.bindings = t.bindings
  size : T.values.size = t.values.size
  literals : t.trueLiterals ⊆ T.trueLiterals

theorem Below.refl (t : Theory) : Below t t := ⟨rfl, rfl, rfl, Set.Subset.refl _⟩

theorem Below.trans (h : Below t t') (h' : Below t' T) : Below t T where
  network := h'.network.trans h.network
  bindings := h'.bindings.trans h.bindings
  size := h'.size.trans h.size
  literals := h.literals.trans h'.literals

theorem Below.hasVariable (h : Below t T) (v : BoolVar) : T.hasVariable v = t.hasVariable v := by
  unfold Theory.hasVariable HandleVector.contains
  rw [h.size]

theorem below_setLiteral (hvar : t.hasVariable l.var = true) : Below t (t.setLiteral l) :=
  have hsame := sameProblem_setLiteral t l
  ⟨hsame.network, hsame.bindings, hsame.size, trueLiterals_subset_setLiteral hvar⟩

/-- Nothing is forgotten on the way. -/
theorem Steps.below (h : Steps t t') : Below t t' :=
  have hsame := h.sameProblem
  ⟨hsame.network, hsame.bindings, hsame.size, h.trueLiterals_subset⟩

/-- A theory that knows no more than a consistent one is consistent. -/
theorem Below.conflict_eq_none (h : Below t T) (ht : t.Coherent) (hT : T.Stable) :
    t.conflict = none := by
  cases hconflict : t.conflict with
  | none => rfl
  | some c =>
      obtain ⟨hvalid, htrue⟩ := ht.conflict c hconflict
      have hexcludes := hvalid.excludes.mono fun l hl => h.literals (htrue l hl)
      rw [← h.network] at hexcludes
      exact absurd hexcludes hT.not_excludes

/-- Its edges in force are in force in the other, too. -/
theorem Below.active (h : Below t T) (ht : t.Coherent) (hT : T.Stable) :
    t.graph.inForce ⊆ T.graph.inForce := by
  intro i hi
  refine hT.enabledBy_active hT.consistent ?_
  rw [h.network]
  exact Network.enabledBy_mono h.literals (ht.active i hi)

/-- Its bounds are no narrower. -/
theorem Below.value_le (h : Below t T) (ht : t.Coherent) (hT : T.Stable) {x : Timepoint}
    (hx : t.network.hasTimepoint x = true) (d : Direction) :
    T.graph.value d x ≤ t.graph.value d x := by
  have hsound := hT.coherent.graph.toSound
  rw [h.network] at hsound
  exact ht.graph.value_le hsound (h.active ht hT) hx

/-- With narrower bounds no edge has more room. -/
theorem ruledOut_subset_of_value_le (hnetwork : T.network = t.network)
    (hle : ∀ i ∈ ids, ∀ d, T.graph.value d ((t.network.edge i).tail d)
      ≤ t.graph.value d ((t.network.edge i).tail d)) : t.ruledOut ids ⊆ T.ruledOut ids := by
  rintro l ⟨i, hi, hguard, hslack⟩
  refine ⟨i, hi, hnetwork ▸ hguard, Int.lt_of_le_of_lt ?_ hslack⟩
  unfold slack
  rw [hnetwork]
  split
  · exact Int.le_refl _
  · have hforward := hle i hi .forward
    have hbackward := hle i hi .backward
    simp only [Edge.tail] at hforward hbackward
    omega

/-- Literals denied because of closed cycles are so above as well. -/
theorem Below.closedBy_subset (h : Below t T) (ht : t.Coherent) (hT : T.Stable) (id : EdgeId) :
    t.closedBy id ⊆ T.closedBy id := by
  have hshared : ∀ i ∈ t.sharedInForce,
      i ∈ T.sharedInForce ∧ T.network.edge i = t.network.edge i := by
    rintro i ⟨hactive, hi⟩
    rw [h.network]
    exact ⟨⟨h.active ht hT hactive, h.network ▸ hi⟩, rfl⟩
  rintro l ⟨hloop, c, hc, hguard, hcShared, there, back, hthere, hback, hneg⟩
  have hthere' := hthere.transfer hshared
  have hback' := hback.transfer hshared
  unfold closedBy ClosesWith
  rw [h.network] at hthere' hback' ⊢
  exact ⟨hloop, c, hc, hguard, hcShared, there, back, hthere', hback', hneg⟩

/-- Literals that are derived from literals true in a consistent theory,
and have a value there, are true there. -/
theorem Steps.trueLiterals_subset_of_decided (h : Steps t t') (hT : T.Stable)
    (hnetwork : T.network = t.network) (hsubset : t.trueLiterals ⊆ T.trueLiterals)
    (hdecided : ∀ l ∈ t'.trueLiterals, l ∈ t.trueLiterals ∨ T.value l ≠ none) :
    t'.trueLiterals ⊆ T.trueLiterals := by
  induction h with
  | refl => exact hsubset
  | @tail t₁ t₂ hsteps hstep ih =>
      have hbefore := ih fun l hl => hdecided l (hstep.trueLiterals_subset hl)
      have hsame := (Steps.sameProblem hsteps).network
      cases hstep with
      | @implied l x hfree hvar htrue hvalid =>
          intro m hm
          rcases (value_imply hfree hvar x m).mp hm with hold | rfl
          · exact hbefore hold
          · rcases hdecided m hm with hold | hvalue
            · exact hsubset hold
            · rw [hsame, ← hnetwork] at hvalid
              exact hT.mem_trueLiterals_of_valid hvalid (fun m hm => hbefore (htrue m hm)) hvalue
      | counted stats => exact hbefore
      | dropped sub => exact hbefore
      | activated henabled haccepts hgrounded => exact hbefore
      | refuted hfree henabled hvalid => exact hbefore

/-- What is drawn below has been decided above. -/
theorem Below.draws (h : Below t T) (hT : T.Stable) (hdraws : Draws C t t')
    (hdecided : ∀ l ∈ C, T.value l ≠ none) : Below t' T where
  network := h.network.trans hdraws.same.network.symm
  bindings := h.bindings.trans hdraws.same.bindings.symm
  size := h.size.trans hdraws.same.size.symm
  literals := hdraws.steps.trueLiterals_subset_of_decided hT h.network h.literals
    fun l hl => (hdraws.drawn l hl).imp_right fun hC => hdecided l hC

-- ================================================================ absorption

/-- A theory that is not left, from below and from the graph on, at a
level of propagation. -/
structure Absorbs (p : PropagationLevel) (g₀ : ActiveGraph) (T : Theory) : Prop extends
    Stable T where
  sound : g₀.Sound T.network
  saturated : Saturated p g₀ T

/-- A theory at the level that has come from the graph on, and is below
another one. -/
structure Approaches (p : PropagationLevel) (g₀ : ActiveGraph) (t T : Theory) : Prop extends
    Below t T where
  coherent : t.Coherent
  level : t.config.propagation = p
  base : g₀.inForce ⊆ t.graph.inForce

/-- A potential that has been lowered since the graph is lower in the
other theory, too. -/
theorem Approaches.lt_of_lt (h : Approaches p g₀ t T) (hT : Absorbs p g₀ T) {g : ActiveGraph}
    (hput : Below { t with graph := g } T) (hg : Coherent { t with graph := g })
    {d : Direction} {x : Timepoint} (hx : t.network.hasTimepoint x = true)
    (hlt : g.value d x < t.graph.value d x) : T.graph.value d x < g₀.value d x := by
  have hsound := hT.sound
  rw [h.network] at hsound
  calc T.graph.value d x
      ≤ g.value d x := hput.value_le hg hT.toStable hx d
    _ < t.graph.value d x := hlt
    _ ≤ g₀.value d x := hsound.value_le h.coherent.graph.toSound h.base hx

/-- All that follows once an edge is in force has a value in the other
theory. -/
theorem Approaches.decided (h : Approaches p g₀ t T) (hT : Absorbs p g₀ T) {g : ActiveGraph}
    {lowered : List (Direction × Timepoint)} (hput : Below { t with graph := g } T)
    (hg : Coherent { t with graph := g }) (hfresh : t.graph.isActive id = false)
    (hactive : g.isActive id = true)
    (hlowers : ∀ q ∈ lowered, g.value q.1 q.2 < t.graph.value q.1 q.2) :
    ∀ l ∈ consequences { t with graph := g } id lowered, T.value l ≠ none := by
  rintro l (⟨⟨d, x⟩, hmem, hwatch | ⟨hbounds, i, hi, hroom⟩⟩ | ⟨hedges, hshared, hclosed⟩)
  · obtain ⟨w, hw, hle, rfl⟩ := hwatch
    obtain ⟨-, i, hi, -, -, htail, -⟩ := hg.watched d x w hw
    have hx : t.network.hasTimepoint x = true := htail ▸ hg.network.tail hi d
    have hle' := Int.le_trans (hput.value_le hg hT.toStable hx d) hle
    have hw' : w ∈ T.bindings.watches d x := h.bindings ▸ hw
    exact (hT.saturated.fired d x w hw' hle').resolve_right (Set.notMem_empty _)
  · obtain ⟨hedge, -, htail⟩ := (hg.network.guarded d x i).mp hi
    have hx : t.network.hasTimepoint x = true := htail ▸ hg.network.tail hedge d
    have hroom' : l ∈ T.ruledOut [i] := by
      refine ruledOut_subset_of_value_le hput.network (fun j hj d => ?_)
        (mem_ruledOut_singleton.mpr hroom)
      rw [List.mem_singleton.mp hj]
      exact hput.value_le hg hT.toStable (hg.network.tail hedge d) d
    refine hT.saturated.room d i (h.level ▸ hbounds) (h.network ▸ hedge) ?_ l hroom'
    rw [h.network, htail]
    exact h.lt_of_lt hT hput hg hx (hlowers _ hmem)
  · refine hT.saturated.closed id (h.level ▸ hedges) (hput.active hg hT.toStable hactive) ?_
      (h.network ▸ hshared) l (hput.closedBy_subset hg hT.toStable id hclosed)
    rw [Bool.eq_false_iff]
    intro hbase
    rw [h.base hbase] at hfresh
    cases hfresh

/-- An advance does not leave what absorbs it. -/
theorem Advance.approaches (h : Advance t t') (hT : Absorbs p g₀ T)
    (hb : Approaches p g₀ t T) : Approaches p g₀ t' T := by
  have hcoherent := h.steps.coherent hb.coherent
  have hlevel : t'.config.propagation = p := h.steps.sameProblem.config ▸ hb.level
  cases h with
  | idle steps graph known =>
      have hsame := steps.sameProblem
      refine ⟨⟨hb.network.trans hsame.network.symm, hb.bindings.trans hsame.bindings.symm,
        hb.size.trans hsame.size.symm, ?_⟩, hcoherent, hlevel, graph ▸ hb.base⟩
      unfold Theory.trueLiterals
      rw [value_congr known]
      exact hb.literals
  | @activated id g lowered enabled fresh accepts grounded lowers draws =>
      have hg : Coherent { t with graph := g } :=
        (Step.activated enabled accepts grounded).coherent hb.coherent
      have hput : Below { t with graph := g } T :=
        ⟨hb.network, hb.bindings, hb.size, hb.literals⟩
      have hdecided := hb.decided hT hput hg fresh ((accepts.active id).mpr (.inr rfl)) lowers
      refine ⟨hput.draws hT.toStable draws hdecided, hcoherent, hlevel, fun i hi => ?_⟩
      rw [draws.graph]
      exact (accepts.active i).mpr (.inl (hb.base hi))

theorem Advances.approaches (h : Advances t t') (hT : Absorbs p g₀ T)
    (hb : Approaches p g₀ t T) : Approaches p g₀ t' T := by
  induction h with
  | refl => exact hb
  | tail _ hadvance ih => exact hadvance.approaches hT ih

-- ========================================================== setting literals

/-- A literal that is true in the end can be set on the way there. -/
theorem Approaches.setLiteral (h : Approaches p g₀ t T) (hl : l ∈ T.trueLiterals) :
    Approaches p g₀ (t.setLiteral l) T ∧ l ∈ (t.setLiteral l).trueLiterals := by
  have hvar : t.hasVariable l.var = true := h.hasVariable l.var ▸ hasVariable_of_value hl
  have hsame := sameProblem_setLiteral t l
  have hset : (t.setLiteral l).trueLiterals ⊆ T.trueLiterals ∧
      l ∈ (t.setLiteral l).trueLiterals := by
    cases hvalue : t.value l with
    | none =>
        refine ⟨fun m hm => ?_, (value_setLiteral hvalue hvar l).mpr (.inr rfl)⟩
        rcases (value_setLiteral hvalue hvar m).mp hm with hold | rfl
        · exact h.literals hold
        · exact hl
    | some b =>
        rw [setLiteral_of_some hvalue]
        refine ⟨h.literals, ?_⟩
        cases b with
        | true => exact hvalue
        | false =>
            -- the other theory would know both the literal and its negation
            have hnegate : T.value l.negate = some true :=
              h.literals (value_negate_eq_true.mpr hvalue)
            have htrue : T.value l = some true := hl
            rw [value_negate_eq_true.mp hnegate] at htrue
            cases htrue
  refine ⟨⟨⟨h.network.trans hsame.network.symm, h.bindings.trans hsame.bindings.symm,
    h.size.trans hsame.size.symm, hset.1⟩, h.coherent.setLiteral hvar, hsame.config ▸ h.level, ?_⟩,
    hset.2⟩
  rw [graph_setLiteral]
  exact h.base

/-- To set a literal that is true in what absorbs a theory does not leave
it, nor does it lead to a conflict. -/
theorem Approaches.assign (h : Approaches p g₀ t T) (hT : Absorbs p g₀ T) (ht : t.Settled)
    (hl : l ∈ T.trueLiterals) :
    ∃ t', t.assign l = .ok (t', .ok ()) ∧ t'.Stable ∧ Approaches p g₀ t' T ∧ Below t t' ∧
      l ∈ t'.trueLiterals := by
  obtain ⟨⟨t', r⟩, hrun⟩ := ht.exists_assign l
  have hvar : t.hasVariable l.var = true := h.hasVariable l.var ▸ hasVariable_of_value hl
  have hnone := h.conflict_eq_none ht.coherent hT.toStable
  obtain ⟨hsettled, hadvances, rfl⟩ := advances_assign ht hvar hnone hrun
  obtain ⟨hset, hltrue⟩ := h.setLiteral hl
  have hafter := hadvances.approaches hT hset
  have hnone' := hafter.conflict_eq_none hafter.coherent hT.toStable
  have hgrown := hadvances.steps.below
  have hverdict : t'.verdict = .ok () := by
    unfold verdict
    rw [hnone']
  rw [hverdict] at hrun
  exact ⟨t', hrun, ⟨hsettled, hnone'⟩, hafter, (below_setLiteral hvar).trans hgrown,
    hgrown.literals hltrue⟩

/-- Sets literals in turn, with the answers. -/
def assignAll (t : Theory) : List Literal → Checked (Theory × List (Except AssignError Unit))
  | [] => .ok (t, [])
  | l :: ls => do
    let (t, answer) ← t.assign l
    let (t, answers) ← t.assignAll ls
    return (t, answer :: answers)

/-- Assignments are made one after the other. -/
theorem assignAll_cons_eq_ok {ls : List Literal} {answers : List (Except AssignError Unit)} :
    t.assignAll (l :: ls) = .ok (t', answers) ↔ ∃ t₁ answer rest, t.assign l = .ok (t₁, answer) ∧
      t₁.assignAll ls = .ok (t', rest) ∧ answers = answer :: rest := by
  simp only [assignAll, Checked.bind_eq_ok, Checked.pure_eq_ok, Prod.exists, Prod.mk.injEq]
  constructor
  · rintro ⟨t₁, answer, hfirst, _, rest, hrest, rfl, rfl⟩
    exact ⟨t₁, answer, rest, hfirst, hrest, rfl⟩
  · rintro ⟨t₁, answer, rest, hfirst, hrest, rfl⟩
    exact ⟨t₁, answer, hfirst, t', rest, hrest, rfl, rfl⟩

/-- The same for literals in turn. -/
theorem Approaches.assignAll {ls : List Literal} (h : Approaches p g₀ t T) (hT : Absorbs p g₀ T)
    (ht : t.Stable) (hls : ∀ l ∈ ls, l ∈ T.trueLiterals) :
    ∃ t' answers, t.assignAll ls = .ok (t', answers) ∧ (∀ a ∈ answers, a = .ok ()) ∧
      t'.Stable ∧ Approaches p g₀ t' T ∧ Below t t' ∧ ∀ l ∈ ls, l ∈ t'.trueLiterals := by
  induction ls generalizing t with
  | nil =>
      exact ⟨t, [], rfl, fun a ha => absurd ha List.not_mem_nil, ht, h, .refl t,
        fun l hl => absurd hl List.not_mem_nil⟩
  | cons l ls ih =>
      obtain ⟨t₁, hfirst, ht₁, happroaches, hgrown, hl⟩ :=
        h.assign hT ht.toSettled (hls l List.mem_cons_self)
      obtain ⟨t₂, answers, hrest, hok, ht₂, happroaches₂, hgrown₂, htrue⟩ :=
        ih happroaches ht₁ fun m hm => hls m (List.mem_cons_of_mem l hm)
      exact ⟨t₂, .ok () :: answers, assignAll_cons_eq_ok.mpr ⟨t₁, _, answers, hfirst, hrest, rfl⟩,
        List.forall_mem_cons.mpr ⟨rfl, hok⟩, ht₂, happroaches₂, hgrown.trans hgrown₂,
        List.forall_mem_cons.mpr ⟨hgrown₂.literals hl, htrue⟩⟩

end Theory

end TemporalNetwork
