/-
Propagation takes steps, and forgets no edge and no consequence.

To put an edge in force, to draw the consequences and to work off what
is pending are runs of steps. A conflict that is recorded is a negative
cycle through edges whose guards are true.

# Coverage

A theory without a conflict is `Covered` up to a list of edges if every
edge whose guard is true is in force, is on the list, or is waited for
by a pending activation. Propagation keeps this as it works the list and
the pending activations off, so that at the end the edges in force are
exactly those whose guards are true.

# Advances

Nothing is drawn but when an edge is put in force, and then all that
follows from it is. `Advance` says so of propagation: it moves on without
touching the graph or a value, or it puts an edge in force and draws the
`consequences`. A theory is `Fired` up to a set of literals if the literal
of each watch whose threshold is reached has a value or is in the set:
that survives every advance, as potentials are lowered only together with
an edge.
-/
import TemporalNetwork.Proofs.Theory.Consequence

namespace TemporalNetwork

namespace Theory

variable {t t' t'' : Theory} {id : EdgeId} {ids es : List EdgeId} {C : Set Literal}
  {lowered : List (Direction × Timepoint)}

-- ================================================================ advances

/-- What follows once the edge is in force and the nodes were lowered. -/
def consequences (t : Theory) (id : EdgeId) (lowered : List (Direction × Timepoint)) :
    Set Literal :=
  t.noticed lowered ∪ {l | t.config.propagation.usesEdges = true ∧
    (t.network.edge id).isShared = true ∧ l ∈ t.closedBy id}

/-- What propagation does at a time: it leaves the graph and the values
alone, or puts an edge in force and draws what follows. -/
inductive Advance (t t' : Theory) : Prop where
  | idle (steps : Steps t t') (graph : t'.graph = t.graph) (known : ∀ v, t'.known v = t.known v)
  | activated {id : EdgeId} {g : ActiveGraph} {lowered : List (Direction × Timepoint)}
      (enabled : id ∈ t.network.enabledBy t.trueLiterals) (fresh : t.graph.isActive id = false)
      (accepts : t.graph.Accepts t.network id g lowered) (grounded : g.Grounded t.network)
      (lowers : ∀ p ∈ lowered, g.value p.1 p.2 < t.graph.value p.1 p.2)
      (draws : Draws (consequences { t with graph := g } id lowered) { t with graph := g } t')

/-- A run of advances. -/
abbrev Advances : Theory → Theory → Prop := Relation.ReflTransGen Advance

theorem Advance.steps (h : Advance t t') : Steps t t' := by
  cases h with
  | idle steps graph known => exact steps
  | activated enabled fresh accepts grounded lowers draws =>
      exact (Step.activated enabled accepts grounded).run.trans draws.steps

theorem Advances.steps (h : Advances t t') : Steps t t' := by
  induction h with
  | refl => exact .refl
  | tail _ hadvance ih => exact ih.trans hadvance.steps

/-- What each advance keeps at some settings is kept by a run of them, which
leaves the settings alone. -/
theorem Advances.keeps (options : Config → Prop) (P : Theory → Prop)
    (hstep : ∀ u u', Advance u u' → u.Coherent → options u.config → P u → P u')
    (h : Advances t t') (ht : t.Coherent) (hoptions : options t.config) (hP : P t) : P t' := by
  induction h with
  | refl => exact hP
  | tail hrun hadvance ih =>
      have hsteps := Advances.steps hrun
      refine hstep _ _ hadvance (hsteps.coherent ht) ?_ ih
      rw [hsteps.sameProblem.config]
      exact hoptions

/-- The literal of each watch whose threshold is reached has a value, but
for some literals. -/
def Fired (t : Theory) (C : Set Literal) : Prop :=
  ∀ d x, ∀ w ∈ t.bindings.watches d x, t.graph.value d x ≤ w.threshold →
    t.value w.literal ≠ none ∨ w.literal ∈ C

theorem Fired.congr (h : t.Fired C) (hbindings : t'.bindings = t.bindings)
    (hgraph : t'.graph = t.graph) (hknown : ∀ v, t'.known v = t.known v) : t'.Fired C := by
  intro d x w hw hle
  rw [hbindings] at hw
  rw [hgraph] at hle
  rw [value_congr hknown]
  exact h d x w hw hle

theorem Fired.setLiteral (h : t.Fired C) {l : Literal} (hvar : t.hasVariable l.var = true) :
    (t.setLiteral l).Fired C := by
  have hsame := sameProblem_setLiteral t l
  intro d x w hw hle
  rw [hsame.bindings] at hw
  rw [graph_setLiteral] at hle
  exact (h d x w hw hle).imp_left (value_ne_none_of_subset (trueLiterals_subset_setLiteral hvar))

/-- Literals that were drawn need not be excepted. -/
theorem Draws.fired (h : Draws C t t') (hfired : t.Fired C) : t'.Fired ∅ := by
  intro d x w hw hle
  rw [h.same.bindings] at hw
  rw [h.graph] at hle
  rcases hfired d x w hw hle with hvalue | hC
  · exact .inl (h.steps.value_ne_none hvalue)
  · exact .inl (h.decided _ hC)

/-- An advance leaves no watch to be fired. -/
theorem Advance.fired (h : Advance t t') (hfired : t.Fired ∅) : t'.Fired ∅ := by
  cases h with
  | idle steps graph known => exact hfired.congr steps.sameProblem.bindings graph known
  | activated enabled fresh accepts grounded lowers draws =>
      refine draws.fired fun d x w hw hle => ?_
      rcases accepts.changed d x with hsame | hmem
      · rw [hsame] at hle
        exact (hfired d x w hw hle).imp_right fun hC => absurd hC (Set.notMem_empty _)
      · exact .inr (.inl ⟨(d, x), hmem, .inl ⟨w, hw, hle, rfl⟩⟩)

theorem Advances.fired (h : Advances t t') (hfired : t.Fired ∅) : t'.Fired ∅ := by
  induction h with
  | refl => exact hfired
  | tail _ hadvance ih => exact hadvance.fired ih

-- ============================================================== activation

/-- Every edge whose guard is true is in force, listed, or waited for. -/
def Covered (t : Theory) (ids : List EdgeId) : Prop :=
  t.conflict = none → ∀ id ∈ t.network.enabledBy t.trueLiterals,
    t.graph.isActive id = true ∨ id ∈ ids ∨ ∃ p ∈ t.pending, id ∈ t.edgesToActivate p

/-- Setting literals leaves edges covered. -/
theorem Sets.covered (h : Sets t t') (ht : t.Coherent) (ht' : t'.Coherent)
    (hc : t.Covered ids) : t'.Covered ids := by
  have hsame := h.same
  intro hnone id hid
  rw [h.conflict] at hnone
  rw [h.graph]
  by_cases hfresh : ∃ g, (t.network.edge id).guard? = some g ∧ g ∉ t.trueLiterals
  · -- the guard became true on the way, so that it is pending
    obtain ⟨g, hg, hnew⟩ := hfresh
    have hg' : (t'.network.edge id).guard? = some g := by rwa [hsame.network]
    have hpending := (h.fresh g (hid.2 g hg')).resolve_left hnew
    exact .inr (.inr ⟨_, hpending, (ht'.bound g id).mpr ⟨hid.1, hg'⟩⟩)
  · have hold : id ∈ t.network.enabledBy t.trueLiterals := by
      rw [hsame.network] at hid
      refine ⟨hid.1, fun g hg => ?_⟩
      by_contra hnew
      exact hfresh ⟨g, hg, hnew⟩
    rcases hc hnone id hold with hact | hmem | ⟨p, hp, hmem⟩
    · exact .inl hact
    · exact .inr (.inl hmem)
    · refine .inr (.inr ⟨p, h.pending hp, ?_⟩)
      cases p with
      | literal l =>
          have hb := (ht.bound l id).mp hmem
          rw [← hsame.network] at hb
          exact (ht'.bound l id).mpr hb
      | edge e => exact hmem

theorem Infers.covered (h : Infers t t') (ht : t.Coherent) (hc : t.Covered ids) :
    t'.Covered ids := h.toSets.covered ht (h.coherent ht) hc

/-- A cycle through edges whose guards are true is recorded, if it is
one of negative weight. -/
theorem advance_recordConflict (hnone : t.conflict = none)
    (henabled : ∀ i ∈ es, i ∈ t.network.enabledBy t.trueLiterals)
    (hinconsistent : t.network.isCycle es = true → t.network.weight es < 0 →
      t.network.Inconsistent {i | i ∈ es})
    (h : t.recordConflict es = .ok t') :
    Advance t t' ∧ t'.conflict ≠ none ∧ t'.pending = [] := by
  unfold recordConflict at h
  simp only [Checked.bind_eq_ok, Checked.require_eq_ok] at h
  obtain ⟨-, hcycle, -, hweight, h⟩ := h
  have hvalid : (Conflict.ofCycle t.network es).Valid t.network :=
    ⟨hcycle, hweight, fun i hi => (henabled i hi).1, rfl, hinconsistent hcycle hweight⟩
  have hrun : ∀ t₁, Except.ok t₁ = (Except.ok t' : Checked Theory) →
      t₁ = { t with
        stats := { t.stats with conflicts := t.stats.conflicts + 1 }
        pending := []
        conflict := some (Conflict.ofCycle t.network es)
        log := t.log.record .conflictRecorded } →
      Advance t t' ∧ t'.conflict ≠ none ∧ t'.pending = [] := by
    rintro t₁ heq rfl
    cases heq
    refine ⟨.idle ?_ rfl fun _ => rfl, Option.some_ne_none _, rfl⟩
    have hcounted := Step.counted (t := t) { t.stats with conflicts := t.stats.conflicts + 1 }
    exact hcounted.run.tail (Step.refuted hnone henabled hvalid)
  split at h
  · simp only [Checked.bind_eq_ok] at h
    obtain ⟨-, -, h⟩ := h
    exact hrun _ h rfl
  · exact hrun _ h rfl

/-- Work was done on the first edges of a list, and the rest is left. -/
structure Works (t : Theory) (ids : List EdgeId) (t' : Theory) (rest : List EdgeId) : Prop where
  advances : Advances t t'
  covered : t.Covered ids → t'.Covered rest
  emptied : t'.conflict ≠ none → t'.pending = []

theorem Works.steps {rest : List EdgeId} (h : Works t ids t' rest) : Steps t t' := h.advances.steps

theorem Works.trans {rest rest' : List EdgeId} (h : Works t ids t' rest)
    (h' : Works t' rest t'' rest') : Works t ids t'' rest' :=
  ⟨h.advances.trans h'.advances, fun hc => h'.covered (h.covered hc), h'.emptied⟩

/-- The edge is in force already, or its guard is not true. -/
theorem covered_of_skip {ids : List EdgeId}
    (hskip : (t.graph.isActive id ||
      (t.network.edge id).guard?.any (t.value · != some true)) = true)
    (hc : t.Covered (id :: ids)) : t.Covered ids := by
  intro hnone i hi
  rcases hc hnone i hi with hact | hmem | hpending
  · exact .inl hact
  · rcases List.mem_cons.mp hmem with rfl | hmem
    · rcases Bool.or_eq_true_iff.mp hskip with hact | hguard
      · exact .inl hact
      · cases hg : (t.network.edge i).guard? with
        | none =>
            rw [hg] at hguard
            cases hguard
        | some g =>
            have htrue : t.value g = some true := hi.2 g hg
            rw [hg] at hguard
            simp [htrue] at hguard
    · exact .inr (.inl hmem)
  · exact .inr (.inr hpending)

/-- An edge that is not skipped may be put in force. -/
theorem enabled_of_go (hid : t.network.hasEdge id = true)
    (hgo : ¬ (t.graph.isActive id ||
      (t.network.edge id).guard?.any (t.value · != some true)) = true) :
    id ∈ t.network.enabledBy t.trueLiterals := by
  refine ⟨hid, fun g hg => ?_⟩
  by_contra hfalse
  apply hgo
  rw [hg]
  have hvalue : ¬ t.value g = some true := hfalse
  simp [hvalue]

/-- An edge is put in force, with all that follows from it. -/
theorem works_of_accepts (ht : t.Coherent) (hnone : t.conflict = none)
    (henabled : id ∈ t.network.enabledBy t.trueLiterals) (hfresh : t.graph.isActive id = false)
    {g : ActiveGraph} (haccepts : t.graph.Accepts t.network id g lowered)
    (hgrounded : g.Grounded t.network)
    (hlowers : ∀ p ∈ lowered, g.value p.1 p.2 < t.graph.value p.1 p.2)
    (hdraws : Draws (consequences { t with graph := g } id lowered) { t with graph := g } t') :
    Works t (id :: ids) t' ids := by
  have hput : Coherent { t with graph := g } :=
    (Step.activated henabled haccepts hgrounded).coherent ht
  refine ⟨.single (.activated henabled hfresh haccepts hgrounded hlowers hdraws), fun hc => ?_,
    fun hconflict => ?_⟩
  · refine hdraws.covered hput fun hn i hi => ?_
    rcases hc hn i hi with hact | hmem | hpending
    · exact .inl ((haccepts.active i).mpr (.inl hact))
    · rcases List.mem_cons.mp hmem with rfl | hmem
      · exact .inl ((haccepts.active i).mpr (.inr rfl))
      · exact .inr (.inl hmem)
    · exact .inr (.inr hpending)
  · rw [hdraws.conflict] at hconflict
    exact absurd hnone hconflict

/-- Only the counts have changed. -/
theorem works_counted (hnone : t.conflict = none) (ids : List EdgeId) (stats : TheoryStats) :
    Works t ids { t with stats } ids :=
  ⟨.single (.idle (Step.counted stats).run rfl fun _ => rfl), fun hc => hc,
    fun hconflict => absurd hnone hconflict⟩

/-- Once an edge is in force the lowered nodes are looked at, and then, at
the levels that use edges, the cycles through it. -/
theorem draws_consequences (ht : t.Coherent) (hactive : t.graph.isActive id = true)
    {t₁ : Theory} (hlowered : t.onLowered lowered = .ok t₁)
    (h : (if t₁.config.propagation.usesEdges && (t.network.edge id).isShared then
      t₁.ruleOutAround id else pure t₁) = .ok t') : Draws (consequences t id lowered) t t' := by
  have hnoticed := draws_onLowered ht hlowered
  rw [hnoticed.same.config] at h
  split at h
  next hedges =>
    obtain ⟨huses, hshared⟩ := Bool.and_eq_true_iff.mp hedges
    have hactive₁ : t₁.graph.isActive id = true := hnoticed.graph ▸ hactive
    have hshared₁ : (t₁.network.edge id).isShared = true := hnoticed.same.network ▸ hshared
    have hclosed := draws_ruleOutAround (hnoticed.coherent ht) hactive₁ hshared₁ h
    rw [hnoticed.closedBy] at hclosed
    refine (hnoticed.trans hclosed).congr ?_ ?_
    · exact Set.union_subset_union_right _ fun l hl => ⟨huses, hshared, hl⟩
    · exact fun l hl => .inl (hl.imp_right fun hl => hl.2.2)
  next hedges =>
    cases h
    refine hnoticed.congr (fun l hl => .inl hl) fun l hl => ?_
    rcases hl with hl | ⟨huses, hshared, -⟩
    · exact .inl hl
    · exact absurd (Bool.and_eq_true_iff.mpr ⟨huses, hshared⟩) hedges

/-- One edge is put in force, or is not to be, or cannot be. -/
theorem works_activate (ht : t.Coherent) (hnone : t.conflict = none)
    (hid : t.network.hasEdge id = true) (h : t.activate id = .ok t') :
    Works t (id :: ids) t' ids := by
  unfold Theory.activate at h
  simp only at h
  split at h
  -- the edge is in force, or its guard is not true
  next hskip =>
    cases h
    exact ⟨.refl, covered_of_skip hskip, fun hc => absurd hnone hc⟩
  next hgo =>
    have henabled := enabled_of_go hid hgo
    have hfresh : t.graph.isActive id = false := by
      rw [Bool.or_eq_true, not_or] at hgo
      exact Bool.eq_false_iff.mpr hgo.1
    simp only [Checked.bind_eq_ok] at h
    obtain ⟨a, ha, h⟩ := h
    obtain ⟨b, hb, hgrounded, hlowers, -⟩ := ht.graph.exists_activate ht.network ht.limited hid
    cases ha.symm.trans hb
    have hcounted := works_counted hnone (id :: ids) { t.stats with
      activations := t.stats.activations + 1
      distanceUpdates := t.stats.distanceUpdates + a.steps }
    rcases ht.graph.activate ht.network hid ha with
      ⟨lowered, hverdict, haccepts⟩ | ⟨es, hverdict, hgraph, hrejects⟩
    · -- the edge is put in force, and consequences are drawn
      rw [hverdict] at h
      simp only [Checked.bind_eq_ok] at h
      obtain ⟨t₁, hlowered, h⟩ := h
      have hput := (Step.activated henabled haccepts hgrounded).coherent ht
      have hdraws := draws_consequences ((Step.counted _).coherent hput)
        ((haccepts.active id).mpr (.inr rfl)) hlowered h
      exact hcounted.trans (works_of_accepts (hcounted.steps.coherent ht) hnone henabled hfresh
        haccepts hgrounded (hlowers lowered hverdict) hdraws)
    · -- the edge closes a negative cycle, all edges of which are enabled
      rw [hverdict, hgraph] at h
      simp only at h
      have hall : ∀ i ∈ es, i ∈ t.network.enabledBy t.trueLiterals := by
        intro i hi
        rcases hrejects.among i hi with hact | rfl
        · exact ht.active i hact
        · exact henabled
      obtain ⟨hrefuted, hconflict, hpending⟩ :=
        advance_recordConflict (t := { t with stats := { t.stats with
          activations := t.stats.activations + 1
          distanceUpdates := t.stats.distanceUpdates + a.steps } })
          hnone hall hrejects.inconsistent h
      exact ⟨hcounted.advances.tail hrefuted, fun _ hn => absurd hn hconflict, fun _ => hpending⟩

/-- Edges are put in force in turn, up to a conflict. -/
theorem works_activateAll (ht : t.Coherent) (hnone : t.conflict = none)
    (hids : ∀ i ∈ ids, t.network.hasEdge i = true) (h : t.activateAll ids = .ok t') :
    Works t ids t' [] := by
  induction ids generalizing t with
  | nil =>
      cases h
      exact ⟨.refl, fun hc => hc, fun hc => absurd hnone hc⟩
  | cons id rest ih =>
      simp only [activateAll, Checked.bind_eq_ok] at h
      obtain ⟨t₁, hfirst, h⟩ := h
      have hwork : Works t (id :: rest) t₁ rest :=
        works_activate ht hnone (hids id List.mem_cons_self) hfirst
      split at h
      next hsome =>
        simp only [Checked.pure_eq_ok] at h
        subst h
        refine ⟨hwork.advances, fun _ hn => ?_, hwork.emptied⟩
        rw [hn] at hsome
        cases hsome
      next hnone₁ =>
        refine hwork.trans (ih (hwork.steps.coherent ht)
          (Option.not_isSome_iff_eq_none.mp hnone₁) (fun i hi => ?_) h)
        rw [hwork.steps.sameProblem.network]
        exact hids i (List.mem_cons_of_mem id hi)

-- ================================================================ the queue

/-- Activations that wait are of edges of the network. -/
theorem Coherent.hasEdge_of_pending (ht : t.Coherent) {p : PendingActivation}
    (hp : p ∈ t.pending) : ∀ i ∈ t.edgesToActivate p, t.network.hasEdge i = true := by
  intro i hi
  cases p with
  | literal l => exact ((ht.bound l i).mp hi).1
  | edge id =>
      rw [List.mem_singleton.mp hi]
      exact ht.pending id hp

/-- Pending activations are worked off, up to a conflict. -/
theorem works_drain {n : Nat} (ht : t.Coherent) (hnone : t.conflict = none)
    (h : drain n t = .ok t') : Works t [] t' [] ∧ t'.pending = [] := by
  induction n generalizing t with
  | zero => cases h
  | succ n ih =>
      unfold Theory.drain at h
      split at h
      next hempty =>
        -- the self-check reads the theory and changes nothing
        have hdone : ∀ t₁ : Theory, t₁ = t → (pure t₁ : Checked Theory) = .ok t' →
            Works t [] t' [] ∧ t'.pending = [] := by
          rintro t₁ rfl heq
          cases heq
          exact ⟨⟨.refl, fun hc => hc, fun _ => hempty⟩, hempty⟩
        split at h
        · simp only [Checked.bind_eq_ok] at h
          obtain ⟨-, -, h⟩ := h
          exact hdone t rfl h
        · exact hdone t rfl h
      next p rest hcons =>
        simp only [Checked.bind_eq_ok] at h
        obtain ⟨t₁, hfirst, h⟩ := h
        have hp : p ∈ t.pending := hcons ▸ List.mem_cons_self
        have hdropped : Step t { t with pending := rest } := by
          apply Step.dropped
          rw [hcons]
          exact List.sublist_cons_self p rest
        -- the activation that is taken out is what is to be worked off next
        have hwork : Works t [] { t with pending := rest } (t.edgesToActivate p) := by
          refine ⟨.single (.idle hdropped.run rfl fun _ => rfl), fun hc hn i hi => ?_,
            fun hc => absurd hnone hc⟩
          rcases hc hn i hi with hact | hmem | ⟨q, hq, hmem⟩
          · exact .inl hact
          · exact absurd hmem List.not_mem_nil
          · rw [hcons] at hq
            rcases List.mem_cons.mp hq with rfl | hq
            · exact .inr (.inl hmem)
            · exact .inr (.inr ⟨q, hq, hmem⟩)
        have hall := hwork.trans (works_activateAll (hwork.steps.coherent ht) hnone
          (ht.hasEdge_of_pending hp) hfirst)
        split at h
        next hsome =>
          simp only [Checked.pure_eq_ok] at h
          subst h
          exact ⟨hall, hall.emptied (Option.isSome_iff_ne_none.mp hsome)⟩
        next hnone₁ =>
          obtain ⟨hrest, hpending⟩ := ih (hall.steps.coherent ht)
            (Option.not_isSome_iff_eq_none.mp hnone₁) h
          exact ⟨hall.trans hrest, hpending⟩

/-- Propagation advances, and leaves nothing pending and no edge behind. -/
theorem works_propagate (ht : t.Coherent) (h : t.propagate = .ok t') :
    Works t [] t' [] ∧ t'.pending = [] := by
  unfold Theory.propagate at h
  split at h
  next hsome =>
    cases h
    have hdropped : Step t { t with pending := [] } := Step.dropped (List.nil_sublist _)
    refine ⟨⟨.single (.idle hdropped.run rfl fun _ => rfl), fun _ hn => ?_, fun _ => rfl⟩, rfl⟩
    exact absurd hn (Option.isSome_iff_ne_none.mp hsome)
  next hnone => exact works_drain ht (Option.not_isSome_iff_eq_none.mp hnone) h

end Theory

end TemporalNetwork
