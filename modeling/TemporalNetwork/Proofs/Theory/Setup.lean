/-
Requests that set up the problem.

Each request is validated before anything is stored, and what it stores
is what was validated: the ends of an edge are timepoints, its guard is a
literal of the theory, a domain is not empty. Hence a request that is
accepted leads from a settled theory to a settled one, by changes of the
kinds that extend the problem or propagate, and a request that is refused
leads nowhere. `Outcome` says this of a request and of its answer.
-/
import TemporalNetwork.Proofs.Theory.Extension

namespace TemporalNetwork

namespace Theory

variable {t t' : Theory} {l : Literal} {e : Edge} {f : BoundFact} {dom : Domain}

-- ============================================================== validation

section
variable {α : Type} {r : Except Refusal α} {a : α} {net : Network} {tp source target : Timepoint}
  {weight : Int}

/-- Checks are made in turn. -/
theorem checks_eq_ok {x y : Except Refusal Unit} :
    (x >>= fun _ => y) = .ok () ↔ x = .ok () ∧ y = .ok () := by
  cases x with
  | error refusal => simp [bind, Except.bind]
  | ok u => simp [bind, Except.bind]

theorem checkRoot_eq_ok : t.checkRoot = .ok () ↔ t.level = .root := by
  unfold checkRoot
  split <;> simp_all

theorem checkLiteral_eq_ok : t.checkLiteral l = .ok () ↔ t.hasVariable l.var = true := by
  unfold checkLiteral
  split <;> simp_all

theorem checkTimepoint_eq_ok : net.checkTimepoint tp = .ok () ↔ net.hasTimepoint tp = true := by
  unfold Network.checkTimepoint
  split <;> simp_all

/-- A weight is within the limits on either side. -/
theorem checkMagnitude_eq_ok : Network.checkMagnitude weight = .ok () ↔
    -maxMagnitude ≤ weight ∧ weight ≤ maxMagnitude := by
  unfold Network.checkMagnitude
  split <;> simp_all

/-- What is checked of an edge is that its ends are there and its weight is
within the limits. -/
theorem checkEdge_eq_ok : net.checkEdge source target weight = .ok () ↔
    net.hasTimepoint source = true ∧ net.hasTimepoint target = true ∧
      -maxMagnitude ≤ weight ∧ weight ≤ maxMagnitude := by
  unfold Network.checkEdge
  simp only [checks_eq_ok, checkTimepoint_eq_ok, checkMagnitude_eq_ok]

/-- A domain has both bounds within the limits, and is not empty. -/
theorem checkDomain_eq_ok : Network.checkDomain dom = .ok () ↔
    (-maxMagnitude ≤ dom.lower ∧ dom.lower ≤ maxMagnitude) ∧
      (-maxMagnitude ≤ dom.upper ∧ dom.upper ≤ maxMagnitude) ∧ dom.lower ≤ dom.upper := by
  have hle : (if dom.lower ≤ dom.upper then Except.ok ()
      else Except.error (Refusal.emptyDomain dom.lower dom.upper)) = .ok () ↔
        dom.lower ≤ dom.upper := by
    split <;> simp_all
  unfold Network.checkDomain
  simp only [checks_eq_ok, checkMagnitude_eq_ok, hle]

/-- Both the fact and its negation must be ones that an edge can state. -/
theorem checkFact_eq_ok : t.checkFact f = .ok () ↔ t.network.hasTimepoint f.timepoint = true ∧
    (-maxMagnitude ≤ f.value ∧ f.value ≤ maxMagnitude) ∧
      -maxMagnitude ≤ f.negation.value ∧ f.negation.value ≤ maxMagnitude := by
  unfold checkFact
  simp only [checks_eq_ok, checkTimepoint_eq_ok, checkMagnitude_eq_ok]

/-- What was checked of an edge is what it takes to record it. -/
theorem recordable_permanent (hedge : t.network.checkEdge source target weight = .ok ()) :
    Recordable t ⟨source, target, weight, .permanent⟩ := by
  obtain ⟨hsource, htarget, hweight⟩ := checkEdge_eq_ok.mp hedge
  exact ⟨hsource, htarget, (fun g hg => by cases hg), hweight⟩

/-- An edge that was checked with its guard can be recorded. -/
theorem recordable_guarded {guard : Literal} (hguard : e.guard? = some guard)
    (hliteral : t.checkLiteral guard = .ok ())
    (hedge : t.network.checkEdge e.source e.target e.weight = .ok ()) : Recordable t e := by
  obtain ⟨hsource, htarget, hweight⟩ := checkEdge_eq_ok.mp hedge
  refine ⟨hsource, htarget, fun g hg => ?_, hweight⟩
  rw [hguard, Option.some.injEq] at hg
  exact hg ▸ checkLiteral_eq_ok.mp hliteral

/-- A request at the root was refused and changed nothing, or it was
carried out with a result as described. -/
def Outcome (t t' : Theory) (r : Except Refusal α) (P : α → Prop) : Prop :=
  (∃ refusal, r = .error refusal ∧ t' = t) ∨
    ∃ a, r = .ok a ∧ t.level = .root ∧ Settles t t' ∧ P a

/-- Requests are validated first, and then carried out. -/
theorem outcome_of_attempt {P : α → Prop} {validation : Except Refusal Unit}
    {commit : Checked (Theory × α)}
    (hcommit : ∀ a, validation = .ok () → commit = .ok (t', a) →
      t.level = .root ∧ Settles t t' ∧ P a)
    (h : t.attempt validation commit = .ok (t', r)) : Outcome t t' r P := by
  unfold attempt at h
  cases hv : validation with
  | error refusal =>
      rw [hv] at h
      cases h
      exact .inl ⟨refusal, rfl, rfl⟩
  | ok u =>
      rw [hv] at h
      simp only [Checked.map_eq_ok, Prod.mk.injEq] at h
      obtain ⟨⟨t₁, a⟩, hrun, rfl, rfl⟩ := h
      exact .inr ⟨a, rfl, hcommit a hv hrun⟩

/-- A request that was not refused was carried out. -/
theorem Outcome.settles {a : α} {P : α → Prop} (h : Outcome t t' (.ok a) P) :
    Settles t t' ∧ P a := by
  rcases h with ⟨refusal, hr, -⟩ | ⟨a', ha, -, hsettles, hP⟩
  · cases hr
  · cases ha
    exact ⟨hsettles, hP⟩

end

-- =================================================================== edges

section
variable {source target : Timepoint} {weight : Int} {r : Except Refusal EdgeId}

/-- A permanent edge is refused, or the problem has one edge more. -/
theorem outcome_addPermanentEdge (ht : t.Settled)
    (h : t.addPermanentEdge source target weight = .ok (t', r)) :
    Outcome t t' r fun _ =>
      t'.network = t.network.addEdge ⟨source, target, weight, .permanent⟩ := by
  refine outcome_of_attempt (fun a hv hrun => ?_) h
  simp only [checks_eq_ok, checkRoot_eq_ok] at hv
  obtain ⟨hroot, hedge⟩ := hv
  obtain ⟨hsettles, hsame⟩ := settles_commitEdge ht (recordable_permanent hedge) hrun
  exact ⟨hroot, hsettles, hsame.network⟩

/-- So it is with edges of any kind, for which the guard is checked besides.
-/
theorem outcome_addEdge (ht : t.Settled) (h : t.addEdge e = .ok (t', r)) :
    Outcome t t' r fun _ => t'.network = t.network.addEdge e := by
  unfold Theory.addEdge at h
  cases hg : e.guard? with
  | none =>
      rw [hg] at h
      have hpermanent : e = ⟨e.source, e.target, e.weight, .permanent⟩ := by
        obtain ⟨source, target, weight, kind⟩ := e
        cases kind with
        | permanent => rfl
        | conditional g => cases hg
        | directed g view => cases hg
      rw [hpermanent]
      exact outcome_addPermanentEdge ht h
  | some guard =>
      rw [hg] at h
      refine outcome_of_attempt (fun a hv hrun => ?_) h
      simp only [checks_eq_ok, checkRoot_eq_ok] at hv
      obtain ⟨hroot, hliteral, hedge⟩ := hv
      obtain ⟨hsettles, hsame⟩ :=
        settles_commitEdge ht (recordable_guarded hg hliteral hedge) hrun
      exact ⟨hroot, hsettles, hsame.network⟩

end

/-- Two edges, one for each view. -/
theorem outcome_addOptionalEdge (ht : t.Settled) {source target : Timepoint} {weight : Int}
    {forwardGuard backwardGuard : Literal} {r : Except Refusal (EdgeId × EdgeId)}
    (h : t.addOptionalEdge source target weight forwardGuard backwardGuard = .ok (t', r)) :
    Outcome t t' r fun _ => t'.network =
      (t.network.addEdge ⟨source, target, weight, .directed forwardGuard .forward⟩).addEdge
        ⟨source, target, weight, .directed backwardGuard .backward⟩ := by
  refine outcome_of_attempt (fun a hv hrun => ?_) h
  simp only [checks_eq_ok, checkRoot_eq_ok] at hv
  obtain ⟨hroot, hforward, hbackward, hedge⟩ := hv
  simp only [Checked.bind_eq_ok, Checked.pure_eq_ok, Prod.mk.injEq] at hrun
  obtain ⟨⟨t₁, id₁⟩, hfirst, ⟨t₂, id₂⟩, hsecond, rfl, rfl⟩ := hrun
  have he₁ : Recordable t ⟨source, target, weight, .directed forwardGuard .forward⟩ :=
    recordable_guarded rfl hforward hedge
  have he₂ : Recordable t ⟨source, target, weight, .directed backwardGuard .backward⟩ :=
    recordable_guarded rfl hbackward hedge
  obtain ⟨hsettles₁, hsame₁⟩ := settles_commitEdge ht he₁ hfirst
  obtain ⟨hsettles₂, hsame₂⟩ :=
    settles_commitEdge hsettles₁.settled (he₂.changes hsettles₁.changes) hsecond
  refine ⟨hroot, hsettles₁.trans hsettles₂, ?_⟩
  rw [hsame₂.network, network_record, hsame₁.network, network_record]

-- ============================================================== timepoints

/-- The edges of the domain have no guards. -/
theorem guard?_addBounded (net : Network) (dom : Domain) {i : EdgeId}
    (hi : i.index = net.numEdges ∨ i.index = net.numEdges + 1) :
    ((net.addBounded dom).edge i).guard? = none := by
  obtain ⟨n⟩ := i
  rcases hi with hn | hn
  · obtain rfl : n = net.numEdges := hn
    rw [Network.edge_addBounded_upper]
    rfl
  · obtain rfl : n = net.numEdges + 1 := hn
    rw [Network.edge_addBounded_lower]
    rfl

/-- The edges of a domain are under no guard. -/
theorem guarded_addBounded {net : Network} {i : EdgeId} {g : Literal} :
    ((net.addBounded dom).hasEdge i = true ∧
      ((net.addBounded dom).edge i).guard? = some g) ↔
        net.hasEdge i = true ∧ (net.edge i).guard? = some g := by
  have hgrows := Network.grows_addBounded net dom
  constructor
  · rintro ⟨hi, hg⟩
    rcases Network.hasEdge_addBounded.mp hi with hold | hnew
    · rw [(hgrows.edge i hold).2] at hg
      exact ⟨hold, hg⟩
    · rw [guard?_addBounded net dom hnew] at hg
      cases hg
  · rintro ⟨hi, hg⟩
    obtain ⟨hi', heq⟩ := hgrows.edge i hi
    exact ⟨hi', heq ▸ hg⟩

/-- A new timepoint leaves a theory coherent. It starts at its own bounds, by
the two edges of its domain, which are in force from then on. -/
theorem Coherent.addBounded (ht : t.Coherent) {g : ActiveGraph} {tp : Timepoint}
    (hdom : Network.checkDomain dom = .ok ()) (h : t.graph.addNode tp dom = .ok g) :
    Coherent { t with network := t.network.addBounded dom, graph := g } := by
  have hgrows := Network.grows_addBounded t.network dom
  obtain ⟨hadds, -⟩ := ActiveGraph.adds_of_addNode ht.graph.toShaped h
  obtain ⟨hlower, hupper, hle⟩ := checkDomain_eq_ok.mp hdom
  refine ⟨ht.network.addBounded dom, ht.enforced.addBounded ht.network dom,
    ht.limited.addBounded hlower hupper, ht.graph.addNode ht.network hle h, ?_, ?_, ?_,
    ht.assigned, ht.once, ?_, ?_, ?_, ?_⟩
  · intro i l hi hl
    obtain ⟨hold, hg⟩ := guarded_addBounded.mp ⟨hi, hl⟩
    exact ht.guard i l hold hg
  · intro l i
    rw [guarded_addBounded]
    exact ht.bound l i
  · intro d x w hw
    obtain ⟨hvar, i, hi, hrest⟩ := ht.watched d x w hw
    obtain ⟨hi', heq⟩ := hgrows.edge i hi
    refine ⟨hvar, i, hi', ?_⟩
    simp only [heq]
    exact hrest
  · -- the two new edges are in force and have no guard
    intro i hi
    rcases (hadds.isActive ht.graph.toShaped i).mp hi with hold | hnew
    · exact (hgrows.enabledBy i (ht.active i hold)).1
    · refine ⟨Network.hasEdge_addBounded.mpr (.inr hnew), fun l hl => ?_⟩
      rw [guard?_addBounded t.network dom hnew] at hl
      cases hl
  · intro i hi
    exact (hgrows.edge i (ht.pending i hi)).1
  · intro c hc
    obtain ⟨hvalid, htrue⟩ := ht.conflict c hc
    exact ⟨hvalid.grows hgrows, htrue⟩
  · intro i hi
    exact (ht.implied i hi).grows hgrows

/-- A timepoint is added with the edges that enforce its domain, in
force, so that there is nothing to propagate. -/
theorem settles_addBounded (ht : t.Settled) {g : ActiveGraph} {tp : Timepoint}
    (hdom : Network.checkDomain dom = .ok ()) (h : t.graph.addNode tp dom = .ok g) :
    Settles t { t with network := t.network.addBounded dom, graph := g } := by
  have hgrows := Network.grows_addBounded t.network dom
  obtain ⟨hadds, -⟩ := ActiveGraph.adds_of_addNode ht.coherent.graph.toShaped h
  have hactive := hadds.isActive ht.coherent.graph.toShaped
  refine ⟨⟨ht.coherent.addBounded hdom h, ht.rest, fun hnone i hi => ?_, fun d x w hw hle => ?_⟩,
    ?_⟩
  · rcases Network.hasEdge_addBounded.mp hi.1 with hold | hnew
    · have henabled : i ∈ t.network.enabledBy t.trueLiterals := by
        refine ⟨hold, fun l hl => hi.2 l ?_⟩
        show ((t.network.addBounded dom).edge i).guard? = some l
        rw [(hgrows.edge i hold).2]
        exact hl
      exact .inl ((hactive i).mpr (.inl (ht.enabledBy_active hnone henabled)))
    · exact .inl ((hactive i).mpr (.inr hnew))
  · obtain ⟨-, i, hi, -, -, htail, -⟩ := ht.coherent.watched d x w hw
    have hx : t.network.hasTimepoint x = true := htail ▸ ht.coherent.network.tail hi d
    have hsame : g.value d x = t.graph.value d x :=
      hadds.value_of_hasTimepoint ht.coherent.graph.toShaped d hx
    exact ht.fired d x w hw (hsame ▸ hle)
  · exact Extended.run ⟨hgrows, fun _ _ => List.Subset.refl _, Nat.le_refl _, fun _ => rfl, rfl,
      rfl, rfl, hadds.log, rfl⟩

/-- A timepoint has the next handle, and the problem two edges more. -/
theorem outcome_newTimepoint (ht : t.Settled) {r : Except Refusal Timepoint}
    (h : t.newTimepoint dom = .ok (t', r)) :
    Outcome t t' r fun tp =>
      tp = t.network.domains.nextKey ∧ t'.network = t.network.addBounded dom := by
  refine outcome_of_attempt (fun a hv hrun => ?_) h
  simp only [checks_eq_ok, checkRoot_eq_ok] at hv
  simp only [Checked.bind_eq_ok, Checked.pure_eq_ok, Prod.mk.injEq] at hrun
  obtain ⟨g, hg, rfl, rfl⟩ := hrun
  exact ⟨hv.1, settles_addBounded ht hv.2 hg, rfl, rfl⟩

-- =============================================================== variables

/-- A variable more, of which nothing is known. -/
theorem extended_newVariable (t : Theory) : Extended t t.newVariable.1 where
  network := .refl _
  watches _ _ := List.Subset.refl _
  size := by
    show t.values.size ≤ (t.values.push none).size
    rw [HandleVector.size_push]
    exact Nat.le_succ _
  known v := by
    show ((t.values.push none).get? v).getD none = (t.values.get? v).getD none
    rw [HandleVector.get?_push]
    split
    next hv =>
      rw [(HandleVector.get?_eq_none_iff _ _).mpr (Nat.le_of_eq hv.symm)]
      rfl
    next => rfl
  assignments := rfl
  implications := rfl
  log := rfl
  graphLog := rfl
  conflict := rfl

/-- A new variable has no value, at any level. -/
theorem settles_newVariable (ht : t.Settled) : Settles t t.newVariable.1 := by
  have hextended := extended_newVariable t
  have htrue := hextended.trueLiterals
  refine ⟨⟨⟨ht.coherent.network, ht.coherent.enforced, ht.coherent.limited, ht.coherent.graph, ?_,
    ht.coherent.bound, ?_, ?_, ht.coherent.once, ?_, ht.coherent.pending, ?_, ht.coherent.implied⟩,
    ht.rest, ?_, ht.fired.congr rfl rfl hextended.known⟩, hextended.run⟩
  · exact fun i g hi hg => hextended.hasVariable (ht.coherent.guard i g hi hg)
  · intro d tp w hw
    obtain ⟨hvar, hedge⟩ := ht.coherent.watched d tp w hw
    exact ⟨hextended.hasVariable hvar, hedge⟩
  · intro l
    rw [htrue]
    exact ht.coherent.assigned l
  · intro i hi
    rw [htrue]
    exact ht.coherent.active i hi
  · intro c hc
    rw [htrue]
    exact ht.coherent.conflict c hc
  · intro hnone i hi
    rw [htrue] at hi
    exact ht.covered hnone i hi

theorem hasVariable_newVariable (t : Theory) :
    t.newVariable.1.hasVariable t.newVariable.2 = true := by
  apply (HandleVector.contains_iff _ _).mpr
  show Handle.index t.values.nextKey < (t.values.push none).size
  rw [HandleVector.index_nextKey, HandleVector.size_push]
  exact Nat.lt_succ_self _

end Theory

end TemporalNetwork
