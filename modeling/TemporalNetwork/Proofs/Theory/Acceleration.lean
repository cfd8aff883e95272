/-
Propagation beforehand only hastens what setting literals leads to.

Two theories are set up by the same requests and are then given the same
literals; the one rules edges out beforehand, the other one does not. If
the first is consistent in the end, with all these literals true, then so
is the second, and it knows no more.

# Setting up

The second theory `Mirrors` the first at the root: it is below it. Each
request that sets up the problem keeps this, as what is recorded is the
same for both and without propagation beforehand nothing is drawn but for
a fact that is bound: then both look at the room of the same edges. A
conflict at the root stays, so that a first theory which is consistent in
the end was so all along.

# Setting literals

From then on the first theory at its end absorbs the second: at the level
without propagation beforehand to be saturated is to have fired all
watches, which is so between any two requests.
-/
import TemporalNetwork.Proofs.Theory.Containment

namespace TemporalNetwork

namespace Theory

variable {s t u t' S T U T' : Theory} {l : Literal} {e : Edge} {f : BoundFact} {dom : Domain}
  {id : EdgeId} {ids : List EdgeId} {C D : Set Literal} {rs : List Request} {ls : List Literal}
  {answers : List (Except AssignError Unit)}

-- ================================================================ recording

/-- The same is recorded for both. -/
theorem Below.record (h : Below t T) (e : Edge) : Below (t.record e) (T.record e) where
  network := by
    rw [network_record, network_record, h.network]
  bindings := by
    unfold Theory.record
    rw [h.bindings, h.network]
  size := h.size
  literals := h.literals

/-- A bound recorded in both keeps one below the other. -/
theorem Below.recordBound (h : Below t T) (l : Literal) (f : BoundFact) :
    Below (t.recordBound l f) (T.recordBound l f) := by
  have hedges := (h.record (f.edge l)).record (f.negation.edge l.negate)
  refine ⟨hedges.network, ?_, hedges.size, hedges.literals⟩
  unfold Theory.recordBound Theory.bind
  rw [hedges.bindings]

/-- A variable created in both keeps one below the other. -/
theorem Below.newVariable (h : Below t T) : Below t.newVariable.1 T.newVariable.1 where
  network := h.network
  bindings := h.bindings
  size := by
    show (T.values.push none).size = (t.values.push none).size
    rw [HandleVector.size_push, HandleVector.size_push, h.size]
  literals := by
    rw [(extended_newVariable t).trueLiterals, (extended_newVariable T).trueLiterals]
    exact h.literals

/-- An edge that can be recorded below can be recorded above. -/
theorem Below.recordable (h : Below t T) (he : Recordable t e) : Recordable T e where
  source := h.network ▸ he.source
  target := h.network ▸ he.target
  guard g hg := (h.hasVariable g.var).trans (he.guard g hg)
  weight := he.weight

-- ============================================================== propagating

/-- What was recorded is still there, and what it called for was decided. -/
theorem Commits.grown (h : Commits t u C t') : Below u t' ∧ ∀ l ∈ C, t'.value l ≠ none := by
  have hsame := h.settles.2
  obtain ⟨ids, t₁, hrecorded, hprepares, hrun⟩ := h
  obtain ⟨-, hadvances⟩ := hrecorded.advances hprepares hrun
  have hkept := hprepares.changes.trueLiterals_subset.trans hadvances.steps.trueLiterals_subset
  exact ⟨⟨hsame.network, hsame.bindings, hsame.size, hkept⟩,
    fun l hl => hadvances.steps.value_ne_none (hprepares.decided l hl)⟩

/-- Any theory at rest and without a conflict absorbs those that do not
propagate beforehand. -/
theorem Stable.absorbs_off (hT : T.Stable) {g₀ : ActiveGraph} (hsound : g₀.Sound T.network) :
    Absorbs .off g₀ T where
  toStable := hT
  sound := hsound
  saturated := saturated_off g₀ hT.fired

/-- From below a theory that has decided what is called for, propagation
does not lead away. -/
theorem Commits.below (h : Commits t u C t') (hu : Below u T) (hT : T.Stable)
    (hoff : u.config.propagation = .off) (hdecided : ∀ l ∈ C, T.value l ≠ none) : Below t' T := by
  obtain ⟨ids, t₁, hrecorded, hprepares, hrun⟩ := h
  have hcoherent := hprepares.coherent hrecorded.coherent
  have hsame := hprepares.sameProblem
  obtain ⟨-, hadvances⟩ := hrecorded.advances hprepares hrun
  have ht₁ : Below t₁ T := by
    cases hprepares with
    | drawn draws disabled => exact hu.draws hT draws hdecided
    | pended decided edge enabled => exact ⟨hu.network, hu.bindings, hu.size, hu.literals⟩
  have hsound := hcoherent.graph.toSound
  rw [← ht₁.network] at hsound
  have hstart : Approaches .off t₁.graph t₁ T :=
    ⟨ht₁, hcoherent, hsame.config ▸ hoff, Set.Subset.refl _⟩
  exact (hadvances.approaches (hT.absorbs_off hsound) hstart).toBelow

-- ================================================================= mirroring

/-- Two theories at the root, of which the first does not propagate
beforehand and knows no more. -/
structure Mirrors (t T : Theory) : Prop extends Below t T where
  low : Stack [] t
  high : Stack [] T
  off : t.config.propagation = .off

/-- What ends without a conflict is followed. -/
def Follows {α : Type} (low high : Checked (Theory × α)) : Prop :=
  ∀ T' a, high = .ok (T', a) → T'.conflict = none → ∃ t' b, low = .ok (t', b) ∧ Mirrors t' T'

/-- A commit that ends without conflict above leaves the two theories
mirrored. -/
theorem Mirrors.commits (h : Mirrors t T) (low : Commits t u C t') (high : Commits T U D T')
    (hnone : T'.conflict = none) (hconfig : u.config = t.config) (hrecord : Below u U)
    (hsubset : C ⊆ D) : Mirrors t' T' := by
  obtain ⟨hlow, hsame⟩ := low.settles
  have hhigh := high.settles.1
  obtain ⟨hgrown, hdecided⟩ := high.grown
  have hoff : u.config.propagation = .off := hconfig ▸ h.off
  refine ⟨?_, h.low.settles hlow, h.high.settles hhigh, hsame.config ▸ hoff⟩
  exact low.below (hrecord.trans hgrown) ⟨hhigh.settled, hnone⟩ hoff
    fun l hl => hdecided l (hsubset hl)

section
variable {α β : Type}

/-- Requests are validated alike. -/
theorem Mirrors.attempt (h : Mirrors t T) {validation : Except Refusal Unit}
    {low high : Checked (Theory × α)} (hcommit : validation = .ok () → Follows low high) :
    Follows (t.attempt validation low) (T.attempt validation high) := by
  intro T' r hrun hnone
  unfold Theory.attempt at hrun ⊢
  cases hv : validation with
  | error refusal =>
      rw [hv] at hrun
      cases hrun
      exact ⟨t, .error refusal, rfl, h⟩
  | ok u =>
      rw [hv] at hrun
      obtain ⟨⟨T₁, a⟩, hhigh, heq⟩ := Checked.map_eq_ok.mp hrun
      cases heq
      obtain ⟨t', b, hlow, hmirrors⟩ := hcommit hv T' a hhigh hnone
      exact ⟨t', .ok b, Checked.map_eq_ok.mpr ⟨(t', b), hlow, rfl⟩, hmirrors⟩

/-- What is replied makes no difference. -/
theorem Follows.replying {low high : Checked (Theory × α)} (h : Follows low high)
    (reply : α → Reply) : Follows (replying low reply) (replying high reply) := by
  intro T' r hrun hnone
  obtain ⟨a, hhigh, -⟩ := replying_eq_ok.mp hrun
  obtain ⟨t', b, hlow, hmirrors⟩ := h T' a hhigh hnone
  exact ⟨t', reply b, replying_eq_ok.mpr ⟨b, hlow, rfl⟩, hmirrors⟩

end

theorem Mirrors.checkRoot (h : Mirrors t T) : T.checkRoot = t.checkRoot := by
  have hlevel : T.level = t.level := h.high.level_eq.trans h.low.level_eq.symm
  unfold Theory.checkRoot
  rw [hlevel]

theorem Mirrors.checkLiteral (h : Mirrors t T) (l : Literal) :
    T.checkLiteral l = t.checkLiteral l := by
  unfold Theory.checkLiteral
  rw [h.hasVariable]

theorem Mirrors.checkFact (h : Mirrors t T) (f : BoundFact) : T.checkFact f = t.checkFact f := by
  unfold Theory.checkFact
  rw [h.network]

-- ===================================================================== edges

/-- Without propagation beforehand a new edge is not looked at. -/
theorem Mirrors.commitEdge (h : Mirrors t T) (he : Recordable t e) :
    Follows (t.commitEdge e) (T.commitEdge e) := by
  intro T' id hrun hnone
  obtain ⟨⟨t', id'⟩, hlow⟩ := exists_commitEdge h.low.settled.coherent he
  have low := commits_commitEdge h.low.settled he hlow
  have high := commits_commitEdge h.high.settled (h.recordable he) hrun
  refine ⟨t', id', hlow, h.commits low high hnone rfl (h.record e) fun l hl => ?_⟩
  have huses := hl.1
  rw [h.off] at huses
  cases huses

/-- A permanent edge is followed. -/
theorem Mirrors.addPermanentEdge (h : Mirrors t T) (source target : Timepoint) (weight : Int) :
    Follows (t.addPermanentEdge source target weight)
      (T.addPermanentEdge source target weight) := by
  unfold Theory.addPermanentEdge
  rw [h.checkRoot, h.network]
  refine h.attempt fun hv => ?_
  simp only [checks_eq_ok] at hv
  exact h.commitEdge (recordable_permanent hv.2)

theorem Mirrors.addEdge (h : Mirrors t T) (e : Edge) : Follows (t.addEdge e) (T.addEdge e) := by
  unfold Theory.addEdge
  cases hg : e.guard? with
  | none => exact h.addPermanentEdge e.source e.target e.weight
  | some guard =>
      simp only
      rw [h.checkRoot, h.checkLiteral, h.network]
      refine h.attempt fun hv => ?_
      simp only [checks_eq_ok] at hv
      exact h.commitEdge (recordable_guarded hg hv.2.1 hv.2.2)

/-- An option is followed, edge by edge. -/
theorem Mirrors.addOptionalEdge (h : Mirrors t T) (source target : Timepoint) (weight : Int)
    (forwardGuard backwardGuard : Literal) :
    Follows (t.addOptionalEdge source target weight forwardGuard backwardGuard)
      (T.addOptionalEdge source target weight forwardGuard backwardGuard) := by
  unfold Theory.addOptionalEdge
  rw [h.checkRoot, h.checkLiteral, h.checkLiteral, h.network]
  refine h.attempt fun hv T' a hrun hnone => ?_
  simp only [checks_eq_ok] at hv
  obtain ⟨-, hforward, hbackward, hedge⟩ := hv
  simp only [Checked.bind_eq_ok, Checked.pure_eq_ok, Prod.mk.injEq] at hrun
  obtain ⟨⟨T₁, id₁⟩, hfirst, ⟨T₂, id₂⟩, hsecond, rfl, -⟩ := hrun
  have he₁ : Recordable t ⟨source, target, weight, .directed forwardGuard .forward⟩ :=
    recordable_guarded rfl hforward hedge
  have he₂ : Recordable t ⟨source, target, weight, .directed backwardGuard .backward⟩ :=
    recordable_guarded rfl hbackward hedge
  -- the first conflict would have stayed
  have hhigh := (settles_commitEdge h.high.settled (h.recordable he₁) hfirst).1
  have hhigh₂ := (settles_commitEdge hhigh.settled
    ((h.recordable he₂).changes hhigh.changes) hsecond).1
  have hnone₁ := hhigh₂.changes.conflict_eq_none hnone
  obtain ⟨t₁, i₁, hlow₁, h₁⟩ := h.commitEdge he₁ T₁ id₁ hfirst hnone₁
  have hchanges := (settles_commitEdge h.low.settled he₁ hlow₁).1.changes
  obtain ⟨t₂, i₂, hlow₂, h₂⟩ := h₁.commitEdge (he₂.changes hchanges) T₂ id₂ hsecond hnone
  refine ⟨t₂, (i₁, i₂), ?_, h₂⟩
  simp only [Checked.bind_eq_ok, Checked.pure_eq_ok]
  exact ⟨_, hlow₁, _, hlow₂, rfl⟩

-- ================================================== timepoints and variables

theorem Mirrors.newVariable (h : Mirrors t T) : Mirrors t.newVariable.1 T.newVariable.1 where
  toBelow := h.toBelow.newVariable
  low := h.low.settles (settles_newVariable h.low.settled)
  high := h.high.settles (settles_newVariable h.high.settled)
  off := h.off

/-- A bounded timepoint is followed, edge by edge. -/
theorem Mirrors.newTimepoint (h : Mirrors t T) (dom : Domain) :
    Follows (t.newTimepoint dom) (T.newTimepoint dom) := by
  unfold Theory.newTimepoint
  rw [h.checkRoot]
  refine h.attempt fun hv T' a hrun hnone => ?_
  simp only [checks_eq_ok, checkRoot_eq_ok] at hv
  obtain ⟨hroot, hdom⟩ := hv
  obtain ⟨g, hg⟩ := h.low.settled.coherent.graph.exists_addNode (h.low.graph_level hroot) dom
  simp only [Checked.bind_eq_ok, Checked.pure_eq_ok, Prod.mk.injEq] at hrun
  obtain ⟨G, hG, rfl, -⟩ := hrun
  have hlow := settles_addBounded h.low.settled hdom hg
  have hhigh := settles_addBounded h.high.settled hdom hG
  refine ⟨{ t with network := t.network.addBounded dom, graph := g },
    t.network.domains.nextKey, ?_, ⟨⟨congrArg (·.addBounded dom) h.network, h.bindings, h.size,
      h.literals⟩, h.low.settles hlow, h.high.settles hhigh, h.off⟩⟩
  simp only [Checked.bind_eq_ok, Checked.pure_eq_ok]
  exact ⟨g, hg, rfl⟩

-- ============================================================== equivalences

/-- A reification is followed, edge by edge. -/
theorem Mirrors.addReifiedEdge (h : Mirrors t T) (l : Literal) (source target : Timepoint)
    (weight : Int) : Follows (t.addReifiedEdge l source target weight)
      (T.addReifiedEdge l source target weight) := by
  unfold Theory.addReifiedEdge
  rw [h.checkRoot, h.checkLiteral, h.network]
  refine h.attempt fun hv T' a hrun hnone => ?_
  simp only [checks_eq_ok, checkLiteral_eq_ok, checkEdge_eq_ok, checkMagnitude_eq_ok] at hv
  obtain ⟨-, hvar, ⟨hsource, htarget, hweight⟩, hnegated⟩ := hv
  have he := recordable_conditional hsource htarget hvar hweight
  have hn := recordable_conditional (l := l.negate) htarget hsource hvar hnegated
  rw [recordEquivalence_eq (l := l) rfl rfl] at hrun ⊢
  simp only [Checked.bind_eq_ok, Checked.pure_eq_ok, Prod.mk.injEq] at hrun ⊢
  obtain ⟨T₁, hhigh, rfl, -⟩ := hrun
  obtain ⟨ids, hrecorded, -⟩ := recorded_equivalence h.low.settled rfl rfl he hn
  obtain ⟨t₁, hlow⟩ := hrecorded.coherent.exists_commitEquivalence l t.config.propagation.usesBounds
  have low := commits_equivalence h.low.settled rfl rfl he hn hlow
  have high := commits_equivalence h.high.settled rfl rfl (h.recordable he) (h.recordable hn) hhigh
  refine ⟨t₁, _, ⟨t₁, hlow, rfl, rfl⟩,
    h.commits low high hnone rfl ((h.record _).record _) fun m hm => ?_⟩
  have huses := hm.1
  rw [h.off] at huses
  cases huses

/-- A fact that is bound is looked at by both, and the one that knows more
leaves no more room. -/
theorem Mirrors.ruledOutFor_subset (h : Mirrors t T) (hnone : T.conflict = none)
    (hrecorded : (t.recordBound l f).Coherent) :
    (t.recordBound l f).ruledOutFor l true ⊆ (T.recordBound l f).ruledOutFor l true := by
  have hrecord := h.recordBound l f
  rintro m ⟨-, hm⟩
  refine ⟨rfl, ?_⟩
  rw [hrecord.bindings]
  refine ruledOut_subset_of_value_le hrecord.network (fun i hi d => ?_) hm
  rw [graph_value_recordBound, graph_value_recordBound]
  have hedge : (t.recordBound l f).network.hasEdge i = true := by
    rcases List.mem_append.mp hi with hi | hi
    · exact ((hrecorded.bound l i).mp hi).1
    · exact ((hrecorded.bound l.negate i).mp hi).1
  have htail := hrecorded.network.tail hedge d
  rw [hasTimepoint_recordBound] at htail
  exact h.value_le h.low.settled.coherent ⟨h.high.settled, hnone⟩ htail d

/-- A bound that is committed without conflict above is committed below as
well. -/
theorem Mirrors.commitBound (h : Mirrors t T) (hvar : t.hasVariable l.var = true)
    (hfact : t.checkFact f = .ok ()) (hrun : T.commitBound l f = .ok T')
    (hnone : T'.conflict = none) : ∃ t', t.commitBound l f = .ok t' ∧ Mirrors t' T' := by
  obtain ⟨ids, hrecorded, -⟩ := recorded_bound h.low.settled hvar hfact
  obtain ⟨t', hlow⟩ := h.low.settled.exists_commitBound hvar hfact
  have low := commits_commitBound h.low.settled hvar hfact hlow
  have high := commits_commitBound h.high.settled ((h.hasVariable l.var).trans hvar)
    ((h.checkFact f).trans hfact) hrun
  have hbefore := high.settles.1.changes.conflict_eq_none hnone
  exact ⟨t', hlow, h.commits low high hnone rfl (h.recordBound l f)
    (h.ruledOutFor_subset hbefore hrecorded.coherent)⟩

theorem Mirrors.bindBound (h : Mirrors t T) (l : Literal) (f : BoundFact) :
    Follows (t.bindBound l f) (T.bindBound l f) := by
  unfold Theory.bindBound
  rw [h.checkRoot, h.checkLiteral, h.checkFact]
  refine h.attempt fun hv T' a hrun hnone => ?_
  simp only [checks_eq_ok, checkLiteral_eq_ok] at hv
  simp only [Checked.bind_eq_ok, Checked.pure_eq_ok, Prod.mk.injEq] at hrun
  obtain ⟨T₁, hhigh, rfl, -⟩ := hrun
  obtain ⟨t', hlow, hmirrors⟩ := h.commitBound hv.2.1 hv.2.2 hhigh hnone
  exact ⟨t', (), Checked.bind_eq_ok.mpr ⟨t', hlow, rfl⟩, hmirrors⟩

/-- The new literal is the same in both, and is bound in both. -/
theorem Mirrors.newBoundLiteral (h : Mirrors t T) (f : BoundFact) :
    Follows (t.newBoundLiteral f) (T.newBoundLiteral f) := by
  unfold Theory.newBoundLiteral
  rw [h.checkRoot, h.checkFact]
  refine h.attempt fun hv T' a hrun hnone => ?_
  simp only [checks_eq_ok] at hv
  have hkey : T.newVariable.2 = t.newVariable.2 := by
    show (T.values.nextKey : BoolVar) = t.values.nextKey
    rw [HandleVector.nextKey, HandleVector.nextKey, h.size]
  simp only [newLiteral, hkey, Checked.bind_eq_ok, Checked.pure_eq_ok, Prod.mk.injEq] at hrun ⊢
  obtain ⟨T₁, hhigh, rfl, -⟩ := hrun
  obtain ⟨t', hlow, hmirrors⟩ :=
    h.newVariable.commitBound (hasVariable_newVariable t) hv.2 hhigh hnone
  exact ⟨t', ⟨t.newVariable.2, true⟩, ⟨t', hlow, rfl, rfl⟩, hmirrors⟩

-- ================================================================= requests

/-- Requests that set up the problem are carried out by both. -/
theorem Mirrors.perform (h : Mirrors t T) {r : Request} (hr : r.isSetup = true) :
    Follows (t.perform r) (T.perform r) := by
  have hnew : ∀ reply reply' : Reply, Follows (.ok (t.newVariable.1, reply))
      (.ok (T.newVariable.1, reply')) := by
    rintro reply reply' T' a hrun hnone
    cases hrun
    exact ⟨_, reply, rfl, h.newVariable⟩
  cases r with
  | newVariable => exact hnew _ _
  | newLiteral => exact hnew _ _
  | newTimepoint domain => exact (h.newTimepoint domain).replying _
  | addPermanentEdge s e w => exact (h.addPermanentEdge s e w).replying _
  | addConditionalEdge s e w g => exact (h.addEdge ⟨s, e, w, .conditional g⟩).replying _
  | addConstraint s e w g =>
      cases g with
      | none => exact (h.addPermanentEdge s e w).replying _
      | some g => exact (h.addEdge ⟨s, e, w, .conditional g⟩).replying _
  | addDirectedEdge s e w g d => exact (h.addEdge ⟨s, e, w, .directed g d⟩).replying _
  | addOptionalEdge s e w f b => exact (h.addOptionalEdge s e w f b).replying _
  | addReifiedEdge l s e w => exact (h.addReifiedEdge l s e w).replying _
  | addMaxDelay a b delay => exact (h.addPermanentEdge a b delay).replying _
  | addMinDelay a b delay =>
      refine Follows.replying (fun T' x hrun hnone => ?_) _
      obtain ⟨weight, hweight, hhigh⟩ := Checked.bind_eq_ok.mp hrun
      obtain ⟨t', y, hlow, hmirrors⟩ := h.addPermanentEdge b a weight T' x hhigh hnone
      exact ⟨t', y, Checked.bind_eq_ok.mpr ⟨weight, hweight, hlow⟩, hmirrors⟩
  | addBeforeEq a b => exact (h.addPermanentEdge b a 0).replying _
  | addStrictlyBefore a b => exact (h.addPermanentEdge b a (-1)).replying _
  | bindBound l f => exact (h.bindBound l f).replying _
  | newBoundLiteral f => exact (h.newBoundLiteral f).replying _
  | _ => cases hr

/-- A conflict stays while the problem is set up. -/
theorem conflict_eq_none_of_performAll (ht : t.Settled) (hrs : ∀ r ∈ rs, r.isSetup = true)
    (hrun : t.performAll rs = .ok t') (hnone : t'.conflict = none) : t.conflict = none := by
  induction rs generalizing t with
  | nil =>
      cases hrun
      exact hnone
  | cons r rs ih =>
      obtain ⟨hr, hrest⟩ := List.forall_mem_cons.mp hrs
      obtain ⟨⟨t₁, reply⟩, hfirst, hrun⟩ := Checked.bind_eq_ok.mp hrun
      have hsetsUp := setsUp_perform ht hr hfirst
      exact hsetsUp.conflict_eq_none (ih (hsetsUp.settled ht) hrest hrun)

/-- A setup that ends without conflict can be performed without propagation.
-/
theorem Mirrors.performAll (h : Mirrors t T) (hrs : ∀ r ∈ rs, r.isSetup = true)
    (hrun : T.performAll rs = .ok T') (hnone : T'.conflict = none) :
    ∃ t', t.performAll rs = .ok t' ∧ Mirrors t' T' := by
  induction rs generalizing t T with
  | nil =>
      cases hrun
      exact ⟨t, rfl, h⟩
  | cons r rs ih =>
      obtain ⟨hr, hrest⟩ := List.forall_mem_cons.mp hrs
      obtain ⟨⟨T₁, reply⟩, hfirst, hrun⟩ := Checked.bind_eq_ok.mp hrun
      have hsettled := (setsUp_perform h.high.settled hr hfirst).settled h.high.settled
      have hnone₁ := conflict_eq_none_of_performAll hsettled hrest hrun hnone
      obtain ⟨t₁, answer, hlow, hmirrors⟩ := h.perform hr T₁ reply hfirst hnone₁
      obtain ⟨t', hlowRest, hmirrors'⟩ := ih hmirrors hrest hrun
      exact ⟨t', Checked.bind_eq_ok.mpr ⟨(t₁, answer), hlow, hlowRest⟩, hmirrors'⟩

-- ========================================================== setting literals

/-- To set a literal takes nothing back, not even a conflict. -/
theorem below_assign (ht : t.Settled) {answer : Except AssignError Unit}
    (h : t.assign l = .ok (t', answer)) :
    t'.Settled ∧ Below t t' ∧ (t'.conflict = none → t.conflict = none) := by
  by_cases hset : t.hasVariable l.var = true ∧ t.conflict = none
  · obtain ⟨hsettled, hsteps⟩ := steps_assign ht hset.1 hset.2 h
    exact ⟨hsettled, (below_setLiteral hset.1).trans hsteps.below, fun _ => hset.2⟩
  · rw [eq_of_assign h hset]
    exact ⟨ht, .refl t, fun hnone => hnone⟩

/-- Assignments only add to what is known. -/
theorem below_assignAll (ht : t.Settled) (h : t.assignAll ls = .ok (t', answers)) :
    t'.Settled ∧ Below t t' ∧ (t'.conflict = none → t.conflict = none) := by
  induction ls generalizing t answers with
  | nil =>
      cases h
      exact ⟨ht, .refl _, fun hnone => hnone⟩
  | cons l ls ih =>
      obtain ⟨t₁, answer, rest, hfirst, hrest, -⟩ := assignAll_cons_eq_ok.mp h
      obtain ⟨ht₁, hbelow, hkept⟩ := below_assign ht hfirst
      obtain ⟨ht', hbelow', hkept'⟩ := ih ht₁ hrest
      exact ⟨ht', hbelow.trans hbelow', fun hnone => hkept (hkept' hnone)⟩

/-- Before the first request the two theories differ in their level only. -/
theorem mirrors_initial (c : Config) (selfCheck : Bool) :
    Mirrors (initial ⟨.off, selfCheck⟩) (initial c) where
  network := rfl
  bindings := rfl
  size := rfl
  literals := Set.Subset.refl _
  low := .root (settled_initial _) (atRoot_initial _)
  high := .root (settled_initial c) (atRoot_initial c)
  off := rfl

/-- The interval of a timepoint contains the one in a theory that knows
more. -/
theorem Below.exists_bounds (h : Below t T) (ht : t.Coherent) (hT : T.Stable) {x : Timepoint}
    (hx : t.network.hasTimepoint x = true) :
    ∃ lower upper lower' upper', t.lower x = .ok lower ∧ t.upper x = .ok upper ∧
      T.lower x = .ok lower' ∧ T.upper x = .ok upper' ∧ lower ≤ lower' ∧ upper' ≤ upper := by
  have hforward := h.value_le ht hT hx .forward
  have hbackward := h.value_le ht hT hx .backward
  unfold Theory.lower Theory.upper requireTimepoint
  rw [h.network, Checked.require_of hx]
  refine ⟨t.graph.lower x, t.graph.upper x, T.graph.lower x, T.graph.upper x, rfl, rfl, rfl, rfl,
    ?_, hforward⟩
  unfold ActiveGraph.lower
  omega

/-- A problem is set up and literals are set, at some level of
propagation, and all of them are true in the end without a conflict. Then
this is so without propagation beforehand as well; and what is true and
what is in force there is so at the level, and intervals are no narrower. -/
theorem exists_assignAll_off {c : Config} {selfCheck : Bool} (hsetup : ∀ r ∈ rs, r.isSetup = true)
    (hS : (initial c).performAll rs = .ok S) (hT : S.assignAll ls = .ok (T, answers))
    (hconsistent : T.isConsistent = true) (htrue : ∀ l ∈ ls, T.value l = some true) :
    ∃ s t answers', (initial ⟨.off, selfCheck⟩).performAll rs = .ok s ∧
      s.assignAll ls = .ok (t, answers') ∧ (∀ a ∈ answers', a = .ok ()) ∧
      t.isConsistent = true ∧ (∀ l ∈ ls, t.value l = some true) ∧
      (∀ l, t.value l = some true → T.value l = some true) ∧
      (∀ id, t.isActive id = true → T.isActive id = true) ∧
      T.network = t.network ∧ ∀ x, t.network.hasTimepoint x = true →
        ∃ lower upper lower' upper', t.lower x = .ok lower ∧ t.upper x = .ok upper ∧
          T.lower x = .ok lower' ∧ T.upper x = .ok upper' ∧ lower ≤ lower' ∧ upper' ≤ upper := by
  obtain ⟨hsettled, hgrown, hkept⟩ := below_assignAll (settled_of_performAll hS) hT
  have hstable : T.Stable := ⟨hsettled, Option.isNone_iff_eq_none.mp hconsistent⟩
  obtain ⟨s, hs, hmirrors⟩ :=
    (mirrors_initial c selfCheck).performAll hsetup hS (hkept hstable.consistent)
  have hbelow : Below s T := hmirrors.toBelow.trans hgrown
  have hs₀ := hmirrors.low.settled
  have hsound := hs₀.coherent.graph.toSound
  rw [← hbelow.network] at hsound
  have hstart : Approaches .off s.graph s T :=
    ⟨hbelow, hs₀.coherent, hmirrors.off, Set.Subset.refl _⟩
  obtain ⟨t, answers', hrun, hok, ht, happroaches, -, htrue'⟩ := hstart.assignAll
    (hstable.absorbs_off hsound) ⟨hs₀, hbelow.conflict_eq_none hs₀.coherent hstable⟩ htrue
  exact ⟨s, t, answers', hs, hrun, hok, Option.isNone_iff_eq_none.mpr ht.consistent, htrue',
    fun l hl => happroaches.literals hl, fun id hid => happroaches.active ht.coherent hstable hid,
    happroaches.network, fun x hx => happroaches.exists_bounds ht.coherent hstable hx⟩

/-- With both kinds of propagation the last edge is ruled out as soon as
the others are in force. -/
theorem exists_assignAll_off_chain :
    ∃ S T answers, (initial ⟨.full, true⟩).performAll
        [.newTimepoint ⟨0, 10⟩, .newTimepoint ⟨0, 10⟩, .newLiteral, .newLiteral, .newLiteral,
          .addConditionalEdge .origin ⟨1⟩ 4 ⟨⟨0⟩, true⟩, .addReifiedEdge ⟨⟨1⟩, true⟩ ⟨1⟩ ⟨2⟩ 3,
          .addMinDelay ⟨1⟩ ⟨2⟩ 1, .newBoundLiteral (.leq ⟨2⟩ 7),
          .addConditionalEdge ⟨2⟩ .origin (-9) ⟨⟨2⟩, true⟩] = .ok S ∧
      S.assignAll [⟨⟨1⟩, true⟩, ⟨⟨0⟩, true⟩, ⟨⟨3⟩, true⟩] = .ok (T, answers) ∧
      T.value ⟨⟨2⟩, true⟩ = some false ∧
      ∃ s t answers', (initial ⟨.off, false⟩).performAll
          [.newTimepoint ⟨0, 10⟩, .newTimepoint ⟨0, 10⟩, .newLiteral, .newLiteral, .newLiteral,
            .addConditionalEdge .origin ⟨1⟩ 4 ⟨⟨0⟩, true⟩, .addReifiedEdge ⟨⟨1⟩, true⟩ ⟨1⟩ ⟨2⟩ 3,
            .addMinDelay ⟨1⟩ ⟨2⟩ 1, .newBoundLiteral (.leq ⟨2⟩ 7),
            .addConditionalEdge ⟨2⟩ .origin (-9) ⟨⟨2⟩, true⟩] = .ok s ∧
        s.assignAll [⟨⟨1⟩, true⟩, ⟨⟨0⟩, true⟩, ⟨⟨3⟩, true⟩] = .ok (t, answers') ∧
        (∀ a ∈ answers', a = .ok ()) ∧ t.isConsistent = true ∧
        (∀ l ∈ [⟨⟨1⟩, true⟩, ⟨⟨0⟩, true⟩, ⟨⟨3⟩, true⟩], t.value l = some true) ∧
        (∀ l, t.value l = some true → T.value l = some true) ∧
        (∀ id, t.isActive id = true → T.isActive id = true) ∧
        T.network = t.network ∧ ∀ x, t.network.hasTimepoint x = true →
          ∃ lower upper lower' upper', t.lower x = .ok lower ∧ t.upper x = .ok upper ∧
            T.lower x = .ok lower' ∧ T.upper x = .ok upper' ∧ lower ≤ lower' ∧
              upper' ≤ upper := by
  have hrun : ((initial ⟨.full, true⟩).performAll
      [.newTimepoint ⟨0, 10⟩, .newTimepoint ⟨0, 10⟩, .newLiteral, .newLiteral, .newLiteral,
        .addConditionalEdge .origin ⟨1⟩ 4 ⟨⟨0⟩, true⟩, .addReifiedEdge ⟨⟨1⟩, true⟩ ⟨1⟩ ⟨2⟩ 3,
        .addMinDelay ⟨1⟩ ⟨2⟩ 1, .newBoundLiteral (.leq ⟨2⟩ 7),
        .addConditionalEdge ⟨2⟩ .origin (-9) ⟨⟨2⟩, true⟩] >>= fun S =>
      S.assignAll [⟨⟨1⟩, true⟩, ⟨⟨0⟩, true⟩, ⟨⟨3⟩, true⟩]).answers (fun p =>
        p.1.isConsistent && p.1.value ⟨⟨2⟩, true⟩ == some false &&
        [⟨⟨1⟩, true⟩, ⟨⟨0⟩, true⟩, ⟨⟨3⟩, true⟩].all (fun l => p.1.value l == some true))
      = true := by decide +kernel
  obtain ⟨⟨T, answers⟩, hrun, hstate⟩ := Checked.exists_of_answers hrun
  obtain ⟨S, hS, hT⟩ := Checked.bind_eq_ok.mp hrun
  simp only [Bool.and_eq_true, beq_iff_eq, List.all_eq_true] at hstate
  obtain ⟨⟨hconsistent, hruledOut⟩, htrue⟩ := hstate
  exact ⟨S, T, answers, hS, hT, hruledOut,
    exists_assignAll_off (by decide) hS hT hconsistent htrue⟩

end Theory

end TemporalNetwork
