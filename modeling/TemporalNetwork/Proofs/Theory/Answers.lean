/-
Every request is answered.

What a request stores was validated, so that it leaves a coherent theory
on which propagation comes to an end; going back finds the states that
were saved. No check that is made on the way fails, and no sum leaves its
32 bits.

Two requests can break off, both before they do anything: a minimal delay
whose negation does not have 32 bits, and taking back the last level at
the root, where there is none.
-/
import TemporalNetwork.Proofs.Theory.Progress
import TemporalNetwork.Proofs.Theory.RoundTrip

namespace TemporalNetwork

namespace Theory

variable {t t' : Theory} {ts : List Theory} {l : Literal} {e : Edge} {f : BoundFact}
  {level : DecisionLevel} {c : Config} {rs : List Request}

-- ================================================================== edges

section
variable {α : Type}

/-- A request that is validated first gets an answer if it can be carried out
when it is valid. -/
theorem exists_attempt {validation : Except Refusal Unit} {commit : Checked (Theory × α)}
    (hcommit : validation = .ok () → ∃ a, commit = .ok a) :
    ∃ a, t.attempt validation commit = .ok a := by
  unfold attempt
  cases validation with
  | error refusal => exact ⟨_, rfl⟩
  | ok u =>
      obtain ⟨a, ha⟩ := hcommit rfl
      exact ⟨_, Checked.map_eq_ok.mpr ⟨a, ha, rfl⟩⟩

/-- A request is accepted if and only if its checks pass. -/
theorem accepts_attempt {validation : Except Refusal Unit} {commit : Checked (Theory × α)}
    (h : ∃ a, t.attempt validation commit = .ok a) :
    ∃ t' r, t.attempt validation commit = .ok (t', r) ∧
      ((∃ a, r = .ok a) ↔ validation = .ok ()) := by
  obtain ⟨⟨t', r⟩, hrun⟩ := h
  refine ⟨t', r, hrun, ?_⟩
  cases validation with
  | error refusal =>
      cases hrun
      simp
  | ok u =>
      obtain ⟨⟨t₁, a⟩, -, heq⟩ := Checked.map_eq_ok.mp hrun
      cases heq
      simp

/-- Whatever came out of it can be put into words. -/
theorem exists_replying {step : Checked (Theory × α)} (h : ∃ a, step = .ok a) (reply : α → Reply) :
    ∃ a, replying step reply = .ok a := by
  obtain ⟨a, ha⟩ := h
  exact ⟨_, Checked.map_eq_ok.mpr ⟨a, ha, rfl⟩⟩

end

/-- What is pending is propagated. -/
theorem Coherent.exists_pend {p : PendingActivation} (ht : t.Coherent)
    (hp : ∀ i, p = .edge i → t.network.hasEdge i = true) : ∃ t', (t.pend p).propagate = .ok t' :=
  (ht.pend hp).exists_propagate

/-- An edge that can be recorded is committed: it is pending and propagated,
or its guard is false, or there is room to be looked at. -/
theorem exists_commitEdge (ht : t.Coherent) (he : Recordable t e) :
    ∃ a, t.commitEdge e = .ok a := by
  have hrecord := ht.record he
  have hhas : (t.record e).network.hasEdge t.network.edges.nextKey = true :=
    Network.hasEdge_addEdge_nextKey e
  have hpend : ∃ t', ((t.record e).pend (.edge t.network.edges.nextKey)).propagate = .ok t' := by
    refine hrecord.exists_pend fun i hi => ?_
    cases hi
    exact hhas
  have hdone : ∀ t₁ : Theory, (∃ t', t₁.propagate = .ok t') → ∃ a, (do
      let t' ← t₁.propagate
      return (t', t.network.edges.nextKey) : Checked (Theory × EdgeId)) = .ok a :=
    fun t₁ h₁ => Checked.exists_bind h₁ fun _ _ => ⟨_, rfl⟩
  unfold commitEdge
  simp only
  cases hg : e.guard? with
  -- permanent, and so pending
  | none =>
      rw [record_of_permanent hg] at hpend
      exact hdone _ hpend
  | some g =>
      have hrecorded : t.record e = { (t.recordEdge e).1 with
          bindings := t.bindings.addEdge g t.network.edges.nextKey } := record_of_guarded hg
      have hplain : (t.record e).value = t.value := rfl
      unfold recordEdge at hrecorded ⊢
      simp only
      rw [← hrecorded, hplain]
      cases t.value g with
      | none =>
          simp only
          split
          next =>
            refine Checked.exists_bind (hrecord.exists_checkRoom hhas) fun t₁ h₁ => ?_
            exact hdone t₁ ((draws_checkRoom hrecord hhas h₁).coherent hrecord).exists_propagate
          next => exact hdone _ hrecord.exists_propagate
      | some b =>
          cases b with
          -- denied
          | false => exact hdone _ hrecord.exists_propagate
          -- called for, and so pending
          | true =>
              rw [hrecorded] at hpend
              exact hdone _ hpend

/-- A permanent edge is added or refused. -/
theorem Settled.exists_addPermanentEdge (ht : t.Settled) (source target : Timepoint)
    (weight : Int) : ∃ a, t.addPermanentEdge source target weight = .ok a := by
  refine exists_attempt fun hv => ?_
  simp only [checks_eq_ok] at hv
  exact exists_commitEdge ht.coherent (recordable_permanent hv.2)

/-- An edge of any kind is added or refused. -/
theorem Settled.exists_addEdge (ht : t.Settled) (e : Edge) : ∃ a, t.addEdge e = .ok a := by
  unfold Theory.addEdge
  cases hg : e.guard? with
  | none => exact ht.exists_addPermanentEdge e.source e.target e.weight
  | some guard =>
      refine exists_attempt fun hv => ?_
      simp only [checks_eq_ok] at hv
      exact exists_commitEdge ht.coherent (recordable_guarded hg hv.2.1 hv.2.2)

/-- Both edges are added or none: the second one is valid if the first one
was. -/
theorem Settled.exists_addOptionalEdge (ht : t.Settled) (source target : Timepoint)
    (weight : Int) (forwardGuard backwardGuard : Literal) :
    ∃ a, t.addOptionalEdge source target weight forwardGuard backwardGuard = .ok a := by
  refine exists_attempt fun hv => ?_
  simp only [checks_eq_ok] at hv
  obtain ⟨-, hforward, hbackward, hedge⟩ := hv
  have he₁ : Recordable t ⟨source, target, weight, .directed forwardGuard .forward⟩ :=
    recordable_guarded rfl hforward hedge
  have he₂ : Recordable t ⟨source, target, weight, .directed backwardGuard .backward⟩ :=
    recordable_guarded rfl hbackward hedge
  refine Checked.exists_bind (exists_commitEdge ht.coherent he₁) fun a ha => ?_
  have hsettles := (settles_commitEdge ht he₁ ha).1
  exact Checked.exists_bind (exists_commitEdge hsettles.settled.coherent
    (he₂.changes hsettles.changes)) fun _ _ => ⟨_, rfl⟩

/-- At the root a timepoint can be added. -/
theorem Settled.exists_newTimepoint (ht : t.Settled)
    (hlevel : t.level = .root → t.graph.log.level = .root) (dom : Domain) :
    ∃ a, t.newTimepoint dom = .ok a := by
  refine exists_attempt fun hv => ?_
  simp only [checks_eq_ok, checkRoot_eq_ok] at hv
  obtain ⟨g, hg⟩ := ht.coherent.graph.exists_addNode (hlevel hv.1) dom
  exact Checked.exists_bind ⟨g, hg⟩ fun _ _ => ⟨_, rfl⟩

-- ============================================================ equivalences

/-- Propagation goes through for a literal with the edges it stands for,
whatever its value. -/
theorem Coherent.exists_commitEquivalence (ht : t.Coherent) (l : Literal) (entailed : Bool) :
    ∃ t', t.commitEquivalence l entailed = .ok t' := by
  have hedges : ∀ t₁ m, Coherent t₁ → ∀ i ∈ t₁.bindings.edgesOf m,
      t₁.network.hasEdge i = true := fun t₁ m ht₁ i hi => ((ht₁.bound m i).mp hi).1
  have hpend : ∀ m, ∃ t', (t.pend (.literal m)).propagate = .ok t' :=
    fun m => ht.exists_pend fun i hi => by cases hi
  unfold commitEquivalence
  cases t.value l with
  | none =>
      simp only
      split
      next =>
        refine Checked.exists_bind (ht.exists_checkRoomAll (hedges t l ht)) fun t₁ h₁ => ?_
        have ht₁ := (draws_checkRoomAll ht (hedges t l ht) h₁).coherent ht
        have hedges₁ := hedges t₁ l.negate ht₁
        refine Checked.exists_bind (ht₁.exists_checkRoomAll hedges₁) fun t₂ h₂ => ?_
        exact ((draws_checkRoomAll ht₁ hedges₁ h₂).coherent ht₁).exists_propagate
      next => exact ht.exists_propagate
  | some b =>
      cases b with
      | true => exact hpend l
      | false => exact hpend l.negate

/-- A reified edge is added or refused. -/
theorem Settled.exists_addReifiedEdge (ht : t.Settled) (l : Literal)
    (source target : Timepoint) (weight : Int) :
    ∃ a, t.addReifiedEdge l source target weight = .ok a := by
  refine exists_attempt fun hv => ?_
  simp only [checks_eq_ok, checkRoot_eq_ok, checkLiteral_eq_ok, checkEdge_eq_ok,
    checkMagnitude_eq_ok] at hv
  obtain ⟨-, hvar, ⟨hsource, htarget, hweight⟩, hnegated⟩ := hv
  obtain ⟨ids, hrecorded, -⟩ := recorded_equivalence ht rfl rfl
    (recordable_conditional hsource htarget hvar hweight)
    (recordable_conditional (l := l.negate) htarget hsource hvar hnegated)
  rw [recordEquivalence_eq (l := l) rfl rfl]
  exact Checked.exists_bind (hrecorded.coherent.exists_commitEquivalence l _) fun _ _ => ⟨_, rfl⟩

/-- A fact that was checked can be bound to its literal. -/
theorem Settled.exists_commitBound (ht : t.Settled) (hvar : t.hasVariable l.var = true)
    (hfact : t.checkFact f = .ok ()) : ∃ t', t.commitBound l f = .ok t' := by
  obtain ⟨ids, hrecorded, -⟩ := recorded_bound ht hvar hfact
  unfold commitBound
  rw [recordEquivalence_eq (guard?_boundEdge f l) (guard?_boundEdge f.negation l.negate)]
  exact hrecorded.coherent.exists_commitEquivalence l true

theorem Settled.exists_bindBound (ht : t.Settled) (l : Literal) (f : BoundFact) :
    ∃ a, t.bindBound l f = .ok a := by
  refine exists_attempt fun hv => ?_
  simp only [checks_eq_ok, checkRoot_eq_ok, checkLiteral_eq_ok] at hv
  exact Checked.exists_bind (ht.exists_commitBound hv.2.1 hv.2.2) fun _ _ => ⟨_, rfl⟩

theorem Settled.exists_newBoundLiteral (ht : t.Settled) (f : BoundFact) :
    ∃ a, t.newBoundLiteral f = .ok a := by
  refine exists_attempt fun hv => ?_
  simp only [checks_eq_ok, checkRoot_eq_ok] at hv
  exact Checked.exists_bind ((settles_newVariable ht).settled.exists_commitBound
    (hasVariable_newVariable t) hv.2) fun _ _ => ⟨_, rfl⟩

-- ======================================================== setting literals

/-- A literal is set, refused, or leads to a conflict. -/
theorem Settled.exists_assign (ht : t.Settled) (l : Literal) : ∃ a, t.assign l = .ok a := by
  unfold assign
  split
  next hvar =>
    split
    next => exact ⟨_, rfl⟩
    next =>
      have hcoherent := ht.coherent.setLiteral hvar
      exact Checked.exists_bind hcoherent.exists_propagate fun _ _ => ⟨_, rfl⟩
  next => exact ⟨_, rfl⟩

/-- What can be wrong with a literal of the theory is a conflict. -/
theorem ne_invalid_of_assign {r : Except AssignError Unit} (hvar : t.hasVariable l.var = true)
    (h : t.assign l = .ok (t', r)) (m : Misuse) : r ≠ .error (.invalid m) := by
  unfold assign at h
  rw [if_pos hvar] at h
  split at h
  next =>
    cases h
    exact fun hc => by cases hc
  next =>
    simp only [Checked.bind_eq_ok, Checked.pure_eq_ok, Prod.mk.injEq] at h
    obtain ⟨t₁, -, rfl, rfl⟩ := h
    unfold verdict
    cases t₁.conflict with
    | none => exact fun hc => by cases hc
    | some c => exact fun hc => by cases hc

-- ============================================================= checkpoints

/-- No more levels are closed than were opened, and for each of them there is
a state to go back to. -/
theorem Stack.exists_restoreTimes {n : Nat} (h : Stack ts t) (hn : n ≤ ts.length) :
    ∃ u, t.restoreTimes n = .ok u ∧ Stack (ts.drop n) u := by
  cases n with
  | zero => exact ⟨t, rfl, h⟩
  | succ n =>
      have hdrop : (ts.drop n).length = ts.length - n := List.length_drop
      cases hsplit : ts.drop n with
      | nil =>
          rw [hsplit, List.length_nil] at hdrop
          omega
      | cons t₁ rest =>
          have hts : ts = ts.take n ++ t₁ :: rest := by
            rw [← hsplit, List.take_append_drop]
          have htake : (ts.take n).length = n := List.length_take_of_le (Nat.le_of_succ_le hn)
          have hrest : ts.drop (n + 1) = rest := by
            rw [← List.drop_drop, hsplit]
            rfl
          rw [hts] at h
          obtain ⟨u, hrun, -, -, hstack⟩ := h.restoreTimes
          rw [htake] at hrun
          exact ⟨u, hrun, hrest.symm ▸ hstack⟩

/-- One can go back to any level. Those that are not open close none. -/
theorem Stack.exists_restore (h : Stack ts t) (level : DecisionLevel) :
    ∃ u, t.restore level = .ok u := by
  obtain ⟨u, hrun, -⟩ := h.exists_restoreTimes (n := t.level.depth - level.depth) (by
    rw [h.level_eq]
    exact Nat.sub_le _ _)
  exact ⟨u, hrun⟩

/-- Going back is carried out or refused. -/
theorem Stack.exists_backtrack (h : Stack ts t) (level : DecisionLevel) :
    ∃ a, t.backtrack level = .ok a := by
  unfold Theory.backtrack
  split
  next => exact ⟨_, rfl⟩
  next =>
    obtain ⟨u, hrun⟩ := h.exists_restore level
    exact ⟨_, Checked.map_eq_ok.mpr ⟨u, hrun, rfl⟩⟩

/-- A level that is open can be gone back to. -/
theorem Stack.exists_backtrack_of_le (h : Stack ts t) (hle : level.depth ≤ t.level.depth) :
    ∃ u, t.backtrack level = .ok (u, .ok ()) := by
  obtain ⟨u, hrun⟩ := h.exists_restore level
  unfold Theory.backtrack
  rw [if_neg (Nat.not_lt.mpr hle), hrun]
  exact ⟨u, rfl⟩

/-- A level is closed and opened again, which is possible since nothing is
pending below it. -/
theorem Stack.exists_popTo (h : Stack ts t) (level : DecisionLevel) :
    ∃ a, t.popTo level = .ok a := by
  obtain ⟨depth⟩ := level
  cases depth with
  | zero => exact h.exists_backtrack .root
  | succ k =>
      by_cases hopen : t.level.depth < k + 1
      · exact ⟨_, if_pos hopen⟩
      · -- the state saved below the level is in the stack
        rw [h.level_eq] at hopen
        have hlength : k + 1 ≤ ts.length := Nat.not_lt.mp hopen
        cases hsplit : ts.drop (ts.length - (k + 1)) with
        | nil =>
            have hnil := congrArg List.length hsplit
            rw [List.length_drop, List.length_nil] at hnil
            omega
        | cons t₀ rest =>
            have hrest : rest.length = k := by
              have hcons := congrArg List.length hsplit
              rw [List.length_drop, List.length_cons] at hcons
              omega
            have hts : ts = ts.take (ts.length - (k + 1)) ++ t₀ :: rest := by
              rw [← hsplit, List.take_append_drop]
            rw [hts] at h
            obtain ⟨u, hrun, -⟩ := h.popTo
            rw [hrest] at hrun
            exact ⟨_, hrun⟩

-- ================================================================ requests

/-- The two requests that can break off are made as they should be. -/
def Request.Answerable (t : Theory) : Request → Prop
  | .addMinDelay _ _ delay => FitsInt32 (-delay)
  | .restoreLast => t.level ≠ .root
  | _ => True

/-- The graph is at its root with the theory. -/
theorem Stack.graph_level (h : Stack ts t) (hroot : t.level = .root) :
    t.graph.log.level = .root := by
  cases h with
  | root settled level => exact congrArg DecisionLevel.mk (congrArg List.length level.graph)
  | above settled extended below =>
      have hdepth := congrArg DecisionLevel.depth (Stack.above settled extended below).level_eq
      rw [hroot] at hdepth
      cases hdepth

/-- Every request is answered. -/
theorem Stack.exists_perform (h : Stack ts t) {r : Request} (hr : r.Answerable t) :
    ∃ a, t.perform r = .ok a := by
  have ht := h.settled
  cases r with
  | newVariable => exact ⟨_, rfl⟩
  | newLiteral => exact ⟨_, rfl⟩
  | newTimepoint domain => exact exists_replying (ht.exists_newTimepoint h.graph_level _) _
  | addPermanentEdge s e w => exact exists_replying (ht.exists_addPermanentEdge s e w) _
  | addConditionalEdge s e w g => exact exists_replying (ht.exists_addEdge _) _
  | addConstraint s e w g =>
      cases g with
      | none => exact exists_replying (ht.exists_addPermanentEdge s e w) _
      | some g => exact exists_replying (ht.exists_addEdge ⟨s, e, w, .conditional g⟩) _
  | addDirectedEdge s e w g d => exact exists_replying (ht.exists_addEdge _) _
  | addOptionalEdge s e w f b => exact exists_replying (ht.exists_addOptionalEdge s e w f b) _
  | addReifiedEdge l s e w => exact exists_replying (ht.exists_addReifiedEdge l s e w) _
  | addMaxDelay a b delay => exact exists_replying (ht.exists_addPermanentEdge a b delay) _
  -- the only request that negates a number before it is checked
  | addMinDelay a b delay =>
      refine exists_replying (Checked.exists_bind ⟨_, int32_of hr⟩ fun w _ => ?_) _
      exact ht.exists_addPermanentEdge b a w
  | addBeforeEq a b => exact exists_replying (ht.exists_addPermanentEdge b a 0) _
  | addStrictlyBefore a b => exact exists_replying (ht.exists_addPermanentEdge b a (-1)) _
  | bindBound l f => exact exists_replying (ht.exists_bindBound l f) _
  | newBoundLiteral f => exact exists_replying (ht.exists_newBoundLiteral f) _
  | configure c => exact ⟨_, rfl⟩
  | assign l => exact exists_replying (ht.exists_assign l) _
  | propagate =>
      obtain ⟨t', hrun⟩ := ht.coherent.exists_propagate
      exact ⟨_, Checked.map_eq_ok.mpr ⟨t', hrun, rfl⟩⟩
  | pushCheckpoint =>
      exact ⟨_, Checked.map_eq_ok.mpr ⟨_, pushCheckpoint_eq_ok.mpr ⟨ht.rest, rfl⟩, rfl⟩⟩
  | backtrack level => exact exists_replying (h.exists_backtrack level) _
  | popTo level => exact exists_replying (h.exists_popTo level) _
  -- and the only one that needs a level to be open
  | restoreLast =>
      cases ts with
      | nil => exact absurd h.level_eq hr
      | cons t₀ ts =>
          obtain ⟨u, hrun⟩ := h.exists_restoreLast
          exact ⟨_, Checked.map_eq_ok.mpr ⟨u, hrun, rfl⟩⟩
  | reset =>
      obtain ⟨u, hrun⟩ := h.exists_restore .root
      exact ⟨_, Checked.map_eq_ok.mpr ⟨u, hrun, rfl⟩⟩

/-- In no state that can arise does a request break off: the checks that
are made on the way do not fail. -/
theorem exists_perform_of_performAll (h : (initial c).performAll rs = .ok t) {r : Request}
    (hr : r.Answerable t) : ∃ a, t.perform r = .ok a := by
  obtain ⟨ts, hts⟩ := exists_stack_of_performAll h
  exact hts.exists_perform hr

end Theory

end TemporalNetwork
