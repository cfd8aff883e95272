/-
Literals that stand for constraints and facts.

A literal is made equivalent to a constraint by two edges, one that it
guards and one that its negation guards, and to a fact by the edges of
the fact and of its negation. A fact is watched besides: once a potential
reaches the threshold the edge of the negated fact would close a negative
cycle with the origin, which is what makes the literal follow.
-/
import TemporalNetwork.Proofs.Theory.Setup

namespace TemporalNetwork

namespace Theory

variable {t t' : Theory} {l : Literal} {id : EdgeId} {ids : List EdgeId} {f : BoundFact}

-- ============================================================ equivalences

/-- Two edges are recorded for one literal as one after the other. -/
theorem recordEquivalence_eq {edge negated : Edge} (hedge : edge.guard? = some l)
    (hnegated : negated.guard? = some l.negate) :
    t.recordEquivalence l edge negated
      = ((t.record edge).record negated, t.network.edges.nextKey) := by
  rw [record_of_guarded hnegated, record_of_guarded hedge]
  rfl

/-- What a literal that was just given a meaning rules out at once, if it
is looked at: each edge of its own or of its negation for which there is
no room. -/
def ruledOutFor (t : Theory) (l : Literal) (entailed : Bool) : Set Literal :=
  {m | entailed = true ∧ m ∈ t.ruledOut (t.bindings.edgesOf l ++ t.bindings.edgesOf l.negate)}

/-- What denies an edge of the literal is the literal or its negation. -/
theorem Coherent.mem_ruledOutFor (ht : t.Coherent) {m : Literal} {entailed : Bool}
    (h : m ∈ t.ruledOutFor l entailed) : m = l.negate ∨ m = l := by
  obtain ⟨i, hi, hguard, -⟩ := h.2
  rcases List.mem_append.mp hi with hi | hi
  · obtain ⟨-, hl⟩ := (ht.bound l i).mp hi
    rw [hl, Option.some.injEq] at hguard
    exact .inl (by rw [hguard, Literal.negate_negate])
  · obtain ⟨-, hl⟩ := (ht.bound l.negate i).mp hi
    rw [hl, Option.some.injEq] at hguard
    exact .inr (by rw [← Literal.negate_negate m, ← hguard, Literal.negate_negate])

/-- What a literal with a value rules out has one. -/
theorem Coherent.decided_ruledOutFor {entailed : Bool} (ht : t.Coherent) (hl : t.value l ≠ none) :
    ∀ m ∈ t.ruledOutFor l entailed, t.value m ≠ none := by
  intro m hm
  rcases ht.mem_ruledOutFor hm with rfl | rfl
  · rwa [Ne, value_negate_eq_none]
  · exact hl

/-- An edge under a guard is enabled by its guard. -/
theorem Coherent.value_of_enabled (ht : t.Coherent) (hid : id ∈ t.bindings.edgesOf l)
    (henabled : id ∈ t.network.enabledBy t.trueLiterals) : t.value l = some true :=
  henabled.2 l ((ht.bound l id).mp hid).2

/-- Of a literal and its negation only the one that is true has edges to
put in force, and that one is left pending. -/
theorem prepares_pend_literal {entailed : Bool} {m : Literal} (ht : t.Coherent)
    (hids : ∀ i ∈ ids, i ∈ t.bindings.edgesOf l ∨ i ∈ t.bindings.edgesOf l.negate)
    (hm : t.value m = some true) (hml : m = l ∨ m = l.negate) :
    Prepares t (t.ruledOutFor l entailed) ids (t.pend (.literal m)) := by
  have hl : t.value l ≠ none := by
    rcases hml with rfl | rfl
    · simp [hm]
    · rw [Ne, ← value_negate_eq_none, hm]
      exact Option.some_ne_none true
  refine .pended (ht.decided_ruledOutFor hl) (fun i hi => by cases hi) fun i hi henabled => ?_
  rcases hids i hi with hmem | hmem
  · have hvalue := ht.value_of_enabled hmem henabled
    rcases hml with rfl | rfl
    · exact hmem
    · rw [value_negate, hvalue] at hm
      cases hm
  · have hvalue := ht.value_of_enabled hmem henabled
    rcases hml with rfl | rfl
    · rw [value_negate, hm] at hvalue
      cases hvalue
    · exact hmem

/-- The edges of a literal without a value are not to be put in force. -/
theorem prepares_draws_literal {C : Set Literal} (ht : t.Coherent)
    (hids : ∀ i ∈ ids, i ∈ t.bindings.edgesOf l ∨ i ∈ t.bindings.edgesOf l.negate)
    (hnone : t.value l = none) (hdraws : Draws C t t') : Prepares t C ids t' := by
  refine .drawn hdraws fun i hi henabled => ?_
  rcases hids i hi with hmem | hmem
  · rw [ht.value_of_enabled hmem henabled] at hnone
    cases hnone
  · rw [← value_negate_eq_none, ht.value_of_enabled hmem henabled] at hnone
    cases hnone

/-- The literal and its negation are looked at one after the other. -/
theorem draws_ruledOutFor {t₁ : Theory} (ht : t.Coherent)
    (hfirst : t.checkRoomAll (t.bindings.edgesOf l) = .ok t₁)
    (hsecond : t₁.checkRoomAll (t₁.bindings.edgesOf l.negate) = .ok t') :
    Draws (t.ruledOutFor l true) t t' := by
  have hedges : ∀ t₁ m, Coherent t₁ → ∀ i ∈ t₁.bindings.edgesOf m,
      t₁.network.hasEdge i = true := fun t₁ m ht₁ i hi => ((ht₁.bound m i).mp hi).1
  have h₁ := draws_checkRoomAll ht (hedges t l ht) hfirst
  have ht₁ := h₁.coherent ht
  have h₂ := draws_checkRoomAll ht₁ (hedges t₁ l.negate ht₁) hsecond
  rw [h₁.ruledOut, h₁.same.bindings] at h₂
  have hall : t.ruledOutFor l true = t.ruledOut (t.bindings.edgesOf l) ∪
      t.ruledOut (t.bindings.edgesOf l.negate) := by
    ext m
    simp [ruledOutFor, ruledOut, or_and_right, exists_or]
  exact hall ▸ h₁.trans h₂

/-- The edges of a literal and of its negation are prepared together: by its
value one of the two kinds is pending, and without a value both are looked at,
if that is asked for. -/
theorem prepares_commitEquivalence {entailed : Bool} (ht : t.Coherent)
    (hids : ∀ i ∈ ids, i ∈ t.bindings.edgesOf l ∨ i ∈ t.bindings.edgesOf l.negate)
    (h : t.commitEquivalence l entailed = .ok t') :
    ∃ t₁, Prepares t (t.ruledOutFor l entailed) ids t₁ ∧ t₁.propagate = .ok t' := by
  unfold commitEquivalence at h
  cases hv : t.value l with
  | none =>
      rw [hv] at h
      simp only at h
      split at h
      -- the edges of both literals are looked at, for which of the two is entailed
      next hentailed =>
        subst hentailed
        simp only [Checked.bind_eq_ok] at h
        obtain ⟨t₁, hfirst, t₂, hsecond, hrun⟩ := h
        exact ⟨t₂, prepares_draws_literal ht hids hv (draws_ruledOutFor ht hfirst hsecond), hrun⟩
      next hentailed =>
        simp only [Checked.bind_eq_ok, Checked.pure_eq_ok] at h
        obtain ⟨_, rfl, hrun⟩ := h
        refine ⟨_, prepares_draws_literal ht hids hv ?_, hrun⟩
        exact draws_of_decided fun m hm => absurd hm.1 hentailed
  | some b =>
      cases b with
      | true =>
          rw [hv] at h
          simp only [Checked.bind_eq_ok, Checked.pure_eq_ok] at h
          obtain ⟨_, rfl, hrun⟩ := h
          exact ⟨_, prepares_pend_literal ht hids hv (.inl rfl), hrun⟩
      | false =>
          rw [hv] at h
          simp only [Checked.bind_eq_ok, Checked.pure_eq_ok] at h
          obtain ⟨_, rfl, hrun⟩ := h
          exact ⟨_, prepares_pend_literal ht hids (value_negate_eq_true.mpr hv) (.inr rfl), hrun⟩

/-- Both edges of an equivalence are recorded, and may be left behind. -/
theorem recorded_equivalence (ht : t.Settled) {edge negated : Edge}
    (hedge : edge.guard? = some l) (hnegated : negated.guard? = some l.negate)
    (he : Recordable t edge) (hn : Recordable t negated) :
    let u := (t.record edge).record negated
    ∃ ids, Recorded t u ∅ ids ∧
      ∀ i ∈ ids, i ∈ u.bindings.edgesOf l ∨ i ∈ u.bindings.edgesOf l.negate := by
  have hsecond : ((t.record edge).record negated).Coherent :=
    (ht.coherent.record he).record (hn.changes (extended_record t edge).run)
  refine ⟨_, ⟨(extended_record t edge).run.trans (extended_record _ _).run, hsecond,
    covered_record (covered_record ht.covered), (ht.fired.record edge).record negated⟩,
    fun i hi => ?_⟩
  rw [mem_edgesOf_record, mem_edgesOf_record, mem_edgesOf_record, mem_edgesOf_record]
  rcases List.mem_cons.mp hi with rfl | hi
  · exact .inr (.inr ⟨hnegated, rfl⟩)
  · rw [List.mem_singleton.mp hi]
    exact .inl (.inl (.inr ⟨hedge, rfl⟩))

/-- The two edges are recorded and then committed as one. -/
theorem commits_equivalence (ht : t.Settled) {edge negated : Edge} {entailed : Bool}
    (hedge : edge.guard? = some l) (hnegated : negated.guard? = some l.negate)
    (he : Recordable t edge) (hn : Recordable t negated)
    (h : ((t.record edge).record negated).commitEquivalence l entailed = .ok t') :
    Commits t ((t.record edge).record negated)
      (((t.record edge).record negated).ruledOutFor l entailed) t' := by
  obtain ⟨ids, hrecorded, hids⟩ := recorded_equivalence ht hedge hnegated he hn
  obtain ⟨t₁, hprepares, hrun⟩ := prepares_commitEquivalence hrecorded.coherent hids h
  exact ⟨ids, t₁, ⟨hrecorded.changes, hrecorded.coherent, hrecorded.covered,
    hrecorded.fired.mono (Set.empty_subset _)⟩, hprepares, hrun⟩

/-- An edge that was checked can be recorded under a literal that is there. -/
theorem recordable_conditional {source target : Timepoint} {weight : Int}
    (hsource : t.network.hasTimepoint source = true)
    (htarget : t.network.hasTimepoint target = true) (hvar : t.hasVariable l.var = true)
    (hweight : -maxMagnitude ≤ weight ∧ weight ≤ maxMagnitude) :
    Recordable t ⟨source, target, weight, .conditional l⟩ := by
  refine ⟨hsource, htarget, fun g hg => ?_, hweight⟩
  cases hg
  exact hvar

/-- Two edges, one for the literal and the other one for its negation. -/
theorem outcome_addReifiedEdge (ht : t.Settled) {source target : Timepoint} {weight : Int}
    {r : Except Refusal EdgeId} (h : t.addReifiedEdge l source target weight = .ok (t', r)) :
    Outcome t t' r fun _ => t'.network =
      (t.network.addEdge ⟨source, target, weight, .conditional l⟩).addEdge
        ⟨target, source, -weight - 1, .conditional l.negate⟩ := by
  refine outcome_of_attempt (fun a hv hrun => ?_) h
  simp only [checks_eq_ok, checkRoot_eq_ok, checkLiteral_eq_ok, checkEdge_eq_ok,
    checkMagnitude_eq_ok] at hv
  obtain ⟨hroot, hvar, ⟨hsource, htarget, hweight⟩, hnegated⟩ := hv
  rw [recordEquivalence_eq (l := l) rfl rfl] at hrun
  simp only [Checked.bind_eq_ok, Checked.pure_eq_ok, Prod.mk.injEq] at hrun
  obtain ⟨t₁, hcommit, rfl, rfl⟩ := hrun
  obtain ⟨hsettles, hsame⟩ := (commits_equivalence ht rfl rfl
    (recordable_conditional hsource htarget hvar hweight)
    (recordable_conditional (l := l.negate) htarget hsource hvar hnegated) hcommit).settles
  exact ⟨hroot, hsettles, hsame.network⟩

-- ============================================================= bound literals

/-- The theory with a fact watched for a literal. -/
def bind (t : Theory) (l : Literal) (f : BoundFact) : Theory :=
  { t with bindings := t.bindings.addBound l f }

/-- A watch more extends the problem. -/
theorem extended_bind (t : Theory) (l : Literal) (f : BoundFact) : Extended t (t.bind l f) where
  network := .refl _
  watches _ _ _ hw := Bindings.mem_watches_addBound.mpr (.inl hw)
  size := Nat.le_refl _
  known _ := rfl
  assignments := rfl
  implications := rfl
  log := rfl
  graphLog := rfl
  conflict := rfl

/-- The edge that denies the fact, seen in the view of the fact. -/
theorem denies (f : BoundFact) (l : Literal) : (f.negation.edge l).guard? = some l ∧
    (f.negation.edge l).isIn f.view = true ∧ (f.negation.edge l).tail f.view = f.timepoint ∧
      (f.negation.edge l).head f.view = .origin ∧
        (f.negation.edge l).weight = -f.threshold - 1 := by
  cases f with
  | leq x k =>
      refine ⟨rfl, rfl, rfl, rfl, ?_⟩
      show -(k + 1) = -k - 1
      omega
  | geq x k =>
      refine ⟨rfl, rfl, rfl, rfl, ?_⟩
      show k - 1 = -(-k) - 1
      omega

/-- A watch is coherent if its negation guards an edge that denies its fact.
-/
theorem Coherent.bind (ht : t.Coherent) (hvar : t.hasVariable l.var = true)
    (hid : t.network.hasEdge id = true)
    (hedge : t.network.edge id = f.negation.edge l.negate) : (t.bind l f).Coherent := by
  refine ⟨ht.network, ht.enforced, ht.limited, ht.graph, ht.guard, fun m i => ?_,
    fun d tp w hw => ?_, ht.assigned, ht.once, ht.active, ht.pending, ht.conflict, ht.implied⟩
  · exact Bindings.mem_edgesOf_addBound.trans (ht.bound m i)
  · rcases Bindings.mem_watches_addBound.mp hw with hw | ⟨⟨rfl, rfl⟩, rfl⟩
    · exact ht.watched d tp w hw
    · obtain ⟨hguard, hin, htail, hhead, hweight⟩ := denies f l.negate
      have hedge' : (t.bind l f).network.edge id = f.negation.edge l.negate := hedge
      refine ⟨hvar, id, hid, ?_⟩
      rw [hedge']
      exact ⟨hguard, hin, htail, hhead, hweight⟩

/-- Watches have no part in which edges are accounted for. -/
theorem covered_bind (hc : t.Covered ids) : (t.bind l f).Covered ids := by
  intro hnone i hi
  rcases hc hnone i hi with hact | hmem | ⟨p, hp, hmem⟩
  · exact .inl hact
  · exact .inr (.inl hmem)
  · refine .inr (.inr ⟨p, hp, ?_⟩)
    cases p with
    | literal m => exact Bindings.mem_edgesOf_addBound.mpr hmem
    | edge j => exact hmem

theorem guard?_boundEdge (f : BoundFact) (l : Literal) : (f.edge l).guard? = some l := by
  cases f <;> rfl

/-- The edges of a fact join its timepoint and the origin. -/
theorem recordable_boundEdge (ht : t.Coherent) (hvar : t.hasVariable l.var = true)
    (hf : t.network.hasTimepoint f.timepoint = true)
    (hvalue : -maxMagnitude ≤ f.value ∧ f.value ≤ maxMagnitude) : Recordable t (f.edge l) := by
  cases f with
  | leq x k => exact recordable_conditional ht.network.origin hf hvar hvalue
  | geq x k =>
      refine recordable_conditional hf ht.network.origin hvar ?_
      simp only [BoundFact.value] at hvalue
      omega

/-- The literal is bound by an edge for the fact and one for its
negation. -/
def boundNetwork (net : Network) (l : Literal) (f : BoundFact) : Network :=
  (net.addEdge (f.edge l)).addEdge (f.negation.edge l.negate)

/-- A watch whose threshold is reached leaves no room for the edge that
denies its fact. -/
theorem Coherent.mem_ruledOut_of_watch (ht : t.Coherent) {d : Direction} {x : Timepoint}
    {w : Watch} (hw : w ∈ t.bindings.watches d x) (hle : t.graph.value d x ≤ w.threshold) :
    w.literal ∈ t.ruledOut (t.bindings.edgesOf w.literal.negate) := by
  obtain ⟨-, i, hi, hguard, -, htail, hhead, hweight⟩ := ht.watched d x w hw
  have horigin := ht.graph.origin
  refine ⟨i, (ht.bound w.literal.negate i).mpr ⟨hi, hguard⟩, hguard, ?_⟩
  unfold slack
  split
  next hloop =>
    have hends : (t.network.edge i).source = (t.network.edge i).target := by
      simpa [Edge.isLoop] using hloop
    have hx : x = .origin := by
      rw [← htail, ← hhead]
      cases d with
      | forward => exact hends
      | backward => exact hends.symm
    rw [hx, horigin] at hle
    omega
  next =>
    cases d with
    | forward =>
        simp only [Edge.tail, Edge.head] at htail hhead
        rw [htail, hhead, horigin]
        omega
    | backward =>
        simp only [Edge.tail, Edge.head] at htail hhead
        rw [htail, hhead, horigin]
        omega

/-- The theory with the edges and the watches of a fact and of its
negation. -/
def recordBound (t : Theory) (l : Literal) (f : BoundFact) : Theory :=
  (((t.record (f.edge l)).record (f.negation.edge l.negate)).bind l f).bind l.negate f.negation

/-- All new watches are for the literal or its negation. -/
theorem mem_watches_recordBound {d : Direction} {x : Timepoint} {w : Watch}
    (hw : w ∈ (t.recordBound l f).bindings.watches d x) :
    w ∈ t.bindings.watches d x ∨ w.literal = l ∨ w.literal = l.negate := by
  unfold recordBound at hw
  rcases Bindings.mem_watches_addBound.mp hw with hw | ⟨-, rfl⟩
  · rcases Bindings.mem_watches_addBound.mp hw with hw | ⟨-, rfl⟩
    · rw [watches_record, watches_record] at hw
      exact .inl hw
    · exact .inr (.inl rfl)
  · exact .inr (.inr rfl)

theorem value_recordBound (t : Theory) (l : Literal) (f : BoundFact) :
    (t.recordBound l f).value = t.value := rfl

theorem graph_value_recordBound (t : Theory) (l : Literal) (f : BoundFact) :
    (t.recordBound l f).graph.value = t.graph.value := rfl

/-- No timepoint is added with a fact. -/
theorem hasTimepoint_recordBound (t : Theory) (l : Literal) (f : BoundFact) (x : Timepoint) :
    (t.recordBound l f).network.hasTimepoint x = t.network.hasTimepoint x := by
  show (boundNetwork t.network l f).hasTimepoint x = _
  unfold boundNetwork
  rw [Network.hasTimepoint_addEdge, Network.hasTimepoint_addEdge]

/-- New watches may have been reached already, but then the literal is
looked at. -/
theorem fired_recordBound (hfired : t.Fired ∅) (ht : (t.recordBound l f).Coherent) :
    (t.recordBound l f).Fired ((t.recordBound l f).ruledOutFor l true) := by
  intro d x w hw hle
  obtain ⟨i, hi, hroom⟩ := ht.mem_ruledOut_of_watch hw hle
  have hnew : i ∈ (t.recordBound l f).bindings.edgesOf l ∨
      i ∈ (t.recordBound l f).bindings.edgesOf l.negate →
      w.literal ∈ (t.recordBound l f).ruledOutFor l true :=
    fun hmem => ⟨rfl, i, List.mem_append.mpr hmem, hroom⟩
  rcases mem_watches_recordBound hw with hold | hl | hl
  · rw [graph_value_recordBound] at hle
    rw [value_recordBound]
    exact (hfired d x w hold hle).imp_right fun hC => absurd hC (Set.notMem_empty _)
  · rw [hl] at hi
    exact .inr (hnew (.inr hi))
  · rw [hl, Literal.negate_negate] at hi
    exact .inr (hnew (.inl hi))

/-- The edges and the watches of a fact and of its negation are recorded. -/
theorem recorded_bound (ht : t.Settled) (hvar : t.hasVariable l.var = true)
    (hfact : t.checkFact f = .ok ()) :
    ∃ ids, Recorded t (t.recordBound l f) ((t.recordBound l f).ruledOutFor l true) ids ∧
      ∀ i ∈ ids, i ∈ (t.recordBound l f).bindings.edgesOf l ∨
        i ∈ (t.recordBound l f).bindings.edgesOf l.negate := by
  obtain ⟨hf, hvalue, hnegated⟩ := checkFact_eq_ok.mp hfact
  have hf' : t.network.hasTimepoint f.negation.timepoint = true := by
    cases f <;> exact hf
  obtain ⟨ids, hrecorded, hids⟩ := recorded_equivalence ht
    (guard?_boundEdge f l) (guard?_boundEdge f.negation l.negate)
    (recordable_boundEdge ht.coherent hvar hf hvalue)
    (recordable_boundEdge (l := l.negate) ht.coherent hvar hf' hnegated)
  have hlast : (boundNetwork t.network l f).hasEdge (t.network.addEdge (f.edge l)).edges.nextKey
      = true := Network.hasEdge_addEdge_nextKey _
  have hlastEdge : (boundNetwork t.network l f).edge (t.network.addEdge (f.edge l)).edges.nextKey
      = f.negation.edge l.negate := Network.edge_addEdge_nextKey _
  have hfirst := (Network.grows_addEdge (t.network.addEdge (f.edge l))
    (f.negation.edge l.negate)).edge _ (Network.hasEdge_addEdge_nextKey (f.edge l))
  have hfirstEdge := hfirst.2.trans (Network.edge_addEdge_nextKey (f.edge l))
  have hbound := (hrecorded.coherent.bind hvar hlast hlastEdge).bind (l := l.negate)
    (f := f.negation) hvar hfirst.1 (by
      rw [BoundFact.negation_negation, Literal.negate_negate]
      exact hfirstEdge)
  refine ⟨ids, ⟨(hrecorded.changes.trans (extended_bind _ l f).run).trans
    (extended_bind _ l.negate f.negation).run, hbound,
    covered_bind (covered_bind hrecorded.covered), fired_recordBound ht.fired hbound⟩,
    fun i hi => ?_⟩
  rw [recordBound, bind, bind, Bindings.mem_edgesOf_addBound, Bindings.mem_edgesOf_addBound,
    Bindings.mem_edgesOf_addBound, Bindings.mem_edgesOf_addBound]
  exact hids i hi

/-- A fact that was checked is committed for its literal, however the bounds
stand. -/
theorem commits_commitBound (ht : t.Settled) (hvar : t.hasVariable l.var = true)
    (hfact : t.checkFact f = .ok ()) (h : t.commitBound l f = .ok t') :
    Commits t (t.recordBound l f) ((t.recordBound l f).ruledOutFor l true) t' := by
  obtain ⟨ids, hrecorded, hids⟩ := recorded_bound ht hvar hfact
  unfold commitBound at h
  rw [recordEquivalence_eq (guard?_boundEdge f l) (guard?_boundEdge f.negation l.negate)] at h
  obtain ⟨t₁, hprepares, hrun⟩ := prepares_commitEquivalence hrecorded.coherent hids h
  exact ⟨ids, t₁, hrecorded, hprepares, hrun⟩

/-- The problem has two edges more, and the literal its watches. -/
theorem outcome_bindBound (ht : t.Settled) {r : Except Refusal Unit}
    (h : t.bindBound l f = .ok (t', r)) :
    Outcome t t' r fun _ => t'.network = boundNetwork t.network l f ∧
      t'.bindings = (t.recordBound l f).bindings := by
  refine outcome_of_attempt (fun a hv hrun => ?_) h
  simp only [checks_eq_ok, checkRoot_eq_ok, checkLiteral_eq_ok] at hv
  obtain ⟨hroot, hvar, hfact⟩ := hv
  simp only [Checked.bind_eq_ok, Checked.pure_eq_ok, Prod.mk.injEq] at hrun
  obtain ⟨t₁, hcommit, rfl, -⟩ := hrun
  obtain ⟨hsettles, hsame⟩ := (commits_commitBound ht hvar hfact hcommit).settles
  exact ⟨hroot, hsettles, hsame.network, hsame.bindings⟩

/-- Likewise for a literal that is declared first. -/
theorem outcome_newBoundLiteral (ht : t.Settled) {r : Except Refusal Literal}
    (h : t.newBoundLiteral f = .ok (t', r)) :
    Outcome t t' r fun l => t'.network = boundNetwork t.network l f ∧
      t'.bindings = (t.recordBound l f).bindings := by
  refine outcome_of_attempt (fun a hv hrun => ?_) h
  simp only [checks_eq_ok, checkRoot_eq_ok] at hv
  obtain ⟨hroot, hfact⟩ := hv
  have hnew := settles_newVariable ht
  simp only [newLiteral, Checked.bind_eq_ok, Checked.pure_eq_ok, Prod.mk.injEq] at hrun
  obtain ⟨t₁, hcommit, rfl, rfl⟩ := hrun
  obtain ⟨hsettles, hsame⟩ :=
    (commits_commitBound hnew.settled (hasVariable_newVariable t) hfact hcommit).settles
  exact ⟨hroot, hnew.trans hsettles, hsame.network, hsame.bindings⟩

end Theory

end TemporalNetwork
