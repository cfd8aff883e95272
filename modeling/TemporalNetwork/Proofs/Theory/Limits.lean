/-
Sums stay within 32 bits.

What a problem stores is at most an eighth of what 32 bits can hold, and
nothing that is computed from it leaves the 32 bits. Between requests
every bound lies within the domain with which its timepoint was added: the
two edges that state the domain are in force at all times, under a
conflict as well. The potentials of an activation that fails can fall
below that, but a node that was lowered too far is noticed before
anything is lowered through it. Distances between timepoints are longer
than bounds, and the labels of a search longer still; what bounds them is
the way round by the origin.

A sum that does not fit is a fault of its own. That there is none is said
of all requests and all questions, those included that break off for
another reason.
-/
import TemporalNetwork.Proofs.Theory.Answers
import TemporalNetwork.Proofs.Theory.Distances

namespace TemporalNetwork

theorem Checked.ne_error_of_exists {α : Type} {x : Checked α} (h : ∃ a, x = .ok a) (f : Fault) :
    x ≠ .error f := by
  obtain ⟨a, rfl⟩ := h
  exact fun hfault => nomatch hfault

-- ================================================================== domains

/-- The numbers of a domain are within the limits of weights. -/
theorem Network.Enforced.domain_mem {net : Network} (h : net.Enforced) (hlimited : net.Limited)
    {x : Timepoint} (hx : net.hasTimepoint x = true) :
    -maxMagnitude ≤ (net.domain x).lower ∧ (net.domain x).upper ≤ maxMagnitude := by
  by_cases horigin : x = .origin
  · rw [horigin, h.origin]
    decide
  · obtain ⟨i, hi, hupper⟩ := h.upper x hx horigin
    obtain ⟨j, hj, hlower⟩ := h.lower x hx horigin
    have hi' := hlimited i hi
    have hj' := hlimited j hj
    rw [hupper] at hi'
    rw [hlower] at hj'
    simp only at hi' hj'
    omega

/-- A potential is no more than the bound of the domain. -/
theorem ActiveGraph.Grounded.value_le_domainBound {net : Network} {g : ActiveGraph}
    (h : g.Grounded net) (henforced : net.Enforced) (d : Direction) {x : Timepoint}
    (hx : net.hasTimepoint x = true) : g.value d x ≤ domainBound (net.domain x) d := by
  by_cases horigin : x = .origin
  · rw [horigin, h.origin, henforced.origin]
    cases d <;> decide
  · obtain ⟨id, hactive, hshared, htail, hhead, hweight⟩ := h.fromOrigin d x hx horigin
    have hrespected := h.respected d id hactive (Edge.isIn_of_isShared hshared d)
    rw [hhead, htail, h.origin, hweight, Int.zero_add] at hrespected
    exact hrespected

namespace Theory

variable {t : Theory} {ts : List Theory} {a b x : Timepoint} {c : Config} {rs : List Request}
  {r : Request}

/-- Bounds do not cross, and lie within the domain. -/
theorem Coherent.bounds_mem (ht : t.Coherent) (hx : t.network.hasTimepoint x = true) :
    (t.network.domain x).lower ≤ t.graph.lower x ∧ t.graph.lower x ≤ t.graph.upper x ∧
      t.graph.upper x ≤ (t.network.domain x).upper := by
  have hbackward := ht.graph.value_le_domainBound ht.enforced .backward hx
  have hforward := ht.graph.value_le_domainBound ht.enforced .forward hx
  have huncrossed := ht.graph.uncrossed x
  simp only [ActiveGraph.domainBound] at hbackward hforward
  unfold ActiveGraph.lower ActiveGraph.upper
  omega

-- ================================================================ questions

/-- Without the timepoint there is no answer, and no sum is formed. -/
theorem requireTimepoint_of_not (ha : ¬ t.network.hasTimepoint a = true) :
    t.requireTimepoint a = .error .outOfBounds := if_neg ha

/-- The distance between two timepoints is given. -/
theorem Coherent.exists_distance (ht : t.Coherent) (ha : t.network.hasTimepoint a = true)
    (hb : t.network.hasTimepoint b = true) : ∃ k, t.distance a b = .ok k := by
  obtain ⟨k, hk, -⟩ := ht.isLeast_distance ha hb
  exact ⟨k, hk⟩

/-- The distances between a timepoint and all others are given. -/
theorem Coherent.exists_distances (ht : t.Coherent) (d : Direction)
    (ha : t.network.hasTimepoint a = true) : ∃ reached, t.distances d a = .ok reached := by
  obtain ⟨reached, hreached, -⟩ := ht.isLeast_distances d ha
  exact ⟨reached, hreached⟩

-- ================================================================= requests

/-- At the root there is no level to take back. -/
theorem restoreLast_of_root (h : t.level = .root) : t.restoreLast = .error .nothingSaved := by
  have hmarks : t.log.marks = [] :=
    List.length_eq_zero_iff.mp (congrArg DecisionLevel.depth h)
  unfold restoreLast UndoLog.restoreLast
  rw [hmarks]
  rfl

/-- The one request that can leave the 32 bits is a minimal delay whose
negation does. -/
theorem Stack.perform_ne_overflow (h : Stack ts t)
    (hr : ∀ a b delay, r = .addMinDelay a b delay → FitsInt32 (-delay)) :
    t.perform r ≠ .error .overflow := by
  by_cases hanswerable : r.Answerable t
  · exact Checked.ne_error_of_exists (h.exists_perform hanswerable) .overflow
  · cases r with
    | addMinDelay a b delay => exact absurd (hr a b delay rfl) hanswerable
    | restoreLast =>
        have hroot : t.level = .root := not_not.mp hanswerable
        show t.restoreLast.map _ ≠ _
        rw [restoreLast_of_root hroot]
        exact fun hfault => nomatch hfault
    | _ => exact absurd trivial hanswerable

/-- In no state that can arise does a sum leave its 32 bits, and bounds
stay within the domains that were accepted. -/
theorem ne_overflow_of_performAll (h : (initial c).performAll rs = .ok t) :
    (∀ r, (∀ a b delay, r = .addMinDelay a b delay → FitsInt32 (-delay)) →
      t.perform r ≠ .error .overflow) ∧
    (∀ a b, t.distance a b ≠ .error .overflow) ∧
    (∀ d a, t.distances d a ≠ .error .overflow) ∧
    (∀ id, t.network.hasEdge id = true →
      -maxMagnitude ≤ (t.network.edge id).weight ∧ (t.network.edge id).weight ≤ maxMagnitude) ∧
    ∀ x, t.network.hasTimepoint x = true → ∃ domain lower upper,
      t.initialDomain x = .ok domain ∧ t.lower x = .ok lower ∧ t.upper x = .ok upper ∧
      -maxMagnitude ≤ domain.lower ∧ domain.lower ≤ lower ∧ lower ≤ upper ∧
      upper ≤ domain.upper ∧ domain.upper ≤ maxMagnitude := by
  obtain ⟨ts, hts⟩ := exists_stack_of_performAll h
  have ht := hts.settled.coherent
  refine ⟨fun r hr => hts.perform_ne_overflow hr, fun a b => ?_, fun d a => ?_, ht.limited,
    fun x hx => ?_⟩
  · -- a query about timepoints that are not there faults otherwise
    by_cases ha : t.network.hasTimepoint a = true
    · by_cases hb : t.network.hasTimepoint b = true
      · exact Checked.ne_error_of_exists (ht.exists_distance ha hb) .overflow
      · unfold distance
        rw [requireTimepoint_of_not hb, requireTimepoint_of ha]
        exact fun hfault => nomatch hfault
    · unfold distance
      rw [requireTimepoint_of_not ha]
      exact fun hfault => nomatch hfault
  · by_cases ha : t.network.hasTimepoint a = true
    · exact Checked.ne_error_of_exists (ht.exists_distances d ha) .overflow
    · unfold distances
      rw [requireTimepoint_of_not ha]
      exact fun hfault => nomatch hfault
  · have hrequire := requireTimepoint_of hx
    obtain ⟨hdomain, hdomain'⟩ := ht.enforced.domain_mem ht.limited hx
    obtain ⟨hlower, hcrossing, hupper⟩ := ht.bounds_mem hx
    refine ⟨t.network.domain x, t.graph.lower x, t.graph.upper x, ?_, ?_, ?_, hdomain, hlower,
      hcrossing, hupper, hdomain'⟩
    · unfold initialDomain
      rw [hrequire]
      rfl
    · unfold lower
      rw [hrequire]
      rfl
    · unfold upper
      rw [hrequire]
      rfl

/-- Domains and weights as large as they can be, and an edge that would
put a timepoint far below its domain. -/
theorem ne_overflow_of_performAll_extreme :
    ∃ t, (initial ⟨.full, true⟩).performAll
        [.newTimepoint ⟨-maxMagnitude, maxMagnitude⟩, .newTimepoint ⟨-maxMagnitude, maxMagnitude⟩,
          .newVariable, .addPermanentEdge ⟨1⟩ ⟨2⟩ maxMagnitude,
          .addConditionalEdge ⟨2⟩ ⟨1⟩ (-maxMagnitude) ⟨⟨0⟩, true⟩,
          .addConditionalEdge ⟨1⟩ .origin (-maxMagnitude) ⟨⟨0⟩, true⟩, .pushCheckpoint] = .ok t ∧
      t.network.hasTimepoint ⟨2⟩ = true ∧
      t.perform (.assign ⟨⟨0⟩, true⟩) ≠ .error .overflow ∧
      t.distance ⟨1⟩ ⟨2⟩ ≠ .error .overflow ∧
      ∃ domain lower upper, t.initialDomain ⟨2⟩ = .ok domain ∧ t.lower ⟨2⟩ = .ok lower ∧
        t.upper ⟨2⟩ = .ok upper ∧ -maxMagnitude ≤ domain.lower ∧ domain.lower ≤ lower ∧
        lower ≤ upper ∧ upper ≤ domain.upper ∧ domain.upper ≤ maxMagnitude := by
  have hrun : ((initial ⟨.full, true⟩).performAll
      [.newTimepoint ⟨-maxMagnitude, maxMagnitude⟩, .newTimepoint ⟨-maxMagnitude, maxMagnitude⟩,
        .newVariable, .addPermanentEdge ⟨1⟩ ⟨2⟩ maxMagnitude,
        .addConditionalEdge ⟨2⟩ ⟨1⟩ (-maxMagnitude) ⟨⟨0⟩, true⟩,
        .addConditionalEdge ⟨1⟩ .origin (-maxMagnitude) ⟨⟨0⟩, true⟩, .pushCheckpoint]).answers
          (fun t => t.network.hasTimepoint ⟨2⟩) = true := by decide +kernel
  obtain ⟨t, ht, htimepoint⟩ := Checked.exists_of_answers hrun
  obtain ⟨hperform, hdistance, -, -, hbounds⟩ := ne_overflow_of_performAll ht
  exact ⟨t, ht, htimepoint, hperform _ (fun a b delay hr => by cases hr), hdistance ⟨1⟩ ⟨2⟩,
    hbounds ⟨2⟩ htimepoint⟩

end Theory

end TemporalNetwork
