/-
No check fails.

An operation looks at the conditions on which it relies as it runs: that
the edges of a conflict close a negative cycle, that a chain of
predecessors leads back to the origin, that what is undone is what was
done last, that nothing is pending where a checkpoint is opened. Whether
the state checks itself as well is an option, and can be changed at any
time. Here it is shown that none of this ever fails: a history of requests
that are made as they should be is answered to its end, whatever the
options, and every state that it passes through has what is checked of it,
looked at or not.

One request leads from a state with its stack of saved states to another
such state, so that the run is by induction on the requests.
-/
import TemporalNetwork.Proofs.Theory.Limits

namespace TemporalNetwork

namespace Theory

variable {t : Theory} {ts : List Theory} {c : Config} {rs : List Request}

/-- Each request is made as it should be, in the state in which it is
made. -/
def AnswerableAll (t : Theory) : List Request → Prop
  | [] => True
  | r :: rs => r.Answerable t ∧
    ∀ t' reply, t.perform r = .ok (t', reply) → AnswerableAll t' rs

/-- What is checked of a state and of the searches on it. -/
structure Passes (t : Theory) : Prop where
  potentials : t.checkPotentials = .ok ()
  conflict (k : Conflict) : t.conflict = some k → t.checkConflict k = .ok ()
  chain (d : Direction) (x : Timepoint) : t.network.hasTimepoint x = true →
    ∃ es, t.graph.predecessorChain t.network d x = .ok es ∧
      t.network.weight es ≤ t.graph.value d x
  distance (a b : Timepoint) : t.network.hasTimepoint a = true →
    t.network.hasTimepoint b = true → ∃ k, t.distance a b = .ok k
  distances (d : Direction) (a : Timepoint) : t.network.hasTimepoint a = true →
    ∃ reached, t.distances d a = .ok reached
  /-- A search settles nodes in the order of their distances. -/
  ordered (d : Direction) (a : Timepoint) (sharedOnly : Bool) (stop : Option Timepoint) (n : Nat)
      (s : PathSearch) (node : Timepoint) (distance : Int) : t.network.hasTimepoint a = true →
    PathSearch.settle t.network t.graph sharedOnly stop n (.initial d a) = .ok s →
    s.nearest? = some (node, distance) → ∀ x, s.settled.contains x = true →
      ∃ label, s.labels.get? x = some label ∧ label.distance ≤ distance

/-- What is checked holds of every state that fits together. -/
theorem Coherent.passes (ht : t.Coherent) : t.Passes where
  potentials := ht.checkPotentials_eq_ok
  conflict k hk := by
    obtain ⟨hvalid, htrue⟩ := ht.conflict k hk
    exact checkConflict_eq_ok.mpr ⟨hvalid.closed, hvalid.negative, htrue⟩
  chain d _ hx := ht.exists_predecessorChain d hx
  distance _ _ ha hb := ht.exists_distance ha hb
  distances d _ ha := ht.exists_distances d ha
  ordered _ _ _ _ _ _ _ _ ha hrun hnearest _ hx :=
    PathSearch.le_of_nearest? ht.network ht.limited ht.graph ha hrun hnearest hx

/-- Requests that are made as they should be are all answered. -/
theorem Stack.exists_performAll (h : Stack ts t) (hrs : AnswerableAll t rs) :
    ∃ t' ts', t.performAll rs = .ok t' ∧ Stack ts' t' := by
  induction rs generalizing ts t with
  | nil => exact ⟨t, ts, rfl, h⟩
  | cons r rs ih =>
      obtain ⟨hr, hrest⟩ := hrs
      obtain ⟨⟨t₁, reply⟩, hfirst⟩ := h.exists_perform hr
      obtain ⟨ts₁, h₁⟩ := h.perform hfirst
      obtain ⟨t', ts', hrun, h'⟩ := ih h₁ (hrest t₁ reply hfirst)
      exact ⟨t', ts', Checked.bind_eq_ok.mpr ⟨(t₁, reply), hfirst, hrun⟩, h'⟩

/-- Whatever was asked before, whatever is asked next is answered, and what
is checked holds before and after. -/
theorem passes_of_performAll (h : (initial c).performAll rs = .ok t) :
    t.Passes ∧ ∀ further, AnswerableAll t further →
      ∃ t', t.performAll further = .ok t' ∧ t'.Passes := by
  obtain ⟨ts, hts⟩ := exists_stack_of_performAll h
  refine ⟨hts.settled.coherent.passes, fun further hfurther => ?_⟩
  obtain ⟨t', ts', hrun, hts'⟩ := hts.exists_performAll hfurther
  exact ⟨t', hrun, hts'.settled.coherent.passes⟩

/-- Under a conflict with nothing checked: the conflict is taken back, and
checks are switched on. -/
theorem passes_of_performAll_conflict :
    ∃ t, (initial ⟨.off, false⟩).performAll
        [.newTimepoint ⟨0, 10⟩, .newVariable, .addConditionalEdge ⟨1⟩ .origin (-20) ⟨⟨0⟩, true⟩,
          .pushCheckpoint, .assign ⟨⟨0⟩, true⟩] = .ok t ∧
      t.isConsistent = false ∧ t.Passes ∧ ∃ t', t.performAll
        [.popTo ⟨1⟩, .configure ⟨.full, true⟩, .assign ⟨⟨0⟩, false⟩, .backtrack .root,
          .addMinDelay .origin ⟨1⟩ 7] = .ok t' ∧ t'.Passes := by
  have hrun : ((initial ⟨.off, false⟩).performAll
      [.newTimepoint ⟨0, 10⟩, .newVariable, .addConditionalEdge ⟨1⟩ .origin (-20) ⟨⟨0⟩, true⟩,
        .pushCheckpoint, .assign ⟨⟨0⟩, true⟩]).answers
          (fun t => t.isConsistent == false) = true := by decide +kernel
  obtain ⟨t, ht, hverdict⟩ := Checked.exists_of_answers hrun
  obtain ⟨hpasses, hfurther⟩ := passes_of_performAll ht
  refine ⟨t, ht, beq_iff_eq.mp hverdict, hpasses, hfurther _ ?_⟩
  have hdelay : FitsInt32 (-7) := by decide
  exact ⟨trivial, fun _ _ _ => ⟨trivial, fun _ _ _ => ⟨trivial, fun _ _ _ => ⟨trivial, fun _ _ _ =>
    ⟨hdelay, fun _ _ _ => trivial⟩⟩⟩⟩⟩

end Theory

end TemporalNetwork
