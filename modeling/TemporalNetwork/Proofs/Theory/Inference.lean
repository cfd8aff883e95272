/-
What a theory infers is valid, after any history.

The two things a theory tells about the problem are conflicts and
implications. Neither depends on how it was found: a conflict is a closed
walk of negative weight whose guards are true, and an implication names
literals that leave no schedule while the implied one is false. Both are
statements about the network, so that they outlive the state in which
they were made: an implication that was published before the problem grew
is still one of the larger problem.
-/
import TemporalNetwork.Proofs.Theory.History

namespace TemporalNetwork

namespace Theory

variable {t : Theory} {c : Config} {rs : List Request}

/-- A conflict is valid: a closed walk of negative weight, explained by
its guards, all of which are true, and with them the edges in force have
no schedule. -/
theorem conflict_valid (h : (initial c).performAll rs = .ok t) {k : Conflict}
    (hk : t.conflict = some k) :
    k.cycle ≠ [] ∧ (∀ id ∈ k.cycle, t.network.hasEdge id = true) ∧
      t.network.isCycle k.cycle = true ∧ t.network.weight k.cycle < 0 ∧
      k.explanation.literals.Increasing ∧
      (∀ l, l ∈ k.explanation.literals ↔ ∃ id ∈ k.cycle, (t.network.edge id).guard? = some l) ∧
      (∀ l ∈ k.explanation.literals, t.value l = some true) ∧
      t.network.Excludes {l | l ∈ k.explanation.literals} := by
  obtain ⟨hvalid, htrue⟩ := (settled_of_performAll h).coherent.conflict k hk
  refine ⟨?_, hvalid.edge, hvalid.closed, hvalid.negative, ?_, fun l => hvalid.mem_explanation,
    htrue, hvalid.excludes⟩
  · intro hnil
    have hclosed := hvalid.closed
    rw [hnil] at hclosed
    cases hclosed
  · rw [hvalid.explanation]
    exact Literals.increasing_canonical _

/-- Two guarded edges close a negative cycle. -/
theorem conflict_valid_twoGuards :
    ∃ t k, (initial ⟨.off, true⟩).performAll
        [.newTimepoint ⟨0, 10⟩, .newVariable, .newVariable,
          .addConditionalEdge .origin ⟨1⟩ 7 ⟨⟨0⟩, true⟩,
          .addConditionalEdge ⟨1⟩ .origin (-8) ⟨⟨1⟩, true⟩, .pushCheckpoint,
          .assign ⟨⟨1⟩, true⟩, .assign ⟨⟨0⟩, true⟩] = .ok t ∧
      t.conflict = some k ∧
      k.cycle ≠ [] ∧ (∀ id ∈ k.cycle, t.network.hasEdge id = true) ∧
      t.network.isCycle k.cycle = true ∧ t.network.weight k.cycle < 0 ∧
      k.explanation.literals.Increasing ∧
      (∀ l, l ∈ k.explanation.literals ↔ ∃ id ∈ k.cycle, (t.network.edge id).guard? = some l) ∧
      (∀ l ∈ k.explanation.literals, t.value l = some true) ∧
      t.network.Excludes {l | l ∈ k.explanation.literals} := by
  have hrun : ((initial ⟨.off, true⟩).performAll
      [.newTimepoint ⟨0, 10⟩, .newVariable, .newVariable,
        .addConditionalEdge .origin ⟨1⟩ 7 ⟨⟨0⟩, true⟩,
        .addConditionalEdge ⟨1⟩ .origin (-8) ⟨⟨1⟩, true⟩, .pushCheckpoint,
        .assign ⟨⟨1⟩, true⟩, .assign ⟨⟨0⟩, true⟩]).answers (fun t => t.conflict.isSome)
      = true := by decide +kernel
  obtain ⟨t, ht, hconflict⟩ := Checked.exists_of_answers hrun
  obtain ⟨k, hk⟩ := Option.isSome_iff_exists.mp hconflict
  exact ⟨t, k, ht, hk, conflict_valid ht hk⟩

/-- An implication is valid: with its explanation true and the implied
literal false, the edges in force have no schedule. -/
theorem excludes_of_implied (h : (initial c).performAll rs = .ok t) {i : Implication}
    (hi : i ∈ t.implications.toList) :
    t.network.Excludes {l | l ∈ i.explanation.literals ∨ l = i.literal.negate} :=
  (settled_of_performAll h).coherent.implied i hi

/-- A bound literal is implied at a level, taken back, and implied again
after the problem has grown. -/
theorem excludes_of_implied_again :
    ∃ t, (initial .standard).performAll
        [.newTimepoint ⟨0, 10⟩, .newBoundLiteral (.leq ⟨1⟩ 5), .newVariable,
          .addConditionalEdge .origin ⟨1⟩ 3 ⟨⟨1⟩, true⟩, .pushCheckpoint, .assign ⟨⟨1⟩, true⟩,
          .reset, .newTimepoint ⟨-4, 4⟩, .pushCheckpoint, .assign ⟨⟨1⟩, true⟩] = .ok t ∧
      ⟨⟨⟨0⟩, true⟩, ⟨[⟨⟨1⟩, true⟩]⟩⟩ ∈ t.implications.toList ∧
      t.network.Excludes {l | l ∈ [⟨⟨1⟩, true⟩] ∨ l = Literal.negate ⟨⟨0⟩, true⟩} := by
  have hrun : ((initial .standard).performAll
      [.newTimepoint ⟨0, 10⟩, .newBoundLiteral (.leq ⟨1⟩ 5), .newVariable,
        .addConditionalEdge .origin ⟨1⟩ 3 ⟨⟨1⟩, true⟩, .pushCheckpoint, .assign ⟨⟨1⟩, true⟩,
        .reset, .newTimepoint ⟨-4, 4⟩, .pushCheckpoint, .assign ⟨⟨1⟩, true⟩]).answers (fun t =>
          decide (⟨⟨⟨0⟩, true⟩, ⟨[⟨⟨1⟩, true⟩]⟩⟩ ∈ t.implications.toList)) = true := by
    decide +kernel
  obtain ⟨t, ht, himplied⟩ := Checked.exists_of_answers hrun
  rw [decide_eq_true_eq] at himplied
  exact ⟨t, ht, himplied, excludes_of_implied ht himplied⟩

end Theory

end TemporalNetwork
