/-
What a solver learns.

The clause of a conflict is kept for good. Later searches use it without
deriving it again, on a problem that has been extended by then. They may:
the clause follows from the network alone, whatever was decided, given or
set when the conflict was found, and a network that grows admits no
assignment that it did not admit before.

`ClauseDatabase.Justified` says so of a whole database. A contradiction is
the one place where a clause is learnt; what a search keeps of this is part
of `Continues`, and what a request keeps of it is part of `Keeps`.
-/
import TemporalNetwork.Proofs.Solver.History

namespace TemporalNetwork

variable {net : Network} {db : ClauseDatabase} {σ : BoolVar → Bool}

-- ============================================================ one database

/-- Learning costs no solution: of the assignments that the network admits
those are left in which the clauses that were given hold. -/
theorem ClauseDatabase.Justified.holdsIn_iff (h : db.Justified net) (hσ : net.Admits σ) :
    db.HoldsIn σ ↔
      ∀ id, db.Has id → db.isLearnt id = false → ∃ l ∈ db.literalsOf id, l.Holds σ := by
  constructor
  · exact fun hholds id hid _ => hholds id hid
  · intro hgiven id hid
    cases hlearnt : db.isLearnt id with
    | true => exact (h id hid hlearnt).holds σ hσ
    | false => exact hgiven id hid hlearnt

namespace Solver

variable {s : Solver} {c : Config} {polarity : Bool} {rs : List Request}
  {history : List (Request × Reply)} {id : ClauseId} {clause : Clause}

-- ================================================================ histories

/-- Whatever was learnt in a history follows from the network to which it
led. -/
theorem justified_performAll
    (h : (ofTheory (.initial c) polarity).performAll rs = .ok (s, history)) :
    s.clauses.Justified s.theory.network := by
  have hinitial : Settled ∅ (ofTheory (.initial c) polarity) :=
    settled_ofTheory fun σ hσ => absurd hσ (Set.notMem_empty σ)
  obtain ⟨-, hkeeps, -⟩ := records_performAll hinitial h
  apply hkeeps.learnt
  intro id hid
  exact absurd hid (Nat.not_lt_zero _)

/-- Given and learnt clauses together have the solutions of those that
were given. -/
theorem holdsIn_iff_of_performAll
    (h : (ofTheory (.initial c) polarity).performAll rs = .ok (s, history))
    (hσ : s.theory.network.Admits σ) : s.clauses.HoldsIn σ ↔
      ∀ id, s.clauses.Has id → s.clauses.isLearnt id = false →
        ∃ l ∈ s.clauses.literalsOf id, l.Holds σ :=
  (justified_performAll h).holdsIn_iff hσ

/-- After any history a clause that was learnt holds in every assignment
that is admitted by the network as it is then, with all that was added
since. No such clause lists a literal and its negation. -/
theorem forces_of_learnt
    (h : (ofTheory (.initial c) polarity).performAll rs = .ok (s, history))
    (hclause : s.clauses.clause id = .ok clause) (hlearnt : clause.learnt = true) :
    (∀ σ : BoolVar → Bool, s.theory.network.Admits σ → ∃ l ∈ clause.literals, l.Holds σ) ∧
      ∀ l ∈ clause.literals, l.negate ∉ clause.literals := by
  obtain ⟨hid, hliterals⟩ := ClauseDatabase.clause_eq_ok hclause
  rw [ClauseDatabase.learnt_of_clause hclause] at hlearnt
  have hforces := justified_performAll h id hid hlearnt
  rw [hliterals]
  exact ⟨hforces.holds, hforces.proper⟩

/-- Two edges that close a cycle, and a problem that is extended after the
search that learnt of it. -/
theorem forces_of_learnt_extended :
    ∃ s history clause, (ofTheory (.initial .standard) true).performAll
        [.theory (.newTimepoint ⟨0, 10⟩), .theory (.newTimepoint ⟨0, 10⟩), .theory .newVariable,
          .theory .newVariable, .theory (.addConditionalEdge ⟨1⟩ ⟨2⟩ (-1) ⟨⟨0⟩, true⟩),
          .theory (.addConditionalEdge ⟨2⟩ ⟨1⟩ (-1) ⟨⟨1⟩, true⟩), .solve .never, .reset,
          .theory (.newTimepoint ⟨0, 10⟩), .theory (.addPermanentEdge ⟨3⟩ ⟨1⟩ 0),
          .theory (.newBoundLiteral (.leq ⟨3⟩ 5)),
          .addClause (.ofList [⟨⟨0⟩, true⟩, ⟨⟨1⟩, true⟩]), .solve .never] = .ok (s, history) ∧
      s.clauses.clause ⟨0⟩ = .ok clause ∧ clause.learnt = true ∧ clause.literals.length = 2 ∧
      (∀ σ : BoolVar → Bool, s.theory.network.Admits σ → ∃ l ∈ clause.literals, l.Holds σ) ∧
      ∀ l ∈ clause.literals, l.negate ∉ clause.literals := by
  have hrun : ((ofTheory (.initial .standard) true).performAll
      [.theory (.newTimepoint ⟨0, 10⟩), .theory (.newTimepoint ⟨0, 10⟩), .theory .newVariable,
        .theory .newVariable, .theory (.addConditionalEdge ⟨1⟩ ⟨2⟩ (-1) ⟨⟨0⟩, true⟩),
        .theory (.addConditionalEdge ⟨2⟩ ⟨1⟩ (-1) ⟨⟨1⟩, true⟩), .solve .never, .reset,
        .theory (.newTimepoint ⟨0, 10⟩), .theory (.addPermanentEdge ⟨3⟩ ⟨1⟩ 0),
        .theory (.newBoundLiteral (.leq ⟨3⟩ 5)),
        .addClause (.ofList [⟨⟨0⟩, true⟩, ⟨⟨1⟩, true⟩]), .solve .never]).answers (fun p =>
          (p.1.clauses.clause ⟨0⟩).answers fun clause =>
            clause.learnt && clause.literals.length == 2) = true := by decide +kernel
  obtain ⟨⟨s, history⟩, h, hanswer⟩ := Checked.exists_of_answers hrun
  obtain ⟨clause, hclause, htest⟩ := Checked.exists_of_answers hanswer
  obtain ⟨hlearnt, hlength⟩ := Bool.and_eq_true_iff.mp htest
  exact ⟨s, history, clause, h, hclause, hlearnt, beq_iff_eq.mp hlength,
    forces_of_learnt h hclause hlearnt⟩

end Solver

end TemporalNetwork
