/-
A search ends with an answer.

To search is to prepare the search at the root and then to take steps
until one of them has an answer. `Iterates` says this without a bound on
the number of steps. The nodes of the search are the lists of decisions,
each of them taken or flipped, and a step that has no answer leads to a
later node; `exists_run` counts the nodes that are left. So the steps are
no more than the nodes, and without a deadline the search is not given
up: what the last step answers is a solution, or that there is none.
-/
import TemporalNetwork.Proofs.Solver.History
import TemporalNetwork.Proofs.Solver.Progress

namespace TemporalNetwork

namespace Solver

variable {s s' : Solver} {result : SearchResult} {n : Nat} {c : Config} {polarity : Bool}
  {rs : List Request} {history : List (Request × Reply)}

-- =============================================================== iteration

/-- So many steps are taken, of which the last one has an answer. -/
inductive Iterates : Nat → Solver → Solver → SearchResult → Prop where
  | last {s s' : Solver} {result : SearchResult} (step : s.step = .ok (s', some result)) :
      Iterates 1 s s' result
  | next {n : Nat} {s s₁ s' : Solver} {result : SearchResult} (step : s.step = .ok (s₁, none))
      (rest : Iterates n s₁ s' result) : Iterates (n + 1) s s' result

/-- Without a deadline a run is made of steps, no more than are allowed. -/
theorem iterates_of_run (h : run n .never s = .ok (s', result)) :
    ∃ m, m ≤ n ∧ Iterates m s s' result := by
  induction n generalizing s with
  | zero => cases h
  | succ n ih =>
      unfold run at h
      rw [if_neg (show ¬ Deadline.never.isReached = true from Bool.false_ne_true),
        Checked.bind_eq_ok] at h
      obtain ⟨⟨s₁, answer⟩, hstep, hrest⟩ := h
      cases answer with
      | some r =>
          cases hrest
          exact ⟨1, Nat.succ_le_succ (Nat.zero_le n), .last hstep⟩
      | none =>
          obtain ⟨m, hm, hiterates⟩ := ih hrest
          exact ⟨m + 1, Nat.succ_le_succ hm, .next hstep hiterates⟩

-- ============================================================= termination

/-- After any history a search without a deadline ends: the steps, as many
as the tree of decisions can have nodes, lead to a solution or show that
there is none. -/
theorem exists_iterates_solve
    (h : (ofTheory (.initial c) polarity).performAll rs = .ok (s, history)) :
    ∃ s₀ n s' result, s.start = .ok s₀ ∧ Iterates n s₀ s' result ∧
      n ≤ 2 ^ (s₀.theory.numVariables + 1) ∧ s.solve .never = .ok (s', result) ∧
      (result = .unsat ∨ ∃ x, result = .sat x) := by
  have hinitial : Settled ∅ (ofTheory (.initial c) polarity) :=
    settled_ofTheory fun σ hσ => absurd hσ (Set.notMem_empty σ)
  obtain ⟨hsettled, -, -⟩ := records_performAll hinitial h
  obtain ⟨s', result, hsolve, hanswer⟩ := exists_solve hsettled .never
  obtain ⟨s₀, hstart, hrun⟩ := Checked.bind_eq_ok.mp hsolve
  obtain ⟨n, hn, hiterates⟩ := iterates_of_run hrun
  refine ⟨s₀, n, s', result, hstart, hiterates, hn, hsolve, ?_⟩
  cases result with
  | sat x => exact .inr ⟨x, rfl⟩
  | unsat => exact .inl rfl
  | timeout => exact absurd rfl (hanswer rfl)

/-- The second search begins where the first one ended, with clauses that
no assignment of the two variables satisfies. -/
theorem exists_iterates_solve_again :
    ∃ s history, (ofTheory (.initial .standard) true).performAll
        [.theory (.newTimepoint ⟨0, 10⟩), .theory .newVariable, .theory .newVariable,
          .theory (.addReifiedEdge ⟨⟨0⟩, true⟩ .origin ⟨1⟩ 4),
          .addClause (.ofList [⟨⟨0⟩, true⟩, ⟨⟨1⟩, true⟩]),
          .addClause (.ofList [⟨⟨0⟩, false⟩, ⟨⟨1⟩, true⟩]), .solve .never, .reset,
          .addClause (.ofList [⟨⟨0⟩, true⟩, ⟨⟨1⟩, false⟩]),
          .addClause (.ofList [⟨⟨0⟩, false⟩, ⟨⟨1⟩, false⟩])] = .ok (s, history) ∧
      ∃ s₀ n s' result, s.start = .ok s₀ ∧ Iterates n s₀ s' result ∧
        n ≤ 2 ^ (s₀.theory.numVariables + 1) ∧ s.solve .never = .ok (s', result) ∧
        (result = .unsat ∨ ∃ x, result = .sat x) := by
  have hrun : ((ofTheory (.initial .standard) true).performAll
      [.theory (.newTimepoint ⟨0, 10⟩), .theory .newVariable, .theory .newVariable,
        .theory (.addReifiedEdge ⟨⟨0⟩, true⟩ .origin ⟨1⟩ 4),
        .addClause (.ofList [⟨⟨0⟩, true⟩, ⟨⟨1⟩, true⟩]),
        .addClause (.ofList [⟨⟨0⟩, false⟩, ⟨⟨1⟩, true⟩]), .solve .never, .reset,
        .addClause (.ofList [⟨⟨0⟩, true⟩, ⟨⟨1⟩, false⟩]),
        .addClause (.ofList [⟨⟨0⟩, false⟩, ⟨⟨1⟩, false⟩])]).answers (fun _ => true)
      = true := by decide +kernel
  obtain ⟨⟨s, history⟩, h, -⟩ := Checked.exists_of_answers hrun
  exact ⟨s, history, h, exists_iterates_solve h⟩

end Solver

end TemporalNetwork
