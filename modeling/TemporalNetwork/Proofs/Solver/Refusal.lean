/-
A request that is refused changes nothing.

Requests that set up the problem are refused for what they are given:
handles that name nothing, numbers out of range, a domain that is empty,
or a level that is not the root. Whatever the parts of a request check in
the states on the way, a refusal leaves the solver with its theory and its
clauses as it was, because it comes before the first change.
-/
import TemporalNetwork.Proofs.Solver.History
import TemporalNetwork.Proofs.Theory.Validation

namespace TemporalNetwork

namespace Solver

variable {s s' : Solver} {c : Config} {polarity : Bool} {rs : List Request}
  {history : List (Request × Reply)} {r : Request} {reply : Reply} {refusal : Refusal}

/-- Carries out a request, in stages if it is one to the theory that sets
up the problem. -/
def performStaged (s : Solver) : Request → Checked (Solver × Reply)
  | .theory r => (s.theory.performStaged r).map fun (theory, reply) =>
      ({ s with theory }, .theory reply)
  | r => s.perform r

/-- In stages, a settled solver answers as it does otherwise. -/
theorem Settled.performStaged_eq {M : Set (BoolVar → Bool)} (h : Settled M s) (r : Request) :
    s.performStaged r = s.perform r := by
  cases r with
  | theory r =>
      obtain ⟨ts, hts, -⟩ := h.levels
      show (s.theory.performStaged r).map _ = (s.theory.perform r).map _
      rw [hts.settled.performStaged_eq r]
  | _ => rfl

/-- A clause with a variable that is unknown is not added. -/
theorem eq_of_addClause_refused {d : Disjunction}
    (h : s.perform (.addClause d) = .ok (s', .refused refusal)) : s' = s := by
  unfold perform at h
  simp only at h
  split at h
  next => cases h
  next s₁ x hadd =>
    cases h
    exact addClause_eq_error hadd

/-- A request that is refused, by the theory or by the solver itself,
leaves the whole state as it was, also if it is carried out in stages. -/
theorem eq_of_refused (h : (ofTheory (.initial c) polarity).performAll rs = .ok (s, history))
    (hrun : s.performStaged r = .ok (s', reply))
    (hrefused : reply = .theory (.refused refusal) ∨ reply = .refused refusal) :
    s' = s ∧ s.perform r = .ok (s', reply) := by
  rw [(settled_of_performAll h).performStaged_eq] at hrun
  refine ⟨?_, hrun⟩
  cases r with
  | theory r =>
      obtain ⟨⟨t, answer⟩, hperform, heq⟩ := Checked.map_eq_ok.mp hrun
      cases heq
      rcases hrefused with heq | heq
      · cases heq
        rw [Theory.eq_of_perform_refused hperform]
      · cases heq
  | addClause d =>
      rcases hrefused with rfl | rfl
      · unfold perform at hrun
        simp only at hrun
        split at hrun <;> cases hrun
      · exact eq_of_addClause_refused hrun
  | setPolarity positive =>
      cases hrun
      rcases hrefused with heq | heq <;> cases heq
  | solve deadline =>
      obtain ⟨_, -, heq⟩ := Checked.map_eq_ok.mp hrun
      cases heq
      rcases hrefused with heq | heq <;> cases heq
  | reset =>
      obtain ⟨⟨_, result⟩, -, heq⟩ := Checked.map_eq_ok.mp hrun
      cases heq
      cases result <;> rcases hrefused with heq | heq <;> cases heq

/-- Of the two guards of an edge the second is unknown. -/
theorem eq_of_refused_optional :
    ∃ s history, (ofTheory (.initial .standard) true).performAll
        [.theory (.newTimepoint ⟨0, 10⟩), .theory .newVariable,
          .addClause (.ofList [⟨⟨0⟩, true⟩])] = .ok (s, history) ∧
      s.performStaged (.theory (.addOptionalEdge .origin ⟨1⟩ 5 ⟨⟨0⟩, true⟩ ⟨⟨1⟩, true⟩)) =
        .ok (s, .theory (.refused (.unknownVariable ⟨1⟩))) := by
  have hrun : ((ofTheory (.initial .standard) true).performAll
      [.theory (.newTimepoint ⟨0, 10⟩), .theory .newVariable,
        .addClause (.ofList [⟨⟨0⟩, true⟩])]).answers (fun p =>
          (p.1.performStaged
            (.theory (.addOptionalEdge .origin ⟨1⟩ 5 ⟨⟨0⟩, true⟩ ⟨⟨1⟩, true⟩))).answers fun q =>
              match q.2 with
              | .theory reply => Decidable.decide (reply = .refused (.unknownVariable ⟨1⟩))
              | _ => false) = true := by decide +kernel
  obtain ⟨⟨s, history⟩, h, hanswer⟩ := Checked.exists_of_answers hrun
  obtain ⟨⟨s', reply⟩, hstaged, hreply⟩ := Checked.exists_of_answers hanswer
  cases reply with
  | theory reply =>
      obtain rfl := of_decide_eq_true hreply
      have hsame : s' = s := (eq_of_refused h hstaged (.inl rfl)).1
      exact ⟨s, history, h, hsame ▸ hstaged⟩
  | _ => cases hreply

end Solver

end TemporalNetwork
