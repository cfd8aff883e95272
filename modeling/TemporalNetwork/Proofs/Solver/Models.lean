/-
What solves the problem of a solver.

Times and an assignment of all variables model the problem if the edges
that the assignment puts in force are respected and the clauses hold. An
edge or a clause more is a condition more, which is how a problem is read
off the steps that built it.

The times and the values of a solution are a model, as long as no edge is
left out of the backward view. In the other direction times that respect
the edges are a schedule, so that the assignment of a model is one that
the network admits.
-/
import TemporalNetwork.Proofs.Solver.History

namespace TemporalNetwork

variable {ρ : Timepoint → Int} {σ : BoolVar → Bool} {a b : Timepoint} {w : Int} {l : Literal}
  {f : BoundFact} {e : Edge} {es : List Edge}

-- =================================================================== edges

/-- The times respect the edge if the assignment puts it in force. -/
def Edge.HoldsWhen (ρ : Timepoint → Int) (σ : BoolVar → Bool) (e : Edge) : Prop :=
  (∀ g, e.guard? = some g → g.Holds σ) → e.Holds ρ

/-- A permanent edge always holds its bound. -/
theorem holdsWhen_permanent :
    (⟨a, b, w, .permanent⟩ : Edge).HoldsWhen ρ σ ↔ ρ b - ρ a ≤ w := by
  constructor
  · exact fun h => h fun g hg => by cases hg
  · exact fun h _ => h

/-- A conditional edge holds its bound when its literal is true. -/
theorem holdsWhen_conditional :
    (⟨a, b, w, .conditional l⟩ : Edge).HoldsWhen ρ σ ↔ (l.Holds σ → ρ b - ρ a ≤ w) := by
  constructor
  · intro h hl
    apply h
    intro g hg
    cases hg
    exact hl
  · exact fun h hguard => h (hguard l rfl)

/-- Of two facts that exclude each other exactly one holds. -/
theorem BoundFact.holds_negation : f.negation.Holds ρ ↔ ¬ f.Holds ρ := by
  cases f with
  | leq tp k =>
      show k + 1 ≤ ρ tp ↔ ¬ ρ tp ≤ k
      omega
  | geq tp k =>
      show ρ tp ≤ k - 1 ↔ ¬ k ≤ ρ tp
      omega

/-- The edge of a bound literal is seen from both views. -/
theorem BoundFact.isShared_edge : (f.edge l).isShared = true := by
  rw [BoundFact.edge_eq]
  rfl

/-- The edge of a bound literal states the bound. -/
theorem holdsWhen_edge (horigin : ρ .origin = 0) :
    (f.edge l).HoldsWhen ρ σ ↔ (l.Holds σ → f.Holds ρ) := by
  rw [← BoundFact.holds_edge (l := l) horigin, BoundFact.edge_eq]
  exact holdsWhen_conditional

/-- The two edges of a literal that is bound to a fact. -/
theorem holdsWhen_bound (horigin : ρ .origin = 0) :
    (f.edge l).HoldsWhen ρ σ ∧ (f.negation.edge l.negate).HoldsWhen ρ σ ↔
      (l.Holds σ ↔ f.Holds ρ) := by
  rw [holdsWhen_edge horigin, holdsWhen_edge horigin, BoundFact.holds_negation,
    Literal.holds_negate, not_imp_not]
  exact iff_def.symm

namespace Solver

variable {s s' : Solver} {x : Solution} {d : Disjunction}

-- ================================================================== models

/-- The times respect the edges in force, and the clauses hold. -/
structure Models (ρ : Timepoint → Int) (σ : BoolVar → Bool) (s : Solver) : Prop where
  edge (e : Edge) : s.theory.network.Contains e → e.HoldsWhen ρ σ
  clause : s.clauses.HoldsIn σ

/-- Only network and clauses matter. -/
theorem models_congr (hnetwork : s'.theory.network = s.theory.network)
    (hclauses : s'.clauses = s.clauses) : s'.Models ρ σ ↔ s.Models ρ σ := by
  constructor
  · rintro ⟨hedge, hclause⟩
    rw [hnetwork] at hedge
    rw [hclauses] at hclause
    exact ⟨hedge, hclause⟩
  · rintro ⟨hedge, hclause⟩
    rw [← hnetwork] at hedge
    rw [← hclauses] at hclause
    exact ⟨hedge, hclause⟩

/-- Edges more are conditions more. -/
theorem models_of_edges (hedges : ∀ e, s'.theory.network.Contains e ↔
      s.theory.network.Contains e ∨ e ∈ es) (hclauses : s'.clauses = s.clauses) :
    s'.Models ρ σ ↔ s.Models ρ σ ∧ ∀ e ∈ es, e.HoldsWhen ρ σ := by
  constructor
  · rintro ⟨hedge, hclause⟩
    rw [hclauses] at hclause
    exact ⟨⟨fun e he => hedge e ((hedges e).mpr (.inl he)), hclause⟩,
      fun e he => hedge e ((hedges e).mpr (.inr he))⟩
  · rintro ⟨⟨hedge, hclause⟩, hnew⟩
    rw [← hclauses] at hclause
    exact ⟨fun e he => ((hedges e).mp he).elim (hedge e) (hnew e), hclause⟩

/-- A clause that was accepted is a condition more. -/
theorem models_addClause (h : s.addClause d = (s', .ok ())) :
    s'.Models ρ σ ↔ s.Models ρ σ ∧ ∃ l ∈ d.literals, l.Holds σ := by
  obtain ⟨-, ⟨htautology, rfl⟩ | rfl⟩ := addClause_eq_ok h
  · -- a tautology holds whatever the assignment is
    have hholds : ∃ l ∈ d.literals, l.Holds σ := by
      obtain ⟨l, hl, hnegate⟩ := Disjunction.isTautology_iff.mp htautology
      by_cases htrue : l.Holds σ
      · exact ⟨l, hl, htrue⟩
      · exact ⟨l.negate, hnegate, Literal.holds_negate.mpr htrue⟩
    exact ⟨fun hmodels => ⟨hmodels, hholds⟩, fun hmodels => hmodels.1⟩
  · constructor
    · rintro ⟨hedge, hclause⟩
      refine ⟨⟨hedge, fun id hid => ?_⟩, ?_⟩
      · obtain ⟨l, hl, htrue⟩ := hclause id (ClauseDatabase.has_add.mpr (.inr hid))
        rw [ClauseDatabase.literalsOf_add_of_has hid] at hl
        exact ⟨l, hl, htrue⟩
      · obtain ⟨l, hl, htrue⟩ := hclause _ (ClauseDatabase.has_add.mpr (.inl rfl))
        rw [ClauseDatabase.literalsOf_add_self] at hl
        exact ⟨l, hl, htrue⟩
    · rintro ⟨⟨hedge, hclause⟩, hholds⟩
      exact ⟨hedge, hclause.add hholds⟩

/-- Times that respect the edges are a schedule. -/
theorem Models.admits (h : s.Models ρ σ) (horigin : ρ .origin = 0) :
    s.theory.network.Admits σ := by
  have hedge : ∀ id ∈ s.theory.network.enabledBy {l | l.Holds σ},
      (s.theory.network.edge id).Holds ρ := fun id hid =>
    h.edge _ ⟨id, hid.1, rfl⟩ fun g hg => hid.2 g hg
  apply Network.not_inconsistent_of_respected
    (f := fun d tp => if d = .forward then ρ tp else -ρ tp)
  · intro d id hid _
    have hle := hedge id hid
    unfold Edge.Holds at hle
    cases d with
    | forward =>
        show ρ _ ≤ ρ _ + _
        simp only [Edge.head, Edge.tail]
        omega
    | backward =>
        show -ρ _ ≤ -ρ _ + _
        simp only [Edge.head, Edge.tail]
        omega
  · intro d
    cases d with
    | forward => exact horigin
    | backward =>
        show -ρ .origin = 0
        omega
  · intro tp
    show 0 ≤ ρ tp + -ρ tp
    omega

end Solver

-- ================================================================ solutions

namespace Solution

variable {x : Solution} {s : Solver}

/-- The values of a solution, as an assignment. -/
def assignment (x : Solution) (v : BoolVar) : Bool := (x.values.get? v).getD false

/-- A literal holds in the assignment of a solution when the solution has it
true. -/
theorem Solves.holds_assignment (h : x.Solves s) (hvar : s.theory.hasVariable l.var = true) :
    l.Holds x.assignment ↔ x.Holds l := by
  obtain ⟨b, hb⟩ := h.value l.var hvar
  unfold Literal.Holds assignment Holds
  rw [hb]
  simp

/-- Where every edge belongs to both views a solution is a model. -/
theorem Solves.models (h : x.Solves s) (hs : s.theory.Coherent)
    (hformed : s.clauses.Formed s.theory)
    (hshared : ∀ e, s.theory.network.Contains e → e.isShared = true) :
    s.Models x.schedule.get x.assignment := by
  refine ⟨fun e he hguard => ?_, fun id hid => ?_⟩
  · refine h.edge e he (Edge.isIn_of_isShared (hshared e he) .backward) fun g hg => ?_
    have hvar : s.theory.hasVariable g.var = true := by
      obtain ⟨id, hid, rfl⟩ := he
      exact hs.guard id g hid hg
    exact (h.holds_assignment hvar).mp (hguard g hg)
  · obtain ⟨l, hl, htrue⟩ := h.clause id hid
    exact ⟨l, hl, (h.holds_assignment (hformed.hasVariable id hid l hl)).mpr htrue⟩

end Solution

end TemporalNetwork
