/-
A solution solves the problem.

A search stops with a solution where propagation has reached a fixed
point and every variable has a value. Each clause then has a watched
literal that was not read as false; as everything was read, that literal
is true. The theory is consistent, so that the edges in force are those
whose guards are true, and lower bounds respect the ones of the backward
view. This is all that the earliest schedule promises: an edge that is
only used for upper bounds may be violated by it.

# Equivalences

A literal is made equivalent to a constraint by two edges. Since every
variable has a value one of the two is in force, and the schedule
respects it.
-/
import TemporalNetwork.Proofs.Solver.Search
import TemporalNetwork.Proofs.Theory.Limits
import TemporalNetwork.Proofs.Theory.Schedules

namespace TemporalNetwork

-- =============================================================== constraints

section
variable {τ : Timepoint → Int} {f : BoundFact} {l : Literal}

/-- The fact, for given times. -/
def BoundFact.Holds (τ : Timepoint → Int) : BoundFact → Prop
  | .leq tp k => τ tp ≤ k
  | .geq tp k => k ≤ τ tp

/-- With the origin at 0 a fact says what its edge says. -/
theorem BoundFact.holds_edge (horigin : τ .origin = 0) : (f.edge l).Holds τ ↔ f.Holds τ := by
  cases f with
  | leq tp k =>
      show τ tp - τ .origin ≤ k ↔ τ tp ≤ k
      omega
  | geq tp k =>
      show τ .origin - τ tp ≤ -k ↔ k ≤ τ tp
      omega

/-- The edge of a bound literal is conditional on it. -/
theorem BoundFact.edge_eq (f : BoundFact) (l : Literal) : f.edge l
    = ⟨(f.edge l).source, (f.edge l).target, (f.edge l).weight, .conditional l⟩ := by
  cases f with
  | leq tp k => rfl
  | geq tp k => rfl

/-- The edge of the negated fact has the negated constraint. -/
theorem BoundFact.edge_negation (f : BoundFact) (l m : Literal) : f.negation.edge m
    = ⟨(f.edge l).target, (f.edge l).source, -(f.edge l).weight - 1, .conditional m⟩ := by
  cases f with
  | leq tp k =>
      show (⟨tp, .origin, -(k + 1), .conditional m⟩ : Edge) = ⟨tp, .origin, -k - 1, .conditional m⟩
      rw [show -(k + 1) = -k - 1 by omega]
  | geq tp k =>
      show (⟨.origin, tp, k - 1, .conditional m⟩ : Edge) = ⟨.origin, tp, - -k - 1, .conditional m⟩
      rw [show k - 1 = - -k - 1 by omega]

end

-- ================================================================= solutions

namespace Solution

variable {x : Solution} {s : Solver} {l : Literal} {a b : Timepoint} {w : Int}

/-- The literal is true in the solution. -/
def Holds (x : Solution) (l : Literal) : Prop := x.values.get? l.var = some l.positive

/-- The solution has what the problem of the solver asks for: values in
which all clauses hold, and times that respect the domains and all edges
in force but those that are only used for upper bounds. -/
structure Solves (x : Solution) (s : Solver) : Prop where
  value (v : BoolVar) : s.theory.hasVariable v = true → ∃ b, x.values.get? v = some b
  clause (id : ClauseId) : s.clauses.Has id → ∃ l ∈ s.clauses.literalsOf id, x.Holds l
  time (tp : Timepoint) : s.theory.network.hasTimepoint tp = true →
    x.time tp = .ok (x.schedule.get tp)
  origin : x.schedule.get .origin = 0
  domain (tp : Timepoint) : s.theory.network.hasTimepoint tp = true →
    (s.theory.network.domain tp).lower ≤ x.schedule.get tp ∧
      x.schedule.get tp ≤ (s.theory.network.domain tp).upper
  edge (e : Edge) : s.theory.network.Contains e → e.isIn .backward = true →
    (∀ l, e.guard? = some l → x.Holds l) → e.Holds x.schedule.get

/-- One of the two literals of a variable is true. -/
theorem Solves.holds_negate (h : x.Solves s) (hvar : s.theory.hasVariable l.var = true) :
    x.Holds l.negate ↔ ¬ x.Holds l := by
  obtain ⟨b, hb⟩ := h.value l.var hvar
  unfold Holds
  rw [Literal.negate_var, hb]
  obtain ⟨v, p⟩ := l
  cases b <;> cases p <;> simp [Literal.negate]

/-- An edge with a guard. -/
theorem Solves.respects (h : x.Solves s)
    (hedge : s.theory.network.Contains ⟨a, b, w, .conditional l⟩) (hl : x.Holds l) :
    x.schedule.get b - x.schedule.get a ≤ w := by
  have hholds := h.edge _ hedge rfl fun g hg => by
    cases hg
    exact hl
  exact hholds

/-- A literal that guards a constraint, and whose negation guards the
negated one, has the truth value of the constraint. -/
theorem Solves.holds_iff (h : x.Solves s) (hvar : s.theory.hasVariable l.var = true)
    (hedge : s.theory.network.Contains ⟨a, b, w, .conditional l⟩)
    (hnegated : s.theory.network.Contains ⟨b, a, -w - 1, .conditional l.negate⟩) :
    x.Holds l ↔ x.schedule.get b - x.schedule.get a ≤ w := by
  constructor
  · exact h.respects hedge
  · intro hle
    by_contra hnot
    have hlt := h.respects hnegated ((h.holds_negate hvar).mpr hnot)
    omega

/-- The same for a fact on one timepoint. -/
theorem Solves.holds_iff_fact (h : x.Solves s) {f : BoundFact}
    (hvar : s.theory.hasVariable l.var = true) (hedge : s.theory.network.Contains (f.edge l))
    (hnegated : s.theory.network.Contains (f.negation.edge l.negate)) :
    x.Holds l ↔ f.Holds x.schedule.get := by
  rw [← BoundFact.holds_edge (l := l) h.origin]
  rw [BoundFact.edge_eq] at hedge
  rw [BoundFact.edge_negation f l] at hnegated
  exact h.holds_iff hvar hedge hnegated

end Solution

namespace Solver

variable {s : Solver} {x : Solution}

/-- A literal that is not known to be false is known to be true if its
variable has a value. -/
theorem mem_trueLiterals_of_nextDecision (hnext : s.nextDecision = none) {l : Literal}
    (hvar : s.theory.hasVariable l.var = true) (hfalse : s.theory.value l ≠ some false) :
    l ∈ s.theory.trueLiterals := by
  have hknown : ∀ v, s.theory.hasVariable v = true → s.theory.known v ≠ none := by
    intro v hv hnone
    unfold nextDecision at hnext
    rw [Option.map_eq_none_iff, List.find?_eq_none] at hnext
    apply hnext v ((HandleVector.mem_keys _ _).mpr ((HandleVector.contains_iff _ _).mp hv))
    rw [Theory.value_eq_none_iff.mpr hnone]
    rfl
  show s.theory.value l = some true
  cases hvalue : s.theory.value l with
  | none => exact absurd (Theory.value_eq_none_iff.mp hvalue) (hknown l.var hvar)
  | some b =>
      cases b with
      | true => rfl
      | false => exact absurd hvalue hfalse

/-- A solution is read from a theory that is consistent. -/
theorem solution_eq_ok (h : s.solution = .ok x) : s.theory.conflict = none ∧
    x = ⟨s.theory.earliestSchedule, .ofList (s.theory.boolVars.map fun v =>
      (s.theory.value ⟨v, true⟩).getD s.polarity)⟩ := by
  unfold solution at h
  simp only [Checked.bind_eq_ok, Checked.require_eq_ok, Checked.pure_eq_ok] at h
  obtain ⟨-, hconsistent, rfl⟩ := h
  exact ⟨Option.isNone_iff_eq_none.mp hconsistent, rfl⟩

/-- The values of the solution are those of the theory. -/
theorem holds_iff_mem_trueLiterals (hnext : s.nextDecision = none) (hx : s.solution = .ok x)
    (l : Literal) : x.Holds l ↔ l ∈ s.theory.trueLiterals := by
  obtain ⟨-, rfl⟩ := solution_eq_ok hx
  have hget := HandleVector.get?_ofList_map_keys s.theory.values
    (fun v => (s.theory.value ⟨v, true⟩).getD s.polarity) l.var
  unfold Solution.Holds
  show (HandleVector.ofList (s.theory.values.keys.map _)).get? l.var = some l.positive ↔ _
  rw [hget]
  constructor
  · intro h
    split at h
    next hlt =>
      have hvar : s.theory.hasVariable l.var = true := (HandleVector.contains_iff _ _).mpr hlt
      -- when no variable is left to be decided, each has a value
      apply mem_trueLiterals_of_nextDecision hnext hvar
      intro hfalse
      rw [Theory.value_eq, Option.map_eq_some_iff] at hfalse
      obtain ⟨b, hb, hne⟩ := hfalse
      have hpositive : s.theory.value ⟨l.var, true⟩ = some b := by
        rw [Theory.value_eq]
        show (s.theory.known l.var).map (· == true) = some b
        rw [hb]
        cases b <;> rfl
      rw [hpositive] at h
      cases h
      simp at hne
    next => cases h
  · intro htrue
    have hlt := (HandleVector.contains_iff _ _).mp (Theory.hasVariable_of_value htrue)
    have hpositive : s.theory.value ⟨l.var, true⟩ = some l.positive := by
      rw [Theory.value_eq]
      show (s.theory.known l.var).map (· == true) = some l.positive
      rw [Theory.value_eq_true_iff.mp htrue]
      cases l.positive <;> rfl
    rw [if_pos hlt, hpositive]
    rfl

/-- At a fixed point at which nothing is left to decide a clause has a
literal that is true. -/
theorem Fixpoint.exists_true (h : Fixpoint s) (hnext : s.nextDecision = none) {id : ClauseId}
    (hid : s.clauses.Has id) : ∃ l ∈ s.clauses.literalsOf id, l ∈ s.theory.trueLiterals := by
  obtain ⟨w, hw, hread⟩ := h.ready.alert id hid List.not_mem_nil
  have hmem : w ∈ s.clauses.literalsOf id := List.mem_of_mem_take hw
  refine ⟨w, hmem, mem_trueLiterals_of_nextDecision hnext (h.formed.hasVariable id hid w hmem) ?_⟩
  intro hfalse
  refine hread ((h.settled.coherent.assigned w.negate).mpr ?_)
  exact Theory.value_negate_eq_true.mpr hfalse

/-- The times of the solution are lower bounds. -/
theorem get?_schedule (hx : s.solution = .ok x) {tp : Timepoint}
    (htp : s.theory.network.hasTimepoint tp = true) :
    x.schedule.get? tp = some (s.theory.graph.lower tp) := by
  rw [(solution_eq_ok hx).2]
  show (HandleVector.ofList (s.theory.network.domains.keys.map s.theory.graph.lower)).get? tp = _
  rw [HandleVector.get?_ofList_map_keys, if_pos ((HandleVector.contains_iff _ _).mp htp)]

/-- A solution schedules each timepoint at its lower bound. -/
theorem get_schedule (hx : s.solution = .ok x) {tp : Timepoint}
    (htp : s.theory.network.hasTimepoint tp = true) :
    x.schedule.get tp = s.theory.graph.lower tp := by
  unfold HandleVector.get
  rw [get?_schedule hx htp]
  rfl

/-- They are what the backward view makes of the edges in force. -/
theorem respects_schedule (ht : s.theory.Coherent) (hx : s.solution = .ok x) :
    s.theory.Respects .backward x.schedule.get := by
  refine ht.respects fun tp htp => ?_
  rw [get_schedule hx htp]
  exact Int.neg_neg _

/-- The edges in force are those whose guards are true. -/
theorem Fixpoint.holds_edge (h : Fixpoint s) (hnext : s.nextDecision = none)
    (hx : s.solution = .ok x) {e : Edge} (he : s.theory.network.Contains e)
    (hin : e.isIn .backward = true) (hguard : ∀ l, e.guard? = some l → x.Holds l) :
    e.Holds x.schedule.get := by
  obtain ⟨id, hid, rfl⟩ := he
  have hactive : s.theory.graph.isActive id = true :=
    h.settled.enabledBy_active (solution_eq_ok hx).1
      ⟨hid, fun l hl => (holds_iff_mem_trueLiterals hnext hx l).mp (hguard l hl)⟩
  exact (respects_schedule h.settled.coherent hx).edge id hactive hin

/-- Where a search stops with a solution it solves the problem. -/
theorem Fixpoint.solves (h : Fixpoint s) (hnext : s.nextDecision = none)
    (hx : s.solution = .ok x) : x.Solves s := by
  have hcoherent := h.settled.coherent
  refine ⟨fun v hv => ?_, fun id hid => ?_, fun tp htp => ?_,
    (respects_schedule hcoherent hx).origin, fun tp htp => ?_,
    fun e he hin hguard => h.holds_edge hnext hx he hin hguard⟩
  · have hlt := (HandleVector.contains_iff _ _).mp hv
    refine ⟨(s.theory.value ⟨v, true⟩).getD s.polarity, ?_⟩
    rw [(solution_eq_ok hx).2]
    show (HandleVector.ofList (s.theory.values.keys.map _)).get? v = _
    rw [HandleVector.get?_ofList_map_keys, if_pos hlt]
  · obtain ⟨l, hl, htrue⟩ := h.exists_true hnext hid
    exact ⟨l, hl, (holds_iff_mem_trueLiterals hnext hx l).mpr htrue⟩
  · unfold Solution.time HandleVector.read HandleVector.get
    rw [get?_schedule hx htp]
    rfl
  · obtain ⟨hlower, hcrossing, hupper⟩ := hcoherent.bounds_mem htp
    rw [get_schedule hx htp]
    exact ⟨hlower, Int.le_trans hcrossing hupper⟩

end Solver

end TemporalNetwork
