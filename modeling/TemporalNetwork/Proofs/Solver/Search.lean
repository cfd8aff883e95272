/-
The search leaves no branch out.

The decisions that are open form a path in the binary tree of values, and
a decision that was flipped has its other branch behind it. `Branches`
follows one assignment along this path: where the assignment leaves the
path, it does so at a decision that was not flipped, so that the search
comes to it yet. An assignment in which all clauses hold and which the
network admits is never lost, and if no decision is left there is none.

# The invariant of the search

`Exploring` joins three parts: the invariant of propagation, the stack of
saved states with one level for each decision, and for each assignment of
a given set that it is followed. The set is a parameter, so that the
search is gone through once, for what holds of its solutions and for what
holds if it finds none. The levels also bear witness that a decision was
open when it was taken (`Deepens`), which bounds their number.
-/
import TemporalNetwork.Proofs.Solver.Propagation
import TemporalNetwork.Solver.Search

namespace TemporalNetwork

open Theory (Stack Returns)

variable {σ : BoolVar → Bool} {M : Set (BoolVar → Bool)} {t₀ t t' u : Theory}
  {ts ts' : List Theory} {d : Decision} {ds : List Decision} {R R' : List Literal}

-- ================================================================== branches

/-- Where the assignment leaves the path, the other branch is still to be
explored. -/
inductive Branches (σ : BoolVar → Bool) : List Decision → List Theory → Theory → Prop where
  | root {t : Theory} (holds : t.HoldsIn σ) : Branches σ [] [] t
  | decided {d : Decision} {ds : List Decision} {t₀ t : Theory} {ts : List Theory}
      (flipped : d.flipped = true → t₀.HoldsIn σ → d.literal.Holds σ)
      (followed : t₀.HoldsIn σ → d.literal.Holds σ → t.HoldsIn σ)
      (below : Branches σ ds ts t₀) : Branches σ (d :: ds) (t₀ :: ts) t

/-- What is inferred does not lose an assignment. -/
theorem Branches.advance (h : Branches σ ds ts t) (ht : t.HoldsIn σ → t'.HoldsIn σ) :
    Branches σ ds ts t' := by
  cases h with
  | root holds => exact .root (ht holds)
  | decided flipped followed below =>
      exact .decided flipped (fun h₀ hd => ht (followed h₀ hd)) below

/-- At the root nothing is decided. -/
theorem Branches.holdsIn_root (h : Branches σ ds ts t) : (Theory.root (ts, t)).HoldsIn σ := by
  induction h with
  | root holds => exact holds
  | @decided d ds t₀ t ts flipped followed below ih =>
      have hroot : Theory.root (t₀ :: ts, t) = Theory.root (ts, t₀) := by
        simp [Theory.root, List.getLast?_cons]
      rw [hroot]
      exact ih

/-- Each decision is on a variable that had no value when it was taken, so
that on each level there are more assignments than on the one below. -/
inductive Deepens : List Decision → List Theory → Theory → Prop where
  | root {t : Theory} : Deepens [] [] t
  | decided {d : Decision} {ds : List Decision} {t₀ t : Theory} {ts : List Theory}
      (hasVariable : t₀.hasVariable d.literal.var = true) (fresh : t₀.value d.literal = none)
      (consistent : t₀.conflict = none) (longer : t₀.assignments.size < t.assignments.size)
      (below : Deepens ds ts t₀) : Deepens (d :: ds) (t₀ :: ts) t

/-- More assignments leave each level longer than the one below. -/
theorem Deepens.advance (h : Deepens ds ts t) (ht : t.assignments.size ≤ t'.assignments.size) :
    Deepens ds ts t' := by
  cases h with
  | root => exact .root
  | decided hasVariable fresh consistent longer below =>
      exact .decided hasVariable fresh consistent (Nat.lt_of_lt_of_le longer ht) below

/-- There are no more levels than assignments. -/
theorem Deepens.length_le (h : Deepens ds ts t) : ds.length ≤ t.assignments.size := by
  induction h with
  | root => exact Nat.zero_le _
  | decided hasVariable fresh consistent longer below ih => exact Nat.lt_of_le_of_lt ih longer

/-- Assignments only become more. -/
theorem Theory.Extends.size_assignments_le (h : Theory.Extends t t') :
    t.assignments.size ≤ t'.assignments.size := by
  obtain ⟨new, hnew⟩ := h.assignments
  unfold EventQueue.size
  rw [hnew, Array.size_append]
  exact Nat.le_add_right _ _

namespace Solver

variable {s s' s'' : Solver} {c : Contradiction}

-- ================================================================= invariant

/-- The levels of the theory belong to the decisions, and the assignments
of the set are followed along them. -/
structure Path (M : Set (BoolVar → Bool)) (s : Solver) (ts : List Theory) : Prop where
  stack : Stack ts s.theory
  depth : ts.length = s.decisions.length
  admits (σ : BoolVar → Bool) : σ ∈ M → s.theory.network.Admits σ
  clauses (σ : BoolVar → Bool) : σ ∈ M → s.clauses.HoldsIn σ
  branches (σ : BoolVar → Bool) : σ ∈ M → Branches σ s.decisions ts s.theory
  deepens : Deepens s.decisions ts s.theory

/-- The solver between two steps of a search. -/
structure Exploring (M : Set (BoolVar → Bool)) (s : Solver) (ts : List Theory)
    (R : List Literal) : Prop where
  searching : Searching s R
  path : Path M s ts
  ready : s.clauses.Ready s.unwatched R

/-- What a search does not change, and does not take back. -/
structure Continues (s s' : Solver) : Prop where
  network : s'.theory.network = s.theory.network
  hasVariable (v : BoolVar) : s'.theory.hasVariable v = s.theory.hasVariable v
  clauses : s.clauses.Keeps s'.clauses
  /-- What is learnt follows from the network. -/
  learnt : s.clauses.Justified s.theory.network → s'.clauses.Justified s'.theory.network

/-- The clauses are at most reordered. -/
theorem continues_of_reorders (hnetwork : s'.theory.network = s.theory.network)
    (hvar : ∀ v, s'.theory.hasVariable v = s.theory.hasVariable v)
    (hclauses : s.clauses.Reorders s'.clauses) : Continues s s' := by
  refine ⟨hnetwork, hvar, hclauses.keeps, fun h => ?_⟩
  rw [hnetwork]
  exact h.reorders hclauses

theorem Continues.refl (s : Solver) : Continues s s :=
  continues_of_reorders rfl (fun _ => rfl) (.refl _)

/-- Searches can be joined. -/
theorem Continues.trans (h : Continues s s') (h' : Continues s' s'') : Continues s s'' :=
  ⟨h'.network.trans h.network, fun v => (h'.hasVariable v).trans (h.hasVariable v),
    h.clauses.trans h'.clauses, fun hs => h'.learnt (h.learnt hs)⟩

/-- Propagation is part of a search. -/
theorem Moves.continues (h : Moves s s') : Continues s s' :=
  continues_of_reorders h.sameProblem.network h.sameProblem.hasVariable h.reorders

/-- Below a decision there is a saved state. -/
theorem Path.exists_cons (h : Path M s ts) (hds : s.decisions = d :: ds) :
    ∃ t₀ ts₀, ts = t₀ :: ts₀ := by
  have hlength := h.depth
  rw [hds] at hlength
  exact List.exists_cons_of_length_eq_add_one hlength

/-- Propagation keeps to the path of decisions. -/
theorem Path.moves (h : Path M s ts) (hmoves : Moves s s') (hsettled : s'.theory.Settled) :
    Path M s' ts := by
  have hnetwork := hmoves.sameProblem.network
  refine ⟨h.stack.extends hmoves.extends hsettled, ?_, ?_, ?_, ?_, ?_⟩
  · rw [hmoves.decisions]
    exact h.depth
  · intro σ hσ
    rw [hnetwork]
    exact h.admits σ hσ
  · exact fun σ hσ => (h.clauses σ hσ).reorders hmoves.reorders
  · intro σ hσ
    rw [hmoves.decisions]
    exact (h.branches σ hσ).advance (hmoves.holdsIn (h.admits σ hσ) (h.clauses σ hσ))
  · rw [hmoves.decisions]
    exact h.deepens.advance hmoves.extends.size_assignments_le

section
variable (stats : SolverStats)

/-- Counting changes nothing else. -/
theorem Searching.counted (h : Searching s R) : Searching { s with stats } R :=
  ⟨h.settled, h.formed, h.read, h.level⟩

/-- Statistics do not matter. -/
theorem Path.counted (h : Path M s ts) : Path M { s with stats } ts :=
  ⟨h.stack, h.depth, h.admits, h.clauses, h.branches, h.deepens⟩

/-- Statistics are not part of the problem. -/
theorem continues_counted : Continues s { s with stats } :=
  continues_of_reorders rfl (fun _ => rfl) (.refl _)

end

-- ==================================================================== levels

/-- A level is closed: all that is left was read. -/
theorem Searching.closed (hs : Searching s R) (hstack : Stack (t₀ :: ts) s.theory)
    (hreturns : Returns t₀ s.theory u) (hu : Stack ts u) (htheory : s'.theory = u)
    (hclauses : s'.clauses = s.clauses) (hreader : s'.reader = s.reader) :
    Searching s' u.assignments.toList ∧
      u.assignments.toList = R.take (s.theory.assignments.marks.headD 0) := by
  subst htheory
  have hagrees := hreturns.agrees
  have hevents : ∃ new, s.theory.assignments.events = s'.theory.assignments.events ++ new := by
    cases hstack with
    | above settled extended below =>
        obtain ⟨new, hnew⟩ := extended.assignments
        exact ⟨new, hnew.trans (by rw [hagrees.assignmentEvents]; rfl)⟩
  have hmark : s.theory.assignments.marks.headD 0 = s'.theory.assignments.size := by
    cases hstack with
    | above settled extended below =>
        rw [extended.assignmentMarks, EventQueue.size, hagrees.assignmentEvents]
        rfl
  have hsize : t₀.assignments.size = s'.theory.assignments.size := by
    rw [EventQueue.size, EventQueue.size, hagrees.assignmentEvents]
  have hlevel := hs.level
  rw [hmark] at hlevel ⊢
  obtain ⟨hread, hprefix⟩ := hs.read.restore hevents hlevel (hsize ▸ hreturns.backtracks)
  refine ⟨⟨hu.settled, ?_, ?_, hu.mark_le⟩, hprefix⟩
  · rw [hclauses]
    apply hs.formed.mono
    intro v hv
    have hlt := (HandleVector.contains_iff _ _).mp hv
    apply (HandleVector.contains_iff _ _).mpr
    rw [hreturns.size]
    exact hlt
  · rw [hreader]
    exact hread

/-- The last decision is closed together with its level. -/
theorem close_eq (hs : Searching s R) (hpath : Path M s (t₀ :: ts)) (hds : s.decisions = d :: ds)
    (hreturns : Returns t₀ s.theory u) (hu : Stack ts u) :
    Searching { s with theory := u, decisions := ds } u.assignments.toList ∧
      Continues s { s with theory := u, decisions := ds } ∧
      Path M { s with theory := u, decisions := ds } ts ∧
      u.assignments.toList = R.take (s.theory.assignments.marks.headD 0) := by
  obtain ⟨hs₁, hprefix⟩ := @Searching.closed _ _ _ _ _ { s with theory := u, decisions := ds } hs
    hpath.stack hreturns hu rfl rfl rfl
  have hnetwork := hpath.stack.network_of_returns hreturns
  refine ⟨hs₁, continues_of_reorders hnetwork (fun v => ?_) (.refl _),
    ⟨hu, ?_, ?_, hpath.clauses, ?_, ?_⟩, hprefix⟩
  · show (u.values.contains v) = (s.theory.values.contains v)
    unfold HandleVector.contains
    rw [hreturns.size]
  · have hlength := hpath.depth
    rw [hds, List.length_cons, List.length_cons] at hlength
    exact Nat.succ.inj hlength
  · intro σ hσ
    rw [hnetwork]
    exact hpath.admits σ hσ
  · intro σ hσ
    have hbranches := hpath.branches σ hσ
    rw [hds] at hbranches
    cases hbranches with
    | decided flipped followed below => exact below.advance hreturns.agrees.holdsIn_iff.mpr
  · have hdeepens := hpath.deepens
    rw [hds] at hdeepens
    cases hdeepens with
    | decided hasVariable fresh consistent longer below =>
        exact below.advance hreturns.agrees.extends.size_assignments_le

/-- The variable of the literal can be decided. -/
structure CanDecide (s : Solver) (l : Literal) : Prop where
  hasVariable : s.theory.hasVariable l.var = true
  fresh : s.theory.value l = none
  consistent : s.theory.conflict = none

/-- A level is opened for a decision. If the other value was explored
before, no assignment of the set has it. -/
theorem openDecision_eq_ok (hs : Searching s s.theory.assignments.toList) (hpath : Path M s ts)
    (hopen : s.CanDecide d.literal)
    (hd : ∀ σ ∈ M, d.flipped = true → s.theory.HoldsIn σ → d.literal.Holds σ)
    (h : s.openDecision d = .ok s') :
    Searching s' s.theory.assignments.toList ∧ Path M s' (s.theory :: ts) ∧ Continues s s' ∧
      s'.clauses = s.clauses ∧ s'.unwatched = s.unwatched := by
  unfold openDecision at h
  simp only [Checked.bind_eq_ok, Theory.pushCheckpoint_eq_ok] at h
  obtain ⟨_, ⟨-, rfl⟩, hassign⟩ := h
  obtain ⟨theory, notifier, stats, r, hrun, rfl⟩ := assign_eq_ok hassign
  have hsaved := hpath.stack.saved
  obtain ⟨hextends, hsame, hsettled⟩ := Theory.extends_assign hsaved.settled hrun
  have hnetwork : theory.network = s.theory.network := hsame.network
  refine ⟨⟨hsettled, ?_, ?_, ?_⟩,
    ⟨hsaved.extends hextends hsettled, ?_, ?_, hpath.clauses, ?_, ?_⟩,
    continues_of_reorders hnetwork hsame.hasVariable (.refl _), rfl, rfl⟩
  · apply hs.formed.mono
    intro v hv
    rw [hsame.hasVariable]
    exact hv
  · exact hs.read.append hextends.assignments hsame.assignmentBacktracks
  · rw [hsame.assignmentMarks]
    exact Nat.le_refl _
  · simp [hpath.depth]
  · intro σ hσ
    rw [hnetwork]
    exact hpath.admits σ hσ
  · intro σ hσ
    refine .decided (hd σ hσ) (fun h₀ hl => ?_) (hpath.branches σ hσ)
    exact Theory.holdsIn_assign hsaved.settled hrun (hpath.admits σ hσ) h₀ hl
  · exact .decided hopen.hasVariable hopen.fresh hopen.consistent
      (Theory.size_lt_assign (t := s.theory.saved) hsaved.settled hopen.hasVariable hopen.fresh
        hopen.consistent hrun) hpath.deepens

-- ============================================================ contradictions

/-- The literals that are all false. -/
def violated (s : Solver) : Contradiction → List Literal
  | .clause id => s.clauses.literalsOf id
  | .theory clause => clause.literals

/-- The literals of a contradiction are false. -/
theorem Searching.value_of_contradicts (hs : Searching s R) (hc : s.Contradicts c) :
    ∀ l ∈ s.violated c, s.theory.value l = some false := by
  cases c with
  | clause id => exact hc.2
  | theory clause =>
      obtain ⟨conflict, hconflict, rfl⟩ := hc
      intro l hl
      obtain ⟨m, hm, rfl⟩ := List.mem_map.mp (Disjunction.mem_ofList.mp hl)
      have htrue := (hs.settled.coherent.conflict conflict hconflict).2 m hm
      rw [← Theory.value_negate_eq_true, Literal.negate_negate]
      exact htrue

/-- The clause of a conflict follows from the network. -/
theorem Searching.forces {clause : Disjunction} (hs : Searching s R)
    (hc : s.Contradicts (.theory clause)) : s.theory.network.Forces clause.literals := by
  refine ⟨fun σ hσ => ?_, fun l hl hnegate => ?_⟩
  · obtain ⟨conflict, hconflict, rfl⟩ := hc
    exact (hs.settled.coherent.conflict conflict hconflict).1.exists_holds hσ
  · -- a literal and its negation are not both false
    have hfalse := hs.value_of_contradicts hc l.negate hnegate
    rw [Theory.value_negate, hs.value_of_contradicts hc l hl] at hfalse
    cases hfalse

/-- In an assignment that is followed some of these literals are true. -/
theorem Path.exists_holds (h : Path M s ts) (hs : Searching s R) (hc : s.Contradicts c)
    (hσ : σ ∈ M) : ∃ l ∈ s.violated c, l.Holds σ := by
  cases c with
  | clause id => exact h.clauses σ hσ id hc.1
  | theory clause => exact (hs.forces hc).holds σ (h.admits σ hσ)

/-- The assignment has left the path. -/
theorem Path.not_holdsIn (h : Path M s ts) (hs : Searching s R) (hc : s.Contradicts c)
    (hσ : σ ∈ M) : ¬ s.theory.HoldsIn σ := by
  intro hholds
  obtain ⟨l, hl, htrue⟩ := h.exists_holds hs hc hσ
  have hfalse := hs.value_of_contradicts hc l hl
  exact Literal.holds_negate.mp (hholds _ (Theory.value_negate_eq_true.mpr hfalse)) htrue

/-- A contradiction without literals excludes all assignments. -/
theorem Path.isHopeless (h : Path M s ts) (hs : Searching s R) (hc : s.Contradicts c)
    (hrun : s.isHopeless c = .ok true) : ∀ σ, σ ∉ M := by
  have hnone : s.violated c = [] := by
    cases c with
    | theory clause =>
        unfold Solver.isHopeless at hrun
        exact Disjunction.isEmpty_iff.mp (Except.ok.inj hrun)
    | clause id =>
        unfold Solver.isHopeless at hrun
        obtain ⟨clause, hclause, hempty⟩ := Checked.map_eq_ok.mp hrun
        show s.clauses.literalsOf id = []
        rw [← (ClauseDatabase.clause_eq_ok hclause).2]
        exact List.isEmpty_iff.mp hempty
  intro σ hσ
  obtain ⟨l, hl, -⟩ := h.exists_holds hs hc hσ
  rw [hnone] at hl
  exact absurd hl List.not_mem_nil

/-- Where a decision was taken the other value can be decided. -/
theorem Path.canDecide_negate (h : Path M s (t₀ :: ts)) (hds : s.decisions = d :: ds)
    (hreturns : Returns t₀ s.theory u) :
    CanDecide { s with theory := u, decisions := ds } d.literal.negate := by
  have hdeepens := h.deepens
  rw [hds] at hdeepens
  cases hdeepens with
  | decided hasVariable fresh consistent longer below =>
      refine ⟨?_, ?_, hreturns.agrees.conflict.trans consistent⟩
      · have hlt := (HandleVector.contains_iff _ _).mp hasVariable
        exact (HandleVector.contains_iff _ _).mpr (Nat.lt_of_lt_of_le hlt hreturns.agrees.size)
      · show u.value d.literal.negate = none
        rw [Theory.value_negate, Theory.value_congr hreturns.agrees.known, fresh]
        rfl

/-- Closing decisions up to one that is flipped. The assignments of the
set have left the path, so that they take the other value of the last
decision that was not flipped before, or there is none of them. -/
theorem flipLast_eq_ok {E : List ClauseId} {goesOn : Bool} (hs : Searching s R)
    (hpath : Path M s ts) (hready : s.clauses.Ready E
      (R.take (s.theory.assignments.marks.headD 0)))
    (hleft : ∀ σ ∈ M, ¬ s.theory.HoldsIn σ) (h : flipLast s.decisions s = .ok (s', goesOn)) :
    Continues s s' ∧ s'.clauses = s.clauses ∧ s'.unwatched = s.unwatched ∧
      ∃ ts' R', Searching s' R' ∧ Path M s' ts' ∧
        (goesOn = true → s'.clauses.Ready E R') ∧ (goesOn = false → ∀ σ, σ ∉ M) := by
  generalize hds : s.decisions = ds at h
  induction ds generalizing s ts R with
  | nil =>
      have hsame : { s with decisions := [] } = s := by rw [← hds]
      unfold flipLast at h
      rw [hsame] at h
      cases h
      refine ⟨.refl _, rfl, rfl, ts, R, hs, hpath, fun hc => absurd hc Bool.false_ne_true,
        fun _ σ hσ => ?_⟩
      have hbranches := hpath.branches σ hσ
      rw [hds] at hbranches
      cases hbranches with
      | root holds => exact hleft σ hσ holds
  | cons d rest ih =>
      obtain ⟨t₀, ts₀, rfl⟩ := hpath.exists_cons hds
      unfold flipLast at h
      simp only [Checked.bind_eq_ok, Checked.require_eq_ok] at h
      obtain ⟨⟨u, r⟩, hback, -, -, h⟩ := h
      obtain ⟨hreturns, hu⟩ := Theory.backtrack_parent hpath.stack hback
      obtain ⟨hs₁, hcontinues, hpath₁, hprefix⟩ := close_eq hs hpath hds hreturns hu
      have hready₁ : s.clauses.Ready E u.assignments.toList := hprefix ▸ hready
      -- what the assignments of the set have in common with the path ends at the last decision
      have hvalue : ∀ σ ∈ M, (d.flipped = true → u.HoldsIn σ → d.literal.Holds σ) ∧
          (u.HoldsIn σ → ¬ d.literal.Holds σ) := by
        intro σ hσ
        have hbranches := hpath.branches σ hσ
        rw [hds] at hbranches
        cases hbranches with
        | decided flipped followed below =>
            have hdown : u.HoldsIn σ → t₀.HoldsIn σ := fun hu =>
              hreturns.agrees.holdsIn_iff.mp hu
            exact ⟨fun hf hu => flipped hf (hdown hu),
              fun hu hd => hleft σ hσ (followed (hdown hu) hd)⟩
      split at h
      next hflipped =>
        have hleft₁ : ∀ σ ∈ M, ¬ u.HoldsIn σ :=
          fun σ hσ hholds => (hvalue σ hσ).2 hholds ((hvalue σ hσ).1 hflipped hholds)
        have hready₂ :
            s.clauses.Ready E (u.assignments.toList.take (u.assignments.marks.headD 0)) :=
          hready₁.mono (List.Subset.refl _) (List.take_subset _ _)
        obtain ⟨hcontinues', hclauses, hunwatched, hrest⟩ :=
          ih hs₁ hpath₁ hready₂ hleft₁ rfl h
        exact ⟨hcontinues.trans hcontinues', hclauses, hunwatched, hrest⟩
      next hnot =>
        simp only [Checked.bind_eq_ok, Checked.pure_eq_ok, Prod.mk.injEq] at h
        obtain ⟨s₂, hopen, rfl, rfl⟩ := h
        obtain ⟨hs₂, hpath₂, hcontinues₂, hclauses, hunwatched⟩ :=
          openDecision_eq_ok hs₁ hpath₁ (hpath.canDecide_negate hds hreturns) (fun σ hσ _ hholds =>
            Literal.holds_negate.mpr ((hvalue σ hσ).2 hholds)) hopen
        refine ⟨hcontinues.trans hcontinues₂, hclauses, hunwatched, _, _, hs₂, hpath₂,
          fun _ => ?_, fun hc => absurd hc.symm Bool.false_ne_true⟩
        rw [hclauses]
        exact hready₁

/-- A clause of which nothing is wrong may be added at any time. -/
theorem keep_eq_ok (hs : Searching s R) (hpath : Path M s ts)
    (hready : s.clauses.Ready (excepted (some c) s.unwatched) R)
    (hvar : ∀ l ∈ s.violated c, s.theory.hasVariable l.var = true)
    (hholds : ∀ σ ∈ M, ∃ l ∈ s.violated c, l.Holds σ)
    (hforces : ∀ clause, c = .theory clause → s.theory.network.Forces clause.literals)
    (h : s.keep c = .ok s') :
    Exploring M s' ts R ∧ Continues s s' := by
  cases c with
  | clause id =>
      unfold keep at h
      simp only [Checked.bind_eq_ok, Checked.pure_eq_ok] at h
      obtain ⟨clauses, hunwatch, rfl⟩ := h
      have hsame := ClauseDatabase.reorders_of_clauses_eq (ClauseDatabase.unwatch_eq_ok hunwatch).1
      have hmove : Move s { s with clauses, unwatched := id :: s.unwatched } := .kept rfl rfl hsame
      exact ⟨⟨hs.move hmove rfl hs.settled, hpath.moves hmove.run hs.settled,
        hready.unwatch hunwatch⟩, hmove.run.continues⟩
  | theory clause =>
      cases h
      have hnodup : clause.literals.Nodup := Literals.Increasing.nodup clause.increasing
      have hkeeps := ClauseDatabase.keeps_add s.clauses (.ofDisjunction clause true)
      refine ⟨⟨⟨hs.settled, hs.formed.add hnodup hvar, hs.read, hs.level⟩,
        ⟨hpath.stack, hpath.depth, hpath.admits, fun σ hσ => ?_, hpath.branches, hpath.deepens⟩,
        hready.add _⟩,
        ⟨rfl, fun _ => rfl, hkeeps, fun hs => hs.add fun _ => hforces clause rfl⟩⟩
      exact (hpath.clauses σ hσ).add (hholds σ hσ)

/-- After a contradiction the search goes on, or it is over. -/
theorem backtrackFrom_eq_ok {goesOn : Bool} (hs : Searching s R) (hpath : Path M s ts)
    (hc : s.Contradicts c) (hready : s.clauses.Ready (excepted (some c) s.unwatched)
      (R.take (s.theory.assignments.marks.headD 0)))
    (h : s.backtrackFrom c = .ok (s', goesOn)) :
    Continues s s' ∧ s'.clauses.Formed s'.theory ∧ (∃ ts', Path M s' ts') ∧
      (goesOn = true → ∃ ts' R', Exploring M s' ts' R') ∧ (goesOn = false → ∀ σ, σ ∉ M) := by
  unfold backtrackFrom at h
  simp only [Checked.bind_eq_ok] at h
  obtain ⟨hopeless, hcheck, h⟩ := h
  split at h
  -- a contradiction without literals ends the search
  next htrue =>
    subst htrue
    cases h
    exact ⟨.refl _, hs.formed, ⟨ts, hpath⟩, fun hc => absurd hc Bool.false_ne_true,
      fun _ => hpath.isHopeless hs hc hcheck⟩
  next =>
    simp only [Checked.bind_eq_ok] at h
    obtain ⟨⟨s₁, flipped⟩, hflip, h⟩ := h
    obtain ⟨hcontinues, hclauses, hunwatched, ts₁, R₁, hs₁, hpath₁, hready₁, hnone⟩ :=
      flipLast_eq_ok hs hpath hready (fun σ hσ => hpath.not_holdsIn hs hc hσ) hflip
    split at h
    next htrue =>
      simp only at htrue
      simp only [Checked.bind_eq_ok, Checked.pure_eq_ok, Prod.mk.injEq] at h
      obtain ⟨s₂, hkeep, rfl, rfl⟩ := h
      -- closing levels does not change what was violated
      have hviolated : s₁.violated c = s.violated c := by
        cases c with
        | theory clause => rfl
        | clause id =>
            show s₁.clauses.literalsOf id = s.clauses.literalsOf id
            rw [hclauses]
      have hready₂ := hready₁ htrue
      rw [← hunwatched] at hready₂
      obtain ⟨hexploring, hcontinues'⟩ := keep_eq_ok hs₁ hpath₁ hready₂ (fun l hl => by
          rw [hviolated] at hl
          rw [hcontinues.hasVariable]
          exact Theory.hasVariable_of_value (hs.value_of_contradicts hc l hl))
        (fun σ hσ => by
          rw [hviolated]
          exact hpath.exists_holds hs hc hσ) (fun clause hclause => by
          subst hclause
          rw [hcontinues.network]
          exact hs.forces hc) hkeep
      exact ⟨hcontinues.trans hcontinues', hexploring.searching.formed, ⟨_, hexploring.path⟩,
        fun _ => ⟨_, _, hexploring⟩, fun hc => absurd hc.symm Bool.false_ne_true⟩
    -- no decision is left to be flipped
    next hnot =>
      cases h
      exact ⟨hcontinues, hs₁.formed, ⟨_, hpath₁⟩, fun hc => absurd hc Bool.false_ne_true,
        fun _ => hnone (Bool.not_eq_true _ ▸ hnot)⟩

-- ==================================================================== search

/-- The next decision is on a variable without a value. -/
theorem canDecide_nextDecision {l : Literal} (hnone : s.theory.conflict = none)
    (h : s.nextDecision = some l) : s.CanDecide l := by
  unfold nextDecision at h
  obtain ⟨v, hv, rfl⟩ := Option.map_eq_some_iff.mp h
  have hvalue : s.theory.value ⟨v, true⟩ = none := by
    have hfound := List.find?_some hv
    exact beq_iff_eq.mp hfound
  refine ⟨?_, ?_, hnone⟩
  · exact (HandleVector.contains_iff _ _).mpr
      ((HandleVector.mem_keys _ _).mp (List.mem_of_find?_eq_some hv))
  · rw [Theory.value_eq_none_iff] at hvalue ⊢
    exact hvalue

/-- At a fixed point a literal is decided. -/
theorem decide_eq_ok {l : Literal} (hs : Searching s s.theory.assignments.toList)
    (hpath : Path M s ts) (hready : s.clauses.Ready [] s.theory.assignments.toList)
    (hempty : s.unwatched = []) (hopen : s.CanDecide l) (h : s.decide l = .ok s') :
    Exploring M s' (s.theory :: ts) s.theory.assignments.toList ∧ Continues s s' ∧
      s'.clauses = s.clauses ∧ s'.unwatched = [] := by
  have hs₁ := hs.counted { s.stats with decisions := s.stats.decisions + 1 }
  have hpath₁ := hpath.counted { s.stats with decisions := s.stats.decisions + 1 }
  obtain ⟨hs', hpath', hcontinues, hclauses, hunwatched⟩ :=
    @openDecision_eq_ok _ _ ⟨l, false⟩ _ _ hs₁ hpath₁
      ⟨hopen.hasVariable, hopen.fresh, hopen.consistent⟩
      (fun σ _ hf => absurd hf Bool.false_ne_true) h
  have hempty' : s'.unwatched = [] := hunwatched.trans hempty
  refine ⟨⟨hs', hpath', ?_⟩, (continues_counted _).trans hcontinues, hclauses, hempty'⟩
  rw [hclauses, hempty']
  exact hready

/-- What holds at a fixed point. -/
structure Fixpoint (s : Solver) : Prop where
  settled : s.theory.Settled
  formed : s.clauses.Formed s.theory
  ready : s.clauses.Ready [] s.theory.assignments.toList

/-- What holds when a search has ended. -/
structure Ended (M : Set (BoolVar → Bool)) (s : Solver) (result : SearchResult) : Prop where
  formed : s.clauses.Formed s.theory
  path : ∃ ts, Path M s ts
  sat (x : Solution) : result = .sat x → Fixpoint s ∧ s.nextDecision = none ∧ s.solution = .ok x
  unsat : result = .unsat → ∀ σ, σ ∉ M

/-- A step explores further, or ends the search. -/
theorem step_eq_ok {result : Option SearchResult} (h : Exploring M s ts R)
    (hrun : s.step = .ok (s', result)) : Continues s s' ∧
      (result = none → ∃ ts' R', Exploring M s' ts' R') ∧
      ∀ r, result = some r → Ended M s' r := by
  unfold step at hrun
  simp only [Checked.bind_eq_ok] at hrun
  obtain ⟨⟨s₁, contradiction⟩, hpropagate, hrun⟩ := hrun
  obtain ⟨R₁, hprop⟩ := propagates h.searching h.ready hpropagate
  have hpath₁ := h.path.moves hprop.moves hprop.searching.settled
  have hcontinues := hprop.moves.continues
  cases contradiction with
  -- at a fixed point: a decision, or a solution when none is left
  | none =>
      obtain ⟨hall, hempty, hready⟩ := hprop.finished rfl
      subst hall
      simp only at hrun
      cases hnext : s₁.nextDecision with
      | some l =>
          rw [hnext] at hrun
          simp only [Checked.bind_eq_ok, Checked.pure_eq_ok, Prod.mk.injEq] at hrun
          obtain ⟨s₂, hdecide, rfl, rfl⟩ := hrun
          obtain ⟨hexploring, hcontinues₂, -⟩ := decide_eq_ok hprop.searching hpath₁ hready hempty
            (canDecide_nextDecision hprop.verdict hnext) hdecide
          exact ⟨hcontinues.trans hcontinues₂, fun _ => ⟨_, _, hexploring⟩,
            fun r hr => absurd hr.symm (Option.some_ne_none r)⟩
      | none =>
          rw [hnext] at hrun
          simp only [Checked.bind_eq_ok, Checked.pure_eq_ok, Prod.mk.injEq] at hrun
          obtain ⟨x, hx, rfl, rfl⟩ := hrun
          refine ⟨hcontinues, fun hc => absurd hc (Option.some_ne_none _), fun r hr => ?_⟩
          cases hr
          refine ⟨hprop.searching.formed, ⟨ts, hpath₁⟩, fun y hy => ?_, fun hc => (by cases hc)⟩
          cases hy
          exact ⟨⟨hprop.searching.settled, hprop.searching.formed, hready⟩, hnext, hx⟩
  -- at a contradiction: a decision is flipped, or the search is over
  | some c =>
      simp only [Checked.bind_eq_ok, Checked.pure_eq_ok, Prod.mk.injEq] at hrun
      obtain ⟨⟨s₂, goesOn⟩, hback, rfl, rfl⟩ := hrun
      have hs₁ := hprop.searching.counted { s₁.stats with conflicts := s₁.stats.conflicts + 1 }
      have hpath' := hpath₁.counted { s₁.stats with conflicts := s₁.stats.conflicts + 1 }
      obtain ⟨hcontinues₂, hformed, hpath₂, hgoesOn, hover⟩ :=
        backtrackFrom_eq_ok hs₁ hpath'
          (hprop.verdict.kept (c := some c) rfl (.refl _))
          (hprop.stopped (Option.some_ne_none c)) hback
      refine ⟨hcontinues.trans ((continues_counted _).trans hcontinues₂), fun hc => ?_,
        fun r hr => ?_⟩
      · cases goesOn with
        | true => exact hgoesOn rfl
        | false => cases hc
      · cases goesOn with
        | true => cases hr
        | false =>
            cases hr
            exact ⟨hformed, hpath₂, fun x hx => (by cases hx), fun _ => hover rfl⟩

/-- A run ends as its result says. -/
theorem run_eq_ok {n : Nat} {deadline : Deadline} {result : SearchResult}
    (h : Exploring M s ts R) (hrun : run n deadline s = .ok (s', result)) :
    Continues s s' ∧ Ended M s' result := by
  induction n generalizing s ts R deadline with
  | zero => cases hrun
  | succ n ih =>
      unfold run at hrun
      split at hrun
      next =>
        cases hrun
        exact ⟨.refl _, h.searching.formed, ⟨ts, h.path⟩, fun x hx => (by cases hx),
          fun hc => (by cases hc)⟩
      next =>
        simp only [Checked.bind_eq_ok] at hrun
        obtain ⟨⟨s₁, outcome⟩, hstep, hrun⟩ := hrun
        obtain ⟨hcontinues, hnext, hend⟩ := step_eq_ok h hstep
        cases outcome with
        | some r =>
            cases hrun
            exact ⟨hcontinues, hend result rfl⟩
        | none =>
            obtain ⟨ts₁, R₁, h₁⟩ := hnext rfl
            obtain ⟨hcontinues', hend'⟩ := ih h₁ hrun
            exact ⟨hcontinues.trans hcontinues', hend'⟩

/-- A solver between two requests, and assignments in which everything
holds that was not decided. -/
structure Settled (M : Set (BoolVar → Bool)) (s : Solver) : Prop where
  formed : s.clauses.Formed s.theory
  clauses (σ : BoolVar → Bool) : σ ∈ M → s.clauses.HoldsIn σ
  admits (σ : BoolVar → Bool) : σ ∈ M → s.theory.network.Admits σ
  levels : ∃ ts, Stack ts s.theory ∧ ∀ σ ∈ M, (Theory.root (ts, s.theory)).HoldsIn σ

/-- A search can be left where it stands. -/
theorem Path.settled (h : Path M s ts) (hformed : s.clauses.Formed s.theory) : Settled M s :=
  ⟨hformed, h.clauses, h.admits, ts, h.stack, fun σ hσ => (h.branches σ hσ).holdsIn_root⟩

/-- All decisions are closed, and no watch is selected. -/
theorem start_eq_ok (h : Settled M s) (hrun : s.start = .ok s') :
    Continues s s' ∧ Exploring M s' [] s'.theory.assignments.toList := by
  obtain ⟨ts, hts, hroot⟩ := h.levels
  unfold start reset at hrun
  simp only [Checked.bind_eq_ok, Checked.require_eq_ok, Checked.pure_eq_ok] at hrun
  obtain ⟨⟨s₁, r⟩, ⟨⟨u, r'⟩, hback, heq⟩, -, -, rfl⟩ := hrun
  cases heq
  have hrestore' : s.theory.backtrack .root = (s.theory.restore .root).map fun t => (t, .ok ()) :=
    if_neg (Nat.not_lt_zero _)
  rw [hrestore', Checked.map_eq_ok] at hback
  obtain ⟨t₁, hrestore, heq⟩ := hback
  cases heq
  have hturns := Theory.turns_restore hts hrestore
  -- the root is below all levels
  have hlength : ts.drop (ts.length - DecisionLevel.root.depth) = [] := List.drop_length
  rw [hlength] at hturns
  have hstack := hturns.stack hts
  obtain ⟨hnetwork, hsize⟩ := Theory.sameProblem_restoreTimes hts hrestore
  have hvar : ∀ v, u.hasVariable v = s.theory.hasVariable v := by
    intro v
    unfold Theory.hasVariable HandleVector.contains
    rw [hsize]
  have hadmits : ∀ σ ∈ M, u.network.Admits σ := by
    intro σ hσ
    rw [hnetwork]
    exact h.admits σ hσ
  have hsame : s.clauses.Reorders s.clauses.unwatchAll := ClauseDatabase.reorders_of_clauses_eq rfl
  refine ⟨continues_of_reorders hnetwork hvar hsame, ⟨⟨hstack.settled, ?_, ?_, hstack.mark_le⟩,
    ⟨hstack, rfl, hadmits, ?_, fun σ hσ => ?_, .root⟩, ?_⟩⟩
  · apply (h.formed.reorders hsame).mono
    intro v hv
    rw [hvar]
    exact hv
  · exact QueueReader.hasRead_toEnd _ _
  · exact fun σ hσ => (h.clauses σ hσ).reorders hsame
  · exact .root (hturns.holdsIn_root hts (hadmits σ hσ) (hroot σ hσ))
  · -- all clauses wait for their watches
    apply ClauseDatabase.ready_of_forall_mem
    intro id hid
    rw [List.mem_reverse]
    exact (HandleVector.mem_keys _ _).mpr hid

/-- What a search leaves, and what it found. -/
theorem solve_eq_ok {deadline : Deadline} {result : SearchResult} (h : Settled M s)
    (hrun : s.solve deadline = .ok (s', result)) : Continues s s' ∧ Settled M s' ∧
      (∀ x, result = .sat x → Fixpoint s' ∧ s'.nextDecision = none ∧ s'.solution = .ok x) ∧
      (result = .unsat → ∀ σ, σ ∉ M) := by
  unfold solve at hrun
  simp only [Checked.bind_eq_ok] at hrun
  obtain ⟨s₁, hstart, hrun⟩ := hrun
  obtain ⟨hcontinues, hexploring⟩ := start_eq_ok h hstart
  obtain ⟨hcontinues', hended⟩ := run_eq_ok hexploring hrun
  obtain ⟨ts, hpath⟩ := hended.path
  exact ⟨hcontinues.trans hcontinues', hpath.settled hended.formed, hended.sat, hended.unsat⟩

end Solver

end TemporalNetwork
