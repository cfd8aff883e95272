/-
The search ends.

Propagation does not break off: the lists of clauses name what is there
(`ClauseDatabase.Indexed`), a literal that a clause forces is one of the
theory, and a variable is set once, so that the assignments can be read
in as many steps as there are variables.

# The measure

The decisions that are open are a node of a binary tree, as deep as there
are variables. `remaining` counts the nodes from there on in the order in
which they are visited: those below it, and those below the decisions
that were not flipped yet. A decision goes to the next node. At a
contradiction all below the node is left out, and the search goes on
where the last decision is flipped. As a flip takes the literal that was
free when the decision was taken, the node is one of the tree again.
-/
import TemporalNetwork.Proofs.Clause.Index
import TemporalNetwork.Proofs.Solver.Search
import TemporalNetwork.Proofs.Theory.Answers

namespace TemporalNetwork

open Theory (Stack Returns)

namespace Solver

variable {M : Set (BoolVar → Bool)} {s s' : Solver} {ts : List Theory} {R : List Literal}
  {c : Option Contradiction} {d : Decision} {ds ds' : List Decision} {l p : Literal} {id : ClauseId}
  {U ids : List ClauseId} {status : ClauseStatus} {n : Nat} {deadline : Deadline}

-- =============================================================== propagation

/-- The lists of clauses are as they should be, and a clause that is
violated is not waiting for its watches. -/
structure Tidy (s : Solver) (c : Option Contradiction) : Prop where
  indexed : s.clauses.Indexed s.unwatched
  apart (id : ClauseId) : c = some (.clause id) → id ∉ s.unwatched

/-- A literal of the theory can be assigned. -/
theorem exists_assign (ht : s.theory.Settled) (hvar : s.theory.hasVariable l.var = true) :
    ∃ s', s.assign l = .ok s' := by
  obtain ⟨⟨t, r⟩, hrun⟩ := ht.exists_assign l
  have hvalid := Theory.ne_invalid_of_assign hvar hrun
  unfold assign
  refine Checked.exists_bind (Checked.exists_bind ⟨_, hrun⟩ fun _ _ => ⟨_, rfl⟩) fun a ha => ?_
  refine Checked.exists_bind ⟨(), Checked.require_eq_ok.mpr ?_⟩ fun _ _ => ⟨_, rfl⟩
  unfold Notifier.assign at ha
  simp only [hrun, Checked.bind_eq_ok, Checked.pure_eq_ok, Except.ok.injEq, exists_eq_left'] at ha
  subst ha
  cases r with
  | ok u => rfl
  | error e =>
      cases e with
      | conflict conflict => rfl
      | invalid m => exact absurd rfl (hvalid m)

/-- A verdict on a clause can be acted on. -/
theorem exists_onStatus (hs : Searching s R) (hid : s.clauses.Has id)
    (hfound : s.clauses.Found id s.theory.value status) : ∃ a, s.onStatus id status = .ok a := by
  cases status with
  | satisfied => exact ⟨_, rfl⟩
  | undetermined => exact ⟨_, rfl⟩
  | violated => exact ⟨_, rfl⟩
  | unit l =>
      have hvar := hs.formed.hasVariable id hid l hfound.1
      exact Checked.exists_bind (exists_assign (s := { s with stats := _ }) hs.settled hvar)
        fun _ _ => ⟨_, rfl⟩

/-- Only a clause that is violated is reported as such. -/
theorem eq_of_onStatus (h : s.onStatus id status = .ok (s', c)) {j : ClauseId}
    (hc : c = some (.clause j)) : j = id := by
  cases status with
  | satisfied =>
      cases h
      cases hc
  | undetermined =>
      cases h
      cases hc
  | violated =>
      cases h
      cases hc
      rfl
  | unit l =>
      unfold onStatus assignUnit at h
      simp only [Checked.bind_eq_ok, Checked.pure_eq_ok, Prod.mk.injEq] at h
      obtain ⟨s₁, -, rfl, rfl⟩ := h
      unfold theoryContradiction at hc
      cases hconflict : s₁.theory.conflict with
      | none =>
          rw [hconflict] at hc
          cases hc
      | some conflict =>
          rw [hconflict] at hc
          cases hc

/-- All clauses can be given their watches. -/
theorem exists_watchAll (hs : Searching s R) (hnone : s.theory.conflict = none)
    (hready : s.clauses.Ready U R) (hindexed : s.clauses.Indexed U) :
    ∃ s' c, watchAll U s = .ok (s', c) ∧ s'.Tidy c := by
  induction U generalizing s with
  | nil => exact ⟨_, none, rfl, hindexed, fun id hc => by cases hc⟩
  | cons id rest ih =>
      obtain ⟨hhas, -⟩ := hindexed.unlisted id List.mem_cons_self
      obtain ⟨clauses, status, hwatch, hindexed₁⟩ :=
        hindexed.exists_watch (hs.formed.nodup id hhas) s.theory.value
      obtain ⟨hreorders, -, hfound, hready₁⟩ := hready.watch hs.value hwatch
      have hmove : Move s { s with clauses, unwatched := rest } := .kept rfl rfl hreorders
      have hs₁ := hs.move hmove rfl hs.settled
      have hid₁ := hreorders.has.mpr hhas
      have hfound₁ := hfound.reorders hreorders
      obtain ⟨⟨s₁, c⟩, hstatus⟩ := exists_onStatus hs₁ hid₁ hfound₁
      obtain ⟨-, hs₂, hverdict, hclauses, hunwatched, hexcepted⟩ :=
        onStatus_eq_ok hs₁ hnone hid₁ hfound₁ hstatus
      unfold watchAll
      cases c with
      -- at a contradiction the clauses that were not reached go on waiting
      | some c =>
          refine ⟨s₁, some c, Checked.bind_eq_ok.mpr ⟨_, hwatch, Checked.bind_eq_ok.mpr
            ⟨_, hstatus, rfl⟩⟩, ?_, fun j hj hmem => ?_⟩
          · rw [hclauses, hunwatched]
            exact hindexed₁
          · rw [hunwatched, eq_of_onStatus hstatus hj] at hmem
            exact (List.nodup_cons.mp hindexed.nodup).1 hmem
      | none =>
          have hready₂ : s₁.clauses.Ready rest R := by
            have hnext := hexcepted rest
            rw [hclauses, show rest = _ from hnext]
            exact hready₁
          obtain ⟨s', c, hrun, htidy⟩ := ih hs₂ hverdict hready₂ (by
            rw [hclauses]
            exact hindexed₁)
          exact ⟨s', c, Checked.bind_eq_ok.mpr ⟨_, hwatch, Checked.bind_eq_ok.mpr
            ⟨_, hstatus, hrun⟩⟩, htidy⟩

/-- All clauses on a list can be revisited. -/
theorem exists_revisitAll (hs : Searching s (R ++ [p])) (hnone : s.theory.conflict = none)
    (hreading : s.clauses.Reading s.unwatched p ids R)
    (hholding : s.clauses.Holding s.unwatched p ids) :
    ∃ s' c, revisitAll p ids s = .ok (s', c) ∧ s'.Tidy c := by
  induction ids generalizing s with
  | nil => exact ⟨s, none, rfl, hholding.indexed, fun id hc => by cases hc⟩
  | cons id rest ih =>
      obtain ⟨hhas, hout, -⟩ := hholding.held id List.mem_cons_self
      have hp : s.theory.value p.negate = some false := by
        apply hs.value
        rw [Literal.negate_negate]
        exact List.mem_append_right R (List.mem_singleton.mpr rfl)
      obtain ⟨clauses, status, hrevisit, hholding₁⟩ :=
        hholding.exists_revisit (hs.formed.nodup id hhas) hp
      obtain ⟨hreorders, -, hfound, hreading₁⟩ :=
        hreading.revisit hs.value (hs.formed.nodup id) hrevisit
      have hmove : Move s { s with clauses } := .kept rfl rfl hreorders
      have hs₁ := hs.move hmove rfl hs.settled
      have hid₁ := hreorders.has.mpr hhas
      have hfound₁ := hfound.reorders hreorders
      obtain ⟨⟨s₁, c⟩, hstatus⟩ := exists_onStatus hs₁ hid₁ hfound₁
      obtain ⟨-, hs₂, hverdict, hclauses, hunwatched, hexcepted⟩ :=
        onStatus_eq_ok hs₁ hnone hid₁ hfound₁ hstatus
      have hholding₂ : s₁.clauses.Holding s₁.unwatched p rest := by
        rw [hclauses, hunwatched]
        exact hholding₁
      unfold revisitAll
      cases c with
      -- at a contradiction the rest is given back, the clause itself being on no list
      | some c =>
          refine ⟨_, some c, Checked.bind_eq_ok.mpr ⟨_, hrevisit, Checked.bind_eq_ok.mpr
            ⟨_, hstatus, rfl⟩⟩, hholding₂.restoreWatchers, fun j hj hmem => ?_⟩
          rw [eq_of_onStatus hstatus hj] at hmem
          exact hout (hunwatched ▸ hmem)
      | none =>
          have hreading₂ : s₁.clauses.Reading s₁.unwatched p rest R := by
            have hnext := hexcepted s.unwatched
            rw [hclauses, hunwatched, show s.unwatched = _ from hnext]
            exact hreading₁
          obtain ⟨s', c, hrun, htidy⟩ := ih hs₂ hverdict hreading₂ hholding₂
          exact ⟨s', c, Checked.bind_eq_ok.mpr ⟨_, hrevisit, Checked.bind_eq_ok.mpr
            ⟨_, hstatus, hrun⟩⟩, htidy⟩

/-- No more is read than there are variables. -/
theorem Searching.length_le (hs : Searching s R) : R.length ≤ s.theory.numVariables := by
  obtain ⟨new, hnew⟩ := hs.read.start
  have hsize := hs.settled.coherent.size_assignments_le
  have hlength := congrArg List.length hnew
  rw [List.length_append] at hlength
  have hall : s.theory.assignments.toList.length = s.theory.assignments.size := rfl
  omega

/-- Given as many turns as there are variables left to be set, all assignments
can be read. -/
theorem exists_readAssignments (hs : Searching s R) (hnone : s.theory.conflict = none)
    (hready : s.clauses.Ready s.unwatched R) (hindexed : s.clauses.Indexed s.unwatched)
    (hn : s.theory.numVariables < n + R.length) :
    ∃ s' c, readAssignments n s = .ok (s', c) ∧ s'.Tidy c := by
  induction n generalizing s R with
  | zero =>
      have hlength := hs.length_le
      omega
  | succ n ih =>
      unfold readAssignments
      split
      next reader hpop => exact ⟨_, none, rfl, hindexed, fun id hc => by cases hc⟩
      next reader q hpop =>
        have hread := hs.read.pop_some hpop
        have hsame := ClauseDatabase.reorders_takeWatchers s.clauses q
        have hs₀ : Searching { s with reader, clauses := (s.clauses.takeWatchers q).1 }
            (R ++ [q]) := by
          refine ⟨hs.settled, hs.formed.reorders hsame, hread, ?_⟩
          rw [List.length_append]
          exact Nat.le_trans hs.level (Nat.le_add_right _ _)
        obtain ⟨s₁, c, hrun, htidy⟩ := exists_revisitAll hs₀ hnone (hready.takeWatchers q)
          (hindexed.takeWatchers q)
        obtain ⟨hmoves, hs₁, hverdict, hunwatched, hnext, -⟩ :=
          revisitAll_eq_ok hs₀ hnone (hready.takeWatchers q) hrun
        cases c with
        | some c => exact ⟨s₁, some c, Checked.bind_eq_ok.mpr ⟨_, hrun, rfl⟩, htidy⟩
        | none =>
            have hvariables : s₁.theory.numVariables = s.theory.numVariables :=
              hmoves.sameProblem.size
            obtain ⟨s', c, hrest, htidy'⟩ := ih hs₁ hverdict (hnext rfl) htidy.indexed (by
              rw [hvariables, List.length_append, List.length_singleton]
              omega)
            exact ⟨s', c, Checked.bind_eq_ok.mpr ⟨_, hrun, hrest⟩, htidy'⟩

/-- Propagation comes to a fixed point or to a contradiction. -/
theorem exists_propagate (hs : Searching s R) (hready : s.clauses.Ready s.unwatched R)
    (hindexed : s.clauses.Indexed s.unwatched) :
    ∃ s' c, s.propagate = .ok (s', c) ∧ s'.Tidy c := by
  unfold propagate theoryContradiction
  cases hconflict : s.theory.conflict with
  | some conflict =>
      exact ⟨s, _, rfl, hindexed, fun id hc => by cases hc⟩
  | none =>
      obtain ⟨s₁, c, hwatch, htidy⟩ := exists_watchAll hs hconflict hready hindexed
      obtain ⟨-, hs₁, hverdict, hready₁, -⟩ := watchAll_eq_ok hs hconflict hready hwatch
      cases c with
      | some c => exact ⟨s₁, some c, Checked.bind_eq_ok.mpr ⟨_, hwatch, rfl⟩, htidy⟩
      | none =>
          obtain ⟨s', c, hread, htidy'⟩ := exists_readAssignments hs₁ hverdict hready₁
            htidy.indexed (n := s₁.theory.numVariables + 1) (by omega)
          exact ⟨s', c, Checked.bind_eq_ok.mpr ⟨_, hwatch, hread⟩, htidy'⟩

-- =============================================================== the measure

/-- The nodes below decisions that are still to be flipped, in a tree of
depth `n`. -/
def later (n : Nat) : List Decision → Nat
  | [] => 0
  | d :: ds => later n ds + if d.flipped then 0 else 2 ^ (n - ds.length) - 1

/-- The nodes that are still to be visited, the present one included. -/
def remaining (n : Nat) (ds : List Decision) : Nat := later n ds + (2 ^ (n + 1 - ds.length) - 1)

/-- A node has two subtrees and itself. -/
theorem two_pow_sub (h : ds.length < n) :
    2 ^ (n + 1 - ds.length) = 2 ^ (n - ds.length) + 2 ^ (n - ds.length) := by
  rw [show n + 1 - ds.length = (n - ds.length) + 1 by omega, Nat.pow_succ, Nat.mul_two]

/-- The present node is still to be visited. -/
theorem remaining_pos (h : ds.length ≤ n) : later n ds < remaining n ds := by
  have hpow : 2 ^ 1 ≤ 2 ^ (n + 1 - ds.length) :=
    Nat.pow_le_pow_right Nat.two_pos (by omega)
  unfold remaining
  omega

/-- A decision goes to the next node. -/
theorem remaining_decide (h : ds.length < n) :
    remaining n (⟨l, false⟩ :: ds) < remaining n ds := by
  have hpow := two_pow_sub h
  have hpos : 0 < 2 ^ (n - ds.length) := Nat.two_pow_pos _
  unfold remaining
  rw [later, List.length_cons, show n + 1 - (ds.length + 1) = n - ds.length by omega]
  simp only [Bool.false_eq_true, if_false]
  omega

/-- A flip leaves out what is below the decision. -/
theorem remaining_flip (hd : d.flipped = false) :
    remaining n (⟨l, true⟩ :: ds) = later n (d :: ds) := by
  unfold remaining
  rw [later, later, List.length_cons, show n + 1 - (ds.length + 1) = n - ds.length by omega, hd]
  simp

/-- A decision is the newest one. -/
theorem decisions_openDecision (h : s.openDecision d = .ok s') :
    s'.decisions = d :: s.decisions := by
  unfold openDecision at h
  simp only [Checked.bind_eq_ok] at h
  obtain ⟨t, -, hassign⟩ := h
  obtain ⟨theory, notifier, stats, r, -, rfl⟩ := assign_eq_ok hassign
  rfl

/-- Decisions are closed up to one that was not flipped, which is then. -/
inductive Flips : List Decision → List Decision → Prop where
  | flip {d : Decision} {ds : List Decision} (once : d.flipped = false) :
      Flips (d :: ds) (⟨d.literal.negate, true⟩ :: ds)
  | close {d : Decision} {ds ds' : List Decision} (flipped : d.flipped = true)
      (rest : Flips ds ds') : Flips (d :: ds) ds'

/-- A search that goes on has flipped a decision. -/
theorem flips_flipLast (h : flipLast ds s = .ok (s', true)) : Flips ds s'.decisions := by
  induction ds generalizing s with
  | nil => cases h
  | cons d rest ih =>
      unfold flipLast at h
      simp only [Checked.bind_eq_ok, Checked.require_eq_ok] at h
      obtain ⟨⟨u, r⟩, -, -, -, h⟩ := h
      split at h
      next hflipped => exact .close hflipped (ih h)
      next hnot =>
        simp only [Checked.bind_eq_ok, Checked.pure_eq_ok, Prod.mk.injEq] at h
        obtain ⟨s₁, hopen, rfl, -⟩ := h
        rw [decisions_openDecision hopen]
        exact .flip (Bool.not_eq_true _ ▸ hnot)

/-- A flip goes to the first of the nodes that come later. -/
theorem Flips.remaining (h : Flips ds ds') : remaining n ds' = later n ds := by
  induction h with
  | flip once => exact remaining_flip once
  | close flipped rest ih => rw [ih, later, if_pos flipped, Nat.add_zero]

/-- There are at most as many decisions as variables. -/
theorem Path.length_le (h : Path M s ts) : s.decisions.length ≤ s.theory.numVariables :=
  Nat.le_trans h.deepens.length_le h.stack.settled.coherent.size_assignments_le

/-- A variable that can be decided is not among those that are. -/
theorem Path.length_lt (h : Path M s ts) (hl : s.CanDecide l) :
    s.decisions.length < s.theory.numVariables := by
  have hcoherent := h.stack.settled.coherent
  have hset := hcoherent.setLiteral hl.hasVariable
  have hsize := hset.size_assignments_le
  have hvariables : (s.theory.setLiteral l).numVariables = s.theory.numVariables :=
    (Theory.sameProblem_setLiteral s.theory l).size
  have hpush : (s.theory.setLiteral l).assignments.size = s.theory.assignments.size + 1 := by
    rw [Theory.setLiteral_of_none hl.fresh]
    exact Array.size_push l
  have hdeep := h.deepens.length_le
  omega

/-- A search creates no variable. -/
theorem Continues.numVariables (h : Continues s s') :
    s'.theory.numVariables = s.theory.numVariables := by
  have hsame : ∀ n, n < s'.theory.numVariables ↔ n < s.theory.numVariables := by
    intro n
    have hvar := h.hasVariable ⟨n⟩
    unfold Theory.hasVariable at hvar
    rw [Bool.eq_iff_iff, HandleVector.contains_iff, HandleVector.contains_iff] at hvar
    exact hvar
  have h₁ := hsame s.theory.numVariables
  have h₂ := hsame s'.theory.numVariables
  omega

-- ==================================================================== search

/-- A decision can be taken. -/
theorem exists_openDecision (hs : Searching s s.theory.assignments.toList) (hpath : Path M s ts)
    (hvar : s.theory.hasVariable d.literal.var = true) : ∃ s', s.openDecision d = .ok s' := by
  have hpush := Theory.pushCheckpoint_eq_ok.mpr ⟨hs.settled.rest, rfl⟩
  refine Checked.exists_bind ⟨_, hpush⟩ fun t ht => ?_
  rw [hpush] at ht
  cases ht
  exact exists_assign (s := { s with theory := s.theory.saved, decisions := d :: s.decisions })
    hpath.stack.saved.settled hvar

/-- Decisions can be closed. -/
theorem exists_flipLast (hs : Searching s R) (hpath : Path M s ts) :
    ∃ a, flipLast s.decisions s = .ok a := by
  generalize hds : s.decisions = ds
  induction ds generalizing s ts R with
  | nil => exact ⟨_, rfl⟩
  | cons d rest ih =>
      obtain ⟨t₀, ts₀, rfl⟩ := hpath.exists_cons hds
      have hparent : (s.theory.level.parent?.getD .root).depth ≤ s.theory.level.depth := by
        rw [hpath.stack.level_eq]
        exact Nat.le_succ _
      obtain ⟨u, hback⟩ := hpath.stack.exists_backtrack_of_le hparent
      obtain ⟨hreturns, hu⟩ := Theory.backtrack_parent hpath.stack hback
      obtain ⟨hs₁, -, hpath₁, -⟩ := close_eq hs hpath hds hreturns hu
      unfold flipLast
      refine Checked.exists_bind ⟨_, hback⟩ fun a ha => ?_
      rw [hback] at ha
      cases ha
      refine Checked.exists_bind ⟨(), Checked.require_eq_ok.mpr rfl⟩ fun _ _ => ?_
      simp only
      split
      next => exact ih hs₁ hpath₁ rfl
      next =>
        have hvar := (hpath.canDecide_negate hds hreturns).hasVariable
        exact Checked.exists_bind (exists_openDecision hs₁ hpath₁ hvar) fun _ _ => ⟨_, rfl⟩

/-- Whether a contradiction has literals can be told. -/
theorem exists_isHopeless {c : Contradiction} (hc : s.Contradicts c) :
    ∃ b, s.isHopeless c = .ok b := by
  cases c with
  | theory clause => exact ⟨_, rfl⟩
  | clause id =>
      obtain ⟨clause, hclause⟩ := ClauseDatabase.exists_clause hc.1
      exact ⟨_, Checked.map_eq_ok.mpr ⟨clause, hclause, rfl⟩⟩

/-- What is learnt is listed, and a clause that was violated goes back to
those without watches. -/
theorem exists_keep {c : Contradiction} (hindexed : s.clauses.Indexed s.unwatched)
    (hid : ∀ id, c = .clause id → s.clauses.Has id ∧ id ∉ s.unwatched) :
    ∃ s', s.keep c = .ok s' ∧ s'.clauses.Indexed s'.unwatched ∧ s'.decisions = s.decisions := by
  cases c with
  | theory clause => exact ⟨_, rfl, hindexed.add _, rfl⟩
  | clause id =>
      obtain ⟨hhas, hout⟩ := hid id rfl
      obtain ⟨clauses, hunwatch, hindexed'⟩ := hindexed.exists_unwatch hhas hout
      exact ⟨_, Checked.bind_eq_ok.mpr ⟨_, hunwatch, rfl⟩, hindexed', rfl⟩

/-- At a contradiction the search finds where to go on, or ends. -/
theorem exists_backtrackFrom {c : Contradiction} (hs : Searching s R) (hpath : Path M s ts)
    (hc : s.Contradicts c) (htidy : s.Tidy (some c)) (hleft : ∀ σ ∈ M, ¬ s.theory.HoldsIn σ)
    (hready : s.clauses.Ready (excepted (some c) s.unwatched)
      (R.take (s.theory.assignments.marks.headD 0))) :
    ∃ s' goesOn, s.backtrackFrom c = .ok (s', goesOn) ∧
      (goesOn = true → s'.clauses.Indexed s'.unwatched ∧
        remaining n s'.decisions = later n s.decisions) := by
  obtain ⟨hopeless, hcheck⟩ := exists_isHopeless hc
  obtain ⟨⟨s₁, flipped⟩, hflip⟩ := exists_flipLast hs hpath
  obtain ⟨-, hclauses, hunwatched, -⟩ := flipLast_eq_ok hs hpath hready hleft hflip
  unfold backtrackFrom
  cases hopeless with
  | true =>
      refine ⟨s, false, Checked.bind_eq_ok.mpr ⟨_, hcheck, rfl⟩, ?_⟩
      exact fun h => absurd h Bool.false_ne_true
  | false =>
      cases flipped with
      | false =>
          exact ⟨s₁, false, Checked.bind_eq_ok.mpr ⟨_, hcheck, Checked.bind_eq_ok.mpr
            ⟨_, hflip, rfl⟩⟩, fun h => absurd h Bool.false_ne_true⟩
      | true =>
          obtain ⟨s₂, hkeep, hindexed, hdecisions⟩ : ∃ s₂, s₁.keep c = .ok s₂ ∧
              s₂.clauses.Indexed s₂.unwatched ∧ s₂.decisions = s₁.decisions := by
            apply exists_keep
            · rw [hclauses, hunwatched]
              exact htidy.indexed
            · rintro id rfl
              rw [hclauses, hunwatched]
              exact ⟨hc.1, htidy.apart id rfl⟩
          refine ⟨s₂, true, Checked.bind_eq_ok.mpr ⟨_, hcheck, Checked.bind_eq_ok.mpr
            ⟨_, hflip, Checked.bind_eq_ok.mpr ⟨_, hkeep, rfl⟩⟩⟩, fun _ => ⟨hindexed, ?_⟩⟩
          rw [hdecisions]
          exact (flips_flipLast hflip).remaining

/-- The assignment is given where nothing contradicts it. -/
theorem exists_solution (h : s.theory.conflict = none) : ∃ x, s.solution = .ok x := by
  refine Checked.exists_bind ⟨(), Checked.require_eq_ok.mpr ?_⟩ fun _ _ => ⟨_, rfl⟩
  exact Option.isNone_iff_eq_none.mpr h

/-- A step ends the search, or goes to a later node. -/
theorem exists_step (h : Exploring M s ts R) (hindexed : s.clauses.Indexed s.unwatched) :
    ∃ s' result, s.step = .ok (s', result) ∧ result ≠ some .timeout ∧
      (result = none → s'.clauses.Indexed s'.unwatched ∧
        remaining s.theory.numVariables s'.decisions
          < remaining s.theory.numVariables s.decisions) := by
  obtain ⟨s₁, c, hpropagate, htidy⟩ := exists_propagate h.searching h.ready hindexed
  obtain ⟨R₁, hprop⟩ := propagates h.searching h.ready hpropagate
  have hpath := h.path.moves hprop.moves hprop.searching.settled
  have hdecisions := hprop.moves.decisions
  have hvariables : s₁.theory.numVariables = s.theory.numVariables :=
    hprop.moves.continues.numVariables
  unfold step
  cases c with
  -- at a contradiction the search goes back to a node that was still to be visited
  | some c =>
      have hs₁ := hprop.searching.counted { s₁.stats with conflicts := s₁.stats.conflicts + 1 }
      have hpath₁ := hpath.counted { s₁.stats with conflicts := s₁.stats.conflicts + 1 }
      obtain ⟨s₂, goesOn, hback, hgoesOn⟩ :=
        exists_backtrackFrom (n := s.theory.numVariables) hs₁ hpath₁
          (hprop.verdict.kept (c := some c) rfl (.refl _)) ⟨htidy.indexed, htidy.apart⟩
          (fun σ hσ => hpath.not_holdsIn hprop.searching hprop.verdict hσ)
          (hprop.stopped (Option.some_ne_none c))
      refine ⟨s₂, if goesOn then none else some .unsat, Checked.bind_eq_ok.mpr
        ⟨_, hpropagate, Checked.bind_eq_ok.mpr ⟨_, hback, rfl⟩⟩, ?_, fun hnone => ?_⟩
      · split
        · exact fun hc => by cases hc
        · exact fun hc => by cases hc
      · cases goesOn with
        | false => cases hnone
        | true =>
            obtain ⟨hindexed', hremaining⟩ := hgoesOn rfl
            refine ⟨hindexed', ?_⟩
            have hlength := hpath.length_le
            rw [hvariables] at hlength
            rw [hremaining, ← hdecisions]
            exact remaining_pos hlength
  -- at a fixed point it goes down, or all variables have values
  | none =>
      obtain ⟨hall, hempty, hready⟩ := hprop.finished rfl
      subst hall
      have hconflict : s₁.theory.conflict = none := hprop.verdict
      cases hnext : s₁.nextDecision with
      | some l =>
          have hopen := canDecide_nextDecision hconflict hnext
          have hs₁ := hprop.searching.counted { s₁.stats with decisions := s₁.stats.decisions + 1 }
          have hpath₁ := hpath.counted { s₁.stats with decisions := s₁.stats.decisions + 1 }
          obtain ⟨s₂, hdecide⟩ :=
            exists_openDecision (d := ⟨l, false⟩) hs₁ hpath₁ hopen.hasVariable
          obtain ⟨-, -, hclauses, hunwatched⟩ :=
            decide_eq_ok hprop.searching hpath hready hempty hopen hdecide
          refine ⟨s₂, none, Checked.bind_eq_ok.mpr ⟨_, hpropagate, ?_⟩,
            fun hc => (by cases hc), fun _ => ⟨?_, ?_⟩⟩
          · simp only
            rw [hnext]
            exact Checked.bind_eq_ok.mpr ⟨_, hdecide, rfl⟩
          · rw [hclauses, hunwatched, ← hempty]
            exact htidy.indexed
          · have hlength := hpath.length_lt hopen
            rw [decisions_openDecision hdecide, ← hdecisions, ← hvariables]
            exact remaining_decide hlength
      | none =>
          obtain ⟨x, hx⟩ := exists_solution hconflict
          refine ⟨s₁, some (.sat x), Checked.bind_eq_ok.mpr ⟨_, hpropagate, ?_⟩,
            fun hc => (by cases hc), fun hc => (by cases hc)⟩
          simp only
          rw [hnext]
          exact Checked.bind_eq_ok.mpr ⟨_, hx, rfl⟩

/-- A search that may visit all nodes ends, without a deadline with an answer.
-/
theorem exists_run (h : Exploring M s ts R) (hindexed : s.clauses.Indexed s.unwatched)
    (hn : remaining s.theory.numVariables s.decisions ≤ n) :
    ∃ s' result, run n deadline s = .ok (s', result) ∧ (deadline = .never → result ≠ .timeout) := by
  induction n generalizing s ts R deadline with
  | zero =>
      have hpos := remaining_pos h.path.length_le
      omega
  | succ n ih =>
      unfold run
      by_cases hreached : deadline.isReached = true
      · rw [if_pos hreached]
        refine ⟨s, .timeout, rfl, ?_⟩
        rintro rfl
        cases hreached
      · rw [if_neg hreached]
        obtain ⟨s₁, result, hstep, hresult, hnext⟩ := exists_step h hindexed
        obtain ⟨hcontinues, hexploring, -⟩ := step_eq_ok h hstep
        cases result with
        | some r =>
            refine ⟨s₁, r, Checked.bind_eq_ok.mpr ⟨_, hstep, rfl⟩, fun _ hr => ?_⟩
            exact hresult (congrArg some hr)
        | none =>
            obtain ⟨ts₁, R₁, h₁⟩ := hexploring rfl
            obtain ⟨hindexed₁, hless⟩ := hnext rfl
            have hbound : remaining s₁.theory.numVariables s₁.decisions ≤ n := by
              rw [hcontinues.numVariables]
              omega
            obtain ⟨s', result, hrun, hnever⟩ : ∃ s' result,
                run n deadline.next s₁ = .ok (s', result) ∧
                  (deadline.next = .never → result ≠ .timeout) :=
              ih h₁ hindexed₁ hbound
            refine ⟨s', result, Checked.bind_eq_ok.mpr ⟨_, hstep, hrun⟩, ?_⟩
            rintro rfl
            exact hnever rfl

/-- A search can be started. -/
theorem exists_start (h : Settled M s) : ∃ s', s.start = .ok s' ∧
    s'.clauses.Indexed s'.unwatched := by
  obtain ⟨ts, hts, -⟩ := h.levels
  obtain ⟨u, hback⟩ : ∃ u, s.theory.backtrack .root = .ok (u, .ok ()) :=
    hts.exists_backtrack_of_le (Nat.zero_le _)
  have hreset : s.reset = .ok ({ s with decisions := [], theory := u }, .ok ()) :=
    Checked.bind_eq_ok.mpr ⟨_, hback, rfl⟩
  refine ⟨_, Checked.bind_eq_ok.mpr ⟨_, hreset, Checked.bind_eq_ok.mpr
    ⟨(), Checked.require_eq_ok.mpr rfl, rfl⟩⟩, ?_⟩
  exact ClauseDatabase.indexed_unwatchAll s.clauses

/-- A search ends with an answer. It is only given up at a deadline. -/
theorem exists_solve (h : Settled M s) (deadline : Deadline) :
    ∃ s' result, s.solve deadline = .ok (s', result) ∧ (deadline = .never → result ≠ .timeout) := by
  obtain ⟨s₁, hstart, hindexed⟩ := exists_start h
  obtain ⟨-, hexploring⟩ := start_eq_ok h hstart
  have hdecisions : s₁.decisions = [] := by
    have hdepth := hexploring.path.depth
    exact List.eq_nil_of_length_eq_zero hdepth.symm
  have hbound : remaining s₁.theory.numVariables s₁.decisions ≤ s₁.stepBound := by
    rw [hdecisions]
    unfold remaining later stepBound
    rw [Nat.zero_add]
    exact Nat.sub_le _ _
  obtain ⟨s', result, hrun, hnever⟩ : ∃ s' result,
      run s₁.stepBound deadline s₁ = .ok (s', result) ∧ (deadline = .never → result ≠ .timeout) :=
    exists_run hexploring hindexed hbound
  exact ⟨s', result, Checked.bind_eq_ok.mpr ⟨_, hstart, hrun⟩, hnever⟩

end Solver

end TemporalNetwork
