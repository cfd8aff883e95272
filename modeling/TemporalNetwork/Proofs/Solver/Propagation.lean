/-
What propagation of clauses does, and what it leaves.

Propagation changes a solver in two ways: it writes down what it has
looked at, and it sets the last literal of a clause of which all others
are false. `Move` lists them; what either keeps propagation keeps.

# What it leaves

The invariant joins the reader with the watches: all assignments that
were read are true, and as far as they were read no clause is left with
both watches false (`ClauseDatabase.Ready`). At a fixed point everything
was read. At a contradiction the invariant holds for what was read before
the last level was opened, which is what is left once that is closed; a
clause of which the watches were selected as false is excepted.
-/
import TemporalNetwork.Proofs.Clause.Watches
import TemporalNetwork.Proofs.History.Reader
import TemporalNetwork.Proofs.Theory.Entailment
import TemporalNetwork.Solver.Propagation

namespace TemporalNetwork

variable {σ : BoolVar → Bool} {t t' : Theory} {l p : Literal} {id : ClauseId}
  {U ids : List ClauseId} {R : List Literal} {status : ClauseStatus}

-- =================================================================== clauses

/-- Clauses list no literal twice, and have no literal that the theory
lacks. -/
structure ClauseDatabase.Formed (db : ClauseDatabase) (t : Theory) : Prop where
  nodup (id : ClauseId) : db.Has id → (db.literalsOf id).Nodup
  hasVariable (id : ClauseId) : db.Has id → ∀ l ∈ db.literalsOf id, t.hasVariable l.var = true

/-- Clauses stay formed in any order. -/
theorem ClauseDatabase.Formed.reorders {db db' : ClauseDatabase} (h : db.Formed t)
    (hdb : db.Reorders db') : db'.Formed t where
  nodup id hid := (hdb.perm id).nodup_iff.mpr (h.nodup id (hdb.has.mp hid))
  hasVariable id hid l hl := h.hasVariable id (hdb.has.mp hid) l (hdb.mem.mp hl)

/-- More variables leave clauses formed. -/
theorem ClauseDatabase.Formed.mono {db : ClauseDatabase} (h : db.Formed t)
    (ht : ∀ v, t.hasVariable v = true → t'.hasVariable v = true) : db.Formed t' :=
  ⟨h.nodup, fun id hid l hl => ht _ (h.hasVariable id hid l hl)⟩

/-- Adding a clause that is formed as clauses are. -/
theorem ClauseDatabase.Formed.add {db : ClauseDatabase} (h : db.Formed t) {c : Clause}
    (hnodup : c.literals.Nodup) (hvar : ∀ l ∈ c.literals, t.hasVariable l.var = true) :
    (db.add c).1.Formed t := by
  constructor
  · intro id hid
    rcases has_add.mp hid with rfl | hold
    · rw [literalsOf_add_self]
      exact hnodup
    · rw [literalsOf_add_of_has hold]
      exact h.nodup id hold
  · intro id hid
    rcases has_add.mp hid with rfl | hold
    · rw [literalsOf_add_self]
      exact hvar
    · rw [literalsOf_add_of_has hold]
      exact h.hasVariable id hold

/-- Every clause has a literal that is true in the assignment. -/
def ClauseDatabase.HoldsIn (db : ClauseDatabase) (σ : BoolVar → Bool) : Prop :=
  ∀ id, db.Has id → ∃ l ∈ db.literalsOf id, l.Holds σ

/-- Whether a clause holds does not depend on the order of its literals. -/
theorem ClauseDatabase.HoldsIn.reorders {db db' : ClauseDatabase} (h : db.HoldsIn σ)
    (hdb : db.Reorders db') : db'.HoldsIn σ := by
  intro id hid
  obtain ⟨l, hl, hσ⟩ := h id (hdb.has.mp hid)
  exact ⟨l, hdb.mem.mpr hl, hσ⟩

/-- A clause that holds can be added. -/
theorem ClauseDatabase.HoldsIn.add {db : ClauseDatabase} (h : db.HoldsIn σ) {c : Clause}
    (hc : ∃ l ∈ c.literals, l.Holds σ) : (db.add c).1.HoldsIn σ := by
  intro id hid
  rcases has_add.mp hid with rfl | hold
  · rw [literalsOf_add_self]
    exact hc
  · rw [literalsOf_add_of_has hold]
    exact h id hold

/-- Of a clause that holds, a literal holds if no other can be true. -/
theorem ClauseDatabase.HoldsIn.forced {db : ClauseDatabase} (h : db.HoldsIn σ)
    (hid : db.Has id) (ht : t.HoldsIn σ)
    (hothers : ∀ m ∈ db.literalsOf id, m ≠ l → t.value m = some false) : l.Holds σ := by
  obtain ⟨m, hm, hσ⟩ := h id hid
  by_cases hml : m = l
  · exact hml ▸ hσ
  · have hnegate := ht m.negate (Theory.value_negate_eq_true.mpr (hothers m hm hml))
    exact absurd hσ (Literal.holds_negate.mp hnegate)

/-- What was learnt follows from the network, whatever other clauses say. -/
def ClauseDatabase.Justified (db : ClauseDatabase) (net : Network) : Prop :=
  ∀ id, db.Has id → db.isLearnt id = true → net.Forces (db.literalsOf id)

/-- A justification does not depend on the order of the literals. -/
theorem ClauseDatabase.Justified.reorders {db db' : ClauseDatabase} {net : Network}
    (h : db.Justified net) (hdb : db.Reorders db') : db'.Justified net := by
  intro id hid hlearnt
  rw [hdb.learnt] at hlearnt
  exact (h id (hdb.has.mp hid) hlearnt).perm (hdb.perm id)

/-- What a network justifies is justified by a larger one. -/
theorem ClauseDatabase.Justified.grows {db : ClauseDatabase} {net net' : Network}
    (h : db.Justified net) (hnet : net.Grows net') : db.Justified net' :=
  fun id hid hlearnt => hnet.forces (h id hid hlearnt)

/-- A clause that follows from the network can be learnt. -/
theorem ClauseDatabase.Justified.add {db : ClauseDatabase} {net : Network}
    (h : db.Justified net) {c : Clause} (hc : c.learnt = true → net.Forces c.literals) :
    (db.add c).1.Justified net := by
  intro id hid hlearnt
  rcases has_add.mp hid with rfl | hold
  · rw [isLearnt_add_self] at hlearnt
    rw [literalsOf_add_self]
    exact hc hlearnt
  · rw [isLearnt_add_of_has hold] at hlearnt
    rw [literalsOf_add_of_has hold]
    exact h id hold hlearnt

namespace Solver

variable {s s' s'' : Solver} {c : Option Contradiction}

-- ===================================================================== moves

/-- What propagation can do at a time. -/
inductive Move (s s' : Solver) : Prop where
  /-- Nothing is set. -/
  | kept (theory : s'.theory = s.theory) (decisions : s'.decisions = s.decisions)
      (clauses : s.clauses.Reorders s'.clauses)
  /-- The last literal of a clause is set. -/
  | forced {id : ClauseId} {l : Literal} (hid : s.clauses.Has id)
      (hvar : s.theory.hasVariable l.var = true)
      (hothers : ∀ m ∈ s.clauses.literalsOf id, m ≠ l → s.theory.value m = some false)
      (steps : Theory.Steps (s.theory.setLiteral l) s'.theory) (settled : s'.theory.Settled)
      (decisions : s'.decisions = s.decisions) (clauses : s'.clauses = s.clauses)

/-- A run of propagation. -/
abbrev Moves : Solver → Solver → Prop := Relation.ReflTransGen Move

theorem Move.run (h : Move s s') : Moves s s' := .single h

/-- A move takes no decision. -/
theorem Move.decisions (h : Move s s') : s'.decisions = s.decisions := by
  cases h with
  | kept theory decisions clauses => exact decisions
  | forced hid hvar hothers steps settled decisions clauses => exact decisions

/-- Propagation takes no decision. -/
theorem Moves.decisions (h : Moves s s') : s'.decisions = s.decisions := by
  induction h with
  | refl => rfl
  | tail _ hmove ih => exact hmove.decisions.trans ih

/-- A move at most reorders the clauses. -/
theorem Move.reorders (h : Move s s') : s.clauses.Reorders s'.clauses := by
  cases h with
  | kept theory decisions clauses => exact clauses
  | forced hid hvar hothers steps settled decisions clauses =>
      rw [clauses]
      exact .refl _

/-- Propagation at most reorders the clauses. -/
theorem Moves.reorders (h : Moves s s') : s.clauses.Reorders s'.clauses := by
  induction h with
  | refl => exact .refl _
  | tail _ hmove ih => exact ih.trans hmove.reorders

/-- A move does not change the problem. -/
theorem Move.sameProblem (h : Move s s') : Theory.SameProblem s.theory s'.theory := by
  cases h with
  | kept theory decisions clauses =>
      rw [theory]
      exact .refl _
  | forced hid hvar hothers steps settled decisions clauses =>
      exact (Theory.sameProblem_setLiteral _ _).trans steps.sameProblem

/-- Propagation does not change the problem. -/
theorem Moves.sameProblem (h : Moves s s') : Theory.SameProblem s.theory s'.theory := by
  induction h with
  | refl => exact .refl _
  | tail _ hmove ih => exact ih.trans hmove.sameProblem

/-- A move takes nothing back. -/
theorem Move.extends (h : Move s s') : Theory.Extends s.theory s'.theory := by
  cases h with
  | kept theory decisions clauses =>
      rw [theory]
      exact .refl _
  | forced hid hvar hothers steps settled decisions clauses =>
      exact (Theory.extends_setLiteral _ _).trans steps.extends

/-- Propagation takes nothing back. -/
theorem Moves.extends (h : Moves s s') : Theory.Extends s.theory s'.theory := by
  induction h with
  | refl => exact .refl _
  | tail _ hmove ih => exact ih.trans hmove.extends

/-- What propagation sets holds in every assignment that has what was set
before and in which the clauses hold. -/
theorem Move.holdsIn (h : Move s s') (hσ : s.theory.network.Admits σ)
    (hclauses : s.clauses.HoldsIn σ) (ht : s.theory.HoldsIn σ) : s'.theory.HoldsIn σ := by
  cases h with
  | kept theory decisions clauses =>
      rw [theory]
      exact ht
  | forced hid hvar hothers steps settled decisions clauses =>
      refine steps.holdsIn ?_ (ht.setLiteral hvar (hclauses.forced hid ht hothers))
      rw [(Theory.sameProblem_setLiteral _ _).network]
      exact hσ

/-- An assignment that the problem admits is followed through propagation. -/
theorem Moves.holdsIn (h : Moves s s') (hσ : s.theory.network.Admits σ)
    (hclauses : s.clauses.HoldsIn σ) (ht : s.theory.HoldsIn σ) : s'.theory.HoldsIn σ := by
  induction h with
  | refl => exact ht
  | tail hmoves hmove ih =>
      refine hmove.holdsIn ?_ (hclauses.reorders (Moves.reorders hmoves)) ih
      rw [(Moves.sameProblem hmoves).network]
      exact hσ

-- ================================================================= invariant

/-- The solver between two moves, when the reader has read `R`. -/
structure Searching (s : Solver) (R : List Literal) : Prop where
  settled : s.theory.Settled
  formed : s.clauses.Formed s.theory
  read : s.reader.HasRead s.theory.assignments R
  /-- All that was there when the last level was opened was read. -/
  level : s.theory.assignments.marks.headD 0 ≤ R.length

/-- What was read is true. -/
theorem Searching.value (h : Searching s R) (w : Literal) (hw : w.negate ∈ R) :
    s.theory.value w = some false := by
  obtain ⟨new, hnew⟩ := h.read.start
  refine Theory.value_negate_eq_true.mp ((h.settled.coherent.assigned w.negate).mp ?_)
  rw [hnew]
  exact List.mem_append_left _ hw

/-- A move leaves the reader where it was. -/
theorem Searching.move (h : Searching s R) (hmove : Move s s') (hreader : s'.reader = s.reader)
    (hsettled : s'.theory.Settled) : Searching s' R := by
  have hsame := hmove.sameProblem
  refine ⟨hsettled, ?_, ?_, ?_⟩
  · apply (h.formed.reorders hmove.reorders).mono
    intro v hv
    rw [hsame.hasVariable]
    exact hv
  · rw [hreader]
    exact h.read.append hmove.extends.assignments hsame.assignmentBacktracks
  · rw [hsame.assignmentMarks]
    exact h.level

/-- The contradiction is one: the clause is violated, or the theory is in
conflict. -/
def Contradicts (s : Solver) : Contradiction → Prop
  | .clause id => s.clauses.Has id ∧
      ∀ l ∈ s.clauses.literalsOf id, s.theory.value l = some false
  | .theory clause => ∃ c, s.theory.conflict = some c ∧ clause = c.clause

/-- What propagation has found. -/
def Verdict (s : Solver) : Option Contradiction → Prop
  | none => s.theory.conflict = none
  | some c => s.Contradicts c

/-- The clauses of which the watches need not be right. -/
def excepted : Option Contradiction → List ClauseId → List ClauseId
  | some (.clause id), U => id :: U
  | _, U => U

/-- A verdict rests on the theory and the literals of clauses. -/
theorem Verdict.kept (h : s.Verdict c) (htheory : s'.theory = s.theory)
    (hclauses : s.clauses.Reorders s'.clauses) : s'.Verdict c := by
  match c with
  | none =>
      show s'.theory.conflict = none
      rw [htheory]
      exact h
  | some (.theory clause) =>
      show ∃ conflict, s'.theory.conflict = some conflict ∧ clause = conflict.clause
      rw [htheory]
      exact h
  | some (.clause id) =>
      refine ⟨hclauses.has.mpr h.1, fun l hl => ?_⟩
      rw [htheory]
      exact h.2 l (hclauses.mem.mp hl)

/-- What the theory reports is what it has found. -/
theorem verdict_theoryContradiction (s : Solver) : s.Verdict s.theoryContradiction := by
  unfold theoryContradiction
  cases h : s.theory.conflict with
  | none => exact h
  | some conflict => exact ⟨conflict, h, rfl⟩

/-- A contradiction of the theory excepts no clause. -/
theorem excepted_theoryContradiction (s : Solver) (U : List ClauseId) :
    excepted s.theoryContradiction U = U := by
  unfold theoryContradiction
  cases s.theory.conflict <;> rfl

-- ========================================================== a single clause

/-- Setting a literal through the notifier. -/
theorem assign_eq_ok (h : s.assign l = .ok s') :
    ∃ theory notifier stats r, s.theory.assign l = .ok (theory, r) ∧
      s' = { s with theory, notifier, stats } := by
  unfold assign Notifier.assign at h
  simp only [Checked.bind_eq_ok, Checked.pure_eq_ok] at h
  obtain ⟨a, ⟨⟨theory, r⟩, hassign, ha⟩, -, -, rfl⟩ := h
  refine ⟨a.theory, a.notifier, _, r, ?_, rfl⟩
  have htheory : a.theory = theory := by
    rw [← ha]
    split <;> rfl
  rw [htheory]
  exact hassign

/-- Acting on a verdict is one move, and the verdict that is returned is true.
-/
theorem onStatus_eq_ok (hs : Searching s R) (hnone : s.theory.conflict = none)
    (hid : s.clauses.Has id) (hfound : s.clauses.Found id s.theory.value status)
    (h : s.onStatus id status = .ok (s', c)) :
    Move s s' ∧ Searching s' R ∧ s'.Verdict c ∧ s'.clauses = s.clauses ∧
      s'.unwatched = s.unwatched ∧
      ∀ U, excepted c U = if status = .violated then id :: U else U := by
  have hidle : Move s s := .kept rfl rfl (.refl _)
  cases status with
  | satisfied =>
      cases h
      exact ⟨hidle, hs, hnone, rfl, rfl, fun U => rfl⟩
  | undetermined =>
      cases h
      exact ⟨hidle, hs, hnone, rfl, rfl, fun U => rfl⟩
  | violated =>
      cases h
      exact ⟨hidle, hs, ⟨hid, hfound⟩, rfl, rfl, fun U => rfl⟩
  | unit l =>
      obtain ⟨hl, -, hothers⟩ := hfound
      unfold onStatus assignUnit at h
      simp only [Checked.bind_eq_ok, Checked.pure_eq_ok, Prod.mk.injEq] at h
      obtain ⟨s₁, hassign, rfl, rfl⟩ := h
      obtain ⟨theory, notifier, stats, r, hrun, rfl⟩ := assign_eq_ok hassign
      have hvar := hs.formed.hasVariable id hid l hl
      obtain ⟨hsettled, hsteps⟩ := Theory.steps_assign hs.settled hvar hnone hrun
      have hmove : Move s { s with theory, notifier, stats } :=
        .forced hid hvar hothers hsteps hsettled rfl rfl
      refine ⟨hmove, hs.move hmove rfl hsettled, verdict_theoryContradiction _, rfl, rfl, ?_⟩
      intro U
      rw [excepted_theoryContradiction, if_neg]
      exact fun hc => by cases hc

-- =============================================================== new clauses

/-- Giving clauses their watches is propagation, and none is left waiting at
the end. -/
theorem watchAll_eq_ok (hs : Searching s R) (hnone : s.theory.conflict = none)
    (hready : s.clauses.Ready U R) (h : watchAll U s = .ok (s', c)) :
    Moves s s' ∧ Searching s' R ∧ s'.Verdict c ∧
      s'.clauses.Ready (excepted c s'.unwatched) R ∧ (c = none → s'.unwatched = []) := by
  induction U generalizing s with
  | nil =>
      cases h
      have hmove : Move s { s with unwatched := [] } := .kept rfl rfl (.refl _)
      exact ⟨hmove.run, hs.move hmove rfl hs.settled, hnone, hready, fun _ => rfl⟩
  | cons id rest ih =>
      unfold watchAll at h
      simp only [Checked.bind_eq_ok] at h
      obtain ⟨⟨clauses, status⟩, hwatch, ⟨s₁, c₁⟩, hstatus, h⟩ := h
      obtain ⟨hreorders, hid, hfound, hready₁⟩ := hready.watch hs.value hwatch
      have hmove : Move s { s with clauses, unwatched := rest } := .kept rfl rfl hreorders
      obtain ⟨hmove₁, hs₁, hverdict, hclauses, hunwatched, hexcepted⟩ :=
        onStatus_eq_ok (hs.move hmove rfl hs.settled) hnone (hreorders.has.mpr hid)
          (hfound.reorders hreorders) hstatus
      have hmoves : Moves s s₁ := hmove.run.trans hmove₁.run
      have hready₂ : s₁.clauses.Ready (excepted c₁ s₁.unwatched) R := by
        rw [hexcepted, hclauses, hunwatched]
        exact hready₁
      split at h
      next hsome =>
        cases h
        exact ⟨hmoves, hs₁, hverdict, hready₂,
          fun hc => absurd hc (Option.isSome_iff_ne_none.mp hsome)⟩
      next hnot =>
        obtain rfl : c₁ = none := Option.not_isSome_iff_eq_none.mp hnot
        rw [hunwatched] at hready₂
        obtain ⟨hmoves', hrest⟩ := ih hs₁ hverdict hready₂ h
        exact ⟨hmoves.trans hmoves', hrest⟩

-- ================================================================== revisits

/-- Revisiting a list is propagation, and its literal counts as read at the
end. -/
theorem revisitAll_eq_ok (hs : Searching s (R ++ [p])) (hnone : s.theory.conflict = none)
    (hreading : s.clauses.Reading s.unwatched p ids R)
    (h : revisitAll p ids s = .ok (s', c)) :
    Moves s s' ∧ Searching s' (R ++ [p]) ∧ s'.Verdict c ∧ s'.unwatched = s.unwatched ∧
      (c = none → s'.clauses.Ready s'.unwatched (R ++ [p])) ∧
      (c ≠ none → s'.clauses.Ready (excepted c s'.unwatched) R) := by
  induction ids generalizing s with
  | nil =>
      cases h
      exact ⟨.refl, hs, hnone, rfl, fun _ => hreading.ready, fun hc => absurd rfl hc⟩
  | cons id rest ih =>
      unfold revisitAll at h
      simp only [Checked.bind_eq_ok] at h
      obtain ⟨⟨clauses, status⟩, hrevisit, ⟨s₁, c₁⟩, hstatus, h⟩ := h
      obtain ⟨hreorders, hid, hfound, hreading₁⟩ :=
        hreading.revisit hs.value (hs.formed.nodup id) hrevisit
      have hmove : Move s { s with clauses } := .kept rfl rfl hreorders
      obtain ⟨hmove₁, hs₁, hverdict, hclauses, hunwatched, hexcepted⟩ :=
        onStatus_eq_ok (hs.move hmove rfl hs.settled) hnone (hreorders.has.mpr hid)
          (hfound.reorders hreorders) hstatus
      have hmoves : Moves s s₁ := hmove.run.trans hmove₁.run
      have hreading₂ : s₁.clauses.Reading (excepted c₁ s₁.unwatched) p rest R := by
        rw [hexcepted, hclauses, hunwatched]
        exact hreading₁
      split at h
      -- the rest of the list is given back, which reorders nothing but lists
      next hsome =>
        cases h
        have hsame := ClauseDatabase.reorders_restoreWatchers s₁.clauses p rest
        have hmove₂ : Move s₁ { s₁ with clauses := s₁.clauses.restoreWatchers p rest } :=
          .kept rfl rfl hsame
        have hne : c₁ ≠ none := Option.isSome_iff_ne_none.mp hsome
        refine ⟨hmoves.trans hmove₂.run, hs₁.move hmove₂ rfl hs₁.settled, ?_, hunwatched,
          fun hc => absurd hc hne, fun _ => hreading₂.restoreWatchers⟩
        exact hverdict.kept rfl hsame
      next hnot =>
        obtain rfl : c₁ = none := Option.not_isSome_iff_eq_none.mp hnot
        obtain ⟨hmoves', hs', hverdict', hunwatched', hrest⟩ := ih hs₁ hverdict hreading₂ h
        exact ⟨hmoves.trans hmoves', hs', hverdict', hunwatched'.trans hunwatched, hrest⟩

/-- Reading the assignments, until none is left or at a contradiction. -/
theorem readAssignments_eq_ok {n : Nat} (hs : Searching s R) (hnone : s.theory.conflict = none)
    (hready : s.clauses.Ready s.unwatched R) (h : readAssignments n s = .ok (s', c)) :
    Moves s s' ∧ s'.Verdict c ∧ s'.unwatched = s.unwatched ∧ ∃ R', Searching s' R' ∧
      (c = none → R' = s'.theory.assignments.toList ∧ s'.clauses.Ready s'.unwatched R') ∧
      (c ≠ none → s'.clauses.Ready (excepted c s'.unwatched)
        (R'.take (s'.theory.assignments.marks.headD 0))) := by
  induction n generalizing s R with
  | zero => cases h
  | succ n ih =>
      unfold readAssignments at h
      split at h
      -- all has been read
      next reader hpop =>
        cases h
        obtain ⟨hread, hall⟩ := hs.read.pop_none hpop
        have hmove : Move s { s with reader } := .kept rfl rfl (.refl _)
        exact ⟨hmove.run, hnone, rfl, R, ⟨hs.settled, hs.formed, hread, hs.level⟩,
          fun _ => ⟨hall, hready⟩, fun hc => absurd rfl hc⟩
      next reader q hpop =>
        simp only [Checked.bind_eq_ok] at h
        obtain ⟨⟨s₁, c₁⟩, hrevisit, h⟩ := h
        have hread := hs.read.pop_some hpop
        have hsame := ClauseDatabase.reorders_takeWatchers s.clauses q
        have hmove : Move s { s with reader, clauses := (s.clauses.takeWatchers q).1 } :=
          .kept rfl rfl hsame
        have hs₀ : Searching { s with reader, clauses := (s.clauses.takeWatchers q).1 }
            (R ++ [q]) := by
          refine ⟨hs.settled, hs.formed.reorders hsame, hread, ?_⟩
          rw [List.length_append]
          exact Nat.le_trans hs.level (Nat.le_add_right _ _)
        obtain ⟨hmoves, hs₁, hverdict, hunwatched, hnext, hstop⟩ :=
          revisitAll_eq_ok hs₀ hnone (hready.takeWatchers q) hrevisit
        have hmoves₁ : Moves s s₁ := hmove.run.trans hmoves
        split at h
        -- what was true before the level was opened has been read in full
        next hsome =>
          cases h
          have hne : c₁ ≠ none := Option.isSome_iff_ne_none.mp hsome
          refine ⟨hmoves₁, hverdict, hunwatched, R ++ [q], hs₁, fun hc => absurd hc hne,
            fun _ => ?_⟩
          apply (hstop hne).mono (List.Subset.refl _)
          rw [hmoves₁.sameProblem.assignmentMarks, List.take_append_of_le_length hs.level]
          exact List.take_subset _ R
        next hnot =>
          obtain rfl : c₁ = none := Option.not_isSome_iff_eq_none.mp hnot
          obtain ⟨hmoves', hverdict', hunwatched', R', hrest⟩ := ih hs₁ hverdict (hnext rfl) h
          exact ⟨hmoves₁.trans hmoves', hverdict', hunwatched'.trans hunwatched, R', hrest⟩

-- =============================================================== propagation

/-- What propagation leaves: a fixed point at which everything was read,
or a contradiction. -/
structure Propagates (s s' : Solver) (c : Option Contradiction) (R : List Literal) : Prop where
  moves : Moves s s'
  searching : Searching s' R
  verdict : s'.Verdict c
  finished : c = none → R = s'.theory.assignments.toList ∧ s'.unwatched = [] ∧
    s'.clauses.Ready [] R
  stopped : c ≠ none → s'.clauses.Ready (excepted c s'.unwatched)
    (R.take (s'.theory.assignments.marks.headD 0))

/-- Propagation leaves a fixed point or a contradiction. -/
theorem propagates (hs : Searching s R) (hready : s.clauses.Ready s.unwatched R)
    (h : s.propagate = .ok (s', c)) : ∃ R', Propagates s s' c R' := by
  unfold propagate at h
  split at h
  next c₀ hsome =>
    cases h
    refine ⟨R, .refl, hs, ?_, fun hc => absurd hc (Option.some_ne_none _), fun _ => ?_⟩
    · rw [← hsome]
      exact verdict_theoryContradiction s
    · rw [← hsome, excepted_theoryContradiction]
      exact hready.mono (List.Subset.refl _) (List.take_subset _ R)
  next hnot =>
    have hnone : s.theory.conflict = none := by
      have hverdict := verdict_theoryContradiction s
      rw [hnot] at hverdict
      exact hverdict
    simp only [Checked.bind_eq_ok] at h
    obtain ⟨⟨s₁, c₁⟩, hwatch, h⟩ := h
    obtain ⟨hmoves, hs₁, hverdict, hready₁, hempty⟩ := watchAll_eq_ok hs hnone hready hwatch
    split at h
    next hsome =>
      cases h
      have hne : c₁ ≠ none := Option.isSome_iff_ne_none.mp hsome
      exact ⟨R, hmoves, hs₁, hverdict, fun hc => absurd hc hne,
        fun _ => hready₁.mono (List.Subset.refl _) (List.take_subset _ R)⟩
    next hnot₁ =>
      obtain rfl : c₁ = none := Option.not_isSome_iff_eq_none.mp hnot₁
      obtain ⟨hmoves', hverdict', hunwatched, R', hs', hfinished, hstopped⟩ :=
        readAssignments_eq_ok hs₁ hverdict hready₁ h
      have hempty' : s'.unwatched = [] := hunwatched.trans (hempty rfl)
      refine ⟨R', hmoves.trans hmoves', hs', hverdict', fun hc => ?_, hstopped⟩
      obtain ⟨hall, hready'⟩ := hfinished hc
      rw [hempty'] at hready'
      exact ⟨hall, hempty', hready'⟩

end Solver

end TemporalNetwork
