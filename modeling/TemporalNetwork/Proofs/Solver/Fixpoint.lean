/-
What propagation leaves where it finds no contradiction.

In every state of a search the theory is consistent then, and no clause
is violated: one of the literals that a clause watches was not read as
false, and all was read. Until the first contradiction of the search no
clause is unit either, as all clauses are at rest. A search that never
has to take a decision back stays at fixed points in the full sense.

After a contradiction a clause can be unit at the end of propagation.
The clause that is learnt from a conflict watches a literal of the
decision that is flipped, which is true from then on, and one that is
false since an earlier decision. If the flipped decision is closed for
good while the earlier one stays open, the first literal has no value
again, and the clause is unit. Nothing was read that it waits for, so
that the next decision may well violate it.
-/
import Mathlib.Logic.Relation
import TemporalNetwork.Proofs.Clause.Quiet
import TemporalNetwork.Proofs.Solver.History

namespace TemporalNetwork

namespace Solver

variable {M : Set (BoolVar → Bool)} {s s' s₀ s₁ s₂ : Solver} {ts : List Theory} {R : List Literal}
  {p : Literal} {id : ClauseId} {U ids : List ClauseId} {status : ClauseStatus}
  {c : Config} {polarity : Bool} {rs : List Request} {history : List (Request × Reply)}

-- =============================================================== propagation

/-- Propagation takes no literal back. -/
theorem Move.trueLiterals_subset (h : Move s s') :
    s.theory.trueLiterals ⊆ s'.theory.trueLiterals := by
  cases h with
  | kept theory decisions clauses => rw [theory]
  | forced hid hvar hothers steps settled decisions clauses =>
      exact fun w hw =>
        steps.trueLiterals_subset (Theory.trueLiterals_subset_setLiteral hvar hw)

/-- What is wrong with a clause is put right, unless a contradiction
arises. -/
theorem settles_onStatus (hs : Searching s R) (hnone : s.theory.conflict = none)
    (hid : s.clauses.Has id) (hfound : s.clauses.Found id s.theory.value status)
    (h : s.onStatus id status = .ok (s', none)) :
    ClauseDatabase.Settles s.theory.value s'.theory.value status := by
  obtain ⟨hmove, -⟩ := onStatus_eq_ok hs hnone hid hfound h
  refine ⟨fun w hw => hmove.trueLiterals_subset hw, ?_, ?_⟩
  · rintro rfl
    cases h
  · rintro l rfl
    obtain ⟨hl, hfree, -⟩ := hfound
    have hvar := hs.formed.hasVariable id hid l hl
    unfold onStatus assignUnit at h
    simp only [Checked.bind_eq_ok, Checked.pure_eq_ok, Prod.mk.injEq] at h
    obtain ⟨s₁, hassign, rfl, -⟩ := h
    obtain ⟨theory, notifier, stats, r, hrun, rfl⟩ := assign_eq_ok hassign
    obtain ⟨-, hsteps⟩ := Theory.steps_assign hs.settled hvar hnone hrun
    apply hsteps.trueLiterals_subset
    exact (Theory.value_setLiteral hfree hvar l).mpr (.inr rfl)

/-- A clause was looked at, and no contradiction arose. -/
theorem settles_of_reorders {clauses : ClauseDatabase} {unwatched : List ClauseId}
    (hs : Searching s R) (hnone : s.theory.conflict = none)
    (hreorders : s.clauses.Reorders clauses) (hid : s.clauses.Has id)
    (hfound : s.clauses.Found id s.theory.value status)
    (h : onStatus { s with clauses, unwatched } id status = .ok (s', none)) :
    Searching s' R ∧ s'.theory.conflict = none ∧ s'.clauses = clauses ∧
      ClauseDatabase.Settles s.theory.value s'.theory.value status := by
  have hmove : Move s { s with clauses, unwatched } := .kept rfl rfl hreorders
  have hs₀ := hs.move hmove rfl hs.settled
  have hid₀ := hreorders.has.mpr hid
  have hfound₀ := hfound.reorders hreorders
  obtain ⟨-, hs', hverdict, hclauses, -⟩ := onStatus_eq_ok hs₀ hnone hid₀ hfound₀ h
  have hsettles := settles_onStatus hs₀ hnone hid₀ hfound₀ h
  exact ⟨hs', hverdict, hclauses, hsettles⟩

/-- Once all clauses have got their watches, no clause is left to be looked
at. -/
theorem quiet_watchAll (hs : Searching s R) (hnone : s.theory.conflict = none)
    (hready : s.clauses.Ready U R) (hquiet : s.clauses.Quiet U s.theory.value R)
    (h : watchAll U s = .ok (s', none)) : s'.clauses.Quiet [] s'.theory.value R := by
  induction U generalizing s with
  | nil =>
      cases h
      exact hquiet
  | cons id rest ih =>
      unfold watchAll at h
      simp only [Checked.bind_eq_ok] at h
      obtain ⟨⟨clauses, status⟩, hwatch, ⟨s₁, c₁⟩, hstatus, h⟩ := h
      split at h
      next hsome =>
        cases h
        cases hsome
      next hnot =>
        obtain rfl : c₁ = none := Option.not_isSome_iff_eq_none.mp hnot
        obtain ⟨hreorders, hid, hfound, hready₁⟩ := hready.watch hs.value hwatch
        obtain ⟨hs₁, hnone₁, hclauses, hsettles⟩ :=
          settles_of_reorders hs hnone hreorders hid hfound hstatus
        rw [if_neg hsettles.2.1] at hready₁
        have hquiet₁ := hquiet.watch hs.value hwatch hsettles
        rw [← hclauses] at hready₁ hquiet₁
        exact ih hs₁ hnone₁ hready₁ hquiet₁ h

/-- Once the list of a literal has been revisited, it counts as read. -/
theorem quiet_revisitAll (hs : Searching s (R ++ [p])) (hnone : s.theory.conflict = none)
    (hreading : s.clauses.Reading [] p ids R)
    (hquiet : s.clauses.QuietBut [] p ids s.theory.value R)
    (h : revisitAll p ids s = .ok (s', none)) :
    s'.clauses.Quiet [] s'.theory.value (R ++ [p]) := by
  induction ids generalizing s with
  | nil =>
      cases h
      exact hquiet.quiet
  | cons id rest ih =>
      unfold revisitAll at h
      simp only [Checked.bind_eq_ok] at h
      obtain ⟨⟨clauses, status⟩, hrevisit, ⟨s₁, c₁⟩, hstatus, h⟩ := h
      split at h
      next hsome =>
        cases h
        cases hsome
      next hnot =>
        obtain rfl : c₁ = none := Option.not_isSome_iff_eq_none.mp hnot
        have hnodup := hs.formed.nodup id
        obtain ⟨hreorders, hid, hfound, hreading₁⟩ := hreading.revisit hs.value hnodup hrevisit
        obtain ⟨hs₁, hnone₁, hclauses, hsettles⟩ :=
          settles_of_reorders hs hnone hreorders hid hfound hstatus
        rw [if_neg hsettles.2.1] at hreading₁
        have hquiet₁ := hquiet.revisit hs.value List.not_mem_nil hnodup hrevisit hsettles
        rw [← hclauses] at hreading₁ hquiet₁
        exact ih hs₁ hnone₁ hreading₁ hquiet₁ h

/-- Once all has been read, the database is quiet. -/
theorem quiet_readAssignments {n : Nat} (hs : Searching s R) (hnone : s.theory.conflict = none)
    (hready : s.clauses.Ready [] R) (hempty : s.unwatched = [])
    (hquiet : s.clauses.Quiet [] s.theory.value R) (h : readAssignments n s = .ok (s', none)) :
    s'.clauses.Quiet [] s'.theory.value s'.theory.assignments.toList := by
  induction n generalizing s R with
  | zero => cases h
  | succ n ih =>
      unfold readAssignments at h
      split at h
      next reader hpop =>
        cases h
        obtain ⟨-, hall⟩ := hs.read.pop_none hpop
        rw [← hall]
        exact hquiet
      next reader q hpop =>
        simp only [Checked.bind_eq_ok] at h
        obtain ⟨⟨s₁, c₁⟩, hrevisit, h⟩ := h
        split at h
        next hsome =>
          cases h
          cases hsome
        -- the clauses on the list are quiet again once they have been revisited
        next hnot =>
          obtain rfl : c₁ = none := Option.not_isSome_iff_eq_none.mp hnot
          have hsame := ClauseDatabase.reorders_takeWatchers s.clauses q
          have hs₀ : Searching { s with reader, clauses := (s.clauses.takeWatchers q).1 }
              (R ++ [q]) := by
            refine ⟨hs.settled, hs.formed.reorders hsame, hs.read.pop_some hpop, ?_⟩
            rw [List.length_append]
            exact Nat.le_trans hs.level (Nat.le_add_right _ _)
          have hreading := hready.takeWatchers q
          rw [← hempty] at hreading
          obtain ⟨-, hs₁, hverdict, hunwatched, hnext, -⟩ :=
            revisitAll_eq_ok hs₀ hnone hreading hrevisit
          have hempty₁ : s₁.unwatched = [] := hunwatched.trans hempty
          have hready₁ := hnext rfl
          rw [hempty₁] at hready₁
          rw [hempty] at hreading
          have hquiet₁ :=
            quiet_revisitAll hs₀ hnone hreading (hquiet.takeWatchers hready q) hrevisit
          exact ih hs₁ hverdict hready₁ hempty₁ hquiet₁ h

/-- At a fixed point all clauses are at rest, if they were so before but
for those whose watches were still to be selected. -/
theorem quiet_propagate (hs : Searching s R) (hready : s.clauses.Ready s.unwatched R)
    (hquiet : s.clauses.Quiet s.unwatched s.theory.value R)
    (h : s.propagate = .ok (s', none)) :
    s'.clauses.Quiet [] s'.theory.value s'.theory.assignments.toList := by
  unfold propagate at h
  split at h
  next => cases h
  next hnot =>
    have hnone : s.theory.conflict = none := by
      have hverdict := verdict_theoryContradiction s
      rw [hnot] at hverdict
      exact hverdict
    simp only [Checked.bind_eq_ok] at h
    obtain ⟨⟨s₁, c₁⟩, hwatch, h⟩ := h
    split at h
    next hsome =>
      cases h
      cases hsome
    next hnot₁ =>
      obtain rfl : c₁ = none := Option.not_isSome_iff_eq_none.mp hnot₁
      obtain ⟨-, hs₁, hverdict, hready₁, hempty⟩ := watchAll_eq_ok hs hnone hready hwatch
      have hready₂ : s₁.clauses.Ready [] R := by
        have hall := hready₁
        rw [hempty rfl] at hall
        exact hall
      exact quiet_readAssignments hs₁ hverdict hready₂ (hempty rfl)
        (quiet_watchAll hs hnone hready hquiet hwatch) h

-- ==================================================================== search

/-- Steps of a search lead from one state to the other. -/
def Searches (s s' : Solver) : Prop :=
  Relation.ReflTransGen (fun s s' => s.step = .ok (s', none)) s s'

/-- Each of them is taken at a fixed point, so that it is a decision. -/
def Descends (s s' : Solver) : Prop :=
  Relation.ReflTransGen
    (fun s s' => (∃ s₁, s.propagate = .ok (s₁, none)) ∧ s.step = .ok (s', none)) s s'

/-- Takes `n` steps, none of which has an answer, from states that pass the
test. -/
def stepTimes (test : Solver → Bool) : Nat → Solver → Checked Solver
  | 0, s => .ok s
  | n + 1, s => do
    let (s', result) ← s.step
    Checked.require (test s = true ∧ result.isNone = true) .stepLimit
    stepTimes test n s'

/-- Steps that were counted are steps. -/
theorem run_of_stepTimes {test : Solver → Bool} {n : Nat} (h : stepTimes test n s = .ok s') :
    Relation.ReflTransGen (fun s s' => test s = true ∧ s.step = .ok (s', none)) s s' := by
  induction n generalizing s with
  | zero =>
      cases h
      exact .refl
  | succ n ih =>
      unfold stepTimes at h
      simp only [Checked.bind_eq_ok, Checked.require_eq_ok] at h
      obtain ⟨⟨s₁, result⟩, hstep, -, ⟨htest, hresult⟩, hrest⟩ := h
      obtain rfl : result = none := Option.isNone_iff_eq_none.mp hresult
      exact .head ⟨htest, hstep⟩ (ih hrest)

/-- Counted steps of a search. -/
theorem searches_of_stepTimes {n : Nat} (h : stepTimes (fun _ => true) n s = .ok s') :
    Searches s s' :=
  Relation.ReflTransGen.mono (fun _ _ hstep => hstep.2) _ _ (run_of_stepTimes h)

/-- Counted steps, each taken at a fixed point. -/
theorem descends_of_stepTimes {n : Nat}
    (h : stepTimes (fun s => s.propagate.answers (·.2.isNone)) n s = .ok s') : Descends s s' := by
  refine Relation.ReflTransGen.mono (fun a b hstep => ⟨?_, hstep.2⟩) _ _ (run_of_stepTimes h)
  obtain ⟨⟨s₁, contradiction⟩, hpropagate, hnone⟩ := Checked.exists_of_answers hstep.1
  obtain rfl : contradiction = none := Option.isNone_iff_eq_none.mp hnone
  exact ⟨s₁, hpropagate⟩

/-- Decisions are steps of a search. -/
theorem Descends.searches (h : Descends s s') : Searches s s' :=
  Relation.ReflTransGen.mono (fun _ _ hstep => hstep.2) _ _ h

/-- A search goes on exploring. -/
theorem Searches.exploring (h : Searches s s') (hs : Exploring M s ts R) :
    ∃ ts' R', Exploring M s' ts' R' := by
  induction h with
  | refl => exact ⟨ts, R, hs⟩
  | tail _ hstep ih =>
      obtain ⟨ts₁, R₁, h₁⟩ := ih
      exact (step_eq_ok h₁ hstep).2.1 rfl

/-- What was true is true on the new level. -/
theorem trueLiterals_subset_openDecision {d : Decision} (ht : s.theory.Settled)
    (hopen : s.CanDecide d.literal) (h : s.openDecision d = .ok s') :
    s.theory.trueLiterals ⊆ s'.theory.trueLiterals := by
  unfold openDecision at h
  simp only [Checked.bind_eq_ok, Theory.pushCheckpoint_eq_ok] at h
  obtain ⟨_, ⟨-, rfl⟩, hassign⟩ := h
  obtain ⟨theory, notifier, stats, r, hrun, rfl⟩ := assign_eq_ok hassign
  have hvar : s.theory.saved.hasVariable d.literal.var = true := hopen.hasVariable
  have hnone : s.theory.saved.conflict = none := hopen.consistent
  obtain ⟨-, hsteps⟩ := Theory.steps_assign (Theory.settled_saved ht) hvar hnone hrun
  have hset : s.theory.saved.trueLiterals ⊆ (s.theory.saved.setLiteral d.literal).trueLiterals :=
    Theory.trueLiterals_subset_setLiteral hvar
  exact Set.Subset.trans hset hsteps.trueLiterals_subset

/-- A decision leaves clauses at rest. -/
theorem quiet_step (hs : Exploring M s ts R) (hquiet : s.clauses.Quiet s.unwatched s.theory.value R)
    (hpropagate : s.propagate = .ok (s₁, none)) (hstep : s.step = .ok (s', none)) :
    ∃ ts' R', Exploring M s' ts' R' ∧ s'.clauses.Quiet s'.unwatched s'.theory.value R' := by
  obtain ⟨R₁, hprop⟩ := propagates hs.searching hs.ready hpropagate
  obtain ⟨hall, hempty, hready⟩ := hprop.finished rfl
  subst hall
  have hpath := hs.path.moves hprop.moves hprop.searching.settled
  have hquiet₁ := quiet_propagate hs.searching hs.ready hquiet hpropagate
  unfold step at hstep
  simp only [Checked.bind_eq_ok] at hstep
  obtain ⟨_, hrun, hstep⟩ := hstep
  cases hrun.symm.trans hpropagate
  simp only at hstep
  cases hnext : s₁.nextDecision with
  -- the step would have had an answer
  | none =>
      rw [hnext] at hstep
      simp only [Checked.bind_eq_ok, Checked.pure_eq_ok, Prod.mk.injEq] at hstep
      obtain ⟨x, -, -, hc⟩ := hstep
      cases hc
  | some l =>
      rw [hnext] at hstep
      simp only [Checked.bind_eq_ok, Checked.pure_eq_ok, Prod.mk.injEq] at hstep
      obtain ⟨s₂, hdecide, rfl, -⟩ := hstep
      have hopen := canDecide_nextDecision hprop.verdict hnext
      obtain ⟨hexploring, -, hclauses, hunwatched⟩ :=
        decide_eq_ok hprop.searching hpath hready hempty hopen hdecide
      refine ⟨_, _, hexploring, ?_⟩
      rw [hclauses, hunwatched]
      have hgrows : s₁.theory.trueLiterals ⊆ s₂.theory.trueLiterals :=
        @trueLiterals_subset_openDecision
          { s₁ with stats := { s₁.stats with decisions := s₁.stats.decisions + 1 } } s₂ ⟨l, false⟩
          hprop.searching.settled ⟨hopen.hasVariable, hopen.fresh, hopen.consistent⟩ hdecide
      exact hquiet₁.mono fun w hw => hgrows hw

/-- As long as nothing but decisions is taken, the database stays quiet. -/
theorem Descends.quiet (h : Descends s s') (hs : Exploring M s ts R)
    (hquiet : s.clauses.Quiet s.unwatched s.theory.value R) :
    ∃ ts' R', Exploring M s' ts' R' ∧ s'.clauses.Quiet s'.unwatched s'.theory.value R' := by
  induction h with
  | refl => exact ⟨ts, R, hs, hquiet⟩
  | tail _ hstep ih =>
      obtain ⟨ts₁, R₁, h₁, hquiet₁⟩ := ih
      obtain ⟨⟨s₁, hpropagate⟩, hnext⟩ := hstep
      exact quiet_step h₁ hquiet₁ hpropagate hnext

/-- A search begins with all watches to be selected. -/
theorem exploring_start (h : (ofTheory (.initial c) polarity).performAll rs = .ok (s, history))
    (hstart : s.start = .ok s₀) :
    Exploring ∅ s₀ [] s₀.theory.assignments.toList ∧
      s₀.clauses.Quiet s₀.unwatched s₀.theory.value s₀.theory.assignments.toList := by
  refine ⟨(start_eq_ok (settled_of_performAll h) hstart).2, ?_⟩
  unfold start at hstart
  simp only [Checked.bind_eq_ok, Checked.require_eq_ok, Checked.pure_eq_ok] at hstart
  obtain ⟨⟨s₁, r⟩, hreset, -, -, rfl⟩ := hstart
  apply ClauseDatabase.quiet_of_forall_mem
  intro id hid
  rw [List.mem_reverse]
  exact (HandleVector.mem_keys _ _).mpr hid

-- =============================================================== fixed points

/-- Wherever propagation ends without a contradiction, in a search after
any history, the theory is consistent and each clause has a literal that
is not false. Until the first contradiction of the search each clause is
satisfied or has two literals without a value. -/
theorem exists_not_false_of_propagate
    (h : (ofTheory (.initial c) polarity).performAll rs = .ok (s, history))
    (hstart : s.start = .ok s₀) (hsearches : Searches s₀ s₁)
    (hpropagate : s₁.propagate = .ok (s₂, none)) :
    s₂.theory.conflict = none ∧
      (∀ id, s₂.clauses.Has id →
        ∃ l ∈ s₂.clauses.literalsOf id, s₂.theory.value l ≠ some false) ∧
      (Descends s₀ s₁ → ∀ id, s₂.clauses.Has id →
        (∃ l ∈ s₂.clauses.literalsOf id, s₂.theory.value l = some true) ∨
          ∃ l ∈ s₂.clauses.literalsOf id, ∃ m ∈ s₂.clauses.literalsOf id,
            l ≠ m ∧ s₂.theory.value l = none ∧ s₂.theory.value m = none) := by
  obtain ⟨hexploring, hquiet⟩ := exploring_start h hstart
  obtain ⟨ts, R, h₁⟩ := hsearches.exploring hexploring
  obtain ⟨R₂, hprop⟩ := propagates h₁.searching h₁.ready hpropagate
  obtain ⟨hall, -, hready⟩ := hprop.finished rfl
  have hread : ∀ w, s₂.theory.value w = some false →
      w.negate ∈ s₂.theory.assignments.toList := by
    intro w hw
    apply (hprop.searching.settled.coherent.assigned w.negate).mpr
    exact Theory.value_negate_eq_true.mpr hw
  refine ⟨hprop.verdict, fun id hid => ?_, fun hdescends id hid => ?_⟩
  · obtain ⟨w, hw, hunread⟩ := hready.alert id hid List.not_mem_nil
    refine ⟨w, List.mem_of_mem_take hw, fun hfalse => hunread ?_⟩
    rw [hall]
    exact hread w hfalse
  · obtain ⟨ts', R', h', hquiet'⟩ := hdescends.quiet hexploring hquiet
    have hrests := quiet_propagate h'.searching h'.ready hquiet' hpropagate
    exact (hrests id hid List.not_mem_nil).not_unit (hprop.searching.formed.nodup id hid) hread

/-- Two decisions leave one clause with two literals without a value, and
satisfy the other one. -/
theorem exists_not_false_of_propagate_twice :
    ∃ s history s₀ s₁ s₂, (ofTheory (.initial .standard) true).performAll
        [.theory (.newTimepoint ⟨0, 10⟩), .theory .newVariable, .theory .newVariable,
          .theory .newVariable, .theory .newVariable,
          .theory (.bindBound ⟨⟨3⟩, true⟩ (.leq ⟨1⟩ 3)),
          .addClause (.ofList [⟨⟨0⟩, false⟩, ⟨⟨2⟩, true⟩, ⟨⟨3⟩, true⟩]),
          .addClause (.ofList [⟨⟨1⟩, true⟩, ⟨⟨2⟩, false⟩])] = .ok (s, history) ∧
      s.start = .ok s₀ ∧ Descends s₀ s₁ ∧ s₁.propagate = .ok (s₂, none) ∧
      s₁.decisions.length = 2 ∧ s₂.clauses.size = 2 ∧ s₂.theory.conflict = none ∧
      ∀ id, s₂.clauses.Has id →
        (∃ l ∈ s₂.clauses.literalsOf id, s₂.theory.value l = some true) ∨
          ∃ l ∈ s₂.clauses.literalsOf id, ∃ m ∈ s₂.clauses.literalsOf id,
            l ≠ m ∧ s₂.theory.value l = none ∧ s₂.theory.value m = none := by
  have hrun : ((ofTheory (.initial .standard) true).performAll
      [.theory (.newTimepoint ⟨0, 10⟩), .theory .newVariable, .theory .newVariable,
        .theory .newVariable, .theory .newVariable,
        .theory (.bindBound ⟨⟨3⟩, true⟩ (.leq ⟨1⟩ 3)),
        .addClause (.ofList [⟨⟨0⟩, false⟩, ⟨⟨2⟩, true⟩, ⟨⟨3⟩, true⟩]),
        .addClause (.ofList [⟨⟨1⟩, true⟩, ⟨⟨2⟩, false⟩])]).answers (fun p =>
          p.1.start.answers fun s₀ =>
            (stepTimes (fun s => s.propagate.answers (·.2.isNone)) 2 s₀).answers fun s₁ =>
              s₁.decisions.length == 2 && s₁.propagate.answers fun q =>
                q.2.isNone && q.1.clauses.size == 2) = true := by decide +kernel
  obtain ⟨⟨s, history⟩, h, hstarts⟩ := Checked.exists_of_answers hrun
  obtain ⟨s₀, hstart, hsteps⟩ := Checked.exists_of_answers hstarts
  obtain ⟨s₁, hdescends, htest⟩ := Checked.exists_of_answers hsteps
  obtain ⟨hlength, hends⟩ := Bool.and_eq_true_iff.mp htest
  obtain ⟨⟨s₂, contradiction⟩, hpropagate, hresult⟩ := Checked.exists_of_answers hends
  obtain ⟨hnone, hsize⟩ := Bool.and_eq_true_iff.mp hresult
  obtain rfl : contradiction = none := Option.isNone_iff_eq_none.mp hnone
  have hall := descends_of_stepTimes hdescends
  obtain ⟨hconflict, -, hfixpoint⟩ :=
    exists_not_false_of_propagate h hstart hall.searches hpropagate
  exact ⟨s, history, s₀, s₁, s₂, h, hstart, hall, hpropagate, beq_iff_eq.mp hlength,
    beq_iff_eq.mp hsize, hconflict, hfixpoint hall⟩

/-- Four edges close cycles in pairs, and after three contradictions the
clause that was learnt first is unit where propagation ends. -/
theorem exists_unit_of_propagate :
    ∃ s history s₀ s₁ s₂ id l, (ofTheory (.initial ⟨.off, false⟩) true).performAll
        [.theory (.newTimepoint ⟨0, 10⟩), .theory (.newTimepoint ⟨0, 10⟩), .theory .newVariable,
          .theory .newVariable, .theory .newVariable, .theory .newVariable,
          .theory (.addConditionalEdge .origin ⟨1⟩ 3 ⟨⟨0⟩, true⟩),
          .theory (.addConditionalEdge ⟨1⟩ .origin (-7) ⟨⟨2⟩, true⟩),
          .theory (.addConditionalEdge .origin ⟨2⟩ 3 ⟨⟨1⟩, true⟩),
          .theory (.addConditionalEdge ⟨2⟩ .origin (-7) ⟨⟨3⟩, true⟩),
          .theory (.addConditionalEdge ⟨2⟩ .origin (-7) ⟨⟨3⟩, false⟩)] = .ok (s, history) ∧
      s.start = .ok s₀ ∧ Searches s₀ s₁ ∧ s₁.propagate = .ok (s₂, none) ∧
      s₂.clauses.Has id ∧ l ∈ s₂.clauses.literalsOf id ∧ s₂.theory.value l = none ∧
      ∀ m ∈ s₂.clauses.literalsOf id, m ≠ l → s₂.theory.value m = some false := by
  have hrun : ((ofTheory (.initial ⟨.off, false⟩) true).performAll
      [.theory (.newTimepoint ⟨0, 10⟩), .theory (.newTimepoint ⟨0, 10⟩), .theory .newVariable,
        .theory .newVariable, .theory .newVariable, .theory .newVariable,
        .theory (.addConditionalEdge .origin ⟨1⟩ 3 ⟨⟨0⟩, true⟩),
        .theory (.addConditionalEdge ⟨1⟩ .origin (-7) ⟨⟨2⟩, true⟩),
        .theory (.addConditionalEdge .origin ⟨2⟩ 3 ⟨⟨1⟩, true⟩),
        .theory (.addConditionalEdge ⟨2⟩ .origin (-7) ⟨⟨3⟩, true⟩),
        .theory (.addConditionalEdge ⟨2⟩ .origin (-7) ⟨⟨3⟩, false⟩)]).answers (fun p =>
          p.1.start.answers fun s₀ => (stepTimes (fun _ => true) 7 s₀).answers fun s₁ =>
            s₁.propagate.answers fun q => q.2.isNone &&
              Decidable.decide (q.1.clauses.Has ⟨0⟩ ∧
                ⟨⟨2⟩, false⟩ ∈ q.1.clauses.literalsOf ⟨0⟩ ∧
                q.1.theory.value ⟨⟨2⟩, false⟩ = none ∧
                ∀ m ∈ q.1.clauses.literalsOf ⟨0⟩, m ≠ ⟨⟨2⟩, false⟩ →
                  q.1.theory.value m = some false)) = true := by decide +kernel
  obtain ⟨⟨s, history⟩, h, hstarts⟩ := Checked.exists_of_answers hrun
  obtain ⟨s₀, hstart, hsteps⟩ := Checked.exists_of_answers hstarts
  obtain ⟨s₁, hsearches, hends⟩ := Checked.exists_of_answers hsteps
  obtain ⟨⟨s₂, contradiction⟩, hpropagate, hresult⟩ := Checked.exists_of_answers hends
  obtain ⟨hnone, hunit⟩ := Bool.and_eq_true_iff.mp hresult
  obtain rfl : contradiction = none := Option.isNone_iff_eq_none.mp hnone
  exact ⟨s, history, s₀, s₁, s₂, ⟨0⟩, ⟨⟨2⟩, false⟩, h, hstart, searches_of_stepTimes hsearches,
    hpropagate, of_decide_eq_true hunit⟩

end Solver

end TemporalNetwork
