/-
What a solver does, deed by deed.

To its theory a solver makes requests, it sets literals through its
notifier, and it reads the assignments, from where it last was or from the
end of what there is at the start of a search. An assignment that is read is
visited: the clauses that watch its negation are revisited before the next
one is read. `Solver.deeds` lists all this for a history, in order, along
the branches that the solver takes; what it visits is listed where the
clauses are taken off their list.

So a solver is a listener, whose calls are these deeds (`Heeds`). Nothing is
left out: the calls lead to the theory, the notifier and the reader that the
solver has then, the literals that were visited are those that were read,
and as many implications were heard as the solver has counted. The lemmas
follow the functions of the solver, one each.
-/
import TemporalNetwork.Proofs.Solver.Fixpoint
import TemporalNetwork.Proofs.Theory.Publication

namespace TemporalNetwork

/-- Something that a solver does to its theory or as one who listens. -/
inductive Deed where
  | request (r : Theory.Request)
  /-- Through the notifier. -/
  | assign (l : Literal)
  /-- The assignment is read, and the clauses that watch its negation are
  revisited. -/
  | visit (p : Literal)
  /-- There is no assignment left to be read. -/
  | finish
  /-- All assignments there are count as read. -/
  | skip

namespace Deed

/-- The deed as it is seen by those who listen. That an assignment is visited
makes no difference to them. -/
def call : Deed → Call
  | .request r => .request r
  | .assign l => .assign l
  | .visit _ | .finish => .read
  | .skip => .skip

/-- The assignments that were visited. -/
def visited : Deed → List Literal
  | .visit p => [p]
  | _ => []

end Deed

/-- What is done about a clause. -/
def ClauseStatus.deeds : ClauseStatus → List Deed
  | .unit l => [.assign l]
  | _ => []

/-- What opening a decision takes. -/
def Decision.deeds (d : Decision) : List Deed := [.request .pushCheckpoint, .assign d.literal]

namespace Solver

-- ================================================================== listed

/-- What is done next, unless a contradiction or a result has been found. -/
def onward {γ : Type} (x : Checked (Solver × Option γ)) (next : Solver → List Deed) :
    List Deed :=
  x.noting fun (s, found) => if found.isSome then [] else next s

/-- Clauses have their watches selected in turn, up to a contradiction. A unit
clause sets its literal before the next one is looked at. -/
def watchDeeds : List ClauseId → Solver → List Deed
  | [], _ => []
  | id :: rest, s =>
    (s.clauses.watch id s.theory.value).noting fun (clauses, status) =>
      let s := { s with clauses, unwatched := rest }
      status.deeds ++ onward (s.onStatus id status) (watchDeeds rest)

/-- Clauses are revisited in turn, up to a contradiction. -/
def revisitDeeds (p : Literal) : List ClauseId → Solver → List Deed
  | [], _ => []
  | id :: rest, s =>
    (s.clauses.revisit id p s.theory.value).noting fun (clauses, status) =>
      let s := { s with clauses }
      status.deeds ++ onward (s.onStatus id status) (revisitDeeds p rest)

/-- Assignments are read and visited in turn, up to a contradiction or until
there is none left. -/
def readDeeds : Nat → Solver → List Deed
  | 0, _ => []
  | n + 1, s =>
    match s.reader.pop s.theory.assignments with
    | (_, none) => [.finish]
    | (reader, some p) =>
      let (clauses, ids) := s.clauses.takeWatchers p
      let s := { s with reader, clauses }
      .visit p :: revisitDeeds p ids s ++ onward (revisitAll p ids s) (readDeeds n)

/-- Under a conflict of the theory nothing is done. -/
def propagateDeeds (s : Solver) : List Deed :=
  match s.theoryContradiction with
  | some _ => []
  | none =>
    watchDeeds s.unwatched s ++
      onward (watchAll s.unwatched s) fun s => readDeeds (s.theory.numVariables + 1) s

/-- Decisions are closed until one is flipped. -/
def flipDeeds : List Decision → Theory → List Deed
  | [], _ => []
  | d :: rest, t =>
    let parent := t.level.parent?.getD .root
    .request (.backtrack parent) ::
      if d.flipped then (t.backtrack parent).noting fun (t, _) => flipDeeds rest t
      else (⟨d.literal.negate, true⟩ : Decision).deeds

/-- A contradiction without a literal leaves nothing to be flipped. -/
def backtrackDeeds (s : Solver) (c : Contradiction) : List Deed :=
  (s.isHopeless c).noting fun hopeless =>
    if hopeless then [] else flipDeeds s.decisions s.theory

/-- After propagation a variable is decided, or a decision is flipped. -/
def stepDeeds (s : Solver) : List Deed :=
  s.propagateDeeds ++ s.propagate.noting fun
    | (s, none) =>
      match s.nextDecision with
      | some l => (⟨l, false⟩ : Decision).deeds
      | none => []
    | (s, some c) => s.backtrackDeeds c

/-- The steps that are taken until the search has a result or gives up. -/
def runDeeds : Nat → Deadline → Solver → List Deed
  | 0, _, _ => []
  | n + 1, deadline, s =>
    if deadline.isReached then []
    else s.stepDeeds ++ onward s.step (runDeeds n deadline.next)

/-- All levels are closed. -/
def resetDeeds : List Deed := [.request (.backtrack .root)]

/-- A search begins at the end of what is assigned at the root. -/
def startDeeds : List Deed := resetDeeds ++ [.skip]

/-- What a request makes the solver do. -/
def requestDeeds (s : Solver) : Request → List Deed
  | .theory r => [.request r]
  | .addClause _ | .setPolarity _ => []
  | .solve deadline =>
    startDeeds ++ s.start.noting fun s => runDeeds s.stepBound deadline s
  | .reset => resetDeeds

/-- What requests make the solver do, one after the other. -/
def deeds : List Request → Solver → List Deed
  | [], _ => []
  | r :: rs, s => s.requestDeeds r ++ (s.perform r).noting fun (s, _) => deeds rs s

/-- Steps of a search lead from one state to the other, with what is done
in them. -/
inductive Does (s : Solver) : List Deed → Solver → Prop where
  | nothing : Does s [] s
  | step {deeds : List Deed} {s₁ s' : Solver} (before : Does s deeds s₁)
      (next : s₁.step = .ok (s', none)) : Does s (deeds ++ s₁.stepDeeds) s'

-- ================================================================== heeded

variable {s s' s'' : Solver} {l p : Literal} {id : ClauseId} {ids : List ClauseId}
  {status : ClauseStatus} {c : Option Contradiction} {d : Decision} {ds : List Decision}
  {todo todo' : List Deed}

/-- The parts of a solver that listen, and what they listen to. -/
def listener (s : Solver) : Listener := ⟨s.theory, s.notifier, s.reader⟩

/-- The deeds lead from one state to the other. The assignments that are
read are those that are visited, and the implications that are heard are
counted. -/
def Heeds (todo : List Deed) (s s' : Solver) : Prop :=
  ∃ heards, s.listener.performAll (todo.map Deed.call) = .ok (s'.listener, heards) ∧
    heards.flatMap Heard.assignments = todo.flatMap Deed.visited ∧
    s'.stats.theoryPropagations
      = s.stats.theoryPropagations + (heards.flatMap Heard.implications).length

/-- Neither the theory nor a reader takes part. -/
theorem heeds_of_eq (hlistener : s'.listener = s.listener)
    (hstats : s'.stats.theoryPropagations = s.stats.theoryPropagations) : Heeds [] s s' := by
  refine ⟨[], ?_, rfl, hstats⟩
  rw [hlistener]
  rfl

theorem Heeds.refl (s : Solver) : Heeds [] s s := heeds_of_eq rfl rfl

/-- Deeds in turn. -/
theorem Heeds.trans (h : Heeds todo s s') (h' : Heeds todo' s' s'') :
    Heeds (todo ++ todo') s s'' := by
  obtain ⟨heards, hrun, hvisited, hcount⟩ := h
  obtain ⟨heards', hrun', hvisited', hcount'⟩ := h'
  refine ⟨heards ++ heards', ?_, ?_, ?_⟩
  · rw [List.map_append]
    exact Checked.runAll_append hrun hrun'
  · rw [List.flatMap_append, List.flatMap_append, hvisited, hvisited']
  · rw [hcount', hcount, List.flatMap_append, List.length_append, Nat.add_assoc]

/-- What was done before concerns neither. -/
theorem Heeds.after (h : Heeds todo s' s'') (hlistener : s'.listener = s.listener)
    (hstats : s'.stats.theoryPropagations = s.stats.theoryPropagations) : Heeds todo s s'' :=
  (heeds_of_eq hlistener hstats).trans h

/-- A single deed. -/
theorem heeds_of_perform (deed : Deed) (heard : Heard)
    (h : s.listener.perform deed.call = .ok (s'.listener, heard))
    (hvisited : heard.assignments = deed.visited)
    (hcount : s'.stats.theoryPropagations
      = s.stats.theoryPropagations + heard.implications.length) : Heeds [deed] s s' := by
  refine ⟨[heard], ?_, ?_, ?_⟩
  · show Checked.runAll Listener.perform s.listener [deed.call] = _
    unfold Checked.runAll
    simp only [Checked.bind_eq_ok]
    exact ⟨_, h, _, rfl, rfl⟩
  · rw [List.flatMap_singleton, List.flatMap_singleton, hvisited]
  · rw [hcount, List.flatMap_singleton]

/-- The theory is asked for something. -/
theorem heeds_request {r : Theory.Request} {reply : Theory.Reply} {t : Theory}
    (h : s.theory.perform r = .ok (t, reply))
    (hlistener : s'.listener = { s.listener with theory := t })
    (hstats : s'.stats.theoryPropagations = s.stats.theoryPropagations) :
    Heeds [.request r] s s' := by
  refine heeds_of_perform (.request r) .nothing ?_ rfl hstats
  rw [hlistener]
  exact Checked.map_eq_ok.mpr ⟨_, h, rfl⟩

/-- What the notifier passes on is counted. -/
theorem heeds_assign (h : s.assign l = .ok s') : Heeds [.assign l] s s' := by
  unfold assign at h
  simp only [Checked.bind_eq_ok, Checked.pure_eq_ok] at h
  obtain ⟨a, hassign, -, -, rfl⟩ := h
  refine heeds_of_perform (.assign l) (.notified a.notifications) ?_ rfl ?_
  · exact Checked.map_eq_ok.mpr ⟨a, hassign, rfl⟩
  · unfold Notifier.assign at hassign
    simp only [Checked.bind_eq_ok, Checked.pure_eq_ok] at hassign
    obtain ⟨⟨t, r⟩, -, rfl⟩ := hassign
    split
    next =>
      rw [Listener.implications_sync]
      simp [Notifier.sync]
    next => rfl
    next => rfl

/-- Where no contradiction was found, what is done next is done. -/
theorem Heeds.onward {γ : Type} {s₁ stopped : Solver} {found result : Option γ}
    {next : Checked (Solver × Option γ)} {listed : Solver → List Deed} (h : Heeds todo s s₁)
    (hrun : (if found.isSome then pure (stopped, found) else next) = .ok (s', result))
    (hlistener : stopped.listener = s₁.listener)
    (hstats : stopped.stats.theoryPropagations = s₁.stats.theoryPropagations)
    (hnext : next = .ok (s', result) → Heeds (listed s₁) s₁ s') :
    Heeds (todo ++ Solver.onward (.ok (s₁, found)) listed) s s' := by
  cases found with
  | some a =>
      cases hrun
      exact h.trans (heeds_of_eq hlistener hstats)
  | none => exact h.trans (hnext hrun)

-- =============================================================== propagation

/-- Only a unit clause has something done about it. -/
theorem heeds_onStatus (h : s.onStatus id status = .ok (s', c)) : Heeds status.deeds s s' := by
  cases status with
  | satisfied =>
      cases h
      exact .refl _
  | undetermined =>
      cases h
      exact .refl _
  | violated =>
      cases h
      exact .refl _
  | unit l =>
      unfold onStatus assignUnit at h
      simp only [Checked.bind_eq_ok, Checked.pure_eq_ok, Prod.mk.injEq] at h
      obtain ⟨s₁, hassign, rfl, -⟩ := h
      exact (heeds_assign hassign).after rfl rfl

/-- Each clause in turn: the list goes on exactly where `watchAll` does. -/
theorem heeds_watchAll (h : watchAll ids s = .ok (s', c)) : Heeds (watchDeeds ids s) s s' := by
  induction ids generalizing s with
  | nil =>
      cases h
      exact heeds_of_eq rfl rfl
  | cons id rest ih =>
      unfold watchAll at h
      simp only [Checked.bind_eq_ok] at h
      obtain ⟨⟨clauses, status⟩, hwatch, ⟨s₁, c₁⟩, hstatus, h⟩ := h
      have hfirst : Heeds status.deeds s s₁ := (heeds_onStatus hstatus).after rfl rfl
      simp only [watchDeeds, hwatch, hstatus, Checked.noting_ok]
      exact hfirst.onward h rfl rfl ih

/-- Likewise where clauses are revisited. The ones that are given back at a
contradiction are not looked at, so that nothing is listed for them. -/
theorem heeds_revisitAll (h : revisitAll p ids s = .ok (s', c)) :
    Heeds (revisitDeeds p ids s) s s' := by
  induction ids generalizing s with
  | nil =>
      cases h
      exact .refl _
  | cons id rest ih =>
      unfold revisitAll at h
      simp only [Checked.bind_eq_ok] at h
      obtain ⟨⟨clauses, status⟩, hrevisit, ⟨s₁, c₁⟩, hstatus, h⟩ := h
      have hfirst : Heeds status.deeds s s₁ := (heeds_onStatus hstatus).after rfl rfl
      simp only [revisitDeeds, hrevisit, hstatus, Checked.noting_ok]
      exact hfirst.onward h rfl rfl ih

/-- What is read is visited before the next assignment is read. -/
theorem heeds_readAssignments {n : Nat} (h : readAssignments n s = .ok (s', c)) :
    Heeds (readDeeds n s) s s' := by
  induction n generalizing s with
  | zero => cases h
  | succ n ih =>
      unfold readAssignments at h
      unfold readDeeds
      rcases hpop : s.reader.pop s.theory.assignments with ⟨reader, _ | q⟩
      · simp only [hpop] at h ⊢
        cases h
        refine heeds_of_perform .finish (.assignment none) ?_ rfl rfl
        unfold Listener.perform Deed.call listener
        rw [hpop]
      · simp only [hpop, Checked.bind_eq_ok] at h ⊢
        obtain ⟨⟨s₁, c₁⟩, hrevisit, h⟩ := h
        have hread : Heeds [.visit q] s
            { s with reader, clauses := (s.clauses.takeWatchers q).1 } := by
          refine heeds_of_perform (.visit q) (.assignment (some q)) ?_ rfl rfl
          unfold Listener.perform Deed.call listener
          rw [hpop]
        have hfirst := hread.trans (heeds_revisitAll hrevisit)
        rw [hrevisit]
        exact hfirst.onward h rfl rfl ih

/-- Clauses first, then assignments. -/
theorem heeds_propagate (h : s.propagate = .ok (s', c)) : Heeds s.propagateDeeds s s' := by
  unfold propagate at h
  unfold propagateDeeds
  cases hconflict : s.theoryContradiction with
  | some _ =>
    simp only [hconflict] at h ⊢
    cases h
    exact .refl _
  | none =>
    simp only [hconflict, Checked.bind_eq_ok] at h ⊢
    obtain ⟨⟨s₁, c₁⟩, hwatch, h⟩ := h
    rw [hwatch]
    exact (heeds_watchAll hwatch).onward h rfl rfl heeds_readAssignments

-- ==================================================================== search

/-- A level is opened before the literal is set. -/
theorem heeds_openDecision (h : s.openDecision d = .ok s') : Heeds d.deeds s s' := by
  unfold openDecision at h
  simp only [Checked.bind_eq_ok] at h
  obtain ⟨t, hpush, hassign⟩ := h
  have hopen : s.theory.perform .pushCheckpoint = .ok (t, .level t.level) :=
    Checked.map_eq_ok.mpr ⟨t, hpush, rfl⟩
  have hfirst : Heeds [.request .pushCheckpoint] s
      { s with theory := t, decisions := d :: s.decisions } := heeds_request hopen rfl rfl
  exact hfirst.trans (heeds_assign hassign)

/-- Each decision that is closed closes a level. The one that is flipped opens
it again. -/
theorem heeds_flipLast {goesOn : Bool} (h : flipLast ds s = .ok (s', goesOn)) :
    Heeds (flipDeeds ds s.theory) s s' := by
  induction ds generalizing s with
  | nil =>
      cases h
      exact heeds_of_eq rfl rfl
  | cons d rest ih =>
      unfold flipLast at h
      simp only [Checked.bind_eq_ok] at h
      obtain ⟨⟨t, r⟩, hback, -, -, h⟩ := h
      have hclose : s.theory.perform (.backtrack (s.theory.level.parent?.getD .root))
          = .ok (t, .ofMisusable r) := Checked.map_eq_ok.mpr ⟨_, hback, rfl⟩
      have hfirst : Heeds [.request (.backtrack (s.theory.level.parent?.getD .root))] s
          { s with theory := t, decisions := rest } := heeds_request hclose rfl rfl
      simp only [flipDeeds, hback, Checked.noting_ok]
      split at h
      next hflipped =>
        rw [if_pos hflipped]
        exact hfirst.trans (ih h)
      next hnot =>
        simp only [Checked.bind_eq_ok, Checked.pure_eq_ok, Prod.mk.injEq] at h
        obtain ⟨s₁, hopen, rfl, -⟩ := h
        rw [if_neg hnot]
        exact hfirst.trans (heeds_openDecision hopen)

/-- The clause of a contradiction is kept without asking the theory. -/
theorem heeds_keep {c : Contradiction} (h : s.keep c = .ok s') : Heeds [] s s' := by
  cases c with
  | theory clause =>
      cases h
      exact heeds_of_eq rfl rfl
  | clause id =>
      unfold keep at h
      simp only [Checked.bind_eq_ok, Checked.pure_eq_ok] at h
      obtain ⟨clauses, -, rfl⟩ := h
      exact heeds_of_eq rfl rfl

/-- Whatever the contradiction, the deeds are those of flipping a decision. -/
theorem heeds_backtrackFrom {c : Contradiction} {goesOn : Bool}
    (h : s.backtrackFrom c = .ok (s', goesOn)) : Heeds (s.backtrackDeeds c) s s' := by
  unfold backtrackFrom at h
  simp only [Checked.bind_eq_ok] at h
  obtain ⟨hopeless, hhopeless, h⟩ := h
  simp only [backtrackDeeds, hhopeless, Checked.noting_ok]
  split at h
  next hyes =>
    cases h
    rw [if_pos hyes]
    exact .refl _
  next hno =>
    simp only [Checked.bind_eq_ok] at h
    obtain ⟨⟨s₁, flipped⟩, hflip, h⟩ := h
    have hfirst := heeds_flipLast hflip
    rw [if_neg hno]
    split at h
    next =>
      simp only [Checked.bind_eq_ok, Checked.pure_eq_ok, Prod.mk.injEq] at h
      obtain ⟨s₂, hkeep, rfl, -⟩ := h
      exact List.append_nil (flipDeeds s.decisions s.theory) ▸ hfirst.trans (heeds_keep hkeep)
    next =>
      cases h
      exact hfirst

/-- One step of the search. -/
theorem heeds_step {result : Option SearchResult} (h : s.step = .ok (s', result)) :
    Heeds s.stepDeeds s s' := by
  unfold step at h
  simp only [Checked.bind_eq_ok] at h
  obtain ⟨⟨s₁, contradiction⟩, hpropagate, h⟩ := h
  have hfirst := heeds_propagate hpropagate
  simp only [stepDeeds, hpropagate, Checked.noting_ok]
  cases contradiction with
  | none =>
      simp only at h
      cases hnext : s₁.nextDecision with
      | some l =>
          rw [hnext] at h
          simp only [Checked.bind_eq_ok, Checked.pure_eq_ok, Prod.mk.injEq] at h
          obtain ⟨s₂, hdecide, rfl, -⟩ := h
          simp only [hnext]
          exact hfirst.trans (Heeds.after (heeds_openDecision hdecide) rfl rfl)
      | none =>
          rw [hnext] at h
          simp only [Checked.bind_eq_ok, Checked.pure_eq_ok, Prod.mk.injEq] at h
          obtain ⟨x, -, rfl, -⟩ := h
          simp only [hnext]
          exact hfirst.trans (.refl _)
  | some c =>
      simp only [Checked.bind_eq_ok, Checked.pure_eq_ok, Prod.mk.injEq] at h
      obtain ⟨⟨s₂, goesOn⟩, hback, rfl, -⟩ := h
      exact hfirst.trans ((heeds_backtrackFrom hback).after rfl rfl)

/-- The steps of a search, by induction on the number that are allowed. -/
theorem heeds_run {n : Nat} {deadline : Deadline} {result : SearchResult}
    (h : run n deadline s = .ok (s', result)) : Heeds (runDeeds n deadline s) s s' := by
  induction n generalizing s deadline with
  | zero => cases h
  | succ n ih =>
      unfold run at h
      unfold runDeeds
      split at h
      next hreached =>
        cases h
        rw [if_pos hreached]
        exact .refl _
      next hnot =>
        simp only [Checked.bind_eq_ok] at h
        obtain ⟨⟨s₁, outcome⟩, hstep, h⟩ := h
        have hfirst := heeds_step hstep
        rw [if_neg hnot, hstep]
        cases outcome with
        | some r =>
            cases h
            exact hfirst.trans (.refl _)
        | none => exact hfirst.trans (ih h)

/-- The theory goes back to the root. -/
theorem heeds_reset {r : Except Misuse Unit} (h : s.reset = .ok (s', r)) :
    Heeds resetDeeds s s' := by
  unfold reset at h
  simp only [Checked.bind_eq_ok, Checked.pure_eq_ok, Prod.mk.injEq] at h
  obtain ⟨⟨t, r'⟩, hback, rfl, -⟩ := h
  have hclose : s.theory.perform (.backtrack .root) = .ok (t, .ofMisusable r') :=
    Checked.map_eq_ok.mpr ⟨_, hback, rfl⟩
  exact heeds_request hclose rfl rfl

/-- After that the reader skips to the end. -/
theorem heeds_start (h : s.start = .ok s') : Heeds startDeeds s s' := by
  unfold start at h
  simp only [Checked.bind_eq_ok, Checked.pure_eq_ok] at h
  obtain ⟨⟨s₁, r⟩, hreset, -, -, rfl⟩ := h
  exact (heeds_reset hreset).trans (heeds_of_perform .skip .nothing rfl rfl rfl)

/-- As many steps of a search as were taken. -/
theorem Does.heeds (h : s.Does todo s') : Heeds todo s s' := by
  induction h with
  | nothing => exact .refl s
  | step _ next ih => exact ih.trans (heeds_step next)

/-- Whichever steps a search has taken, something was done in them. -/
theorem exists_does_of_searches (h : s.Searches s') : ∃ todo, s.Does todo s' := by
  induction h with
  | refl => exact ⟨[], .nothing⟩
  | tail _ hstep ih =>
      obtain ⟨todo, hdoes⟩ := ih
      exact ⟨_, hdoes.step hstep⟩

-- ================================================================= histories

/-- Clauses and polarity are no concern of the theory. All else that is asked
of a solver is something that it does. -/
theorem heeds_perform {r : Request} {reply : Reply} (h : s.perform r = .ok (s', reply)) :
    Heeds (s.requestDeeds r) s s' := by
  cases r with
  | theory r =>
      obtain ⟨⟨t, answer⟩, hperform, heq⟩ := Checked.map_eq_ok.mp h
      cases heq
      exact heeds_request hperform rfl rfl
  | addClause d =>
      unfold Solver.perform at h
      simp only at h
      split at h
      next s₁ hadd =>
        cases h
        obtain ⟨-, ⟨-, rfl⟩ | rfl⟩ := addClause_eq_ok hadd
        · exact .refl _
        · exact heeds_of_eq rfl rfl
      next s₁ refusal hadd =>
        cases h
        rw [addClause_eq_error hadd]
        exact .refl _
  | setPolarity positive =>
      cases h
      exact heeds_of_eq rfl rfl
  | solve deadline =>
      obtain ⟨⟨s₁, result⟩, hsolve, heq⟩ := Checked.map_eq_ok.mp h
      cases heq
      unfold solve at hsolve
      simp only [Checked.bind_eq_ok] at hsolve
      obtain ⟨s₂, hstart, hrun⟩ := hsolve
      simp only [requestDeeds, hstart, Checked.noting_ok]
      exact (heeds_start hstart).trans (heeds_run hrun)
  | reset =>
      obtain ⟨⟨s₁, result⟩, hreset, heq⟩ := Checked.map_eq_ok.mp h
      cases heq
      exact heeds_reset hreset

/-- A history of requests. -/
theorem heeds_performAll {rs : List Request} {history : List (Request × Reply)}
    (h : s.performAll rs = .ok (s', history)) : Heeds (deeds rs s) s s' := by
  induction rs generalizing s history with
  | nil =>
      cases h
      exact .refl _
  | cons r rs ih =>
      unfold performAll at h
      simp only [Checked.bind_eq_ok, Checked.pure_eq_ok, Prod.mk.injEq] at h
      obtain ⟨⟨s₁, reply⟩, hfirst, ⟨s₂, rest⟩, hrest, rfl, -⟩ := h
      unfold deeds
      rw [hfirst, Checked.noting_ok]
      exact (heeds_perform hfirst).trans (ih hrest)

-- =================================================================== skipped

/-- Going on skips nothing if no continuation does. -/
theorem skip_notMem_onward {γ : Type} {x : Checked (Solver × Option γ)}
    {next : Solver → List Deed} (h : ∀ s, .skip ∉ next s) : .skip ∉ onward x next := by
  refine Checked.not_mem_noting fun (s, found) => ?_
  dsimp only
  split
  next => exact List.not_mem_nil
  next => exact h s

theorem skip_notMem_status (status : ClauseStatus) : .skip ∉ status.deeds := by
  cases status <;> exact nofun

theorem skip_notMem_watchDeeds (ids : List ClauseId) (s : Solver) :
    .skip ∉ watchDeeds ids s := by
  induction ids generalizing s with
  | nil => exact List.not_mem_nil
  | cons id rest ih =>
      refine Checked.not_mem_noting fun (clauses, status) => ?_
      exact List.not_mem_append (skip_notMem_status status) (skip_notMem_onward ih)

theorem skip_notMem_revisitDeeds (p : Literal) (ids : List ClauseId) (s : Solver) :
    .skip ∉ revisitDeeds p ids s := by
  induction ids generalizing s with
  | nil => exact List.not_mem_nil
  | cons id rest ih =>
      refine Checked.not_mem_noting fun (clauses, status) => ?_
      exact List.not_mem_append (skip_notMem_status status) (skip_notMem_onward ih)

/-- Assignments are read one by one. -/
theorem skip_notMem_readDeeds (n : Nat) (s : Solver) : .skip ∉ readDeeds n s := by
  induction n generalizing s with
  | zero => exact List.not_mem_nil
  | succ n ih =>
      unfold readDeeds
      split
      next => exact nofun
      next reader p _ =>
        exact List.not_mem_append (List.not_mem_cons_of_ne_of_not_mem nofun
          (skip_notMem_revisitDeeds _ _ _)) (skip_notMem_onward ih)

/-- Propagation skips nothing. -/
theorem skip_notMem_propagateDeeds (s : Solver) : .skip ∉ s.propagateDeeds := by
  unfold propagateDeeds
  split
  next => exact List.not_mem_nil
  next =>
    exact List.not_mem_append (skip_notMem_watchDeeds _ _)
      (skip_notMem_onward fun _ => skip_notMem_readDeeds _ _)

theorem skip_notMem_flipDeeds (ds : List Decision) (t : Theory) : .skip ∉ flipDeeds ds t := by
  induction ds generalizing t with
  | nil => exact List.not_mem_nil
  | cons d rest ih =>
      unfold flipDeeds
      refine List.not_mem_cons_of_ne_of_not_mem nofun ?_
      split
      next => exact Checked.not_mem_noting fun _ => ih _
      next => exact nofun

/-- Nor does a step, whatever propagation has come to. -/
theorem skip_notMem_stepDeeds (s : Solver) : .skip ∉ s.stepDeeds := by
  refine List.not_mem_append (skip_notMem_propagateDeeds s) (Checked.not_mem_noting fun a => ?_)
  split
  next =>
    split
    next => exact nofun
    next => exact List.not_mem_nil
  next =>
    refine Checked.not_mem_noting fun hopeless => ?_
    split
    next => exact List.not_mem_nil
    next => exact skip_notMem_flipDeeds _ _

/-- A search skips nothing once it has begun. -/
theorem Does.skip_notMem (h : s.Does todo s') : .skip ∉ todo := by
  induction h with
  | nothing => exact List.not_mem_nil
  | step _ _ ih => exact List.not_mem_append ih (skip_notMem_stepDeeds _)

end Solver

end TemporalNetwork
