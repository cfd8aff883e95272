/-
No watch is lost.

Wherever a search stands, each clause is either waiting for its watches to
be selected, once and on no list, or it is on the lists of its two
watches, once on each and on no other (`ClauseDatabase.Filed`). The two
halves come from the two invariants of the search: `Ready` has it that a
clause that does not wait is listed where it is watched, `Indexed` that it
is listed there only, and once, and that a clause that waits is not listed
at all. A count is what both say together.

# The ledger

The database reorders the literals of a clause, so what it was created
with cannot be read off the state. `Lives` follows a solver from the
start, through requests and through the single steps of its searches, and
writes down each clause as it is created: by a request, or by a step that
learns from a conflict of the theory. A step that finds a clause of the
database violated creates nothing, as little as one that ends the search.
-/
import TemporalNetwork.Proofs.Solver.Fixpoint
import TemporalNetwork.Proofs.Solver.Progress

namespace TemporalNetwork

namespace ClauseDatabase

variable {db db' : ClauseDatabase} {id : ClauseId} {U : List ClauseId} {R : List Literal}
  {ds : List Disjunction} {d : Disjunction}

-- =================================================================== filing

/-- The clause waits for its watches, once, and is on no list; or it does
not wait, and is once on the list of each literal whose negation it
watches, and on no other list. -/
def Filed (db : ClauseDatabase) (U : List ClauseId) (id : ClauseId) : Prop :=
  (U.count id = 1 ∧ ∀ q, id ∉ db.watchersOf q) ∨
    (id ∉ U ∧ ∀ q, (db.watchersOf q).count id = if q.negate ∈ db.watchedBy id then 1 else 0)

/-- Lists that are as they should be have every clause filed. -/
theorem Indexed.filed (h : Indexed db U) (hready : Ready db U R) (hid : db.Has id) :
    Filed db U id := by
  by_cases hwaits : id ∈ U
  · exact .inl ⟨List.count_eq_one_of_mem h.nodup hwaits, (h.unlisted id hwaits).2⟩
  · refine .inr ⟨hwaits, fun q => ?_⟩
    by_cases hwatches : q.negate ∈ db.watchedBy id
    · have hlisted : id ∈ db.watchersOf q := by
        have hin := hready.listed id hid hwaits q.negate hwatches
        rw [Literal.negate_negate] at hin
        exact hin
      rw [if_pos hwatches]
      exact List.count_eq_one_of_mem (h.once q) hlisted
    · rw [if_neg hwatches]
      exact List.count_eq_zero_of_not_mem fun hin => hwatches (h.listed q id hin).2

-- =================================================================== ledger

/-- The clauses are those of the ledger, each with its literals in some
order. -/
structure Created (db : ClauseDatabase) (ds : List Disjunction) : Prop where
  size : db.size = ds.length
  perm (id : ClauseId) (d : Disjunction) : ds[id.index]? = some d →
    (db.literalsOf id).Perm d.literals

/-- The ledger does not depend on the order of literals. -/
theorem Created.reorders (h : Created db ds) (hdb : Reorders db db') : Created db' ds :=
  ⟨hdb.size.trans h.size, fun id d hd => (hdb.perm id).trans (h.perm id d hd)⟩

/-- A clause that is added is entered in the ledger. -/
theorem Created.add (h : Created db ds) (d : Disjunction) (learnt : Bool) :
    Created (db.add (.ofDisjunction d learnt)).1 (ds ++ [d]) := by
  refine ⟨?_, fun id e he => ?_⟩
  · show (db.clauses.push _).size = _
    rw [HandleVector.size_push, List.length_append]
    exact congrArg (· + 1) h.size
  · by_cases hlt : id.index < ds.length
    · rw [List.getElem?_append_left hlt] at he
      have hid : db.Has id := by
        unfold Has
        rw [h.size]
        exact hlt
      rw [literalsOf_add_of_has hid]
      exact h.perm id e he
    · -- the index is the first that is free
      obtain ⟨hbound, -⟩ := List.getElem?_eq_some_iff.mp he
      rw [List.length_append, List.length_singleton] at hbound
      have hindex : id.index = ds.length := by omega
      rw [hindex, List.getElem?_concat_length] at he
      obtain rfl : d = e := Option.some.inj he
      have hself : id = (db.add (.ofDisjunction d learnt)).2 := by
        apply Handle.index_inj.mp
        show id.index = Handle.index db.clauses.nextKey
        rw [hindex, HandleVector.index_nextKey]
        exact h.size.symm
      rw [hself, literalsOf_add_self]
      exact .refl _

/-- Every clause is in the ledger. -/
theorem Created.exists_perm (h : Created db ds) (hid : db.Has id) :
    ∃ d, ds[id.index]? = some d ∧ (db.literalsOf id).Perm d.literals := by
  have hlt : id.index < ds.length := by
    rw [← h.size]
    exact hid
  exact ⟨ds[id.index], List.getElem?_eq_getElem hlt, h.perm id _ (List.getElem?_eq_getElem hlt)⟩

end ClauseDatabase

namespace Solver

variable {s s' s₀ s₁ : Solver} {M : Set (BoolVar → Bool)} {ts : List Theory} {R : List Literal}
  {ds : List Disjunction} {d : Decision} {opened : List Decision} {c : Config} {polarity : Bool}
  {rs : List Request} {history : List (Request × Reply)} {goesOn : Bool} {n : Nat}
  {deadline : Deadline}

-- ==================================================================== a life

/-- The clauses that a request creates, if it is one that does. -/
def creates (s : Solver) : Request → List Disjunction
  | .addClause d =>
    if (checkLiterals s.theory d.literals).isOk && !d.isTautology then [d] else []
  | _ => []

/-- The clauses that the next step of a search learns, if it goes on. -/
def learns (s : Solver) : List Disjunction :=
  match s.propagate with
  | .ok (_, some (.theory clause)) => [clause]
  | _ => []

/-- Where a solver is: between two requests, or at the head of the loop of
a search. -/
inductive Phase where
  | idle
  | searching

/-- What a solver can come to, and the clauses that were created by then,
in order. -/
inductive Lives (c : Config) (polarity : Bool) : Phase → Solver → List Disjunction → Prop where
  | new : Lives c polarity .idle (ofTheory (.initial c) polarity) []
  | request {s s' : Solver} {ds : List Disjunction} {r : Request} {reply : Reply}
      (before : Lives c polarity .idle s ds) (other : ∀ deadline, r ≠ .solve deadline)
      (run : s.perform r = .ok (s', reply)) : Lives c polarity .idle s' (ds ++ s.creates r)
  | start {s s' : Solver} {ds : List Disjunction} (before : Lives c polarity .idle s ds)
      (run : s.start = .ok s') : Lives c polarity .searching s' ds
  | step {s s' : Solver} {ds : List Disjunction} (before : Lives c polarity .searching s ds)
      (run : s.step = .ok (s', none)) : Lives c polarity .searching s' (ds ++ s.learns)
  | finish {s s' : Solver} {ds : List Disjunction} {result : SearchResult}
      (before : Lives c polarity .searching s ds) (run : s.step = .ok (s', some result)) :
      Lives c polarity .idle s' ds
  | giveUp {s : Solver} {ds : List Disjunction} (before : Lives c polarity .searching s ds) :
      Lives c polarity .idle s ds

/-- A search continues the life of a solver. -/
theorem Lives.searches (h : Lives c polarity .searching s ds) (hsearches : Searches s s') :
    ∃ ds', Lives c polarity .searching s' ds' := by
  induction hsearches with
  | refl => exact ⟨ds, h⟩
  | tail _ hstep ih =>
      obtain ⟨ds₁, h₁⟩ := ih
      exact ⟨_, h₁.step hstep⟩

/-- A search that has ended leaves the solver idle. -/
theorem Lives.run {result : SearchResult} (h : Lives c polarity .searching s ds)
    (hrun : Solver.run n deadline s = .ok (s', result)) : ∃ ds', Lives c polarity .idle s' ds' := by
  induction n generalizing s ds deadline with
  | zero => cases hrun
  | succ n ih =>
      unfold Solver.run at hrun
      split at hrun
      next =>
        cases hrun
        exact ⟨ds, h.giveUp⟩
      next =>
        simp only [Checked.bind_eq_ok] at hrun
        obtain ⟨⟨s₁, outcome⟩, hstep, hrest⟩ := hrun
        cases outcome with
        | some r =>
            cases hrest
            exact ⟨ds, h.finish hstep⟩
        | none => exact ih (h.step hstep) hrest

/-- Requests continue the life of a solver. -/
theorem Lives.performAll (h : Lives c polarity .idle s ds)
    (hrun : s.performAll rs = .ok (s', history)) : ∃ ds', Lives c polarity .idle s' ds' := by
  induction rs generalizing s ds history with
  | nil =>
      cases hrun
      exact ⟨ds, h⟩
  | cons r rs ih =>
      unfold Solver.performAll at hrun
      simp only [Checked.bind_eq_ok, Checked.pure_eq_ok, Prod.mk.injEq] at hrun
      obtain ⟨⟨s₁, reply⟩, hfirst, ⟨s₂, rest⟩, hrest, rfl, -⟩ := hrun
      by_cases hsolve : ∃ deadline, r = .solve deadline
      · obtain ⟨deadline, rfl⟩ := hsolve
        obtain ⟨⟨s₃, result⟩, hsearch, heq⟩ := Checked.map_eq_ok.mp hfirst
        cases heq
        obtain ⟨s₀, hstart, hloop⟩ := Checked.bind_eq_ok.mp hsearch
        obtain ⟨ds₁, h₁⟩ := (h.start hstart).run hloop
        exact ih h₁ hrest
      · exact ih (h.request (fun deadline heq => hsolve ⟨deadline, heq⟩) hfirst) hrest

/-- All that the loop of a search comes to, after any history, is part of
the life of the solver. -/
theorem exists_lives (h : (ofTheory (.initial c) polarity).performAll rs = .ok (s, history))
    (hstart : s.start = .ok s₀) (hsearches : Searches s₀ s₁) :
    ∃ ds, Lives c polarity .searching s₁ ds := by
  obtain ⟨ds, hlives⟩ := Lives.new.performAll h
  exact (hlives.start hstart).searches hsearches

-- ================================================================ one request

/-- A request enters in the ledger what it creates. -/
theorem created_perform {r : Request} {reply : Reply} (h : s.clauses.Created ds)
    (hother : ∀ deadline, r ≠ .solve deadline) (hrun : s.perform r = .ok (s', reply)) :
    s'.clauses.Created (ds ++ s.creates r) := by
  have hnothing : s.clauses.Created (ds ++ []) := (List.append_nil ds).symm ▸ h
  cases r with
  | theory r =>
      obtain ⟨a, -, heq⟩ := Checked.map_eq_ok.mp hrun
      cases heq
      exact hnothing
  -- what is refused and what always holds is not stored
  | addClause d =>
      unfold perform Solver.addClause at hrun
      unfold creates
      simp only at hrun ⊢
      cases hcheck : checkLiterals s.theory d.literals with
      | error refusal =>
          rw [hcheck] at hrun
          cases hrun
          exact hnothing
      | ok u =>
          rw [hcheck] at hrun
          cases htautology : d.isTautology with
          | true =>
              simp only [htautology, if_true] at hrun
              cases hrun
              exact hnothing
          | false =>
              simp only [htautology, Bool.false_eq_true, if_false] at hrun
              cases hrun
              exact h.add d false
  | setPolarity positive =>
      cases hrun
      exact hnothing
  | solve deadline => exact absurd rfl (hother deadline)
  | reset =>
      obtain ⟨a, hreset, heq⟩ := Checked.map_eq_ok.mp hrun
      cases heq
      obtain ⟨p, -, hp⟩ := Checked.bind_eq_ok.mp hreset
      cases hp
      exact hnothing

/-- Starting a search creates no clause. -/
theorem created_start (h : s.clauses.Created ds) (hrun : s.start = .ok s') :
    s'.clauses.Created ds := by
  unfold start reset at hrun
  simp only [Checked.bind_eq_ok, Checked.require_eq_ok, Checked.pure_eq_ok] at hrun
  obtain ⟨⟨s₁, r⟩, ⟨a, -, heq⟩, -, -, rfl⟩ := hrun
  cases heq
  exact h.reorders (ClauseDatabase.reorders_of_clauses_eq rfl)

-- =================================================================== one step

/-- A decision creates no clause. -/
theorem clauses_openDecision (h : s.openDecision d = .ok s') : s'.clauses = s.clauses := by
  unfold openDecision at h
  simp only [Checked.bind_eq_ok] at h
  obtain ⟨t, -, hassign⟩ := h
  obtain ⟨theory, notifier, stats, r, -, rfl⟩ := assign_eq_ok hassign
  rfl

/-- Flipping a decision creates no clause. -/
theorem clauses_flipLast (h : flipLast opened s = .ok (s', goesOn)) : s'.clauses = s.clauses := by
  induction opened generalizing s with
  | nil =>
      cases h
      rfl
  | cons d rest ih =>
      unfold flipLast at h
      simp only [Checked.bind_eq_ok, Checked.require_eq_ok] at h
      obtain ⟨⟨t, r⟩, -, -, -, h⟩ := h
      have hclosed : ({ s with theory := t, decisions := rest } : Solver).clauses = s.clauses := rfl
      split at h
      next => exact (ih h).trans hclosed
      next =>
        simp only [Checked.bind_eq_ok, Checked.pure_eq_ok, Prod.mk.injEq] at h
        obtain ⟨s₁, hopen, rfl, -⟩ := h
        exact (clauses_openDecision hopen).trans hclosed

/-- The clause of a contradiction is kept if the search goes on. -/
theorem created_backtrackFrom {contradiction : Contradiction} (h : s.clauses.Created ds)
    (hrun : s.backtrackFrom contradiction = .ok (s', goesOn)) :
    s'.clauses.Created (ds ++ match goesOn, contradiction with
      | true, .theory clause => [clause]
      | _, _ => []) := by
  unfold backtrackFrom at hrun
  simp only [Checked.bind_eq_ok] at hrun
  obtain ⟨hopeless, -, hrun⟩ := hrun
  split at hrun
  next =>
    cases hrun
    rw [List.append_nil]
    exact h
  next =>
    simp only [Checked.bind_eq_ok] at hrun
    obtain ⟨⟨s₁, flipped⟩, hflip, hrun⟩ := hrun
    have h₁ : s₁.clauses.Created ds := by
      rw [clauses_flipLast hflip]
      exact h
    cases flipped with
    | false =>
        cases hrun
        rw [List.append_nil]
        exact h₁
    | true =>
        simp only [if_true, Checked.bind_eq_ok, Checked.pure_eq_ok, Prod.mk.injEq] at hrun
        obtain ⟨s₂, hkeep, rfl, rfl⟩ := hrun
        -- only a clause of the theory is new; one of the database is listed anew
        cases contradiction with
        | theory clause =>
            cases hkeep
            exact h₁.add clause true
        | clause id =>
            unfold keep at hkeep
            simp only [Checked.bind_eq_ok, Checked.pure_eq_ok] at hkeep
            obtain ⟨clauses, hunwatch, rfl⟩ := hkeep
            rw [List.append_nil]
            exact h₁.reorders
              (ClauseDatabase.reorders_of_clauses_eq (ClauseDatabase.unwatch_eq_ok hunwatch).1)

/-- A step that goes on enters in the ledger what it learns. -/
theorem created_step {result : Option SearchResult} (hs : Exploring M s ts R)
    (h : s.clauses.Created ds) (hrun : s.step = .ok (s', result)) :
    s'.clauses.Created (ds ++ if result.isNone then s.learns else []) := by
  unfold step at hrun
  simp only [Checked.bind_eq_ok] at hrun
  obtain ⟨⟨s₁, contradiction⟩, hpropagate, hrun⟩ := hrun
  obtain ⟨R₁, hprop⟩ := propagates hs.searching hs.ready hpropagate
  have h₁ : s₁.clauses.Created ds := h.reorders hprop.moves.reorders
  unfold learns
  rw [hpropagate]
  cases contradiction with
  -- at a fixed point nothing is learnt
  | none =>
      have hnothing : ds ++ (if result.isNone then ([] : List Disjunction) else []) = ds := by
        rw [ite_self, List.append_nil]
      simp only
      rw [hnothing]
      simp only at hrun
      split at hrun
      next l hnext =>
        simp only [Checked.bind_eq_ok, Checked.pure_eq_ok, Prod.mk.injEq] at hrun
        obtain ⟨s₂, hdecide, rfl, -⟩ := hrun
        unfold decide at hdecide
        rw [clauses_openDecision hdecide]
        exact h₁
      next =>
        simp only [Checked.bind_eq_ok, Checked.pure_eq_ok, Prod.mk.injEq] at hrun
        obtain ⟨x, -, rfl, -⟩ := hrun
        exact h₁
  | some contradiction =>
      simp only [Checked.bind_eq_ok, Checked.pure_eq_ok, Prod.mk.injEq] at hrun
      obtain ⟨⟨s₂, goesOn⟩, hback, rfl, rfl⟩ := hrun
      have h₂ := @created_backtrackFrom
        { s₁ with stats := { s₁.stats with conflicts := s₁.stats.conflicts + 1 } } s₂ ds goesOn
        contradiction h₁ hback
      cases goesOn with
      | true => cases contradiction <;> exact h₂
      | false => exact h₂

-- ================================================================== invariant

/-- What holds of a solver that was asked only for what it can be asked. -/
def Phase.Invariant : Phase → Solver → Prop
  | .idle, s => Settled ∅ s
  | .searching, s => (∃ ts R, Exploring ∅ s ts R) ∧ s.clauses.Indexed s.unwatched

/-- What holds of a solver at every point of its life. -/
theorem Lives.invariant {phase : Phase} (h : Lives c polarity phase s ds) :
    phase.Invariant s ∧ s.clauses.Created ds := by
  have hnone : ∀ (σ : BoolVar → Bool) (P : Prop), σ ∈ (∅ : Set (BoolVar → Bool)) → P :=
    fun σ _ hσ => absurd hσ (Set.notMem_empty σ)
  induction h with
  | new =>
      refine ⟨settled_ofTheory fun σ hσ => hnone σ _ hσ, rfl, fun id d hd => ?_⟩
      rw [List.getElem?_nil] at hd
      cases hd
  | request _ other run ih =>
      obtain ⟨hsettled, hcreated⟩ := ih
      obtain ⟨hsettled', -⟩ := hsettled.perform run (fun _ => rfl)
        (fun _ _ _ σ hσ => hnone σ _ hσ) (fun σ hσ => hnone σ _ hσ)
      exact ⟨hsettled', created_perform hcreated other run⟩
  -- the search that was started is the one that can be
  | start _ run ih =>
      obtain ⟨hsettled, hcreated⟩ := ih
      obtain ⟨-, hexploring⟩ := start_eq_ok hsettled run
      obtain ⟨s₁, hrun, hindexed⟩ := exists_start hsettled
      cases hrun.symm.trans run
      exact ⟨⟨⟨_, _, hexploring⟩, hindexed⟩, created_start hcreated run⟩
  | step _ run ih =>
      obtain ⟨⟨⟨ts, R, hexploring⟩, hindexed⟩, hcreated⟩ := ih
      obtain ⟨-, hnext, -⟩ := step_eq_ok hexploring run
      obtain ⟨s₁, result, hrun, -, hindexed'⟩ := exists_step hexploring hindexed
      cases hrun.symm.trans run
      exact ⟨⟨hnext rfl, (hindexed' rfl).1⟩, created_step hexploring hcreated run⟩
  | finish _ run ih =>
      obtain ⟨⟨⟨ts, R, hexploring⟩, -⟩, hcreated⟩ := ih
      obtain ⟨-, -, hended⟩ := step_eq_ok hexploring run
      obtain ⟨ts', hpath⟩ := (hended _ rfl).path
      have hcreated' := created_step hexploring hcreated run
      rw [Option.isNone_some, if_neg Bool.false_ne_true, List.append_nil] at hcreated'
      exact ⟨hpath.settled (hended _ rfl).formed, hcreated'⟩
  | giveUp _ ih =>
      obtain ⟨⟨⟨ts, R, hexploring⟩, -⟩, hcreated⟩ := ih
      exact ⟨hexploring.path.settled hexploring.searching.formed, hcreated⟩

/-- At the head of the loop of a search no watch is lost or doubled,
whatever contradictions there were: each clause waits once, or is listed
once under each of its watches. It has the literals with which it was
created. -/
theorem filed_of_lives (h : Lives c polarity .searching s ds) :
    s.clauses.size = ds.length ∧ ∀ id, s.clauses.Has id →
      s.clauses.Filed s.unwatched id ∧
        ∃ d, ds[id.index]? = some d ∧ (s.clauses.literalsOf id).Perm d.literals := by
  obtain ⟨⟨⟨ts, R, hexploring⟩, hindexed⟩, hcreated⟩ := h.invariant
  exact ⟨hcreated.size, fun id hid =>
    ⟨hindexed.filed hexploring.ready hid, hcreated.exists_perm hid⟩⟩

/-- A clause was violated, then a conflict of the theory was learnt, which
waits beside two clauses that are listed. -/
theorem filed_of_lives_contradictions :
    ∃ s ds, Lives ⟨.off, false⟩ true .searching s ds ∧ s.stats.conflicts = 2 ∧
      s.unwatched = [⟨2⟩] ∧ s.clauses.size = 3 ∧ s.clauses.size = ds.length ∧
      ∀ id, s.clauses.Has id → s.clauses.Filed s.unwatched id ∧
        ∃ d, ds[id.index]? = some d ∧ (s.clauses.literalsOf id).Perm d.literals := by
  have hrun : ((ofTheory (.initial ⟨.off, false⟩) true).performAll
      [.theory (.newTimepoint ⟨0, 10⟩), .theory (.newTimepoint ⟨0, 10⟩), .theory .newVariable,
        .theory .newVariable, .theory .newVariable, .theory .newVariable,
        .theory (.addConditionalEdge .origin ⟨2⟩ 3 ⟨⟨1⟩, true⟩),
        .theory (.addConditionalEdge ⟨2⟩ .origin (-7) ⟨⟨3⟩, true⟩),
        .theory (.addConditionalEdge .origin ⟨1⟩ 3 ⟨⟨0⟩, true⟩),
        .theory (.addConditionalEdge ⟨1⟩ .origin (-7) ⟨⟨2⟩, true⟩),
        .addClause (.ofList [⟨⟨0⟩, false⟩, ⟨⟨1⟩, false⟩, ⟨⟨2⟩, true⟩]),
        .addClause (.ofList [⟨⟨0⟩, false⟩, ⟨⟨1⟩, false⟩, ⟨⟨2⟩, false⟩])]).answers (fun p =>
          p.1.start.answers fun s₀ => (stepTimes (fun _ => true) 5 s₀).answers fun s₁ =>
            s₁.stats.conflicts == 2 && s₁.unwatched == [⟨2⟩] && s₁.clauses.size == 3)
      = true := by decide +kernel
  obtain ⟨⟨s, history⟩, h, hstarts⟩ := Checked.exists_of_answers hrun
  obtain ⟨s₀, hstart, hsteps⟩ := Checked.exists_of_answers hstarts
  obtain ⟨s₁, hsearches, htest⟩ := Checked.exists_of_answers hsteps
  simp only [Bool.and_eq_true, beq_iff_eq] at htest
  obtain ⟨⟨hconflicts, hunwatched⟩, hsize⟩ := htest
  obtain ⟨ds, hlives⟩ := exists_lives h hstart (searches_of_stepTimes hsearches)
  obtain ⟨hlength, hfiled⟩ := filed_of_lives hlives
  exact ⟨s₁, ds, hlives, hconflicts, hunwatched, hsize, hlength, hfiled⟩

end Solver

end TemporalNetwork
