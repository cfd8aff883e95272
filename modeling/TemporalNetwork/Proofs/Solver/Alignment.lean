/-
Each decision begins its level.

A level of the theory is opened for each decision, and the literal of the
decision is what is set first on it. Nothing else keeps the two in step:
a literal whose variable has a value is passed over without a word, so a
flip on a state that was not restored as it had been would go on in the
wrong branch. It is fresh because the decision that is flipped was fresh
on the same state (`Path.canDecide_negate`).

# The invariant

`Heads` speaks of the queue of true literals alone: at the mark of each
level stands the literal of its decision, and below all marks is what was
true when the search began. Propagation appends to the queue, a decision
marks it and appends, closing a level cuts it back to the mark. So it is
kept without a look at the saved states; these come in at the end, for
what `Branches` says of a decision that was flipped.
-/
import TemporalNetwork.Proofs.Solver.Filing
import TemporalNetwork.Proofs.Solver.Learning

namespace TemporalNetwork

open Theory (Stack Returns)

variable {σ : BoolVar → Bool} {M : Set (BoolVar → Bool)} {t₀ t t' u : Theory}
  {ts : List Theory} {d : Decision} {ds : List Decision} {R : List Literal} {i m : Nat}
  {base es : List Literal} {ms : List Nat}

-- =============================================================== the queue

/-- A queue is indexed as the list of its events. -/
theorem EventQueue.get?_eq {α : Type} (q : EventQueue α) (i : Nat) : q.get? i = q.toList[i]? :=
  (Array.getElem?_toList).symm

/-- What becomes true is appended to the queue. -/
theorem Theory.Extends.exists_append (h : Theory.Extends t t') :
    ∃ new, t'.assignments.toList = t.assignments.toList ++ new := by
  obtain ⟨new, hnew⟩ := h.assignments
  refine ⟨new.toList, ?_⟩
  unfold EventQueue.toList
  rw [hnew, Array.toList_append]

/-- What was true when a level was opened is what is below its mark. -/
theorem Theory.Stack.take_of_getElem? (h : Stack ts t) (ht₀ : ts[i]? = some t₀) :
    t₀.Settled ∧ t.assignments.marks[i]? = some t₀.assignments.size ∧
      t.assignments.toList.take t₀.assignments.size = t₀.assignments.toList := by
  induction h generalizing i with
  | root => cases ht₀
  | @above ts t₁ t settled extended below ih =>
      have hmarks : t.assignments.marks = t₁.assignments.size :: t₁.assignments.marks :=
        extended.assignmentMarks
      obtain ⟨new, hnew⟩ := extended.exists_append
      have happend : t.assignments.toList = t₁.assignments.toList ++ new := hnew
      rw [hmarks, happend]
      cases i with
      | zero =>
          cases ht₀
          exact ⟨below.settled, rfl, List.take_left' rfl⟩
      | succ i =>
          obtain ⟨hsettled, hmark, htake⟩ := ih ht₀
          refine ⟨hsettled, hmark, ?_⟩
          have hle : t₀.assignments.size ≤ t₁.assignments.toList.length := by
            have hlength := congrArg List.length htake
            rw [List.length_take] at hlength
            have hsize : t₀.assignments.toList.length = t₀.assignments.size := rfl
            omega
          rw [List.take_append_of_le_length hle]
          exact htake

-- ================================================================== levels

/-- At each mark stands the literal of its decision, newest first, and the
given literals are below all marks. -/
inductive Heads (base : List Literal) : List Decision → List Nat → List Literal → Prop where
  | root {es : List Literal} (kept : base <+: es) : Heads base [] [] es
  | decided {d : Decision} {ds : List Decision} {m : Nat} {ms : List Nat} {es : List Literal}
      (first : es[m]? = some d.literal) (below : Heads base ds ms (es.take m)) :
      Heads base (d :: ds) (m :: ms) es

/-- New literals stand above all marks. -/
theorem Heads.append (h : Heads base ds ms es) (new : List Literal) :
    Heads base ds ms (es ++ new) := by
  cases h with
  | root kept => exact .root (kept.trans (List.prefix_append es new))
  | @decided d ds m ms es first below =>
      obtain ⟨hlt, -⟩ := List.getElem?_eq_some_iff.mp first
      refine .decided ?_ ?_
      · rw [List.getElem?_append_left hlt]
        exact first
      · rw [List.take_append_of_le_length (Nat.le_of_lt hlt)]
        exact below

/-- A decision is the first literal above the new mark. -/
theorem Heads.decide (h : Heads base ds ms es) (d : Decision) :
    Heads base (d :: ds) (es.length :: ms) (es ++ [d.literal]) := by
  refine .decided List.getElem?_concat_length ?_
  rw [List.take_left' rfl]
  exact h

/-- The given literals are the first ones. -/
theorem Heads.isPrefix (h : Heads base ds ms es) : base <+: es := by
  induction h with
  | root kept => exact kept
  | decided first below ih => exact ih.trans (List.take_prefix _ _)

/-- There are as many marks as decisions. -/
theorem Heads.length_eq (h : Heads base ds ms es) : ms.length = ds.length := by
  induction h with
  | root => rfl
  | decided first below ih => exact congrArg (· + 1) ih

/-- Each decision stands at its mark, with the given literals below. -/
theorem Heads.getElem? (h : Heads base ds ms es) (hd : ds[i]? = some d) (hm : ms[i]? = some m) :
    es[m]? = some d.literal ∧ base <+: es.take m := by
  induction h generalizing i with
  | root => cases hd
  | @decided e ds n ms es first below ih =>
      cases i with
      | zero =>
          cases hd
          cases hm
          exact ⟨first, below.isPrefix⟩
      | succ i =>
          obtain ⟨hfirst, hbase⟩ := ih hd hm
          obtain ⟨hlt, -⟩ := List.getElem?_eq_some_iff.mp hfirst
          rw [List.length_take] at hlt
          rw [List.getElem?_take_of_lt (by omega)] at hfirst
          rw [List.take_take, Nat.min_eq_left (by omega)] at hbase
          exact ⟨hfirst, hbase⟩

/-- A decision was taken on a state in which its variable had no value. -/
theorem Deepens.fresh_of_getElem? (h : Deepens ds ts t) (hd : ds[i]? = some d)
    (ht₀ : ts[i]? = some t₀) : t₀.value d.literal = none := by
  induction h generalizing i with
  | root => cases hd
  | decided hasVariable fresh consistent longer below ih =>
      cases i with
      | zero =>
          cases hd
          cases ht₀
          exact fresh
      | succ i => exact ih hd ht₀

/-- A flipped decision follows from what was true below it. -/
theorem Branches.holds_of_getElem? (h : Branches σ ds ts t) (hd : ds[i]? = some d)
    (ht₀ : ts[i]? = some t₀) (hflipped : d.flipped = true) (hholds : t₀.HoldsIn σ) :
    d.literal.Holds σ := by
  induction h generalizing i with
  | root => cases hd
  | decided flipped followed below ih =>
      cases i with
      | zero =>
          cases hd
          cases ht₀
          exact flipped hflipped hholds
      | succ i => exact ih hd ht₀

/-- What holds of all clauses holds of those there were before. -/
theorem ClauseDatabase.Keeps.holdsIn {db db' : ClauseDatabase} (h : db.Keeps db')
    (hdb' : db'.HoldsIn σ) : db.HoldsIn σ := by
  intro id hid
  obtain ⟨l, hl, hholds⟩ := hdb' id (h.has id hid)
  exact ⟨l, (h.perm id hid).mem_iff.mp hl, hholds⟩

namespace Solver

variable {s s' s₀ s₁ : Solver} {c : Config} {polarity : Bool} {rs : List Request}
  {history : List (Request × Reply)}

-- ================================================================= operations

/-- The queue of true literals is headed by the decisions, level by level. -/
def Headed (base : List Literal) (s : Solver) : Prop :=
  Heads base s.decisions s.theory.assignments.marks s.theory.assignments.toList

/-- Only theory and decisions matter. -/
theorem Headed.congr (h : s.Headed base) (htheory : s'.theory = s.theory)
    (hdecisions : s'.decisions = s.decisions) : s'.Headed base := by
  unfold Headed
  rw [htheory, hdecisions]
  exact h

theorem Headed.counted (h : s.Headed base) (stats : SolverStats) : Headed base { s with stats } :=
  h.congr rfl rfl

/-- Propagation only appends to the queue. -/
theorem Headed.moves (h : s.Headed base) (hmoves : Moves s s') : s'.Headed base := by
  obtain ⟨new, hnew⟩ := hmoves.extends.exists_append
  unfold Headed
  rw [hmoves.decisions, hmoves.extends.assignmentMarks, hnew]
  exact h.append new

/-- Closing a level cuts the queue back to its mark. -/
theorem Headed.close (h : s.Headed base) (hstack : Stack (t₀ :: ts) s.theory)
    (hds : s.decisions = d :: ds) (hreturns : Returns t₀ s.theory u) :
    Headed base { s with theory := u, decisions := ds } := by
  obtain ⟨-, -, htake⟩ := hstack.take_of_getElem? (i := 0) rfl
  have hagrees := hreturns.agrees
  have hmarks : s.theory.assignments.marks = t₀.assignments.size :: t₀.assignments.marks := by
    cases hstack with
    | above settled extended below => exact extended.assignmentMarks
  unfold Headed at h
  rw [hds, hmarks] at h
  cases h with
  | decided first below =>
      show Heads base ds u.assignments.marks u.assignments.events.toList
      rw [hagrees.assignmentMarks, hagrees.assignmentEvents]
      rw [htake] at below
      exact below

/-- The literal of a decision is set at once, and what follows from it
comes later. -/
theorem Headed.openDecision (h : s.Headed base) (hs : s.theory.Settled)
    (hopen : s.CanDecide d.literal) (hrun : s.openDecision d = .ok s') : s'.Headed base := by
  unfold Solver.openDecision at hrun
  simp only [Checked.bind_eq_ok, Theory.pushCheckpoint_eq_ok] at hrun
  obtain ⟨_, ⟨-, rfl⟩, hassign⟩ := hrun
  obtain ⟨theory, notifier, stats, r, hassigned, rfl⟩ := assign_eq_ok hassign
  have hfresh : s.theory.saved.value d.literal = none := hopen.fresh
  obtain ⟨-, hsteps⟩ := Theory.steps_assign (Theory.settled_saved hs) hopen.hasVariable
    hopen.consistent hassigned
  have hextends := hsteps.extends
  rw [Theory.setLiteral_of_none hfresh] at hextends
  obtain ⟨new, hnew⟩ := hextends.exists_append
  have hpush : (s.theory.assignments.save.push d.literal).toList
      = s.theory.assignments.toList ++ [d.literal] := Array.toList_push
  show Heads base (d :: s.decisions) theory.assignments.marks theory.assignments.toList
  rw [hextends.assignmentMarks, hnew]
  show Heads base (d :: s.decisions) (s.theory.assignments.size :: s.theory.assignments.marks)
    ((s.theory.assignments.save.push d.literal).toList ++ new)
  rw [hpush]
  exact (h.decide d).append new

-- ===================================================================== a step

/-- A decision that can be taken is taken on a level of its own. -/
theorem Headed.decide {l : Literal} (h : s.Headed base) (hs : s.theory.Settled)
    (hopen : s.CanDecide l) (hrun : s.decide l = .ok s') :
    s'.Headed base ∧ s'.decisions = ⟨l, false⟩ :: s.decisions := by
  have hcounted := h.counted { s.stats with decisions := s.stats.decisions + 1 }
  have hdecisions := decisions_openDecision (d := ⟨l, false⟩) hrun
  exact ⟨hcounted.openDecision hs ⟨hopen.hasVariable, hopen.fresh, hopen.consistent⟩ hrun,
    hdecisions⟩

/-- When decisions are closed, the literal of the one that is flipped stands
where it stood. -/
theorem Headed.flipLast {goesOn : Bool} (h : s.Headed base) (hs : Searching s R)
    (hpath : Path M s ts) (hrun : flipLast s.decisions s = .ok (s', goesOn)) : s'.Headed base := by
  generalize hds : s.decisions = ds at hrun
  induction ds generalizing s ts R with
  | nil =>
      cases hrun
      exact h.congr rfl hds.symm
  | cons d rest ih =>
      obtain ⟨t₀, ts₀, rfl⟩ := hpath.exists_cons hds
      unfold Solver.flipLast at hrun
      simp only [Checked.bind_eq_ok, Checked.require_eq_ok] at hrun
      obtain ⟨⟨u, r⟩, hback, -, -, hrun⟩ := hrun
      obtain ⟨hreturns, hu⟩ := Theory.backtrack_parent hpath.stack hback
      obtain ⟨hs₁, -, hpath₁, -⟩ := close_eq hs hpath hds hreturns hu
      have h₁ := h.close hpath.stack hds hreturns
      split at hrun
      next => exact ih h₁ hs₁ hpath₁ rfl hrun
      next =>
        simp only [Checked.bind_eq_ok, Checked.pure_eq_ok, Prod.mk.injEq] at hrun
        obtain ⟨s₂, hopen, rfl, -⟩ := hrun
        exact h₁.openDecision hu.settled (hpath.canDecide_negate hds hreturns) hopen

/-- Keeping what was learnt touches neither theory nor decisions. -/
theorem eq_of_keep {contradiction : Contradiction} (h : s.keep contradiction = .ok s') :
    s'.theory = s.theory ∧ s'.decisions = s.decisions := by
  cases contradiction with
  | theory clause =>
      cases h
      exact ⟨rfl, rfl⟩
  | clause id =>
      unfold keep at h
      simp only [Checked.bind_eq_ok, Checked.pure_eq_ok] at h
      obtain ⟨clauses, -, rfl⟩ := h
      exact ⟨rfl, rfl⟩

/-- A search that goes on after a contradiction has flipped a decision. -/
theorem Headed.backtrackFrom {contradiction : Contradiction} (h : s.Headed base)
    (hs : Searching s R) (hpath : Path M s ts)
    (hrun : s.backtrackFrom contradiction = .ok (s', true)) :
    s'.Headed base ∧ Flips s.decisions s'.decisions := by
  unfold Solver.backtrackFrom at hrun
  simp only [Checked.bind_eq_ok] at hrun
  obtain ⟨hopeless, -, hrun⟩ := hrun
  split at hrun
  next => cases hrun
  next =>
    simp only [Checked.bind_eq_ok] at hrun
    obtain ⟨⟨s₁, flipped⟩, hflip, hrun⟩ := hrun
    cases flipped with
    | false => cases hrun
    | true =>
        simp only [if_true, Checked.bind_eq_ok, Checked.pure_eq_ok, Prod.mk.injEq] at hrun
        obtain ⟨s₂, hkeep, rfl, -⟩ := hrun
        obtain ⟨htheory, hdecisions⟩ := eq_of_keep hkeep
        refine ⟨(h.flipLast hs hpath hflip).congr htheory hdecisions, ?_⟩
        rw [hdecisions]
        exact flips_flipLast hflip

/-- A step that goes on opens one level: for one decision more, or for the
one that is flipped. -/
theorem Headed.step (h : s.Headed base) (hs : Exploring M s ts R) (hrun : s.step = .ok (s', none)) :
    s'.Headed base ∧
      ((∃ l, s'.decisions = ⟨l, false⟩ :: s.decisions) ∨ Flips s.decisions s'.decisions) := by
  unfold Solver.step at hrun
  simp only [Checked.bind_eq_ok] at hrun
  obtain ⟨⟨s₁, contradiction⟩, hpropagate, hrun⟩ := hrun
  obtain ⟨R₁, hprop⟩ := propagates hs.searching hs.ready hpropagate
  have hsettled := hprop.searching.settled
  have hpath := hs.path.moves hprop.moves hsettled
  have h₁ := h.moves hprop.moves
  rw [← hprop.moves.decisions]
  cases contradiction with
  | none =>
      simp only at hrun
      cases hnext : s₁.nextDecision with
      | none =>
          rw [hnext] at hrun
          simp only [Checked.bind_eq_ok, Checked.pure_eq_ok, Prod.mk.injEq] at hrun
          obtain ⟨x, -, -, hc⟩ := hrun
          cases hc
      -- a decision is put on top
      | some l =>
          rw [hnext] at hrun
          simp only [Checked.bind_eq_ok, Checked.pure_eq_ok, Prod.mk.injEq] at hrun
          obtain ⟨s₂, hdecide, rfl, -⟩ := hrun
          obtain ⟨h₂, hdecisions⟩ :=
            h₁.decide hsettled (canDecide_nextDecision hprop.verdict hnext) hdecide
          exact ⟨h₂, .inl ⟨l, hdecisions⟩⟩
  | some contradiction =>
      simp only [Checked.bind_eq_ok, Checked.pure_eq_ok, Prod.mk.injEq] at hrun
      obtain ⟨⟨s₂, goesOn⟩, hback, rfl, hresult⟩ := hrun
      cases goesOn with
      | false => cases hresult
      -- or one of those below is flipped
      | true =>
          obtain ⟨h₂, hflips⟩ := (h₁.counted _).backtrackFrom (hprop.searching.counted _)
            (hpath.counted _) hback
          exact ⟨h₂, .inr hflips⟩

-- =================================================================== a search

/-- The queue stays headed by the decisions through a search. -/
theorem Searches.headed (h : Searches s s') (hs : Exploring M s ts R) (hheaded : s.Headed base) :
    s'.Headed base := by
  induction h with
  | refl => exact hheaded
  | tail hrest hstep ih =>
      obtain ⟨ts₁, R₁, h₁⟩ := Searches.exploring hrest hs
      exact (ih.step h₁ hstep).1

/-- A search only adds to what it has learnt. -/
theorem Searches.continues (h : Searches s s') (hs : Exploring M s ts R) : Continues s s' := by
  induction h with
  | refl => exact .refl s
  | tail hrest hstep ih =>
      obtain ⟨ts₁, R₁, h₁⟩ := Searches.exploring hrest hs
      exact ih.trans (step_eq_ok h₁ hstep).1

/-- A search can be followed for any assignments that the problem leaves
possible at the root. -/
theorem Exploring.atRoot (h : Exploring ∅ s [] R)
    (hadmits : ∀ σ ∈ M, s.theory.network.Admits σ) (hclauses : ∀ σ ∈ M, s.clauses.HoldsIn σ)
    (hholds : ∀ σ ∈ M, s.theory.HoldsIn σ) : Exploring M s [] R := by
  have hnone : s.decisions = [] := List.length_eq_zero_iff.mp h.path.depth.symm
  refine ⟨h.searching, ⟨h.path.stack, h.path.depth, hadmits, hclauses, fun σ hσ => ?_,
    h.path.deepens⟩, h.ready⟩
  rw [hnone]
  exact .root (hholds σ hσ)

/-- Before the first decision all literals are given. -/
theorem Exploring.headed (h : Exploring M s [] R) : s.Headed s.theory.assignments.toList := by
  have hnone : s.decisions = [] := List.length_eq_zero_iff.mp h.path.depth.symm
  unfold Headed
  cases h.path.stack with
  | root settled level =>
      rw [hnone, level.assignments]
      exact .root (List.prefix_refl _)

-- ================================================================= alignment

/-- The literals and one literal more cannot all be true: no assignment
that the network admits has them so and satisfies the clauses that were
given. -/
def Refutes (s : Solver) (ls : List Literal) (l : Literal) : Prop :=
  ∀ σ : BoolVar → Bool, s.theory.network.Admits σ →
    (∀ id, s.clauses.Has id → s.clauses.isLearnt id = false →
      ∃ m ∈ s.clauses.literalsOf id, m.Holds σ) →
    (∀ m ∈ ls, m.Holds σ) → ¬ l.Holds σ

/-- The level of the decision begins at this position of the queue of true
literals. -/
structure Begins (s : Solver) (d : Decision) (m : Nat) : Prop where
  first : s.theory.assignments.get? m = some d.literal
  holds : s.theory.value d.literal = some true
  /-- It had no value before. -/
  fresh (l : Literal) : l ∈ s.theory.assignments.toList.take m → l.var ≠ d.literal.var
  /-- The other value is not possible on this path. -/
  flipped : d.flipped = true →
    s.Refutes (s.theory.assignments.toList.take m) d.literal.negate

/-- There is a level for each open decision, and the `k`-th level, counted
from the root, begins with the `k`-th decision. -/
structure Aligned (s : Solver) : Prop where
  level : s.theory.level.depth = s.decisions.length
  marks : s.theory.assignments.marks.length = s.decisions.length
  begins (k : Nat) (d : Decision) (m : Nat) : s.decisions.reverse[k]? = some d →
    s.theory.assignments.marks.reverse[k]? = some m → s.Begins d m

/-- A solver with a queue headed by its decisions is aligned. -/
theorem Exploring.aligned (hs : Exploring M s ts R) (h : s.Headed base)
    (hM : ∀ σ, s.theory.network.Admits σ → s.clauses.HoldsIn σ → (∀ l ∈ base, l.Holds σ) → σ ∈ M)
    (hlearnt : s.clauses.Justified s.theory.network) : s.Aligned := by
  have hlength := h.length_eq
  refine ⟨hs.path.stack.depth.trans hs.path.depth, hlength, fun k d m hd hm => ?_⟩
  obtain ⟨hk, -⟩ := List.getElem?_eq_some_iff.mp hd
  rw [List.length_reverse] at hk
  -- the lists have the newest first, so that both are counted from the other end
  rw [List.getElem?_reverse hk] at hd
  rw [List.getElem?_reverse (hlength.symm ▸ hk), hlength] at hm
  generalize s.decisions.length - 1 - k = i at hd hm
  obtain ⟨t₀, ht₀⟩ : ∃ t₀, ts[i]? = some t₀ := by
    obtain ⟨hi, -⟩ := List.getElem?_eq_some_iff.mp hd
    rw [← hs.path.depth] at hi
    exact ⟨ts[i], List.getElem?_eq_getElem hi⟩
  obtain ⟨hsettled, hmark, htake⟩ := hs.path.stack.take_of_getElem? ht₀
  obtain rfl : m = t₀.assignments.size := Option.some.inj (hm.symm.trans hmark)
  obtain ⟨hfirst, hbase⟩ := h.getElem? hd hm
  refine ⟨?_, ?_, fun l hl hvar => ?_, fun hflipped σ hadmits hgiven hholds hnegate => ?_⟩
  · rw [EventQueue.get?_eq]
    exact hfirst
  · exact (hs.searching.settled.coherent.assigned _).mp (List.mem_of_getElem? hfirst)
  · rw [htake] at hl
    have htrue : t₀.value l = some true := (hsettled.coherent.assigned l).mp hl
    have hnone := Theory.value_eq_none_iff.mp (hs.path.deepens.fresh_of_getElem? hd ht₀)
    rw [Theory.value_eq_none_iff.mpr (hvar ▸ hnone)] at htrue
    cases htrue
  · have hσ : σ ∈ M := hM σ hadmits ((hlearnt.holdsIn_iff hadmits).mpr hgiven) fun l hl =>
      hholds l (hbase.subset hl)
    have hbelow : t₀.HoldsIn σ := by
      intro l hl
      apply hholds
      rw [htake]
      exact (hsettled.coherent.assigned l).mpr hl
    exact Literal.holds_negate.mp hnegate
      ((hs.path.branches σ hσ).holds_of_getElem? hd ht₀ hflipped hbelow)

/-- Alignment holds at the root, and a search keeps it. -/
theorem Searches.aligned (h : Searches s s') (hs : Exploring ∅ s [] R)
    (hlearnt : s.clauses.Justified s.theory.network) : s'.Aligned := by
  have hcontinues := h.continues hs
  have hroot : Exploring {σ | s.theory.network.Admits σ ∧ s.clauses.HoldsIn σ ∧
      s.theory.HoldsIn σ} s [] R :=
    hs.atRoot (fun _ hσ => hσ.1) (fun _ hσ => hσ.2.1) (fun _ hσ => hσ.2.2)
  obtain ⟨ts, R', hexploring⟩ := h.exploring hroot
  refine hexploring.aligned (h.headed hs hs.headed) (fun σ hadmits hclauses hholds => ⟨?_, ?_, ?_⟩)
    (hcontinues.learnt hlearnt)
  · rw [← hcontinues.network]
    exact hadmits
  · exact hcontinues.clauses.holdsIn hclauses
  · exact fun l hl => hholds l ((hs.searching.settled.coherent.assigned l).mpr hl)

/-- At the head of the loop of a search, after any history, the decisions
that are open and the levels of the theory are aligned: each level begins
with the literal of its decision, which had no value there, and where the
decision was flipped the other value is excluded by the clauses, the
network and what was true below. The next step does not break off. If it
goes on it has opened one level, for a new decision or for a flipped one,
and all is aligned again. -/
theorem aligned_of_searches
    (h : (ofTheory (.initial c) polarity).performAll rs = .ok (s, history))
    (hstart : s.start = .ok s₀) (hsearches : Searches s₀ s₁) :
    s₁.Aligned ∧ ∃ s₂ result, s₁.step = .ok (s₂, result) ∧ (result = none → s₂.Aligned ∧
      ((∃ l, s₂.decisions = ⟨l, false⟩ :: s₁.decisions) ∨
        Flips s₁.decisions s₂.decisions)) := by
  obtain ⟨hexploring, -⟩ := exploring_start h hstart
  have hlearnt : s₀.clauses.Justified s₀.theory.network :=
    (start_eq_ok (settled_of_performAll h) hstart).1.learnt (justified_performAll h)
  obtain ⟨ds, hlives⟩ := exists_lives h hstart hsearches
  obtain ⟨⟨⟨ts, R, h₁⟩, hindexed⟩, -⟩ := hlives.invariant
  obtain ⟨s₂, result, hstep, -, -⟩ := exists_step h₁ hindexed
  refine ⟨hsearches.aligned hexploring hlearnt, s₂, result, hstep, ?_⟩
  rintro rfl
  have hnext : Searches s₀ s₂ := Relation.ReflTransGen.tail hsearches hstep
  exact ⟨hnext.aligned hexploring hlearnt,
    ((hsearches.headed hexploring hexploring.headed).step h₁ hstep).2⟩

/-- Two edges exclude each other, and the decision on the second guard was
flipped. The clauses exclude this as well, so that both levels are closed
and the first decision is flipped. -/
theorem aligned_of_searches_flipped :
    ∃ s history s₀ s₁ s₂, (ofTheory (.initial ⟨.off, false⟩) true).performAll
        [.theory (.newTimepoint ⟨0, 10⟩), .theory .newVariable, .theory .newVariable,
          .theory .newVariable, .theory (.addConditionalEdge .origin ⟨1⟩ 3 ⟨⟨0⟩, true⟩),
          .theory (.addConditionalEdge ⟨1⟩ .origin (-7) ⟨⟨1⟩, true⟩),
          .addClause (.ofList [⟨⟨0⟩, false⟩, ⟨⟨1⟩, true⟩, ⟨⟨2⟩, true⟩]),
          .addClause (.ofList [⟨⟨0⟩, false⟩, ⟨⟨1⟩, true⟩, ⟨⟨2⟩, false⟩])] = .ok (s, history) ∧
      s.start = .ok s₀ ∧ Searches s₀ s₁ ∧ s₁.step = .ok (s₂, none) ∧
      s₁.decisions = [⟨⟨⟨1⟩, false⟩, true⟩, ⟨⟨⟨0⟩, true⟩, false⟩] ∧
      s₂.decisions = [⟨⟨⟨0⟩, false⟩, true⟩] ∧ s₁.Aligned ∧ s₂.Aligned := by
  have hrun : ((ofTheory (.initial ⟨.off, false⟩) true).performAll
      [.theory (.newTimepoint ⟨0, 10⟩), .theory .newVariable, .theory .newVariable,
        .theory .newVariable, .theory (.addConditionalEdge .origin ⟨1⟩ 3 ⟨⟨0⟩, true⟩),
        .theory (.addConditionalEdge ⟨1⟩ .origin (-7) ⟨⟨1⟩, true⟩),
        .addClause (.ofList [⟨⟨0⟩, false⟩, ⟨⟨1⟩, true⟩, ⟨⟨2⟩, true⟩]),
        .addClause (.ofList [⟨⟨0⟩, false⟩, ⟨⟨1⟩, true⟩, ⟨⟨2⟩, false⟩])]).answers (fun p =>
          p.1.start.answers fun s₀ => (stepTimes (fun _ => true) 3 s₀).answers fun s₁ =>
            Decidable.decide (s₁.decisions = [⟨⟨⟨1⟩, false⟩, true⟩, ⟨⟨⟨0⟩, true⟩, false⟩]) &&
              s₁.step.answers fun q => q.2.isNone &&
                Decidable.decide (q.1.decisions = [⟨⟨⟨0⟩, false⟩, true⟩])) = true := by
    decide +kernel
  obtain ⟨⟨s, history⟩, h, hstarts⟩ := Checked.exists_of_answers hrun
  obtain ⟨s₀, hstart, hsteps⟩ := Checked.exists_of_answers hstarts
  obtain ⟨s₁, htimes, htest⟩ := Checked.exists_of_answers hsteps
  obtain ⟨hdecisions, hnext⟩ := Bool.and_eq_true_iff.mp htest
  obtain ⟨⟨s₂, result⟩, hstep, hresult⟩ := Checked.exists_of_answers hnext
  obtain ⟨hnone, hflipped⟩ := Bool.and_eq_true_iff.mp hresult
  obtain rfl : result = none := Option.isNone_iff_eq_none.mp hnone
  have hsearches := searches_of_stepTimes htimes
  obtain ⟨haligned, s₃, result, hagain, hgoesOn⟩ := aligned_of_searches h hstart hsearches
  cases hstep.symm.trans hagain
  obtain ⟨haligned₂, -⟩ := hgoesOn rfl
  exact ⟨s, history, s₀, s₁, s₂, h, hstart, hsearches, hstep, of_decide_eq_true hdecisions,
    of_decide_eq_true hflipped, haligned, haligned₂⟩

end Solver

end TemporalNetwork
