/-
What each request does, act by act.

Turns say what requests keep, and no more than that. Where it matters how
a state was reached they are too coarse: what was recorded before it was
propagated, and what was drawn when. `Act` keeps that. At the root a
request adds a timepoint, or it records one edge or the two edges of an
equivalence and commits them (`Builds`); at any level it declares a
variable, propagates, or sets a literal and propagates; and it opens and
closes levels. Only `configure` is none of these, and does nothing else.

A request makes an addition to the problem (`Enlarges`), or it is a run of
acts that leave the problem alone (`Moves`): `Stack.perform_cases`. Either
way it is a run of acts: `acts_perform`. A property of all states that can
arise is therefore proved once for each kind of act (`Upheld`), or for
additions and propagation alone if it is one of the bounds, the edges in
force and the values (`upheld_of_lasts`).
-/
import TemporalNetwork.Proofs.Theory.History

namespace TemporalNetwork

namespace Theory

variable {t t' u : Theory} {ts : List Theory} {l : Literal} {e : Edge} {f : BoundFact}
  {p q : List Theory × Theory}

-- ================================================================ building

/-- One addition to the problem, recorded and committed. -/
inductive Builds (t t' : Theory) : Prop where
  | bounded {dom : Domain} {g : ActiveGraph} {tp : Timepoint}
      (domain : Network.checkDomain dom = .ok ()) (added : t.graph.addNode tp dom = .ok g)
      (result : t' = { t with network := t.network.addBounded dom, graph := g })
  | edge {e : Edge} (commits : Commits t (t.record e) (t.ruledOutBy e) t')
  | equivalence {l : Literal} {edge negated : Edge} (hedge : edge.guard? = some l)
      (hnegated : negated.guard? = some l.negate)
      (commits : Commits t ((t.record edge).record negated)
        (((t.record edge).record negated).ruledOutFor l t.config.propagation.usesBounds) t')
  | bound {l : Literal} {f : BoundFact}
      (commits : Commits t (t.recordBound l f) ((t.recordBound l f).ruledOutFor l true) t')

/-- Each addition settles the theory. -/
theorem Builds.settles (h : Builds t t') (ht : t.Settled) : Settles t t' := by
  cases h with
  | bounded domain added result =>
      rw [result]
      exact settles_addBounded ht domain added
  | edge commits => exact commits.settles.1
  | equivalence hedge hnegated commits => exact commits.settles.1
  | bound commits => exact commits.settles.1

/-- Additions leave the options alone. -/
theorem Builds.config (h : Builds t t') : t'.config = t.config := by
  cases h with
  | bounded domain added result => rw [result]
  | edge commits => exact commits.settles.2.config
  | equivalence hedge hnegated commits => exact commits.settles.2.config
  | bound commits => exact commits.settles.2.config

-- ==================================================================== acts

/-- What is done at a time, to the theory and to the states that are
saved below it. -/
inductive Act : List Theory × Theory → List Theory × Theory → Prop where
  /-- At the root, an addition to the problem. -/
  | built {t t' : Theory} (builds : Builds t t') : Act ([], t) ([], t')
  /-- At any level, a variable without a value. -/
  | declared {t : Theory} {ts : List Theory} : Act (ts, t) (ts, t.newVariable.1)
  | advanced {t t' : Theory} {ts : List Theory} (settled : t'.Settled)
      (advances : Advances t t') : Act (ts, t) (ts, t')
  /-- A literal is set, with all that follows from it. -/
  | assigned {t t' : Theory} {ts : List Theory} {l : Literal}
      (hvar : t.hasVariable l.var = true) (settled : t'.Settled)
      (advances : Advances (t.setLiteral l) t') : Act (ts, t) (ts, t')
  | opened {t : Theory} {ts : List Theory} : Act (ts, t) (t :: ts, t.saved)
  | closed {t₀ t u : Theory} {ts : List Theory} (run : t.restoreLast = .ok u)
      (returns : Returns t₀ t u) : Act (t₀ :: ts, t) (ts, u)

/-- Acts, one after the other. -/
abbrev Acts : List Theory × Theory → List Theory × Theory → Prop := Relation.ReflTransGen Act

theorem Act.run (h : Act p q) : Acts p q := .single h

/-- Acts leave the saved states in order. -/
theorem Act.stack (h : Act p q) (hp : Stack p.1 p.2) : Stack q.1 q.2 := by
  cases h with
  | built builds => exact hp.settles (builds.settles hp.settled)
  | declared => exact (turns_newVariable hp.settled).stack hp
  | advanced settled advances => exact hp.extends advances.steps.extends settled
  | assigned hvar settled advances =>
      exact hp.extends ((extends_setLiteral _ _).trans advances.steps.extends) settled
  | opened => exact hp.saved
  | closed run returns => exact (Turn.closed returns).stack hp

theorem Acts.stack (h : Acts p q) (hp : Stack p.1 p.2) : Stack q.1 q.2 := by
  induction h with
  | refl => exact hp
  | tail _ hact ih => exact hact.stack ih

/-- Closing a level leaves the options as they are. -/
theorem config_restoreLast (h : t.restoreLast = .ok u) : u.config = t.config := by
  unfold restoreLast at h
  simp only [Checked.bind_eq_ok, Checked.pure_eq_ok] at h
  obtain ⟨⟨log, cs⟩, -, g, -, a, -, i, -, rfl⟩ := h
  obtain ⟨values, conflict, heq, -⟩ := foldl_undo cs { t with log, pending := [] }
  show (cs.foldl undo { t with log, pending := [] }).config = t.config
  rw [heq]

/-- No act changes the options. -/
theorem Act.config (h : Act p q) : q.2.config = p.2.config := by
  cases h with
  | built builds => exact builds.config
  | declared => rfl
  | advanced settled advances => exact advances.steps.sameProblem.config
  | assigned hvar settled advances =>
      exact advances.steps.sameProblem.config.trans (sameProblem_setLiteral _ _).config
  | opened => rfl
  | closed run returns => exact config_restoreLast run

theorem Acts.config (h : Acts p q) : q.2.config = p.2.config := by
  induction h with
  | refl => rfl
  | tail _ hact ih => exact hact.config.trans ih

-- =================================================================== moves

/-- An act that leaves the problem alone, in the states that are saved as
well. -/
def Move (p q : List Theory × Theory) : Prop :=
  Act p q ∧ ∀ net, (∀ u ∈ p.2 :: p.1, u.network = net) → ∀ u ∈ q.2 :: q.1, u.network = net

/-- Moves, one after the other. -/
abbrev Moves : List Theory × Theory → List Theory × Theory → Prop := Relation.ReflTransGen Move

theorem Move.run (h : Move p q) : Moves p q := .single h

theorem Moves.acts (h : Moves p q) : Acts p q := by
  induction h with
  | refl => exact .refl
  | tail _ hmove ih => exact ih.tail hmove.1

/-- An act that adds nothing is a move. -/
theorem Act.move (h : Act (ts, t) (ts, t')) (hnetwork : t'.network = t.network) :
    Move (ts, t) (ts, t') := by
  refine ⟨h, fun net hall => ?_⟩
  obtain ⟨htop, hbelow⟩ := List.forall_mem_cons.mp hall
  exact List.forall_mem_cons.mpr ⟨hnetwork.trans htop, hbelow⟩

/-- A level that is opened saves the problem as it is. -/
theorem move_opened : Move (ts, t) (t :: ts, t.saved) := by
  refine ⟨.opened, fun net hall => List.forall_mem_cons.mpr ⟨?_, hall⟩⟩
  exact (List.forall_mem_cons.mp hall).1

/-- A level that is closed was opened on the same problem. -/
theorem move_closed {t₀ : Theory} (run : t.restoreLast = .ok u) (returns : Returns t₀ t u) :
    Move (t₀ :: ts, t) (ts, u) := by
  refine ⟨.closed run returns, fun net hall => ?_⟩
  obtain ⟨-, hall⟩ := List.forall_mem_cons.mp hall
  obtain ⟨hsaved, hbelow⟩ := List.forall_mem_cons.mp hall
  exact List.forall_mem_cons.mpr ⟨returns.agrees.network.trans hsaved, hbelow⟩

/-- The states that are saved are of the same problem. -/
theorem Stack.network_eq (hts : Stack ts t) : ∀ u ∈ t :: ts, u.network = t.network := by
  induction hts with
  | root => exact List.forall_mem_singleton.mpr rfl
  | @above ts t₀ t settled extended below ih =>
      have hsame : t₀.network = t.network := extended.network.symm
      exact List.forall_mem_cons.mpr ⟨rfl, fun u hu => (ih u hu).trans hsame⟩

/-- Moves leave the problem alone. -/
theorem Moves.network (h : Moves p q) (hp : Stack p.1 p.2) : q.2.network = p.2.network := by
  have hall : ∀ u ∈ q.2 :: q.1, u.network = p.2.network := by
    induction h with
    | refl => exact hp.network_eq
    | tail _ hmove ih => exact hmove.2 _ ih
  exact hall q.2 List.mem_cons_self

-- ================================================= requests at the root

/-- What a request does to the problem: nothing if it is refused, or it
makes one addition at the root, for which it may declare a literal first.
Only an edge that is optional is two additions, one for each view. -/
inductive Enlarges (t t' : Theory) : Prop where
  | refused (same : t' = t)
  | built (root : t.level = .root) (builds : Builds t t')
  | declared (root : t.level = .root) (builds : Builds t.newVariable.1 t')
  | optional {e₁ e₂ : Edge} {t₁ : Theory} (root : t.level = .root) (split₁ : e₁.isShared = false)
      (split₂ : e₂.isShared = false) (first : Commits t (t.record e₁) (t.ruledOutBy e₁) t₁)
      (second : Commits t₁ (t₁.record e₂) (t₁.ruledOutBy e₂) t')

/-- At the root nothing is saved. -/
theorem Stack.eq_nil (hts : Stack ts t) (hroot : t.level = .root) : ts = [] := by
  apply List.eq_nil_of_length_eq_zero
  rw [← hts.depth]
  exact congrArg DecisionLevel.depth hroot

section
variable {α : Type} {r : Except Refusal α} {validation : Except Refusal Unit}
  {commit : Checked (Theory × α)} {source target : Timepoint} {weight : Int}
  {edgeResult : Except Refusal EdgeId}

/-- Additions are acts at the root, each after the other. -/
theorem Enlarges.acts (h : Enlarges t t') (hts : Stack ts t) : Acts (ts, t) (ts, t') := by
  cases h with
  | refused same => rw [same]
  | built root builds =>
      rw [hts.eq_nil root]
      exact (Act.built builds).run
  | declared root builds =>
      rw [hts.eq_nil root]
      exact Act.declared.run.trans (Act.built builds).run
  | optional root _ _ first second =>
      rw [hts.eq_nil root]
      exact (Act.built (.edge first)).run.trans (Act.built (.edge second)).run

/-- Requests that set up the problem are validated first. -/
theorem enlarges_of_attempt
    (hcommit : ∀ a, validation = .ok () → commit = .ok (t', a) → Enlarges t t')
    (h : t.attempt validation commit = .ok (t', r)) : Enlarges t t' := by
  unfold attempt at h
  cases hv : validation with
  | error refusal =>
      rw [hv] at h
      cases h
      exact .refused rfl
  | ok _ =>
      rw [hv] at h
      simp only [Checked.map_eq_ok, Prod.mk.injEq] at h
      obtain ⟨⟨t₁, a⟩, hrun, rfl, -⟩ := h
      exact hcommit a hv hrun

section
variable (ht : t.Settled)
include ht

/-- One edge without a guard. -/
theorem enlarges_addPermanentEdge
    (h : t.addPermanentEdge source target weight = .ok (t', edgeResult)) : Enlarges t t' := by
  refine enlarges_of_attempt (fun a hv hrun => ?_) h
  simp only [checks_eq_ok, checkRoot_eq_ok] at hv
  obtain ⟨hroot, hedge⟩ := hv
  exact .built hroot (.edge (commits_commitEdge ht (recordable_permanent hedge) hrun))

/-- One edge of any kind. -/
theorem enlarges_addEdge (h : t.addEdge e = .ok (t', edgeResult)) : Enlarges t t' := by
  unfold addEdge at h
  split at h
  next => exact enlarges_addPermanentEdge ht h
  next guard hg =>
    refine enlarges_of_attempt (fun a hv hrun => ?_) h
    simp only [checks_eq_ok, checkRoot_eq_ok] at hv
    obtain ⟨hroot, hliteral, hedge⟩ := hv
    exact .built hroot (.edge (commits_commitEdge ht (recordable_guarded hg hliteral hedge) hrun))

/-- One edge for each view, of which the second one is still recordable when
the first one was committed. -/
theorem enlarges_addOptionalEdge {forwardGuard backwardGuard : Literal}
    {result : Except Refusal (EdgeId × EdgeId)}
    (h : t.addOptionalEdge source target weight forwardGuard backwardGuard = .ok (t', result)) :
    Enlarges t t' := by
  refine enlarges_of_attempt (fun a hv hrun => ?_) h
  simp only [checks_eq_ok, checkRoot_eq_ok] at hv
  obtain ⟨hroot, hforward, hbackward, hedge⟩ := hv
  simp only [Checked.bind_eq_ok, Checked.pure_eq_ok, Prod.mk.injEq] at hrun
  obtain ⟨⟨t₁, id₁⟩, hfirst, ⟨t₂, id₂⟩, hsecond, rfl, rfl⟩ := hrun
  have he₁ : Recordable t ⟨source, target, weight, .directed forwardGuard .forward⟩ :=
    recordable_guarded rfl hforward hedge
  have he₂ : Recordable t ⟨source, target, weight, .directed backwardGuard .backward⟩ :=
    recordable_guarded rfl hbackward hedge
  have hcommits := commits_commitEdge ht he₁ hfirst
  have hsettles := hcommits.settles.1
  exact .optional hroot rfl rfl hcommits
    (commits_commitEdge hsettles.settled (he₂.changes hsettles.changes) hsecond)

/-- The two edges of an equivalence. -/
theorem enlarges_addReifiedEdge
    (h : t.addReifiedEdge l source target weight = .ok (t', edgeResult)) : Enlarges t t' := by
  refine enlarges_of_attempt (fun a hv hrun => ?_) h
  simp only [checks_eq_ok, checkRoot_eq_ok, checkLiteral_eq_ok, checkEdge_eq_ok,
    checkMagnitude_eq_ok] at hv
  obtain ⟨hroot, hvar, ⟨hsource, htarget, hweight⟩, hnegated⟩ := hv
  rw [recordEquivalence_eq (l := l) rfl rfl] at hrun
  simp only [Checked.bind_eq_ok, Checked.pure_eq_ok, Prod.mk.injEq] at hrun
  obtain ⟨t₁, hcommit, rfl, rfl⟩ := hrun
  have hcommits := commits_equivalence ht rfl rfl
    (recordable_conditional hsource htarget hvar hweight)
    (recordable_conditional (l := l.negate) htarget hsource hvar hnegated) hcommit
  exact .built hroot (.equivalence rfl rfl hcommits)

omit ht in
/-- A timepoint with its domain. -/
theorem enlarges_newTimepoint {dom : Domain} {result : Except Refusal Timepoint}
    (h : t.newTimepoint dom = .ok (t', result)) : Enlarges t t' := by
  refine enlarges_of_attempt (fun a hv hrun => ?_) h
  simp only [checks_eq_ok, checkRoot_eq_ok] at hv
  simp only [Checked.bind_eq_ok, Checked.pure_eq_ok, Prod.mk.injEq] at hrun
  obtain ⟨g, hg, rfl, rfl⟩ := hrun
  exact .built hv.1 (.bounded hv.2 hg rfl)

/-- A literal is bound that was there. -/
theorem enlarges_bindBound {result : Except Refusal Unit}
    (h : t.bindBound l f = .ok (t', result)) : Enlarges t t' := by
  refine enlarges_of_attempt (fun a hv hrun => ?_) h
  simp only [checks_eq_ok, checkRoot_eq_ok, checkLiteral_eq_ok] at hv
  obtain ⟨hroot, hvar, hfact⟩ := hv
  simp only [Checked.bind_eq_ok, Checked.pure_eq_ok, Prod.mk.injEq] at hrun
  obtain ⟨t₁, hcommit, rfl, -⟩ := hrun
  exact .built hroot (.bound (commits_commitBound ht hvar hfact hcommit))

/-- The literal is declared before it is bound. -/
theorem enlarges_newBoundLiteral {result : Except Refusal Literal}
    (h : t.newBoundLiteral f = .ok (t', result)) : Enlarges t t' := by
  refine enlarges_of_attempt (fun a hv hrun => ?_) h
  simp only [checks_eq_ok, checkRoot_eq_ok] at hv
  obtain ⟨hroot, hfact⟩ := hv
  simp only [newLiteral, Checked.bind_eq_ok, Checked.pure_eq_ok, Prod.mk.injEq] at hrun
  obtain ⟨t₁, hcommit, rfl, rfl⟩ := hrun
  exact .declared hroot (.bound (commits_commitBound (settles_newVariable ht).settled
    (hasVariable_newVariable t) hfact hcommit))

end

end

-- =============================================================== dispatch

/-- A literal that is set is one act, and one that is refused none. -/
theorem moves_assign {r : Except AssignError Unit} (hts : Stack ts t)
    (h : t.assign l = .ok (t', r)) : Moves (ts, t) (ts, t') := by
  by_cases hset : t.hasVariable l.var = true ∧ t.conflict = none
  · obtain ⟨hsettled, hadvances, -⟩ := advances_assign hts.settled hset.1 hset.2 h
    have hsame := (sameProblem_setLiteral t l).trans hadvances.steps.sameProblem
    exact ((Act.assigned hset.1 hsettled hadvances).move hsame.network).run
  · rw [eq_of_assign h hset]

/-- A request that sets up the problem declares a variable or makes an
addition. -/
theorem enlarges_perform {r : Request} {reply : Reply} (ht : t.Settled) (hr : r.isSetup = true)
    (h : t.perform r = .ok (t', reply)) : t' = t.newVariable.1 ∨ Enlarges t t' := by
  cases r with
  | newVariable =>
      cases h
      exact .inl rfl
  | newLiteral =>
      cases h
      exact .inl rfl
  | newTimepoint domain =>
      obtain ⟨a, hrun, -⟩ := replying_eq_ok.mp h
      exact .inr (enlarges_newTimepoint hrun)
  | addPermanentEdge source target weight =>
      obtain ⟨a, hrun, -⟩ := replying_eq_ok.mp h
      exact .inr (enlarges_addPermanentEdge ht hrun)
  | addConditionalEdge source target weight guard =>
      obtain ⟨a, hrun, -⟩ := replying_eq_ok.mp h
      exact .inr (enlarges_addEdge ht hrun)
  | addConstraint source target weight guard =>
      obtain ⟨a, hrun, -⟩ := replying_eq_ok.mp h
      cases guard with
      | none => exact .inr (enlarges_addPermanentEdge ht hrun)
      | some guard =>
          have hrun' : t.addEdge ⟨source, target, weight, .conditional guard⟩ = .ok (t', a) :=
            hrun
          exact .inr (enlarges_addEdge ht hrun')
  | addDirectedEdge source target weight guard view =>
      obtain ⟨a, hrun, -⟩ := replying_eq_ok.mp h
      exact .inr (enlarges_addEdge ht hrun)
  | addOptionalEdge source target weight forwardGuard backwardGuard =>
      obtain ⟨a, hrun, -⟩ := replying_eq_ok.mp h
      exact .inr (enlarges_addOptionalEdge ht hrun)
  | addReifiedEdge l source target weight =>
      obtain ⟨a, hrun, -⟩ := replying_eq_ok.mp h
      exact .inr (enlarges_addReifiedEdge ht hrun)
  | addMaxDelay earlier later delay =>
      obtain ⟨a, hrun, -⟩ := replying_eq_ok.mp h
      exact .inr (enlarges_addPermanentEdge ht hrun)
  -- the weight is negated first, which is no part of the addition
  | addMinDelay earlier later delay =>
      obtain ⟨a, hrun, -⟩ := replying_eq_ok.mp h
      obtain ⟨weight, -, hrun'⟩ := Checked.bind_eq_ok.mp hrun
      exact .inr (enlarges_addPermanentEdge ht hrun')
  | addBeforeEq a b =>
      obtain ⟨r, hrun, -⟩ := replying_eq_ok.mp h
      exact .inr (enlarges_addPermanentEdge ht hrun)
  | addStrictlyBefore a b =>
      obtain ⟨r, hrun, -⟩ := replying_eq_ok.mp h
      exact .inr (enlarges_addPermanentEdge ht hrun)
  | bindBound l f =>
      obtain ⟨a, hrun, -⟩ := replying_eq_ok.mp h
      exact .inr (enlarges_bindBound ht hrun)
  | newBoundLiteral f =>
      obtain ⟨a, hrun, -⟩ := replying_eq_ok.mp h
      exact .inr (enlarges_newBoundLiteral ht hrun)
  | _ => cases hr

/-- A request makes an addition to the problem or leaves it alone. Only
`configure` is neither. -/
theorem Stack.perform_cases {r : Request} {reply : Reply} (hts : Stack ts t)
    (hr : ∀ c, r ≠ .configure c) (h : t.perform r = .ok (t', reply)) :
    Enlarges t t' ∨ ∃ ts', Moves (ts, t) (ts', t') := by
  have ht := hts.settled
  have hsetup : r.isSetup = true → Enlarges t t' ∨ ∃ ts', Moves (ts, t) (ts', t') := by
    intro hsets
    rcases enlarges_perform ht hsets h with rfl | henlarges
    · exact .inr ⟨ts, (Act.declared.move rfl).run⟩
    · exact .inl henlarges
  cases r with
  | configure c => exact absurd rfl (hr c)
  | assign l =>
      obtain ⟨a, hrun, -⟩ := replying_eq_ok.mp h
      exact .inr ⟨ts, moves_assign hts hrun⟩
  | propagate =>
      obtain ⟨t₁, hrun, heq⟩ := Checked.map_eq_ok.mp h
      cases heq
      obtain ⟨hsettled, hadvances⟩ := settled_propagate ht.coherent ht.covered ht.fired hrun
      have hnetwork := hadvances.steps.sameProblem.network
      exact .inr ⟨ts, ((Act.advanced hsettled hadvances).move hnetwork).run⟩
  | pushCheckpoint =>
      obtain ⟨t₁, hrun, heq⟩ := Checked.map_eq_ok.mp h
      cases heq
      obtain ⟨-, rfl⟩ := pushCheckpoint_eq_ok.mp hrun
      exact .inr ⟨_, move_opened.run⟩
  | backtrack level =>
      obtain ⟨a, hrun, -⟩ := replying_eq_ok.mp h
      obtain ⟨ts', hmoves, -⟩ := runs_backtrack move_closed hts hrun
      exact .inr ⟨ts', hmoves⟩
  | popTo level =>
      obtain ⟨a, hrun, -⟩ := replying_eq_ok.mp h
      exact .inr (runs_popTo move_closed move_opened hts hrun)
  | restoreLast =>
      obtain ⟨t₁, hrun, heq⟩ := Checked.map_eq_ok.mp h
      cases heq
      obtain ⟨t₀, rest, rfl, hreturns, -⟩ := hts.restoreLast hrun
      exact .inr ⟨rest, (move_closed hrun hreturns).run⟩
  | reset =>
      obtain ⟨t₁, hrun, heq⟩ := Checked.map_eq_ok.mp h
      cases heq
      exact .inr ⟨_, (runs_restore move_closed hts hrun).1⟩
  | _ => exact hsetup rfl

/-- A request is a run of acts, unless it changes the options. -/
theorem acts_perform {r : Request} {reply : Reply} (hts : Stack ts t)
    (hr : ∀ c, r ≠ .configure c) (h : t.perform r = .ok (t', reply)) :
    ∃ ts', Acts (ts, t) (ts', t') := by
  rcases hts.perform_cases hr h with henlarges | ⟨ts', hmoves⟩
  · exact ⟨ts, henlarges.acts hts⟩
  · exact ⟨ts', hmoves.acts⟩

/-- Changing the options changes nothing else. -/
theorem stack_configure (hts : Stack ts t) (c : Config) : Stack ts { t with config := c } :=
  (turns_configure hts.settled c).stack hts

-- ============================================== what is upheld by all acts

section
variable {options : Config → Prop} {P : Theory → Prop}

/-- Each act keeps the property, in the states that are saved as well,
under options of a kind. -/
def Upheld (options : Config → Prop) (P : Theory → Prop) : Prop :=
  ∀ p q, Act p q → Stack p.1 p.2 → options p.2.config → (∀ u ∈ p.2 :: p.1, P u) →
    ∀ u ∈ q.2 :: q.1, P u

/-- The problem, the bounds and the edges in force are as they were, and no
value was lost. -/
structure Lasts (t t' : Theory) : Prop where
  network : t'.network = t.network
  value : t'.graph.value = t.graph.value
  active (id : EdgeId) : t'.graph.isActive id = t.graph.isActive id
  activated : t'.graph.activated = t.graph.activated
  kept (l : Literal) : t.value l ≠ none → t'.value l ≠ none

/-- Where the graph stays as it is, and values are kept, all lasts. -/
theorem lasts_of_graph (hnetwork : t'.network = t.network) (hgraph : t'.graph = t.graph)
    (hkept : ∀ l, t.value l ≠ none → t'.value l ≠ none) : Lasts t t' :=
  ⟨hnetwork, by rw [hgraph], fun id => by rw [hgraph], by rw [hgraph], hkept⟩

theorem lasts_newVariable (t : Theory) : Lasts t t.newVariable.1 := by
  refine lasts_of_graph rfl rfl fun l hl => ?_
  rwa [value_congr (extended_newVariable t).known]

theorem lasts_setLiteral (hvar : t.hasVariable l.var = true) : Lasts t (t.setLiteral l) :=
  lasts_of_graph (sameProblem_setLiteral t l).network (graph_setLiteral t l)
    fun _ hm => value_ne_none_of_subset (trueLiterals_subset_setLiteral hvar) hm

theorem lasts_saved (t : Theory) : Lasts t t.saved :=
  ⟨rfl, ActiveGraph.value_withLog _ _, fun _ => rfl, rfl, fun _ hl => hl⟩

/-- What was saved lasts when it is gone back to. -/
theorem Returns.lasts {t₀ : Theory} (h : Returns t₀ t u) : Lasts t₀ u := by
  refine lasts_of_graph h.agrees.network h.agrees.graph fun l hl => ?_
  rwa [value_congr h.agrees.known]

/-- What rests on the bounds, the edges in force and the values is upheld
if additions and propagation keep it. A level is closed onto the state in
which it was opened. -/
theorem upheld_of_lasts (hlasts : ∀ t t', Lasts t t' → t.Coherent → P t → P t')
    (hbuilds : ∀ t t', Builds t t' → t.Settled → options t.config → P t → P t')
    (hadvances : ∀ t t', Advances t t' → t.Coherent → options t.config → P t → P t') :
    Upheld options P := by
  intro p q hact hp hoptions hall
  have ht := hp.settled
  obtain ⟨htop, hbelow⟩ := List.forall_mem_cons.mp hall
  cases hact with
  | built builds => exact List.forall_mem_singleton.mpr (hbuilds _ _ builds ht hoptions htop)
  | declared =>
      exact List.forall_mem_cons.mpr
        ⟨hlasts _ _ (lasts_newVariable _) ht.coherent htop, hbelow⟩
  | advanced settled advances =>
      exact List.forall_mem_cons.mpr ⟨hadvances _ _ advances ht.coherent hoptions htop, hbelow⟩
  | assigned hvar settled advances =>
      have hset := hlasts _ _ (lasts_setLiteral hvar) ht.coherent htop
      refine List.forall_mem_cons.mpr
        ⟨hadvances _ _ advances (ht.coherent.setLiteral hvar) ?_ hset, hbelow⟩
      rw [(sameProblem_setLiteral _ _).config]
      exact hoptions
  | opened =>
      exact List.forall_mem_cons.mpr ⟨hlasts _ _ (lasts_saved _) ht.coherent htop, hall⟩
  | closed run returns =>
      obtain ⟨hsaved, hrest⟩ := List.forall_mem_cons.mp hbelow
      cases hp with
      | above settled extended below =>
          exact List.forall_mem_cons.mpr
            ⟨hlasts _ _ returns.lasts below.settled.coherent hsaved, hrest⟩

/-- The options are of the kind, and all states have the property. -/
structure Upholds (options : Config → Prop) (P : Theory → Prop) (ts : List Theory) (t : Theory) :
    Prop where
  stack : Stack ts t
  options : options t.config
  all : ∀ u ∈ t :: ts, P u

theorem Upholds.act (h : Upholds options P p.1 p.2) (hP : Upheld options P) (hact : Act p q) :
    Upholds options P q.1 q.2 :=
  ⟨hact.stack h.stack, hact.config ▸ h.options, hP p q hact h.stack h.options h.all⟩

/-- What each act upholds all acts uphold. -/
theorem Upholds.acts (h : Upholds options P p.1 p.2) (hP : Upheld options P) (hacts : Acts p q) :
    Upholds options P q.1 q.2 := by
  induction hacts with
  | refl => exact h
  | tail _ hact ih => exact ih.act hP hact

/-- What each act keeps is kept by requests, if it does not speak of the
options. -/
theorem Upholds.perform (h : Upholds options P ts t) (hP : Upheld options P)
    (hconfigure : ∀ u c, P u → P { u with config := c }) {r : Request} {reply : Reply}
    (hr : ∀ c, r = .configure c → options c) (hrun : t.perform r = .ok (t', reply)) :
    ∃ ts', Upholds options P ts' t' := by
  by_cases hc : ∃ c, r = .configure c
  · obtain ⟨c, rfl⟩ := hc
    cases hrun
    obtain ⟨htop, hbelow⟩ := List.forall_mem_cons.mp h.all
    exact ⟨ts, stack_configure h.stack c, hr c rfl,
      List.forall_mem_cons.mpr ⟨hconfigure t c htop, hbelow⟩⟩
  · obtain ⟨ts', hacts⟩ := acts_perform h.stack (fun c heq => hc ⟨c, heq⟩) hrun
    exact ⟨ts', h.acts (p := (ts, t)) (q := (ts', t')) hP hacts⟩

/-- And so do requests, which are runs of acts but for changes of the options.
-/
theorem Upholds.performAll (h : Upholds options P ts t) (hP : Upheld options P)
    (hconfigure : ∀ u c, P u → P { u with config := c }) {rs : List Request}
    (hrs : ∀ c, .configure c ∈ rs → options c) (hrun : t.performAll rs = .ok t') :
    ∃ ts', Upholds options P ts' t' := by
  induction rs generalizing ts t with
  | nil =>
      cases hrun
      exact ⟨ts, h⟩
  | cons r rs ih =>
      unfold Theory.performAll at hrun
      rw [Checked.bind_eq_ok] at hrun
      obtain ⟨⟨t₁, reply⟩, hfirst, hrest⟩ := hrun
      obtain ⟨ts₁, h₁⟩ := h.perform hP hconfigure
        (fun c hc => hrs c (hc ▸ List.mem_cons_self)) hfirst
      exact ih h₁ (fun c hc => hrs c (List.mem_cons_of_mem r hc)) hrest

/-- What holds of the theory of the origin alone and is kept by each act
holds of every state that can arise. -/
theorem upholds_of_performAll (hP : Upheld options P)
    (hconfigure : ∀ u c, P u → P { u with config := c }) {c : Config} {rs : List Request}
    (hc : options c) (hinitial : P (initial c)) (hrs : ∀ c', .configure c' ∈ rs → options c')
    (hrun : (initial c).performAll rs = .ok t) : ∃ ts, Upholds options P ts t := by
  have hstack : Stack [] (initial c) := .root (settled_initial c) (atRoot_initial c)
  have hstart : Upholds options P [] (initial c) :=
    ⟨hstack, hc, List.forall_mem_singleton.mpr hinitial⟩
  exact hstart.performAll hP hconfigure hrs hrun

end

end Theory

end TemporalNetwork
